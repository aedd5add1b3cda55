import OpenSplice.Kernel.Reader.Access

/-!
# Insertion of messages

The functions of `v_dataReaderInstance.c` by which a message becomes a sample of an instance:
`instanceInsert` (`v_dataReaderInstanceInsert`) with the ways into the history and into the pending
samples, `flushPending`, and `checkMinimumSeparation` for a sample that the time based filter has
held back.
-/

set_option autoImplicit false

namespace OpenSplice.Kernel

namespace InstanceState

variable (qos : ReaderQos)

/-- `hasValidSampleAccessible`. -/
def hasValidSampleAccessible (inst : Instance) : Bool := 0 < inst.historySampleCount

/-- `v_readerSampleSetState (sample, L_VALIDDATA); _this->historySampleCount++` for a write. -/
def countValid (message : Message) (inst : Instance) : Instance :=
  { inst with historySampleCount := inst.historySampleCount + if message.state.write then 1 else 0 }

/-! ### A sample that is not the newest one -/

def lateUnregister (older newer : List Sample) (inst : Instance) : List Sample × Instance :=
  match older.getLast? with
  | none => (newer, inst)
  | some prev =>
    if ¬prev.message.state.disposed ∨ (prev.message.state.disposed ∧ prev.message.state.unregister)
    then
      (newer.map fun s ↦ { s with noWritersCount := s.noWritersCount + 1 },
        { inst with
          noWritersCount := inst.noWritersCount + 1
          new := true
          stateChanged := true
          trigger := inst.trigger || hasValidSampleAccessible inst })
    else (newer, inst)

def lateDispose (newer : List Sample) (inst : Instance) : List Sample × Instance :=
  let unregistered := newer.head?.any fun next ↦
    next.message.state.unregister && !next.message.state.disposed
  let lost : ℤ := if unregistered then 1 else 0
  (newer.map fun s ↦ { s with
      disposeCount := s.disposeCount + 1, noWritersCount := s.noWritersCount - lost },
    { inst with
      disposeCount := inst.disposeCount + 1
      noWritersCount := inst.noWritersCount - lost
      new := true
      stateChanged := true
      trigger := inst.trigger || hasValidSampleAccessible inst })

def lateArrival (message : Message) (older newer : List Sample) (inst : Instance) :
    List Sample × Instance :=
  let out := if message.state.unregister then lateUnregister older newer inst else (newer, inst)
  if message.state.disposed then lateDispose out.1 out.2 else out

def withoutData (message : Message) : Bool :=
  if message.state.disposed then !message.state.write else message.state.unregister

/-- The first part of `updateIntermediateInstanceAndSampleState`, before a sample without data is
removed again. -/
def linkIntermediate (message : Message) (older : List Sample) (sample : Sample)
    (newer : List Sample) (st : InstanceState) : InstanceState :=
  let out := lateArrival message older newer (countValid message st.inst)
  { reader := { st.reader with notReadCount :=
      st.reader.notReadCount + if withoutData message || message.state.write then 1 else 0 }
    inst := { out.2 with history :=
      older ++ { sample with validData := sample.validData || message.state.write } :: out.1 } }

/-- `updateIntermediateInstanceAndSampleState`, for a sample between older and newer ones. -/
def updateIntermediate (message : Message) (older : List Sample) (sample : Sample)
    (newer : List Sample) (st : InstanceState) : InstanceState :=
  let st₁ := linkIntermediate message older sample newer st
  if withoutData message then
    sampleRemove older { sample with validData := sample.validData || message.state.write }
      (lateArrival message older newer (countValid message st.inst)).1 true st₁
  else st₁

/-! ### The newest sample -/

def revive (message : Message) (inst : Instance) : Instance :=
  let inst₁ := { inst with new := inst.new || (inst.empty && qos.userKey), empty := false }
  let inst₂ :=
    if inst₁.noWriters then
      { inst₁ with
        noWritersCount := inst₁.noWritersCount + 1
        noWriters := !(decide (0 < inst₁.liveliness) || qos.userKey)
        new := true
        stateChanged := true }
    else inst₁
  if inst₂.disposed ∧ message.state.write then
    { inst₂ with
      disposeCount := inst₂.disposeCount + 1, disposed := false, new := true, stateChanged := true }
  else inst₂

def applyFlags (message : Message) (inst : Instance) : Instance :=
  let inst₁ := { inst with
    lastInsertionTime :=
      if message.state.disposed || message.state.unregister then 0 else message.allocTime }
  let inst₂ :=
    if message.state.disposed ∧ ¬inst₁.disposed then
      { inst₁ with
        disposed := true
        stateChanged := true
        replaced := inst₁.replaced || message.state.replaced
        trigger := inst₁.trigger ||
          ((message.state.write || qos.enableInvalidSamples || hasValidSampleAccessible inst₁) &&
            !(!decide message.writerGID.isValid && qos.autopurgeDisposeAll)) }
    else inst₁
  let inst₃ :=
    if message.state.unregister ∧ ¬inst₂.disposed then
      { inst₂ with
        noWriters := true
        stateChanged := true
        trigger := inst₂.trigger || (qos.enableInvalidSamples || hasValidSampleAccessible inst₂) }
    else inst₂
  { inst₃ with trigger := inst₃.trigger || message.state.write }

/-- The last part of `updateFinalInstanceAndSampleState`: an invalid sample just before the new one
is not needed any more, and hands its unread state over. -/
def dropInvalid (older : List Sample) (sample : Sample) (newer : List Sample) (st : InstanceState) :
    InstanceState :=
  match older.getLast? with
  | none => st
  | some prev =>
    if prev.validData then st
    else
      let st₁ := sampleRemove older.dropLast prev (sample :: newer) true st
      if sample.read && !prev.read then
        { reader := { st₁.reader with notReadCount := st₁.reader.notReadCount + 1 }
          inst := { st₁.inst with
            history := older.dropLast ++ { sample with read := false } :: newer } }
      else st₁

def settleNewest (message : Message) (sample : Sample) (st : InstanceState) : Sample :=
  let inst := revive qos message (countValid message st.inst)
  { sample with
    validData := sample.validData || message.state.write
    disposeCount := inst.disposeCount
    noWritersCount := inst.noWritersCount
    read := sample.read || !(applyFlags qos message inst).trigger }

/-- The first part of `updateFinalInstanceAndSampleState`. -/
def linkNewest (message : Message) (older : List Sample) (sample : Sample) (newer : List Sample)
    (st : InstanceState) : InstanceState :=
  let inst := applyFlags qos message (revive qos message (countValid message st.inst))
  { reader := { st.reader with
      notReadCount := st.reader.notReadCount + if inst.trigger then 1 else 0 }
    inst := { inst with history := older ++ settleNewest qos message sample st :: newer } }

/-- `updateFinalInstanceAndSampleState`, for a sample between the older and the newer ones. -/
def updateFinal (message : Message) (older : List Sample) (sample : Sample) (newer : List Sample)
    (st : InstanceState) : InstanceState :=
  dropInvalid older (settleNewest qos message sample st) newer
    (linkNewest qos message older sample newer st)

/-- `MakeSampleAvailable`, without the notification. -/
def makeSampleAvailable (st : InstanceState) : InstanceState :=
  if st.inst.trigger then
    if qos.notReadTriggerThreshold ≤ 0 ∨
        st.reader.notReadTriggerCount = qos.notReadTriggerThreshold then
      { reader := { st.reader with notReadTriggerCount := 0 }
        inst := { st.inst with trigger := false } }
    else
      { st with reader := { st.reader with
          notReadTriggerCount := st.reader.notReadTriggerCount + 1 } }
  else st

/-! ### Into the history -/

def olderThan (message : Message) (sample : Sample) : Bool :=
  messageCompare message sample.message = .lt

/-- `FindHistoryPosition`: the samples before and behind the position. -/
def findHistoryPosition (message : Message) (history : List Sample) :
    DataReaderResult × List Sample × List Sample :=
  let same (samples : List Sample) : Bool :=
    samples.getLast?.any fun s ↦ messageCompare message s.message = .eq
  if qos.bySourceTime then
    let older := history.rdropWhile (olderThan message)
    let newer := history.rtakeWhile (olderThan message)
    let depthBookmark : ℤ := newer.countP fun s ↦ s.message.state.write
    let result : DataReaderResult :=
      if same older then .duplicateSample
      else if qos.history = .keepLast ∧ qos.depth ≤ depthBookmark then .outdated
      else if qos.history = .keepAll ∧ limitReached qos.maxSamplesPerInstance depthBookmark then
        .sampleLost
      else .inserted
    (result, older, newer)
  else (if same history then .duplicateSample else .inserted, history, [])

/-- `ClaimHistorySample`: the oldest samples are pushed out, as long as they are older than the
insertion point. -/
def claimHistorySample (newer : List Sample) : List Sample → InstanceState →
    List Sample × InstanceState
  | [], st => ([], st)
  | s :: older, st =>
    if qos.depth ≤ st.inst.historySampleCount then
      claimHistorySample newer older (sampleRemove [] s (older ++ newer) true st)
    else (s :: older, st)

def makeRoom (message : Message) (heldBack : Bool) (older newer : List Sample)
    (st : InstanceState) : List Sample × InstanceState :=
  if message.state.write ∧ qos.history = .keepLast ∧ ¬heldBack then
    claimHistorySample qos newer older st
  else (older, st)

/-- The sample that the time based filter holds back, with the samples before and behind it: the
newest one with `L_INMINSEPTIME`. -/
def findHeldBack (history : List Sample) : Option (List Sample × Sample × List Sample) :=
  let upTo := history.rdropWhile fun s ↦ !s.inMinSepTime
  upTo.getLast?.map fun s ↦ (upTo.dropLast, s, history.rtakeWhile fun s ↦ !s.inMinSepTime)

def filterable (message : Message) : Bool :=
  !(message.state.disposed || message.state.unregister) && qos.minSeparation ≠ 0

def replaceHeldBack (message : Message) (st : InstanceState) : DataReaderResult × InstanceState :=
  if filterable qos message && st.inst.inMinSepTime then
    match findHeldBack st.inst.history with
    | none => (.inserted, st)
    | some (older, s, newer) =>
      if messageCompare message s.message = .gt then
        (.inserted, releaseResource { st with inst := { st.inst with history := older ++ newer } })
      else (.outdated, st)
  else (.inserted, st)

def tooEarly (message : Message) (inst : Instance) : Bool :=
  filterable qos message && message.allocTime < inst.lastInsertionTime + qos.minSeparation

/-- The last part of `InsertHistory`: the new sample is linked, and it is made available unless it
is held back. -/
def linkSample (message : Message) (heldBack : Bool) (older newer : List Sample) (sample : Sample)
    (st : InstanceState) : InstanceState :=
  if heldBack then
    { st with inst := { st.inst with
      history := older ++ { sample with inMinSepTime := true } :: newer, inMinSepTime := true } }
  else
    let st₁ := { st with inst := { st.inst with inMinSepTime := false } }
    let st₂ :=
      if newer.isEmpty then updateFinal qos message older sample newer st₁
      else updateIntermediate message older sample newer st₁
    if st.reader.prepareDelete || (!newer.isEmpty && withoutData message) then st₂
    else makeSampleAvailable qos st₂

/-- The part of `InsertHistory` after the filter. -/
def insertAt (clock : Clock) (message : Message) (context : MessageContext) (heldBack : Bool)
    (st : InstanceState) : DataReaderResult × InstanceState :=
  let pos := findHistoryPosition qos message st.inst.history
  if pos.1 ≠ .inserted then (pos.1, st)
  else
    let pushed := makeRoom qos message heldBack pos.2.1 pos.2.2 st
    let claim := claimResource qos message context pushed.2
    if claim.1 ≠ .inserted then claim
    else
      let new := sampleNew qos clock message claim.2
      (.inserted, linkSample qos message heldBack pushed.1 pos.2.2 new.1 new.2)

/-- `InsertHistory`. -/
def insertHistory (clock : Clock) (message : Message) (context : MessageContext)
    (st : InstanceState) : DataReaderResult × InstanceState :=
  let out := replaceHeldBack qos message st
  if out.1 ≠ .inserted then out
  else if tooEarly qos message out.2.inst then
    if ¬qos.reliable then (.filteredOut, out.2)
    else insertAt qos clock message context true out.2
  else insertAt qos clock message context false out.2

/-! ### Into the pending samples -/

def withPending (pending : List Sample) (st : InstanceState) : InstanceState :=
  { st with inst := { st.inst with pending := pending } }

/-- The loop of `InsertPending` that makes room: the oldest samples are freed. -/
def pushOutPending (limit : ℤ) : List Sample → InstanceState → List Sample × InstanceState
  | [], st => ([], st)
  | s :: samples, st =>
    if limit ≤ st.inst.resourceSampleCount then
      pushOutPending limit samples (if s.message.state.write then releaseResource st else st)
    else (s :: samples, st)

def makePendingRoom (limit : ℤ) (older newer : List Sample) (st : InstanceState) :
    List Sample × List Sample × InstanceState :=
  let out := pushOutPending limit older st
  if out.1.isEmpty then ([], pushOutPending limit newer out.2) else (out.1, newer, out.2)

/-- The last part of `InsertPending`: the new sample behind the older ones. -/
def linkPending (clock : Clock) (message : Message) (context : MessageContext)
    (older newer : List Sample) (st : InstanceState) : DataReaderResult × InstanceState :=
  let claim := claimResource qos message context (st.withPending (older ++ newer))
  if claim.1 ≠ .inserted then claim
  else
    let new := sampleNew qos clock message claim.2
    (.filteredOut, new.2.withPending (older ++ new.1 :: newer))

/-- `InsertPending`. -/
def insertPending (clock : Clock) (message : Message) (context : MessageContext)
    (st : InstanceState) : DataReaderResult × InstanceState :=
  let pending := st.inst.pending
  let older := if qos.bySourceTime then pending.rdropWhile (olderThan message) else pending
  let newer := if qos.bySourceTime then pending.rtakeWhile (olderThan message) else []
  if qos.bySourceTime ∧
      (older.getLast?.any fun s ↦ messageCompare message s.message = .eq) = true then
    (.duplicateSample, st)
  else
    match qos.maxSamplesPerInstance with
    | none => linkPending qos clock message context older newer st
    | some limit =>
      if message.state.write ∧ limit ≤ st.inst.resourceSampleCount then
        if older.isEmpty then
          if pending.isEmpty then (.instanceFull, st)
          else (if qos.history = .keepLast then .outdated else .sampleLost, st)
        else if qos.history = .keepLast then
          let out := makePendingRoom limit older newer st
          linkPending qos clock message context out.1 out.2.1 out.2.2
        else linkPending qos clock message context older newer st
      else linkPending qos clock message context older newer st

def consumedBefore (message : Message) (inst : Instance) : Option DataReaderResult :=
  if qos.bySourceTime then
    match compareMessageToBookmark message inst.lastConsumed with
    | .eq => some .duplicateSample
    | .lt => some .sampleLost
    | .gt => none
  else none

/-- `InsertPendingSample`: a pending sample is put into the history. -/
def insertPendingSample (sample : Sample) (st : InstanceState) :
    DataReaderResult × InstanceState :=
  match consumedBefore qos sample.message st.inst with
  | some result => (result, st)
  | none =>
    let message := sample.message
    let pos := findHistoryPosition qos message st.inst.history
    if pos.1 ≠ .inserted then (pos.1, st)
    else
      let pushed := makeRoom qos message false pos.2.1 pos.2.2 st
      let st₁ :=
        if pos.2.2.isEmpty then updateFinal qos message pushed.1 sample pos.2.2 pushed.2
        else updateIntermediate message pushed.1 sample pos.2.2 pushed.2
      (.inserted,
        if st.reader.prepareDelete || (!pos.2.2.isEmpty && withoutData message) then st₁
        else makeSampleAvailable qos st₁)

/-- The loop of `v_dataReaderInstanceFlushPending`. -/
def flushLoop : List Sample → InstanceState → InstanceState
  | [], st => st
  | s :: pending, st =>
    let out := insertPendingSample qos s (st.withPending pending)
    flushLoop pending
      (if out.1 ≠ .inserted ∧ s.message.state.write then releaseResource out.2 else out.2)

/-- `v_dataReaderInstanceFlushPending`. -/
def flushPending (st : InstanceState) : InstanceState := flushLoop qos st.inst.pending st

/-! ### Insertion -/

def goesPending (context : MessageContext) (st : InstanceState) : Prop :=
  context ≠ .transactionFlush ∧ qos.groupOrderedNonCoherent = true ∧ st.reader.accessBusy = true

instance (context : MessageContext) (st : InstanceState) :
    Decidable (goesPending qos context st) :=
  inferInstanceAs (Decidable (_ ∧ _))

/-- The first part of `InsertSample`. -/
def placeSample (clock : Clock) (message : Message) (context : MessageContext)
    (st : InstanceState) : DataReaderResult × InstanceState :=
  match consumedBefore qos message st.inst with
  | some result => (result, st)
  | none =>
    if goesPending qos context st then insertPending qos clock message context st
    else insertHistory qos clock message context st

/-- `InsertSample`. -/
def insertSample (clock : Clock) (message : Message) (context : MessageContext)
    (st : InstanceState) : DataReaderResult × InstanceState :=
  let out := placeSample qos clock message context st
  (out.1,
    if out.1 ≠ .inserted ∧ context = .transactionFlush ∧ message.state.write then
      releaseResource out.2
    else out.2)

/-- The loop of `CheckAndProcessReplacePolicyMarker`. The dispose it is to stop behind has lost its
successor by then, so it goes on to the newest sample. -/
def takeReplaced : List Sample → List Sample → InstanceState → InstanceState
  | [], _, st => st
  | s :: newer, older, st =>
    let out := sampleTake qos none older s newer st
    let reset : Bookmark := ⟨0, .nil, 0, false⟩
    let st₁ :=
      if newer.isEmpty ∧ compareMessageToBookmark s.message out.2.1.inst.lastConsumed ≠ .gt then
        { out.2.1 with inst := { out.2.1.inst with lastConsumed := reset } }
      else out.2.1
    takeReplaced newer (older ++ out.1.toList) st₁

/-- `CheckAndProcessReplacePolicyMarker`, for an instance with the marker. -/
def processReplaceMarker (message : Message) (st : InstanceState) : InstanceState :=
  if message.state.replaced then
    let st₁ := { st with inst := { st.inst with replaced := false } }
    if st.inst.history.any fun s ↦ s.message.state.disposed && s.message.state.replaced then
      takeReplaced qos st.inst.history [] st₁
    else st₁
  else st

def testOwnership (message : Message) (context : MessageContext) (inst : Instance) :
    OwnershipResult × Instance :=
  match message.qos with
  | none => (.owner, inst)
  | some msgQos =>
    if context ≠ .getHistory ∧ msgQos.exclusive then
      let out := determineOwnershipByStrength inst.owner
        ⟨message.writerGID, msgQos.strength, true⟩ message.state
      (out.1, { inst with owner := out.2 })
    else (.owner, inst)

/-- The first part of `v_dataReaderInstanceInsert`, which is also done for the messages of a
transaction. -/
def prepareInsert (message : Message) (context : MessageContext) (st : InstanceState) :
    OwnershipResult × InstanceState :=
  let st₁ := if st.inst.replaced then processReplaceMarker qos message st else st
  let out := testOwnership message context st₁.inst
  (out.1, { st₁ with inst := { out.2 with
    liveliness := out.2.liveliness + if message.state.register then 1 else 0 } })

/-- The last part of `v_dataReaderInstanceInsert`. -/
def insertPrepared (clock : Clock) (message : Message) (context : MessageContext)
    (ownership : OwnershipResult) (st : InstanceState) : DataReaderResult × InstanceState :=
  if message.state.register then (.inserted, st)
  else if message.state.unregister ∧ st.inst.liveliness = 0 then (.inserted, st)
  else
    let st₁ :=
      if message.state.unregister then
        { st with inst := { st.inst with liveliness := st.inst.liveliness - 1 } }
      else st
    if message.state.unregister ∧ 0 < st₁.inst.liveliness ∧ ¬message.state.disposed then
      (.inserted, st₁)
    else if st.reader.prepareDelete then (.inserted, st₁)
    else if ownership = .incompatibleQos ∨ ownership = .notOwner then (.notOwner, st₁)
    else insertSample qos clock message context st₁

/-- `v_dataReaderInstanceInsert`, for a message that does not go to a transaction. -/
def instanceInsert (clock : Clock) (message : Message) (context : MessageContext)
    (st : InstanceState) : DataReaderResult × InstanceState :=
  let out := prepareInsert qos message context st
  insertPrepared qos clock message context out.1 out.2

/-- The sample that is to become available has itself been pushed out to make room: it is not in the
history any more when the instance is brought up to date with it. -/
def exposeRemoved (sample : Sample) (newer : List Sample) (st : InstanceState) : InstanceState :=
  let out := claimHistorySample qos [] (sample :: newer) st
  let st₁ := updateFinal qos sample.message [] { sample with inMinSepTime := false } [] out.2
  { st₁ with inst := { st₁.inst with history := out.1 } }

/-- The sample that has been held back is made available. With `KEEP_LAST` room is made for it, by
a loop that does not stop at the sample itself. -/
def exposeSample (older : List Sample) (sample : Sample) (newer : List Sample)
    (st : InstanceState) : InstanceState :=
  if qos.history = .keepLast then
    let pushed := claimHistorySample qos (sample :: newer) older st
    if qos.depth ≤ pushed.2.inst.historySampleCount then exposeRemoved qos sample newer pushed.2
    else
      updateFinal qos sample.message pushed.1 { sample with inMinSepTime := false } newer pushed.2
  else updateFinal qos sample.message older { sample with inMinSepTime := false } newer st

/-- The last part of `v_dataReaderInstanceCheckMinimumSeparation`. -/
def makeAvailable (now : ℤ) (older : List Sample) (sample : Sample) (newer : List Sample)
    (st : InstanceState) : InstanceState :=
  let st₁ := exposeSample qos older sample newer st
  makeSampleAvailable qos { st₁ with inst := { st₁.inst with lastInsertionTime := now } }

def expired (clock : Clock) (sample : Sample) : Bool := sample.expiryTime.any (· ≤ clock.timeE)

/-- `v_dataReaderInstanceCheckMinimumSeparation`, for an instance of the minimum separation list. -/
def checkMinimumSeparation (clock : Clock) (now : ℤ) (st : InstanceState) : InstanceState :=
  match findHeldBack st.inst.history with
  | none => { st with inst := { st.inst with inMinSepTime := false } }
  | some (older, sample, newer) =>
    if now - st.inst.lastInsertionTime < qos.maximumSeparationTime then st
    else
      let st₁ :=
        if expired clock sample then sampleRemove older sample newer false st
        else makeAvailable qos now older sample newer st
      { st₁ with inst := { st₁.inst with inMinSepTime := false } }

end InstanceState

end OpenSplice.Kernel
