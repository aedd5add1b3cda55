import OpenSplice.Kernel.Reader.Model
import OpenSplice.Library.LinkedList

/-!
# The transient store of a group instance

`v_groupInstanceInsert` stores a message among the samples of an instance of a group. The samples
are a doubly linked list in memory, and the instance counts its writes and disposes. With the order
by source timestamp the place of a message is searched from the newest sample (`findPosition`), and
a write pushes out the oldest samples while the history is full (`pushOut`), among them perhaps the
one that the place was found at. `insertInto` does the same to a list.

Following a link to a sample that is not there gives `none`, as does a loop that goes on for longer
than there are samples. Registrations, the lifespan administration, transactions and the mark of
historical data are left out.
-/

set_option autoImplicit false

namespace OpenSplice.Kernel

open OpenSplice.Library.LinkedList

/-- The policies of the topic that a group reads: the order of its samples and its durability
service. -/
structure GroupQos where
  bySourceTime : Bool
  history : HistoryKind
  depth : ℤ
  maxSamples : Option ℤ
  maxSamplesPerInstance : Option ℤ
  /-- `v_groupIsDurable(group) && !v_groupIsOnRequest(group)`. -/
  countsSamples : Bool
deriving DecidableEq

/-- `v_groupInstance`, with the number of samples of its group. -/
structure GroupInstance where
  samples : Memory ℕ Message
  /-- The address of the next sample. -/
  fresh : ℕ
  oldest : Option ℕ
  newest : Option ℕ
  empty : Bool
  disposed : Bool
  count : ℤ
  historySampleCount : ℤ
  resourceSampleCount : ℤ
  groupSampleCount : ℤ

inductive GroupWriteResult
  | success
  | successNotStored
  | rejected
  | duplicate
deriving DecidableEq

/-- `v_messageCheckDuplicate`. -/
def messageCheckDuplicate (m₁ m₂ : Message) : Bool :=
  m₁ = m₂ ||
    (m₁.sequenceNumber == m₂.sequenceNumber && gidCompare m₁.writerGID m₂.writerGID == .eq &&
      !m₁.state.implicit && !m₂.state.implicit)

/-- The message is neither a registration nor a mere unregistration, which are not stored. -/
def Message.isStored (m : Message) : Bool :=
  !(m.state.register || (m.state.unregister && !m.state.disposed))

namespace GroupInstance

def new (groupSampleCount : ℤ) : GroupInstance where
  samples := fun _ ↦ none
  fresh := 0
  oldest := none
  newest := none
  empty := true
  disposed := false
  count := 0
  historySampleCount := 0
  resourceSampleCount := 0
  groupSampleCount := groupSampleCount

/-- `v_groupInstanceClaimResource`. -/
def claimResource (qos : GroupQos) (message : Message) (inst : GroupInstance) :
    Option GroupInstance :=
  if message.state.write && qos.countsSamples then
    if qos.maxSamples.any (· ≤ inst.groupSampleCount) then none
    else if qos.maxSamplesPerInstance.any (· ≤ inst.resourceSampleCount) then none
    else some { inst with
      resourceSampleCount := inst.resourceSampleCount + 1
      groupSampleCount := inst.groupSampleCount + 1 }
  else some inst

inductive Position
  | duplicate
  /-- Behind this sample, or before all of them, with so many writes that are newer. -/
  | behind (ptr : Option ℕ) (depthBookmark : ℤ)

def findPosition (samples : Memory ℕ Message) (message : Message) :
    ℕ → Option ℕ → ℤ → Option Position
  | _, none, depthBookmark => some (.behind none depthBookmark)
  | 0, some _, _ => none
  | fuel + 1, some ptr, depthBookmark => do
    let sample ← samples ptr
    match messageCompare message sample.value with
    | .eq => some .duplicate
    | .lt =>
      findPosition samples message fuel sample.older
        (if sample.value.state.write then depthBookmark + 1 else depthBookmark)
    | .gt => some (.behind (some ptr) depthBookmark)

def findDuplicate (samples : Memory ℕ Message) (message : Message) : ℕ → Option ℕ → Option Bool
  | _, none => some false
  | 0, some _ => none
  | fuel + 1, some ptr => do
    let sample ← samples ptr
    if messageCheckDuplicate message sample.value then some true
    else findDuplicate samples message fuel sample.older

def uncount (message : Message) (inst : GroupInstance) : GroupInstance :=
  let inst := if message.state.disposed then { inst with count := inst.count - 1 } else inst
  if message.state.write then
    { inst with
      count := inst.count - 1
      historySampleCount := inst.historySampleCount - 1
      resourceSampleCount := inst.resourceSampleCount - 1
      groupSampleCount := inst.groupSampleCount - 1 }
  else inst

def pushOldest (ptr : Option ℕ) (inst : GroupInstance) : Option (Option ℕ × GroupInstance) := do
  let oldest ← inst.oldest
  let node ← inst.samples oldest
  let inst := uncount node.value inst
  let samples ← linkOlder inst.samples node.newer none
  some (if some oldest = ptr then none else ptr,
    { inst with
      samples := free samples oldest
      oldest := node.newer
      newest := if node.newer.isSome then inst.newest else none })

def pushOut (depth : ℤ) : ℕ → Option ℕ → GroupInstance → Option (Option ℕ × GroupInstance)
  | 0, ptr, inst => if depth ≤ inst.historySampleCount then none else some (ptr, inst)
  | fuel + 1, ptr, inst =>
    if depth ≤ inst.historySampleCount then do
      let (ptr, inst) ← pushOldest ptr inst
      pushOut depth fuel ptr inst
    else some (ptr, inst)

def linkFirst (message : Message) (inst : GroupInstance) : GroupInstance :=
  { inst with
    samples := store inst.samples inst.fresh ⟨message, none, none⟩
    fresh := inst.fresh + 1
    oldest := some inst.fresh
    newest := some inst.fresh
    empty := false }

def linkNewest (message : Message) (inst : GroupInstance) : Option GroupInstance := do
  let samples := store inst.samples inst.fresh ⟨message, inst.newest, none⟩
  let samples ← linkNewer samples inst.newest (some inst.fresh)
  some { inst with
    samples := samples
    fresh := inst.fresh + 1
    oldest := if inst.newest.isSome then inst.oldest else some inst.fresh
    newest := some inst.fresh }

def linkOldest (message : Message) (inst : GroupInstance) : Option GroupInstance := do
  let samples := store inst.samples inst.fresh ⟨message, none, inst.oldest⟩
  let samples ← linkOlder samples inst.oldest (some inst.fresh)
  some { inst with
    samples := samples
    fresh := inst.fresh + 1
    oldest := some inst.fresh
    newest := if inst.oldest.isSome then inst.newest else some inst.fresh }

def linkBehind (message : Message) (ptr : ℕ) (inst : GroupInstance) : Option GroupInstance := do
  let node ← inst.samples ptr
  let newer ← node.newer
  let samples := store inst.samples inst.fresh ⟨message, some ptr, some newer⟩
  let samples ← setOlder samples newer (some inst.fresh)
  let samples ← setNewer samples ptr (some inst.fresh)
  some { inst with samples := samples, fresh := inst.fresh + 1 }

def linkSample (qos : GroupQos) (message : Message) (ptr : Option ℕ) (inst : GroupInstance) :
    Option GroupInstance :=
  if qos.bySourceTime then
    match ptr with
    | none => linkOldest message inst
    | some ptr =>
      if some ptr ≠ inst.newest then linkBehind message ptr inst else linkNewest message inst
  else linkNewest message inst

def addCount (message : Message) (inst : GroupInstance) : GroupInstance :=
  let inst := if message.state.disposed then { inst with count := inst.count + 1 } else inst
  if message.state.write then
    { inst with
      count := inst.count + 1
      historySampleCount := inst.historySampleCount + 1 }
  else inst

def updateState (inst : GroupInstance) : Option GroupInstance := do
  let newest ← inst.newest
  let node ← inst.samples newest
  some { inst with disposed := node.value.state.disposed }

def findPlace (qos : GroupQos) (message : Message) (inst : GroupInstance) :
    Option (GroupWriteResult ⊕ Option ℕ) := do
  let head ← inst.newest
  if qos.bySourceTime then
    match ← findPosition inst.samples message inst.fresh (some head) 0 with
    | .duplicate => some (.inl .duplicate)
    | .behind ptr depthBookmark =>
      if qos.history = .keepLast ∧ qos.depth ≤ depthBookmark then some (.inl .successNotStored)
      else some (.inr ptr)
  else if ← findDuplicate inst.samples message inst.fresh (some head) then
    some (.inl .duplicate)
  else some (.inr none)

def storeSample (qos : GroupQos) (message : Message) (ptr : Option ℕ) (inst : GroupInstance) :
    Option (GroupWriteResult × GroupInstance) :=
  match claimResource qos message inst with
  | none => some (.rejected, inst)
  | some inst => do
    let inst ← linkSample qos message ptr inst
    let inst ← updateState (addCount message inst)
    some (.success, inst)

/-- `insertSample`, outside a transaction. -/
def insertSample (qos : GroupQos) (message : Message) (inst : GroupInstance) :
    Option (GroupWriteResult × GroupInstance) :=
  if message.state.register || (message.state.unregister && !message.state.disposed) then
    some (.success, inst)
  else if inst.empty then
    match claimResource qos message inst with
    | none => some (.rejected, inst)
    | some inst => do
      let inst ← updateState (addCount message (linkFirst message inst))
      some (.success, inst)
  else do
    match ← findPlace qos message inst with
    | .inl result => some (result, inst)
    | .inr ptr =>
      let (ptr, inst) ←
        if message.state.write ∧ qos.history = .keepLast then
          pushOut qos.depth inst.fresh ptr inst
        else some (ptr, inst)
      storeSample qos message ptr inst

/-- `v_groupInstanceInsert` of one message after the other. -/
def insertAll (qos : GroupQos) : List Message → GroupInstance → Option GroupInstance
  | [], inst => some inst
  | message :: messages, inst => do
    let (_, inst) ← insertSample qos message inst
    insertAll qos messages inst

/-! ### The samples as a list -/

/-- What pushing out leaves of the samples before the place of a message, with so many writes behind
it. -/
def pushOutOldest (depth : ℤ) (newer : ℕ) : List Message → List Message
  | [] => []
  | x :: older =>
    if depth ≤ ((x :: older).countP (·.state.write) + newer : ℕ) then
      pushOutOldest depth newer older
    else x :: older

/-- What `insertSample` does to the samples of an instance, oldest first, as long as no resource
limit is reached. -/
def insertInto (qos : GroupQos) (m : Message) (samples : List Message) : List Message :=
  if m.isStored then
    let below := fun x ↦ qos.bySourceTime && messageCompare m x = .lt
    let older := samples.rdropWhile below
    let newer := samples.rtakeWhile below
    let duplicate := if qos.bySourceTime then older.getLast?.any (messageCompare m · = .eq)
      else samples.any (messageCheckDuplicate m)
    let notStored := qos.bySourceTime && qos.history = .keepLast && !samples.isEmpty &&
      qos.depth ≤ newer.countP (·.state.write)
    if duplicate || notStored then samples
    else
      (if m.state.write ∧ qos.history = .keepLast then
        pushOutOldest qos.depth (newer.countP (·.state.write)) older
      else older) ++ m :: newer
  else samples

def walkNewer (inst : GroupInstance) : Option (List (ℕ × Message)) :=
  walk Node.newer inst.samples inst.fresh inst.oldest

def walkOlder (inst : GroupInstance) : Option (List (ℕ × Message)) :=
  walk Node.older inst.samples inst.fresh inst.newest

end GroupInstance

end OpenSplice.Kernel
