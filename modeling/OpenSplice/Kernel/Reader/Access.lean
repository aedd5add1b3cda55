import OpenSplice.Kernel.Reader.Model

/-!
# Access to the samples of an instance

The functions of `v_dataReaderInstance.c` by which the samples of an instance are read, taken and
purged. A query is a predicate on messages, since it is evaluated on the fields of one sample. What
an action answers may depend on the samples it has been given before in the same call.
-/

set_option autoImplicit false

namespace OpenSplice.Kernel

/-- `v_sampleMask`. -/
structure SampleMask where
  readSample : Bool
  notReadSample : Bool
  newView : Bool
  notNewView : Bool
  aliveInstance : Bool
  disposedInstance : Bool
  noWritersInstance : Bool
deriving DecidableEq

/-- The part of `v_sampleMaskPass` that is about the state of the instance. -/
def instanceMaskPass (mask : SampleMask) (inst : Instance) : Bool :=
  (if inst.new || inst.lazyNew then mask.newView else mask.notNewView) &&
    if inst.disposed then mask.disposedInstance
    else if inst.noWriters then mask.noWritersInstance
    else mask.aliveInstance

/-- `v_sampleMaskPass`. -/
def sampleMaskPass (mask : SampleMask) (sample : Sample) (inst : Instance) : Bool :=
  (if sample.read || sample.lazyRead then mask.readSample else mask.notReadSample) &&
    instanceMaskPass mask inst

/-- `v_actionResult`. -/
structure ActionResult where
  proceed : Bool
  skip : Bool
deriving DecidableEq

/-- `V_PROCEED`. -/
def ActionResult.goOn : ActionResult := ⟨true, false⟩

/-- `V_SKIP`. -/
def ActionResult.skipped : ActionResult := ⟨false, true⟩

abbrev Action := List Sample → Sample → ActionResult

def Sample.settleRead (sample : Sample) : Sample :=
  { sample with read := sample.read || sample.lazyRead, lazyRead := false }

namespace InstanceState

variable (qos : ReaderQos)

def actionAnswer (answer : ActionResult) : ActionResult :=
  if qos.orderedGroupAccess ∧ answer.proceed then ⟨false, false⟩ else answer

/-! ### Reading -/

/-- `v_dataReaderSampleRead`, with the answer of the action. -/
def sampleRead (answer : ActionResult) (sample : Sample) (st : InstanceState) :
    Sample × InstanceState × ActionResult :=
  if sample.inMinSepTime then (sample, st, .skipped)
  else
    let sample₁ := sample.settleRead
    let result := actionAnswer qos answer
    if result.skip then (sample₁, st, result)
    else
      ({ sample₁ with lazyRead := !sample₁.read },
        { reader := { st.reader with
            notReadCount := st.reader.notReadCount - if sample₁.read then 0 else 1 }
          inst := { st.inst with new := false, stateChanged := false } },
        result)

def unreadInvalid (sample : Sample) : Bool := !(sample.validData || sample.accessed)

/-- `invalidSampleResetEventCounters`, from the oldest sample on. -/
def resetEventCounters (st : InstanceState) : InstanceState where
  reader := { st.reader with
    notReadCount := st.reader.notReadCount - st.inst.history.countP unreadInvalid }
  inst := { st.inst with
    history := st.inst.history.map fun s ↦ if unreadInvalid s then { s with read := true } else s }

/-- The outcome of a loop over the samples of an instance: the samples before and from the one it
has stopped at, the samples that were given to the action, those that were not skipped, and whether
to proceed. -/
structure LoopOut where
  before : List Sample
  rest : List Sample
  st : InstanceState
  handed : List Sample
  accepted : List Sample
  proceed : Bool

def eligible (query : Option (Message → Bool)) (readId : ℕ) (sample : Sample) : Bool :=
  sample.readId ≠ readId && (query.all fun q ↦ q sample.message) && sample.validData

/-- The loop of `v_dataReaderInstanceReadSamples`. -/
def readLoop (query : Option (Message → Bool)) (mask : SampleMask) (readId : ℕ) (action : Action) :
    List Sample → List Sample → InstanceState → List Sample → List Sample → LoopOut
  | [], before, st, handed, accepted => ⟨before, [], st, handed, accepted, true⟩
  | s :: rest, before, st, handed, accepted =>
    if eligible query readId s && sampleMaskPass mask s st.inst then
      let s₁ := { s with readId := readId }
      let out := sampleRead qos (action handed s₁.settleRead) s₁ st
      let handed₁ := if s.inMinSepTime then handed else handed ++ [s₁.settleRead]
      let accepted₁ := if out.2.2.skip then accepted else accepted ++ [s₁.settleRead]
      if out.2.2.proceed then
        readLoop query mask readId action rest (before ++ [out.1]) out.2.1 handed₁ accepted₁
      else ⟨before ++ [out.1], rest, out.2.1, handed₁, accepted₁, false⟩
    else readLoop query mask readId action rest (before ++ [s]) st handed accepted

def LoopOut.final (out : LoopOut) : InstanceState :=
  { out.st with inst := { out.st.inst with history := out.before ++ out.rest } }

def splitUnread (history : List Sample) : List Sample × List Sample :=
  history.span fun s ↦ s.read || s.lazyRead

/-- The outcome of an access: whether to proceed, the samples that were given to the action, those
that were not skipped, and the state. -/
structure AccessOut where
  proceed : Bool
  handed : List Sample
  accepted : List Sample
  st : InstanceState

def AccessOut.none (st : InstanceState) : AccessOut := ⟨true, [], [], st⟩

/-- `v_dataReaderInstanceReadSamples`. -/
def readSamples (query : Option (Message → Bool)) (mask : SampleMask) (action : Action)
    (st : InstanceState) : AccessOut :=
  if st.inst.history.isEmpty then .none st
  else if st.inst.historySampleCount ≤ 0 then
    if st.inst.stateChanged && qos.enableInvalidSamples then
      match (splitUnread st.inst.history).2 with
      | [] => .none st
      | s :: newer =>
        if sampleMaskPass mask s st.inst then
          let out := sampleRead qos (action [] s.settleRead) s st
          let st₁ := { out.2.1 with inst := { out.2.1.inst with
            history := (splitUnread st.inst.history).1 ++ out.1 :: newer } }
          ⟨out.2.2.proceed, if s.inMinSepTime then [] else [s.settleRead],
            if out.2.2.skip then [] else [s.settleRead],
            if out.2.2.skip then st₁ else resetEventCounters st₁⟩
        else .none st
    else .none st
  else
    let out := readLoop qos query mask st.reader.readCnt action st.inst.history [] st [] []
    ⟨out.proceed, out.handed, out.accepted,
      if out.accepted.isEmpty then out.final else resetEventCounters out.final⟩

/-! ### Taking -/

/-- `v_dataReaderSampleTake`, with the answer of the action if there is one: whether the sample has
been removed, the sample otherwise, the state and the result. -/
def sampleTake (answer : Option ActionResult) (older : List Sample) (sample : Sample)
    (newer : List Sample) (st : InstanceState) : Option Sample × InstanceState × ActionResult :=
  if sample.inMinSepTime then (some sample, st, .skipped)
  else
    let sample₁ := sample.settleRead
    let result := (answer.map (actionAnswer qos)).getD .goOn
    if result.skip then
      (some sample₁, { st with inst := { st.inst with history := older ++ sample₁ :: newer } },
        result)
    else
      let st₁ := { st with inst := { st.inst with
        new := st.inst.new && answer.isNone
        stateChanged := st.inst.stateChanged && answer.isNone } }
      (none, sampleRemove older sample₁ newer false st₁, result)

def purgeSample (older : List Sample) (sample : Sample) (newer : List Sample) (st : InstanceState) :
    List Sample × InstanceState :=
  if sample.validData then (older ++ [sample], st)
  else
    let out := sampleTake qos none older sample newer st
    (older ++ out.1.toList, out.2.1)

/-- The first loop of `invalidSamplesPurgeUntil`: all invalid samples before the bookmark. -/
def purgeInvalid (rest : List Sample) : List Sample → List Sample → InstanceState →
    List Sample × InstanceState
  | [], older, st => (older, st)
  | s :: samples, older, st =>
    let out := purgeSample qos older s (samples ++ rest) st
    purgeInvalid rest samples out.1 out.2

/-- The second loop of `invalidSamplesPurgeUntil`: the invalid samples up to the next valid one. -/
def purgeUpToValid : List Sample → List Sample → InstanceState → InstanceState
  | [], _, st => st
  | s :: samples, older, st =>
    if s.validData then st
    else
      let out := purgeSample qos older s samples st
      purgeUpToValid samples out.1 out.2

/-- `invalidSamplesPurgeUntil`, with the samples before and from the bookmark. -/
def invalidSamplesPurgeUntil (before rest : List Sample) (st : InstanceState) : InstanceState :=
  let out := purgeInvalid qos rest before [] st
  purgeUpToValid qos rest out.1 out.2

/-- The loop of `v_dataReaderInstanceTakeSamples`. -/
def takeLoop (query : Option (Message → Bool)) (mask : SampleMask) (readId : ℕ) (action : Action) :
    List Sample → List Sample → InstanceState → List Sample → List Sample → LoopOut
  | [], before, st, handed, accepted => ⟨before, [], st, handed, accepted, true⟩
  | s :: rest, before, st, handed, accepted =>
    if eligible query readId s && sampleMaskPass mask s st.inst then
      let s₁ := { s with readId := readId }
      let out := sampleTake qos (some (action handed s₁.settleRead)) before s₁ rest st
      let handed₁ := if s.inMinSepTime then handed else handed ++ [s₁.settleRead]
      let accepted₁ := if out.2.2.skip then accepted else accepted ++ [s₁.settleRead]
      if out.2.2.proceed then
        takeLoop query mask readId action rest (before ++ out.1.toList) out.2.1 handed₁ accepted₁
      else ⟨before ++ out.1.toList, rest, out.2.1, handed₁, accepted₁, false⟩
    else takeLoop query mask readId action rest (before ++ [s]) st handed accepted

/-- `v_dataReaderInstanceTakeSamples`. -/
def takeSamples (query : Option (Message → Bool)) (mask : SampleMask) (action : Action)
    (st : InstanceState) : AccessOut :=
  if st.inst.history.isEmpty then .none st
  else if st.inst.historySampleCount ≤ 0 then
    if st.inst.stateChanged && qos.enableInvalidSamples then
      match (splitUnread st.inst.history).2 with
      | [] => .none st
      | s :: newer =>
        if sampleMaskPass mask s st.inst then
          let older := (splitUnread st.inst.history).1
          let out := sampleTake qos (some (action [] s.settleRead)) older s newer st
          ⟨out.2.2.proceed, if s.inMinSepTime then [] else [s.settleRead],
            if out.2.2.skip then [] else [s.settleRead],
            if out.2.2.skip then out.2.1
            else invalidSamplesPurgeUntil qos out.2.1.inst.history [] out.2.1⟩
        else .none st
    else .none (invalidSamplesPurgeUntil qos st.inst.history [] st)
  else
    let out := takeLoop qos query mask st.reader.readCnt action st.inst.history [] st [] []
    ⟨out.proceed, out.handed, out.accepted,
      if out.accepted.isEmpty then out.final
      else resetEventCounters (invalidSamplesPurgeUntil qos out.before out.rest out.final)⟩

/-- One loop of `v_dataReaderInstancePurge`: the oldest samples that belong to a generation. -/
def purgeWhile (expired : Sample → Bool) : List Sample → InstanceState → InstanceState
  | [], st => st
  | s :: samples, st =>
    if expired s then purgeWhile expired samples (sampleRemove [] s samples false st) else st

/-- `v_dataReaderInstancePurge`. -/
def instancePurge (disposedCount noWritersCount : ℤ) (st : InstanceState) : InstanceState :=
  let st₁ :=
    if 0 ≤ disposedCount then
      purgeWhile (fun s ↦ s.disposeCount ≤ disposedCount) st.inst.history st
    else st
  if 0 ≤ noWritersCount then
    purgeWhile (fun s ↦ s.noWritersCount ≤ noWritersCount) st₁.inst.history st₁
  else st₁

end InstanceState

end OpenSplice.Kernel
