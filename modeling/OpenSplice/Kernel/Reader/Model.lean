import OpenSplice.Kernel.Ownership

/-!
# The samples of a data reader instance

The state of `v_dataReaderInstance.c`: an instance with its history and its pending samples, both
from the oldest to the newest, and the fields of the reader and its entry that the functions use. A
sample has a name, by which the lifespan administration refers to it. A function that works on a
sample of the history is given the samples before and behind it.

Deadlines, views, statistics and the copies of instance bits that a read leaves in the sample are
left out.
-/

set_option autoImplicit false

namespace OpenSplice.Kernel

/-- `v_historyQosKind`. -/
inductive HistoryKind
  | keepLast
  | keepAll
deriving DecidableEq

/-- The policies of the reader, and its fields that do not change. No limit is `none`, and so is an
infinite duration. -/
structure ReaderQos where
  history : HistoryKind
  depth : ℤ
  maxSamples : Option ℤ
  maxSamplesPerInstance : Option ℤ
  bySourceTime : Bool
  minSeparation : ℤ
  maximumSeparationTime : ℤ
  reliable : Bool
  lifespanUsed : Bool
  lifespan : Option ℤ
  userKey : Bool
  enableInvalidSamples : Bool
  autopurgeDisposeAll : Bool
  /-- `v__readerIsGroupOrderedNonCoherent`. -/
  groupOrderedNonCoherent : Bool
  /-- `reader->orderedInstance && reader->orderedInstance->presentation == V_PRESENTATION_GROUP`. -/
  orderedGroupAccess : Bool
  notReadTriggerThreshold : ℤ
deriving DecidableEq

/-- `v_dataReaderSample`, with the bits of its state. -/
structure Sample where
  id : ℕ
  message : Message
  validData : Bool
  read : Bool
  lazyRead : Bool
  inMinSepTime : Bool
  readId : ℕ
  disposeCount : ℤ
  noWritersCount : ℤ
  expiryTime : Option ℤ
deriving DecidableEq

/-- One of `L_READ`, `L_LAZYREAD` and `L_INMINSEPTIME` is set: the sample does not count as not
read. -/
def Sample.accessed (sample : Sample) : Bool :=
  sample.read || sample.lazyRead || sample.inMinSepTime

/-- `v_historyBookmark`. -/
structure Bookmark where
  sourceTimestamp : ℤ
  gid : Gid
  sequenceNumber : ℕ
  isImplicit : Bool
deriving DecidableEq

/-- `v_dataReaderInstance`, with the bits of its state. The history and the pending samples are from
the oldest to the newest. -/
structure Instance where
  empty : Bool
  new : Bool
  lazyNew : Bool
  disposed : Bool
  noWriters : Bool
  stateChanged : Bool
  trigger : Bool
  replaced : Bool
  inMinSepTime : Bool
  history : List Sample
  pending : List Sample
  disposeCount : ℤ
  noWritersCount : ℤ
  resourceSampleCount : ℤ
  historySampleCount : ℤ
  liveliness : ℤ
  lastConsumed : Bookmark
  lastInsertionTime : ℤ
  owner : Owner
deriving DecidableEq

/-- A sample of the lifespan administration. -/
structure LifespanEntry where
  expiryTime : ℤ
  id : ℕ
deriving DecidableEq

/-- The fields of the reader and its entry. The lifespan administration is in the order of its list,
and `nextId` has not been given to a sample yet. -/
structure ReaderState where
  notReadCount : ℤ
  resourceSampleCount : ℤ
  notReadTriggerCount : ℤ
  readCnt : ℕ
  accessBusy : Bool
  prepareDelete : Bool
  lifespanAdmin : List LifespanEntry
  nextId : ℕ
deriving DecidableEq

/-- An instance and its reader. -/
structure InstanceState where
  reader : ReaderState
  inst : Instance
deriving DecidableEq

/-- `v_dataReaderResult`, as far as it is returned. -/
inductive DataReaderResult
  | inserted
  | filteredOut
  | duplicateSample
  | outdated
  | sampleLost
  | instanceFull
  | maxSamples
  | notOwner
deriving DecidableEq

/-- `v_messageContext`. -/
inductive MessageContext
  | groupWrite
  | getHistory
  | transactionFlush
deriving DecidableEq

/-- The message that `compareMessageToBookmark` compares with. -/
def Bookmark.template (bookmark : Bookmark) : Message where
  addr := 0
  state := ⟨false, false, false, false, bookmark.isImplicit, false⟩
  allocTime := 0
  writeTime := bookmark.sourceTimestamp
  writerGID := bookmark.gid
  sequenceNumber := bookmark.sequenceNumber
  qos := none

/-- `compareMessageToBookmark`. -/
def compareMessageToBookmark (msg : Message) (bookmark : Bookmark) : Ordering :=
  messageOrder msg bookmark.template

def Message.bookmark (msg : Message) : Bookmark :=
  ⟨msg.writeTime, msg.writerGID, msg.sequenceNumber, msg.state.implicit⟩

/-- `v_lifespanAdminInsert`, for a sample that expires. -/
def lifespanInsert (entry : LifespanEntry) : List LifespanEntry → List LifespanEntry
  | [] => [entry]
  | x :: admin =>
    if x.expiryTime < entry.expiryTime then x :: lifespanInsert entry admin else entry :: x :: admin

/-- `v_dataReaderSampleRemoveFromLifespanAdmin`. -/
def lifespanRemove (id : ℕ) (admin : List LifespanEntry) : List LifespanEntry :=
  admin.filter fun entry ↦ entry.id ≠ id

/-- `os_durationCompare` with the answer `OS_LESS`. -/
def durationLess : Option ℤ → Option ℤ → Bool
  | some a, some b => a < b
  | some _, none => true
  | none, _ => false

/-- The time of the two clocks. -/
structure Clock where
  timeW : ℤ
  timeE : ℤ
deriving DecidableEq

/-- The expiry time that `v_dataReaderSampleNew` determines. -/
def expiryTime (qos : ReaderQos) (clock : Clock) (message : Message) : Option ℤ :=
  let msgEpoch :=
    if qos.bySourceTime then clock.timeE - (clock.timeW - message.writeTime) else clock.timeE
  let lifespan :=
    match message.qos with
    | some msgQos =>
      if qos.lifespanUsed && durationLess qos.lifespan msgQos.lifespan then qos.lifespan
      else msgQos.lifespan
    | none => if qos.lifespanUsed then qos.lifespan else none
  lifespan.map (msgEpoch + ·)

namespace InstanceState

variable (qos : ReaderQos)

def limitReached (limit : Option ℤ) (count : ℤ) : Bool := limit.any (· ≤ count)

/-- `v_dataReaderInstanceClaimResource`. -/
def claimResource (message : Message) (context : MessageContext) (st : InstanceState) :
    DataReaderResult × InstanceState :=
  if message.state.write ∧ context ≠ .transactionFlush then
    if limitReached qos.maxSamples st.reader.resourceSampleCount then (.maxSamples, st)
    else if limitReached qos.maxSamplesPerInstance st.inst.resourceSampleCount then
      (.instanceFull, st)
    else
      (.inserted,
        { reader := { st.reader with resourceSampleCount := st.reader.resourceSampleCount + 1 }
          inst := { st.inst with resourceSampleCount := st.inst.resourceSampleCount + 1 } })
  else (.inserted, st)

/-- `v_dataReaderInstanceReleaseResource`. -/
def releaseResource (st : InstanceState) : InstanceState where
  reader := { st.reader with resourceSampleCount := st.reader.resourceSampleCount - 1 }
  inst := { st.inst with resourceSampleCount := st.inst.resourceSampleCount - 1 }

/-- `v_dataReaderSampleNew`. -/
def sampleNew (clock : Clock) (message : Message) (st : InstanceState) : Sample × InstanceState :=
  let sample : Sample := {
    id := st.reader.nextId
    message := message
    validData := false
    read := false
    lazyRead := false
    inMinSepTime := false
    readId := 0
    disposeCount := st.inst.disposeCount
    noWritersCount := st.inst.noWritersCount
    expiryTime := expiryTime qos clock message }
  let admin :=
    match sample.expiryTime with
    | some time => lifespanInsert ⟨time, sample.id⟩ st.reader.lifespanAdmin
    | none => st.reader.lifespanAdmin
  (sample, { st with reader := { st.reader with
    lifespanAdmin := admin, nextId := st.reader.nextId + 1 } })

def consume (msg : Message) (lastConsumed : Bookmark) : Bookmark :=
  if ¬msg.state.unregister ∧ compareMessageToBookmark msg lastConsumed = .gt then msg.bookmark
  else lastConsumed

/-- `v_dataReaderInstanceSampleRemove`: the sample between the older and the newer ones. -/
def sampleRemove (older : List Sample) (sample : Sample) (newer : List Sample)
    (pushedOutByNewer : Bool) (st : InstanceState) : InstanceState :=
  let counted := sample.validData && !sample.inMinSepTime
  { reader := { st.reader with
      resourceSampleCount := st.reader.resourceSampleCount - if counted then 1 else 0
      lifespanAdmin := lifespanRemove sample.id st.reader.lifespanAdmin
      notReadCount := st.reader.notReadCount - if sample.accessed then 0 else 1 }
    inst := { st.inst with
      history := older ++ newer
      empty := st.inst.empty || ((older ++ newer).isEmpty && !pushedOutByNewer)
      resourceSampleCount := st.inst.resourceSampleCount - if sample.validData then 1 else 0
      historySampleCount := st.inst.historySampleCount - if counted then 1 else 0
      lastConsumed := consume sample.message st.inst.lastConsumed } }

end InstanceState

end OpenSplice.Kernel
