import OpenSplice.Kernel.Message

/-!
# Coherent transactions

A `v_transactionAdmin` collects the messages of coherent updates, for a group or for a data reader.
Each writer has a list of open transactions, and a transaction keeps its messages in an array at the
distance of their sequence number from the transaction id. `Transaction.insertMessage`
(`v_transactionInsertMessage`) puts a message into the array and `Transaction.complete`
(`v_transactionComplete`) compares what was counted with the place of the end of the transaction. A
complete transaction leaves its writer and is flushed or passed on (`TransactionAdmin.flush`).

What the instances, the group and the allocator answer during a call is part of the call.
-/

set_option autoImplicit false

namespace OpenSplice.Kernel.Coherent

/-- `v_presentationKind`. -/
inductive PresentationKind
  | inst
  | topic
  | group
deriving DecidableEq

/-- What a coherent transaction reads of `v_message`, `v_messageEOT` and `v_messageQos` beyond
`Message`: more bits of the state, the transaction id, and the presentation and durability of the
writer. -/
structure CoherentMessage extends Message where
  transaction : Bool
  endOfTransaction : Bool
  auto : Bool
  transactionId : ℕ
  presentationKind : PresentationKind
  coherentAccess : Bool
  isVolatile : Bool
  publisherId : ℕ
deriving DecidableEq

/-- `C_MAX_ULONG`. -/
def maxUlong : ℕ := 4294967295

/-- `v_message_isSingleTransaction`. -/
def CoherentMessage.isSingleTransaction (msg : CoherentMessage) : Bool :=
  msg.qos.isSome && !msg.state.register && !msg.transaction && !msg.endOfTransaction &&
    msg.presentationKind != .inst && msg.coherentAccess && msg.sequenceNumber == msg.transactionId

def CoherentMessage.neverLost (msg : CoherentMessage) : Bool :=
  msg.state.register || msg.state.unregister || (msg.state.disposed && msg.auto)

/-- The number that `v_transactionInsertMessage` uses for an aligned message without one. -/
def CoherentMessage.isUnnumbered (msg : CoherentMessage) : Bool :=
  msg.sequenceNumber == maxUlong && msg.transactionId == 0

/-- The distance of the sequence number from the transaction id, as a `c_ulong`. -/
def CoherentMessage.index (msg : CoherentMessage) : ℕ :=
  if msg.transactionId ≤ msg.sequenceNumber then msg.sequenceNumber - msg.transactionId
  else (maxUlong - msg.transactionId + msg.sequenceNumber + 1) % 2 ^ 32

/-- `transactionAdminCreateSingleMessageEOT`, at a new address. -/
def createSingleMessageEOT (addr : ℕ) (tmpl : CoherentMessage) : CoherentMessage where
  addr := addr
  state := ⟨false, false, false, false, false, false⟩
  allocTime := tmpl.allocTime
  writeTime := tmpl.writeTime
  writerGID := tmpl.writerGID
  sequenceNumber := (tmpl.sequenceNumber + 1) % 2 ^ 32
  qos := tmpl.qos
  transaction := true
  endOfTransaction := true
  auto := false
  transactionId := tmpl.transactionId
  presentationKind := tmpl.presentationKind
  coherentAccess := tmpl.coherentAccess
  isVolatile := tmpl.isVolatile
  publisherId := 0

section Transactions

variable (ι : Type*)

/-- `v_transactionElement`. -/
structure Element where
  inserted : Bool
  message : Option CoherentMessage
  inst : Option ι
deriving DecidableEq

/-- `v_transaction`. The counters are kept as the bits of a `c_long`. -/
structure Transaction where
  transactionId : ℕ
  eot : Option CoherentMessage
  count : ℕ
  eotCount : ℕ
  size : ℕ
  aborted : Bool
  sampleLostNotified : Bool
  isMarked : Bool
  elements : List (Option (Element ι))
deriving DecidableEq

/-- Who owns an administration; of a data reader's subscriber, if there is one, the number of its
partitions is read. -/
inductive Owner
  | group
  | dataReader (partitionCount : Option ℕ)
deriving DecidableEq

/-- What `v_groupInstanceClaimResource` and `v_dataReaderInstanceClaimResource` answer; a reader at
its maximum of samples is asked how many it holds. -/
inductive ClaimResult
  | granted
  | refused
  | maxSamples (historyCount : ℕ)
deriving DecidableEq

/-- `v_writeResult`. -/
inductive WriteResult
  | success
  | successNotStored
  | rejected
deriving DecidableEq

/-- The arguments of `v_transactionAdminInsertMessage`, and what its callees answer: the instance
that is asked for resources, the address of a generated end of transaction and whether the
transaction completed its group. -/
structure Call where
  message : CoherentMessage
  inst : Option ι
  abort : Bool
  claim : ClaimResult
  eotAddr : ℕ
  groupComplete : Bool
deriving DecidableEq

end Transactions

variable {ι : Type*}

/-- `V_TRANSACTION_BLOCKSIZE`. -/
def blockSize : ℕ := 50

namespace Transaction

/-- `v_transactionNew`. -/
def new (transactionId : ℕ) : Transaction ι where
  transactionId := transactionId
  eot := none
  count := 0
  eotCount := 0
  size := 0
  aborted := false
  sampleLostNotified := false
  isMarked := false
  elements := List.replicate blockSize none

/-- The reallocation in `getTransactionElement`. The new size is a `c_ulong`; copying the old
elements or taking the wanted one beyond it is undefined. -/
def grow (elements : List (Option (Element ι))) (index : ℕ) : Option (List (Option (Element ι))) :=
  if index < elements.length then some elements
  else
    let allocSize := (index / blockSize + 1) * blockSize % 2 ^ 32
    if elements.length ≤ allocSize ∧ index < allocSize then
      some (elements ++ List.replicate (allocSize - elements.length) none)
    else none

/-- `getTransactionElement`: the element at an index, which is new if there was none. -/
def getTransactionElement (index : ℕ) (txn : Transaction ι) :
    Option (Element ι × Transaction ι) := do
  let elements ← grow txn.elements index
  let element := (elements.getD index none).getD ⟨false, none, none⟩
  some (element, { txn with elements := elements.set index (some element) })

def releaseElement (element : Element ι) : Element ι :=
  if element.message.any fun msg ↦ !msg.neverLost then
    { element with message := none, inst := none }
  else element

/-- `v_transactionAbort`. -/
def abort (txn : Transaction ι) : Transaction ι :=
  if txn.aborted then txn
  else { txn with
    aborted := true
    elements := txn.elements.map (Option.map releaseElement) }

/-- One less, in the bits of a `c_long`. -/
def decrement (count : ℕ) : ℕ := (count + maxUlong) % 2 ^ 32

/-- One more, in the bits of a `c_long`. -/
def increment (count : ℕ) : ℕ := (count + 1) % 2 ^ 32

/-- An end of transaction replaces the one that is kept when only the kept one has
`L_TRANSACTION`. -/
def replacesEOT (message : CoherentMessage) (txn : Transaction ι) : Bool :=
  !message.transaction && txn.eot.any (·.transaction)

def countEOT (owner : Owner) (message : CoherentMessage) (eot : Option CoherentMessage)
    (eotCount : ℕ) : ℕ :=
  match owner, eot with
  | .group, _ => 1
  | .dataReader _, none => increment eotCount
  | .dataReader _, some kept =>
    if message.transaction = kept.transaction then increment eotCount else eotCount

/-- `storeMessageEOT`. -/
def storeMessageEOT (owner : Owner) (index : ℕ) (message : CoherentMessage) (txn : Transaction ι) :
    Option (Transaction ι) :=
  if txn.eotCount = 0 ∨ txn.replacesEOT message then do
    let kept := if txn.eotCount = 0 then txn.eot else none
    let (element, txn) ← txn.getTransactionElement index
    some { txn with
      count := if element.inserted then decrement txn.count else txn.count
      elements := txn.elements.set index (some ⟨false, some message, none⟩)
      size := index
      eot := some message
      eotCount := countEOT owner message kept 0 }
  else some { txn with eotCount := countEOT owner message txn.eot txn.eotCount }

def storeResult (call : Call ι) (txn : Transaction ι) : WriteResult :=
  if call.message.neverLost && call.inst.isSome then .success
  else if txn.aborted || call.abort then .successNotStored
  else if call.inst.isNone then .success
  else
    match call.claim with
    | .granted => .success
    | .refused => .successNotStored
    | .maxSamples historyCount => if historyCount = 0 then .successNotStored else .rejected

def storeElement (index : ℕ) (call : Call ι) (txn : Transaction ι) : Option (Transaction ι) := do
  let (element, txn) ← txn.getTransactionElement index
  some { txn with
    count := if element.inserted then txn.count else increment txn.count
    elements := txn.elements.set index
      (some ⟨true, if call.inst.isSome then some call.message else none, call.inst⟩) }

/-- `v_transactionInsertMessage`. A message that is not stored has been counted, and aborts the
transaction. For a group the end of a transaction of a single message is made here. -/
def insertMessage (owner : Owner) (call : Call ι) (txn : Transaction ι) :
    Option (WriteResult × Transaction ι) := do
  let message := call.message
  let index := if message.isUnnumbered then txn.count else message.index
  let txn := { txn with isMarked := txn.isMarked || message.isUnnumbered }
  if message.endOfTransaction then
    let txn ← txn.storeMessageEOT owner index message
    some (.successNotStored, txn)
  else
    let txn' ← match txn.storeResult call with
      | .success => txn.storeElement index call
      | .successNotStored => some { txn with count := increment txn.count }.abort
      | .rejected => some txn
    if txn.storeResult call = .rejected then some (.rejected, txn')
    else if owner = .group ∧ message.isSingleTransaction then
      let eotMsg := createSingleMessageEOT call.eotAddr message
      let txn' ← txn'.storeMessageEOT owner eotMsg.index eotMsg
      some (.success, txn')
    else some (.success, txn')

/-- `v_transactionComplete`; the match count is the writer's. -/
def complete (owner : Owner) (matchCount : ℕ) (txn : Transaction ι) : Bool :=
  match txn.eot with
  | none => false
  | some eot =>
    match owner with
    | .dataReader partitionCount =>
      -- Discovery is not waited for if the subscriber has only one partition.
      let partitions := if matchCount = 0 ∧ partitionCount = some 1 then 1 else matchCount
      txn.eotCount == partitions
    | .group => !eot.transaction || txn.count == txn.size

/-- The loop of `v_transactionWalk`: the instances and messages its action is called with, up to the
end of the transaction. -/
def walkElements : List (Option (Element ι)) → List (Option ι × CoherentMessage)
  | [] => []
  | none :: elements => walkElements elements
  | some element :: elements =>
    match element.message with
    | none => walkElements elements
    | some message =>
      if message.endOfTransaction then [(element.inst, message)]
      else (element.inst, message) :: walkElements elements

/-- `v_transactionWalk`. -/
def walk (txn : Transaction ι) : List (Option ι × CoherentMessage) := walkElements txn.elements

end Transaction

section Administration

variable (ι : Type*)

/-- `v_transactionWriter`. -/
structure TransactionWriter where
  publisherId : ℕ
  matchCount : ℕ
  transactions : List (Transaction ι)

/-- `v_transactionAdmin`: its owner, whether it has a group administration, and its writers. -/
structure TransactionAdmin where
  owner : Owner
  groupAdmin : Bool
  writers : Gid → Option (TransactionWriter ι)

/-- Where a complete transaction goes: to the instances, as the list of messages the flush hands
over, or to the group administration. -/
inductive Departure
  | flushed (handed : List (Option ι × CoherentMessage))
  | forwarded (txn : Transaction ι)
deriving DecidableEq

/-- The results of `v_transactionAdminInsertMessage` and the transaction that left. -/
structure Reply where
  result : WriteResult
  complete : Bool
  departure : Option (Departure ι)
deriving DecidableEq

end Administration

namespace TransactionWriter

/-- `v_transactionWriterNew`. -/
def new (owner : Owner) : TransactionWriter ι where
  publisherId := 0
  matchCount := match owner with
    | .group => 1
    | .dataReader _ => 0
  transactions := []

/-- `v_transactionWriterLookupTransaction`: the transaction with an id, which is new if there was
none. -/
def lookupTransaction (transactionId : ℕ) (writer : TransactionWriter ι) : Transaction ι :=
  (writer.transactions.find? (·.transactionId = transactionId)).getD (.new transactionId)

/-- The transaction found or made by `lookupTransaction`, after a change. It is put in front: the
list is only searched by id. -/
def putTransaction (txn : Transaction ι) (writer : TransactionWriter ι) : TransactionWriter ι :=
  { writer with
    transactions := txn :: writer.transactions.eraseP (·.transactionId = txn.transactionId) }

/-- `v_transactionWriterRemoveTransaction`, after which the publisher is taken from the end of the
transaction. -/
def removeTransaction (transactionId : ℕ) (eot : Option CoherentMessage)
    (writer : TransactionWriter ι) : TransactionWriter ι :=
  { writer with
    transactions := writer.transactions.eraseP (·.transactionId = transactionId)
    publisherId := match eot with
      | some eot => if eot.publisherId ≠ 0 then eot.publisherId else writer.publisherId
      | none => writer.publisherId }

end TransactionWriter

namespace TransactionAdmin

/-- `v_transactionAdminLookupWriter`: the writer with an id, which is new if there was none. -/
def lookupWriter (writerGID : Gid) (admin : TransactionAdmin ι) : TransactionWriter ι :=
  (admin.writers writerGID).getD (.new admin.owner)

/-- A writer found or made by `lookupWriter`, after a change. -/
def putWriter (writerGID : Gid) (writer : TransactionWriter ι) (admin : TransactionAdmin ι) :
    TransactionAdmin ι :=
  { admin with writers := fun gid ↦ if gid = writerGID then some writer else admin.writers gid }

/-- `v_transactionAdminFlush`: where a complete transaction goes, and whether it is complete for its
group. -/
def flush (admin : TransactionAdmin ι) (groupComplete : Bool) (txn : Transaction ι) :
    Bool × Departure ι :=
  let eot := txn.eot
  if admin.groupAdmin && eot.any (·.presentationKind == .group) then
    if admin.owner = .group ∧ eot.any (·.isVolatile) then (true, .flushed txn.abort.walk)
    else (groupComplete, .forwarded txn)
  else (true, .flushed txn.walk)

/-- `v_transactionAdminInsertMessage`. -/
def insertMessage (call : Call ι) (admin : TransactionAdmin ι) :
    Option (Reply ι × TransactionAdmin ι) := do
  let writer := admin.lookupWriter call.message.writerGID
  let (result, txn) ← (writer.lookupTransaction call.message.transactionId).insertMessage
    admin.owner call
  if txn.complete admin.owner writer.matchCount then
    let (complete, departure) := admin.flush call.groupComplete txn
    some (⟨result, complete, some departure⟩, admin.putWriter call.message.writerGID
      (writer.removeTransaction call.message.transactionId txn.eot))
  else
    some (⟨result, false, none⟩, admin.putWriter call.message.writerGID (writer.putTransaction txn))

/-- A row of calls of `insertMessage`, with the reply to each. -/
def insertMessages : List (Call ι) → TransactionAdmin ι →
    Option (List (Reply ι) × TransactionAdmin ι)
  | [], admin => some ([], admin)
  | call :: calls, admin => do
    let (reply, admin) ← admin.insertMessage call
    let (replies, admin) ← insertMessages calls admin
    some (reply :: replies, admin)

end TransactionAdmin

end OpenSplice.Kernel.Coherent
