import OpenSplice.Kernel.Reader.NotRead

/-!
# The transactions of a data reader

The messages of a coherent set wait in a transaction (`v_transaction.c`) until the set is complete;
then they are inserted one after the other (`CoherentOp.flushElement`). A message with data claims
its resource when it is put into the transaction, and not again when the transaction is flushed.

A transaction may be flushed at any time here: how a reader finds out that it is complete is left
out.
-/

set_option autoImplicit false

namespace OpenSplice.Kernel

/-- A message as a transaction sees it. The bit `auto` stands for `L_AUTO`, and `transaction` for
`L_TRANSACTION`. -/
structure TransactionMessage where
  message : Message
  auto : Bool
  transaction : Bool
  transactionId : ℕ
deriving DecidableEq

def TransactionMessage.neverLost (m : TransactionMessage) : Bool :=
  m.message.state.register || m.message.state.unregister || (m.message.state.disposed && m.auto)

/-- `v_transactionElement`. A message without an instance is not kept, except for the one that ends
the transaction. -/
structure TransactionElement (ι : Type) where
  inserted : Bool
  endOfTransaction : Bool
  content : Option (ι × TransactionMessage)

namespace TransactionElement

variable {ι : Type}

def empty : TransactionElement ι := ⟨false, false, none⟩

def claims [DecidableEq ι] (i : ι) (e : TransactionElement ι) : Bool :=
  e.content.any fun content ↦ content.1 = i && content.2.message.state.write

def holdsData (e : TransactionElement ι) : Bool :=
  e.content.any fun content ↦ content.2.message.state.write

end TransactionElement

/-- `v_transaction`. The message that ends it is known by its bit `L_TRANSACTION`. -/
structure Transaction (ι : Type) where
  writerGID : Gid
  transactionId : ℕ
  aborted : Bool
  count : ℕ
  eot : Option Bool
  elements : List (TransactionElement ι)

namespace Transaction

variable {ι : Type}

/-- `v_transactionNew`. -/
def new (writerGID : Gid) (transactionId : ℕ) : Transaction ι :=
  ⟨writerGID, transactionId, false, 0, none, []⟩

/-- `C_MAX_ULONG`. -/
def maxULong : ℕ := 2 ^ 32 - 1

def index (m : TransactionMessage) (t : Transaction ι) : ℕ :=
  if m.message.sequenceNumber = maxULong ∧ m.transactionId = 0 then t.count
  else if m.transactionId ≤ m.message.sequenceNumber then
    m.message.sequenceNumber - m.transactionId
  else maxULong - m.transactionId + m.message.sequenceNumber + 1

def element (index : ℕ) (t : Transaction ι) : TransactionElement ι :=
  t.elements.getD index .empty

def setElement (index : ℕ) (e : TransactionElement ι) (t : Transaction ι) : Transaction ι :=
  { t with elements :=
      (t.elements ++
        List.replicate (index + 1 - t.elements.length) TransactionElement.empty).set index e }

/-- `storeMessageEOT`. -/
def storeMessageEOT (m : TransactionMessage) (t : Transaction ι) : Transaction ι :=
  if t.eot = none ∨ (m.transaction = false ∧ t.eot = some true) then
    let lost := if (t.element (t.index m)).inserted then 1 else 0
    { t.setElement (t.index m) ⟨false, true, none⟩ with
      eot := some m.transaction, count := t.count - lost }
  else t

end Transaction

/-! ### Claims of a transaction -/

namespace DataReader

variable {ι : Type} [DecidableEq ι]

/-- `v_dataReaderInstanceReleaseResource`. -/
def release (i : ι) (r : DataReader ι) : DataReader ι :=
  r.update i (InstanceState.releaseResource (r.state i))

/-- `v_dataReaderHistoryCount`. -/
def historyCount [Fintype ι] (r : DataReader ι) : ℤ := ∑ i, (r.inst i).historySampleCount

end DataReader

/-- `v_writeResult`, as far as a transaction returns it. -/
inductive WriteResult
  | success
  | successNotStored
  | rejected
deriving DecidableEq

namespace Transaction

variable {ι : Type} [DecidableEq ι]

def abortElement (e : TransactionElement ι) : TransactionElement ι :=
  match e.content with
  | none => { e with endOfTransaction := false }
  | some (_, m) => if m.neverLost then e else { e with content := none }

/-- The loop of `v_transactionAbort`: the resources that have been claimed are released. -/
def releaseElements : List (TransactionElement ι) → DataReader ι → DataReader ι
  | [], r => r
  | e :: elements, r =>
    releaseElements elements <|
      match e.content with
      | none => r
      | some (i, m) => if !m.neverLost && m.message.state.write then r.release i else r

/-- `v_transactionAbort`. -/
def abort (t : Transaction ι) (r : DataReader ι) : Transaction ι × DataReader ι :=
  if t.aborted then (t, r)
  else ({ t with aborted := true, elements := t.elements.map abortElement },
    releaseElements t.elements r)

/-- The first part of `v_transactionInsertMessage`: a message with an instance claims a resource. -/
def claim [Fintype ι] (qos : ReaderQos) (inst : Option ι) (m : TransactionMessage) (abort : Bool)
    (t : Transaction ι) (r : DataReader ι) : WriteResult × DataReader ι :=
  if m.neverLost && inst.isSome then (.success, r)
  else if t.aborted || abort then (.successNotStored, r)
  else
    match inst with
    | none => (.success, r)
    | some i =>
      match InstanceState.claimResource qos m.message .groupWrite (r.state i) with
      | (.instanceFull, _) => (.successNotStored, r)
      | (.maxSamples, _) => (if r.historyCount = 0 then .successNotStored else .rejected, r)
      | (_, st) => (.success, r.update i st)

/-- `v_transactionInsertMessage`, for a message that does not end the transaction. -/
def insertMessage [Fintype ι] (qos : ReaderQos) (inst : Option ι) (m : TransactionMessage)
    (abort : Bool) (t : Transaction ι) (r : DataReader ι) :
    WriteResult × Transaction ι × DataReader ι :=
  let out := claim qos inst m abort t r
  match out.1 with
  | .success =>
    let again := if (t.element (t.index m)).inserted then 1 else 0
    (.success, { t.setElement (t.index m) ⟨true, false, inst.map (·, m)⟩ with
      count := t.count + 1 - again }, out.2)
  | .rejected => (.rejected, t, out.2)
  | .successNotStored => (.success, Transaction.abort { t with count := t.count + 1 } out.2)

end Transaction

/-! ### Readers with transactions -/

/-- A data reader with its transactions, and with the elements of those that are being flushed. -/
structure CoherentReader (ι : Type) where
  data : DataReader ι
  transactions : List (Transaction ι)
  flushing : List (TransactionElement ι)

inductive CoherentOp (ι : Type)
  /-- An operation that has nothing to do with a transaction. -/
  | plain (i : ι) (op : InstanceOp)
  /-- `v_dataReaderInstanceInsert` for a message of a transaction. -/
  | insert (i : ι) (m : TransactionMessage)
  /-- A message of a transaction that has no instance. -/
  | insertFiltered (m : TransactionMessage) (abort : Bool)
  /-- `v_dataReaderEntryWriteEOT`. -/
  | writeEOT (m : TransactionMessage)
  /-- `v_transactionAbort`. -/
  | abort (writerGID : Gid) (transactionId : ℕ)
  /-- A transaction is taken out to be flushed. -/
  | complete (writerGID : Gid) (transactionId : ℕ)
  /-- `v_dataReaderEntryFlushTransactionNoLock` for the next element. -/
  | flushElement (clock : Clock)

namespace CoherentReader

variable {ι : Type} [DecidableEq ι]

omit [DecidableEq ι] in
/-- `v_transactionAdminLookupWriter` and `v_transactionWriterLookupTransaction`: the transaction,
which is created if it does not exist, and the others. -/
def lookup (writerGID : Gid) (transactionId : ℕ) (r : CoherentReader ι) :
    Transaction ι × List (Transaction ι) :=
  let same (t : Transaction ι) : Bool :=
    t.writerGID = writerGID && t.transactionId = transactionId
  match r.transactions.find? same with
  | some t => (t, r.transactions.eraseP same)
  | none => (.new writerGID transactionId, r.transactions)

/-- `v_transactionAdminInsertMessage`, without the flush. -/
def adminInsert [Fintype ι] (qos : ReaderQos) (inst : Option ι) (m : TransactionMessage)
    (abort : Bool) (r : CoherentReader ι) : CoherentReader ι :=
  let found := r.lookup m.message.writerGID m.transactionId
  let out := Transaction.insertMessage qos inst m abort found.1 r.data
  { r with data := out.2.2, transactions := out.2.1 :: found.2 }

def apply [Fintype ι] (qos : ReaderQos) : CoherentOp ι → CoherentReader ι →
    Option (CoherentReader ι)
  | .plain i op, r =>
    (op.apply qos (r.data.state i)).map fun st ↦ { r with data := r.data.update i st }
  | .insert i m, r =>
    let out := InstanceState.prepareInsert qos m.message .groupWrite (r.data.state i)
    let inst := if out.1 = .notOwner then none else some i
    some (adminInsert qos inst m false { r with data := r.data.update i out.2 })
  | .insertFiltered m abort, r => some (adminInsert qos none m abort r)
  | .writeEOT m, r =>
    let found := r.lookup m.message.writerGID m.transactionId
    some { r with transactions := found.1.storeMessageEOT m :: found.2 }
  | .abort writerGID transactionId, r =>
    let found := r.lookup writerGID transactionId
    let out := found.1.abort r.data
    some { r with data := out.2, transactions := out.1 :: found.2 }
  | .complete writerGID transactionId, r =>
    let found := r.lookup writerGID transactionId
    some { r with
      transactions := found.2
      flushing := r.flushing ++ found.1.elements.takeWhile fun e ↦ !e.endOfTransaction }
  | .flushElement clock, r =>
    match r.flushing with
    | [] => none
    | e :: flushing =>
      match e.content with
      | none => some { r with flushing := flushing }
      | some (i, m) => some { r with
          data := r.data.update i
            (InstanceState.instanceInsert qos clock m.message .transactionFlush (r.data.state i)).2
          flushing := flushing }

/-- A message is of one of the kinds that writers write. One that cannot be lost carries no data. -/
def WellFormed : CoherentOp ι → Prop
  | .plain _ (.insert clock message context) =>
    (InstanceOp.insert clock message context).WellFormed ∧ context ≠ .transactionFlush
  | .insert _ m =>
    (m.message.state.register = false → HasKind m.message) ∧
      (m.neverLost = true → m.message.state.write = false)
  | _ => True

/-- The readers that are reached when every operation meets a condition. -/
inductive Reach [Fintype ι] (qos : ReaderQos) (P : CoherentOp ι → CoherentReader ι → Prop)
    (r₀ : CoherentReader ι) : CoherentReader ι → Prop
  | refl : Reach qos P r₀ r₀
  | step {r r' : CoherentReader ι} (hr : Reach qos P r₀ r) (op : CoherentOp ι)
      (hwf : WellFormed op) (hP : P op r) (h : apply qos op r = some r') : Reach qos P r₀ r'
  | other {r : CoherentReader ι} (hr : Reach qos P r₀ r) (i : ι) {st : InstanceState}
      (h : ∀ claims, st.view claims = (r.data.state i).view claims) :
      Reach qos P r₀ { r with data := r.data.update i st }

def run [Fintype ι] (qos : ReaderQos) (P : CoherentOp ι → CoherentReader ι → Bool) :
    List (CoherentOp ι) → CoherentReader ι → Option (CoherentReader ι)
  | [], r => some r
  | op :: ops, r =>
    if P op r then
      match apply qos op r with
      | some r' => run qos P ops r'
      | none => none
    else none

lemma Reach.run [Fintype ι] {qos : ReaderQos} {P : CoherentOp ι → CoherentReader ι → Bool}
    {r₀ r r' : CoherentReader ι} (hr : Reach qos (P · ·) r₀ r) {ops : List (CoherentOp ι)}
    (hwf : ∀ op ∈ ops, WellFormed op) (h : run qos P ops r = some r') :
    Reach qos (P · ·) r₀ r' := by
  induction ops generalizing r with
  | nil =>
    obtain rfl := Option.some_inj.mp h
    exact hr
  | cons op _ ih =>
    rw [CoherentReader.run] at h
    split_ifs at h with hP
    split at h
    · rename_i r1 happly
      exact ih (.step hr op (hwf _ List.mem_cons_self) hP happly)
        (fun op hop ↦ hwf op (List.mem_cons_of_mem _ hop)) h
    · simp at h

end CoherentReader

end OpenSplice.Kernel
