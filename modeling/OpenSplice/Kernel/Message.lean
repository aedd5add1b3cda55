import Mathlib

/-!
# Messages of the kernel

A message carries the state bits of its kind, the time and the writer it was written by, and a
sequence number. `messageCompare` (`v_messageCompare`) puts the messages of an instance in order of
their source. For messages that are not implicit that is the linear order of the time, the writer
and the sequence number, with registrations first and unregistrations last
(`messageCompare_eq_compare`).
-/

set_option autoImplicit false

namespace OpenSplice.Kernel

/-- `v_gid`. -/
structure Gid where
  systemId : ℕ
  localId : ℕ
  serial : ℕ
deriving DecidableEq

/-- `v_gidIsValid`. -/
def Gid.isValid (gid : Gid) : Prop := gid.systemId ≠ 0 ∧ gid.localId ≠ 0 ∧ gid.serial ≠ 0

instance (gid : Gid) : Decidable gid.isValid := inferInstanceAs (Decidable (_ ∧ _))

/-- `v_gidSetNil`. -/
def Gid.nil : Gid := ⟨0, 0, 0⟩

@[simp]
lemma Gid.not_isValid_nil : ¬Gid.nil.isValid := fun h ↦ h.1 rfl

/-- `v_gidCompare`. -/
def gidCompare : Gid → Gid → Ordering :=
  compareLex (compareOn Gid.systemId) (compareLex (compareOn Gid.localId) (compareOn Gid.serial))

instance : Std.TransCmp gidCompare :=
  inferInstanceAs (Std.TransCmp (compareLex (compareOn Gid.systemId)
    (compareLex (compareOn Gid.localId) (compareOn Gid.serial))))

lemma gidCompare_eq_iff {a b : Gid} : gidCompare a b = .eq ↔ a = b := by
  rw [gidCompare, compareLex_eq_eq, compareLex_eq_eq]
  simp only [compareOn, Nat.compare_eq_eq]
  constructor
  · rintro ⟨h1, h2, h3⟩
    cases a
    simp_all
  · rintro rfl
    exact ⟨rfl, rfl, rfl⟩

instance : Std.LawfulEqCmp gidCompare where
  eq_of_compare := gidCompare_eq_iff.mp

/-! ### Messages -/

/-- The bits of `v_state` that say what a message is. -/
structure MsgState where
  write : Bool
  disposed : Bool
  register : Bool
  unregister : Bool
  implicit : Bool
  replaced : Bool
deriving DecidableEq

/-- What is read of `v_messageQos`; no lifespan is an infinite one. -/
structure MsgQos where
  exclusive : Bool
  strength : ℤ
  lifespan : Option ℤ
deriving DecidableEq

/-- `v_message`. The address tells two messages with the same contents apart. -/
structure Message where
  addr : ℕ
  state : MsgState
  allocTime : ℤ
  writeTime : ℤ
  writerGID : Gid
  sequenceNumber : ℕ
  qos : Option MsgQos
deriving DecidableEq

/-- `seqNrCompare`. -/
def seqNrCompare (m₁ m₂ : Message) : Ordering :=
  if m₁.state.implicit ∧ ¬m₂.state.implicit then .gt
  else if ¬m₁.state.implicit ∧ m₂.state.implicit then .lt
  else compare m₁.sequenceNumber m₂.sequenceNumber

/-- The last resort of `v_messageCompare`: registrations first and unregistrations last. -/
def stateCompare (inserted available : MsgState) : Ordering :=
  if inserted.register ∧ ¬available.register then .lt
  else if ¬inserted.register ∧ available.register then .gt
  else if inserted.unregister ∧ ¬available.unregister then .gt
  else if ¬inserted.unregister ∧ available.unregister then .lt
  else .eq

def messageOrder (inserted available : Message) : Ordering :=
  if (inserted.state.implicit ∨ available.state.implicit) ∧
      gidCompare inserted.writerGID available.writerGID = .eq then .gt
  else
    (compare inserted.writeTime available.writeTime).then
      ((gidCompare inserted.writerGID available.writerGID).then
        ((seqNrCompare inserted available).then (stateCompare inserted.state available.state)))

/-- `v_messageCompare`. -/
def messageCompare (inserted available : Message) : Ordering :=
  if inserted = available then .eq else messageOrder inserted available

abbrev SourceKey := ℤ ×ₗ ℕ ×ₗ ℕ ×ₗ ℕ ×ₗ ℕ ×ₗ Bool ×ₗ Bool

/-- The time, the writer and the sequence number of a message, with registrations first and
unregistrations last. -/
def Message.sourceKey (m : Message) : SourceKey :=
  toLex (m.writeTime, toLex (m.writerGID.systemId, toLex (m.writerGID.localId,
    toLex (m.writerGID.serial, toLex (m.sequenceNumber,
      toLex (!m.state.register, m.state.unregister))))))

lemma compare_sourceKey (m m' : Message) : compare m.sourceKey m'.sourceKey =
      (compare m.writeTime m'.writeTime).then
        ((gidCompare m.writerGID m'.writerGID).then
          ((compare m.sequenceNumber m'.sequenceNumber).then
            (stateCompare m.state m'.state))) := by
  simp only [Message.sourceKey, Prod.Lex.compare_def, compareLex, compareOn, gidCompare,
    ofLex_toLex, Ordering.then_assoc, stateCompare]
  cases m.state.register <;> cases m'.state.register <;> cases m.state.unregister <;>
    cases m'.state.unregister <;> simp <;> rfl

lemma messageOrder_eq_compare {m m' : Message} (h : m.state.implicit = false)
    (h' : m'.state.implicit = false) :
    messageOrder m m' = compare m.sourceKey m'.sourceKey := by
  have hseq : seqNrCompare m m' = compare m.sequenceNumber m'.sequenceNumber := by
    simp [seqNrCompare, h, h']
  rw [messageOrder, if_neg (by simp [h, h']), hseq, compare_sourceKey]

lemma messageCompare_eq_compare {m m' : Message} (h : m.state.implicit = false)
    (h' : m'.state.implicit = false) :
    messageCompare m m' = compare m.sourceKey m'.sourceKey := by
  rw [messageCompare]
  split_ifs with heq
  · rw [heq, compare_eq_iff_eq.mpr rfl]
  · exact messageOrder_eq_compare h h'

end OpenSplice.Kernel
