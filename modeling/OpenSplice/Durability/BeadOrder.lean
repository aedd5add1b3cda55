import OpenSplice.Durability.SampleChain

/-!
# The order of the beads

The table of beads needs `chainBeadCompare` to be a strict total order. The comparisons for combined
disposes and unregisters spoil it: two of them with different states, of the same time, writer and
sequence number, are both less than the other (`chainBeadCompare_lt_both`). Without such a pair it
is an order, and beads that compare equal have the same contents (`chainBead_order`).
-/

set_option autoImplicit false

namespace OpenSplice.Durability

open OpenSplice.Kernel

variable {κ : Type*}

namespace BeadMessage

def disposedUnregister (msg : BeadMessage κ) : Bool := msg.state.disposed && msg.state.unregister

/-- The bits of `MsgState` are at their places in the state of the message. -/
lemma testBit_nodeState (msg : BeadMessage κ) :
    msg.nodeState.testBit 2 = msg.state.disposed ∧
      msg.nodeState.testBit 9 = msg.state.unregister := by
  have hother (i : ℕ) (hi : (0x80B05).testBit i) : msg.otherState.testBit i = false := by
    have hand := Nat.testBit_and msg.otherState 0x80B05 i
    rwa [msg.other, Nat.zero_testBit, hi, Bool.and_true, eq_comm] at hand
  have hbit (b : Bool) (n i : ℕ) : (if b then n else 0).testBit i = (b && n.testBit i) := by
    cases b <;> simp
  simp only [nodeState, Nat.testBit_or, hbit, hother 2 (by decide), hother 9 (by decide)]
  constructor <;> simp [Nat.testBit_eq_decide_div_mod_eq]

/-- Combined disposes and unregisters that differ in their states only. -/
def Clash (a b : BeadMessage κ) : Prop :=
  a.sourceKey = b.sourceKey ∧ a.disposedUnregister = true ∧ b.disposedUnregister = true ∧
    a.nodeState ≠ b.nodeState

/-- What is compared before the keys. -/
def orderKey (msg : BeadMessage κ) : SourceKey ×ₗ Bool ×ₗ ℕ :=
  toLex (msg.sourceKey, toLex (!msg.disposedUnregister, msg.nodeState))

end BeadMessage

open BeadMessage

lemma compare_toLex {α β : Type*} [LinearOrder α] [LinearOrder β] (a a' : α) (b b' : β) :
    compare (toLex (a, b)) (toLex (a', b')) = (compare a a').then (compare b b') := by
  simp only [Prod.Lex.compare_def, compareLex, compareOn, ofLex_toLex]

variable [LinearOrder κ] {a b : BeadMessage κ}

lemma keyValuesCompare_eq {as bs : List κ} (h : as.length = bs.length) :
    keyValuesCompare as bs = compare as bs := by
  induction as generalizing bs with
  | nil => rw [List.length_eq_zero_iff.mp h.symm]; rfl
  | cons a as ih =>
    cases bs with
    | nil => simp at h
    | cons b bs => rw [keyValuesCompare, ih (by simpa using h), List.compare_cons_cons]

/-- What the comparison should be: that of the order keys, then that of the keys. -/
abbrev beadCompare : BeadMessage κ → BeadMessage κ → Ordering :=
  compareLex (compareOn orderKey) (compareOn BeadMessage.keyValues)

/-- The comparison, where no two combined messages clash. -/
lemma chainBeadCompare_eq (hia : a.state.implicit = false) (hib : b.state.implicit = false)
    (hlength : a.keyValues.length = b.keyValues.length) (hclash : ¬Clash a b) :
    chainBeadCompare a b = beadCompare a b := by
  have hstate : a.nodeState = b.nodeState → a.disposedUnregister = b.disposedUnregister := by
    intro h
    have hb := b.testBit_nodeState
    rw [disposedUnregister, disposedUnregister, ← a.testBit_nodeState.1, ← a.testBit_nodeState.2, h,
      hb.1, hb.2]
  rw [chainBeadCompare, messageOrder_eq_compare hia hib, if_pos hlength, beadCompare, compareLex,
    compareOn, compareOn, orderKey, orderKey, compare_toLex, compare_toLex,
    keyValuesCompare_eq hlength]
  cases hsource : compare a.sourceKey b.sourceKey with
  | lt => rfl
  | gt => rfl
  | eq =>
    have hboth : a.disposedUnregister → b.disposedUnregister → a.nodeState = b.nodeState := by
      intro hda hdb
      by_contra hne
      exact hclash ⟨compare_eq_iff_eq.mp hsource, hda, hdb, hne⟩
    simp only [disposedUnregister] at hstate hboth ⊢
    by_cases hne : a.nodeState = b.nodeState
    · simp [hne, hstate hne]
    · cases hda : (a.state.disposed && a.state.unregister) <;>
        cases hdb : (b.state.disposed && b.state.unregister) <;> simp_all
      all_goals rfl

/-- Both of two messages that clash are less than the other one. -/
lemma chainBeadCompare_of_clash (hia : a.state.implicit = false)
    (hib : b.state.implicit = false) (h : Clash a b) : chainBeadCompare a b = .lt := by
  obtain ⟨hsource, hda, -, hne⟩ := h
  rw [disposedUnregister] at hda
  rw [chainBeadCompare, messageOrder_eq_compare hia hib, compare_eq_iff_eq.mpr hsource]
  simp [hda, hne]

/-- What the table of beads needs of the comparison. -/
structure BeadOrder (S : Set (BeadMessage κ)) : Prop where
  swap : ∀ a ∈ S, ∀ b ∈ S, chainBeadCompare a b = (chainBeadCompare b a).swap
  trans : ∀ a ∈ S, ∀ b ∈ S, ∀ c ∈ S, chainBeadCompare a b = .lt → chainBeadCompare b c = .lt →
    chainBeadCompare a c = .lt
  same : ∀ a ∈ S, ∀ b ∈ S, chainBeadCompare a b = .eq → a.writeTime = b.writeTime ∧
    a.writerGID = b.writerGID ∧ a.sequenceNumber = b.sequenceNumber ∧ a.nodeState = b.nodeState ∧
    a.keyValues = b.keyValues

/-- The comparison is a strict total order on beads exactly if no two of them clash. -/
theorem chainBead_order (S : Set (BeadMessage κ))
    (hS : ∀ a ∈ S, a.state.implicit = false)
    (hkeys : ∀ a ∈ S, ∀ b ∈ S, a.keyValues.length = b.keyValues.length) :
    BeadOrder S ↔ ∀ a ∈ S, ∀ b ∈ S, ¬Clash a b := by
  constructor
  · intro h a ha b hb hclash
    have hswap := h.swap a ha b hb
    rw [chainBeadCompare_of_clash (hS a ha) (hS b hb) hclash,
      chainBeadCompare_of_clash (hS b hb) (hS a ha)
        ⟨hclash.1.symm, hclash.2.2.1, hclash.2.1, hclash.2.2.2.symm⟩] at hswap
    exact absurd hswap (by decide)
  · intro h
    have heq : ∀ a ∈ S, ∀ b ∈ S, chainBeadCompare a b = beadCompare a b := fun a ha b hb ↦
      chainBeadCompare_eq (hS a ha) (hS b hb) (hkeys a ha b hb) (h a ha b hb)
    refine ⟨fun a ha b hb ↦ ?_, fun a ha b hb c hc hab hbc ↦ ?_, fun a ha b hb hab ↦ ?_⟩
    · rw [heq a ha b hb, heq b hb a ha]
      exact Std.OrientedCmp.eq_swap
    · rw [heq a ha b hb] at hab
      rw [heq b hb c hc] at hbc
      rw [heq a ha c hc]
      exact Std.TransCmp.lt_trans hab hbc
    · rw [heq a ha b hb, beadCompare, compareLex_eq_eq] at hab
      have hkey : a.orderKey = b.orderKey := compare_eq_iff_eq.mp hab.1
      simp only [orderKey, Message.sourceKey, toLex_inj, Prod.mk.injEq] at hkey
      obtain ⟨⟨htime, hsystem, hlocal, hserial, hseq, -⟩, -, hstate⟩ := hkey
      exact ⟨htime, gidCompare_eq_iff.mp (by simp [gidCompare, compareLex, compareOn, *]), hseq,
        hstate, Std.LawfulEqOrd.eq_of_compare hab.2⟩

/-- A combined dispose and unregister, as a write or not. -/
def combined (write : Bool) : BeadMessage ℕ :=
  { someWrite with state := ⟨write, true, false, true, false, false⟩ }

def plainUnregister : BeadMessage ℕ :=
  { someWrite with state := ⟨false, false, false, true, false, false⟩ }

/-- A write, a combined dispose and unregister and an unregister of one time, writer and number. -/
theorem chainBead_order_of_unregister :
    BeadOrder ({someWrite, combined false, plainUnregister} : Set (BeadMessage ℕ)) ∧
      chainBeadCompare someWrite plainUnregister = .lt ∧
      chainBeadCompare (combined false) plainUnregister = .lt := by
  refine ⟨(chainBead_order _ ?_ ?_).mpr ?_, by decide, by decide⟩
  · rintro a (rfl | rfl | rfl) <;> rfl
  · rintro a (rfl | rfl | rfl) b (rfl | rfl | rfl) <;> rfl
  · rintro a (rfl | rfl | rfl) b (rfl | rfl | rfl) ⟨-, ha, hb, hne⟩
    all_goals first | exact absurd ha (by decide) | exact absurd hb (by decide) | exact hne rfl

theorem chainBeadCompare_lt_both :
    (∀ write, (combined write).state.implicit = false) ∧
      chainBeadCompare (combined false) (combined true) = .lt ∧
      chainBeadCompare (combined true) (combined false) = .lt := by
  decide

end OpenSplice.Durability
