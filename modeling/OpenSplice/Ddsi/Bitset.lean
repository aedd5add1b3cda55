import Mathlib

/-!
# Bit sets

The operations of `q_bitset_template.c` on an array of as many words as `numbits` bits need, where
an access behind it fails. `nn_bitset_one` clears bits of word `numbits / 32`, which is behind the
array if `numbits` is a multiple of 32, and `numbits + 31` may wrap around.
-/

set_option autoImplicit false

namespace OpenSplice.Ddsi.Bitset

open BitVec Function

abbrev Words : Type := ℕ → BitVec 32

variable {numbits : ℕ}

/-- An access to word `k`. -/
def modifyWord (numbits k : ℕ) (f : BitVec 32 → BitVec 32) (bits : Words) : Option Words :=
  if k < (numbits + 31) / 32 then some (update bits k (f (bits k))) else none

/-- `memset`, for as many words as the callers compute. -/
def memset (numbits : ℕ) (w : BitVec 32) (bits : Words) : Option Words :=
  let k := (numbits + 31) % 2 ^ 32 / 32
  if k ≤ (numbits + 31) / 32 then some fun i ↦ if i < k then w else bits i else none

def nnBitsetIsset (numbits : ℕ) (bits : Words) (idx : ℕ) : Option Bool :=
  if idx < numbits then
    if idx / 32 < (numbits + 31) / 32 then
      some ((bits (idx / 32) &&& 1#32 <<< (31 - idx % 32)) != 0)
    else none
  else some false

inductive Op (numbits : ℕ)
  | zero
  | one
  | set (idx : Fin numbits)
  | clear (idx : Fin numbits)
deriving DecidableEq

/-- `nn_bitset_zero`, `nn_bitset_one`, `nn_bitset_set` and `nn_bitset_clear`. -/
def Op.call (bits : Words) : Op numbits → Option Words
  | zero => memset numbits 0 bits
  | one => (memset numbits (allOnes 32) bits).bind
      (modifyWord numbits (numbits / 32) (· &&& ~~~(allOnes 32 >>> (numbits % 32))))
  | set idx => modifyWord numbits (idx / 32) (· ||| 1#32 <<< (31 - idx.val % 32)) bits
  | clear idx => modifyWord numbits (idx / 32) (· &&& ~~~(1#32 <<< (31 - idx.val % 32))) bits

/-- What an operation is to make of a bit. -/
def Op.apply (idx : ℕ) (b : Bool) : Op numbits → Bool
  | zero => false
  | one => true
  | set i => idx = i || b
  | clear i => idx ≠ i && b

def bit (bits : Words) (idx : ℕ) : Bool := (bits (idx / 32)).getLsbD (31 - idx % 32)

/-- The operations keep to the array, and `nn_bitset_isset` then reports the set they define. -/
def Correct (ops : List (Op numbits)) (bits : Words) : Prop :=
  ∃ bits', ops.foldlM Op.call bits = some bits' ∧ ∀ idx, nnBitsetIsset numbits bits' idx =
    some (decide (idx < numbits) && ops.foldl (Op.apply idx) (bit bits idx))

variable (bits : Words) {idx : ℕ}

lemma nnBitsetIsset_eq :
    nnBitsetIsset numbits bits idx = some (decide (idx < numbits) && bit bits idx) := by
  have hone : ∀ i < 32, twoPow 32 i ≠ 0 := by decide
  unfold nnBitsetIsset
  split
  next hidx =>
    rw [if_pos (by omega), ← twoPow_eq, and_twoPow]
    have := hone (31 - idx % 32) (by omega)
    split <;> simp_all [bit]
  next hidx => simp [hidx]

lemma bit_update {k : ℕ} {w : BitVec 32} : bit (update bits k w) idx =
    if idx / 32 = k then w.getLsbD (31 - idx % 32) else bit bits idx := by
  unfold bit
  split <;> simp_all

/-- What an operation asks of the size: `numbits + 31` does not wrap where it is computed, and
`nn_bitset_one` has a last word that is not full. -/
def Op.fits : Op numbits → Bool
  | zero => numbits + 31 < 2 ^ 32
  | one => numbits + 31 < 2 ^ 32 && ¬ 32 ∣ numbits
  | _ => true

lemma call_spec {op : Op numbits} (hfits : op.fits) :
    ∃ bits', op.call bits = some bits' ∧
      ∀ idx < numbits, bit bits' idx = op.apply idx (bit bits idx) := by
  have hset (hn : numbits + 31 < 2 ^ 32) : ∀ w, ∃ bits', memset numbits w bits = some bits' ∧
      ∀ idx < numbits, bit bits' idx = w.getLsbD (31 - idx % 32) := fun w ↦
    ⟨_, if_pos (by omega), fun idx hidx ↦ by rw [bit, if_pos (by omega)]⟩
  cases op with
  | zero =>
    obtain ⟨bits', hcall, hbit⟩ := hset (of_decide_eq_true hfits) 0
    exact ⟨bits', hcall, fun idx hidx ↦ by simp [hbit idx hidx, Op.apply]⟩
  | one =>
    simp only [Op.fits, Bool.and_eq_true, decide_eq_true_eq] at hfits
    obtain ⟨bits', hcall, hbit⟩ := hset hfits.1 (allOnes 32)
    refine ⟨_, by rw [Op.call, hcall, Option.bind_some, modifyWord, if_pos (by omega)],
      fun idx hidx ↦ ?_⟩
    replace hbit := hbit idx hidx
    rw [getLsbD_allOnes] at hbit
    rw [bit_update, getLsbD_and, getLsbD_not, getLsbD_ushiftRight, getLsbD_allOnes]
    grind [Op.apply, bit]
  | set i =>
    refine ⟨_, if_pos (by omega), fun idx _ ↦ ?_⟩
    rw [bit_update, ← twoPow_eq, getLsbD_or, getLsbD_twoPow]
    grind [Op.apply, bit]
  | clear i =>
    refine ⟨_, if_pos (by omega), fun idx _ ↦ ?_⟩
    rw [bit_update, ← twoPow_eq, getLsbD_and, getLsbD_not, getLsbD_twoPow]
    grind [Op.apply, bit]

lemma foldlM_call {ops : List (Op numbits)} (hfits : ∀ op ∈ ops, op.fits) :
    ∃ bits', ops.foldlM Op.call bits = some bits' ∧
      ∀ idx < numbits, bit bits' idx = ops.foldl (Op.apply idx) (bit bits idx) := by
  induction ops generalizing bits with
  | nil => exact ⟨bits, rfl, fun _ _ ↦ rfl⟩
  | cons op ops ih =>
    obtain ⟨hop, hops⟩ := List.forall_mem_cons.mp hfits
    obtain ⟨bits', hcall, hbit⟩ := call_spec bits hop
    obtain ⟨bits'', hrun, hbits⟩ := ih bits' hops
    refine ⟨bits'', by simp [hcall, hrun], fun idx hidx ↦ ?_⟩
    rw [hbits idx hidx, hbit idx hidx, List.foldl_cons]

lemma foldlM_call_of_one (hn : numbits < 2 ^ 32) (hdvd : 32 ∣ numbits) {ops : List (Op numbits)}
    (hone : .one ∈ ops) : ops.foldlM Op.call bits = none := by
  induction ops generalizing bits with
  | nil => simp at hone
  | cons op ops ih =>
    rw [List.foldlM_cons]
    rcases List.mem_cons.mp hone with rfl | hone
    · rw [Op.call, memset, if_pos (by omega), Option.bind_some, modifyWord, if_neg (by omega)]
      rfl
    · cases op.call bits with
      | none => rfl
      | some bits' => exact ih bits' hone

/-- Unless `numbits + 31` wraps around, the operations on an array are correct exactly if
`nn_bitset_one` is not among them when `numbits` is a multiple of 32. -/
theorem bitset_iff (hn : numbits < 2 ^ 32) (ops : List (Op numbits))
    (hwrap : 2 ^ 32 ≤ numbits + 31 → .zero ∉ ops ∧ .one ∉ ops) (bits : Words) :
    Correct ops bits ↔ (32 ∣ numbits → .one ∉ ops) := by
  refine ⟨fun ⟨bits', hrun, _⟩ hdvd hone ↦ ?_, fun hone ↦ ?_⟩
  · rw [foldlM_call_of_one bits hn hdvd hone] at hrun
    cases hrun
  · have hfits : ∀ op ∈ ops, op.fits := by
      rintro (_ | _ | _ | _) hop <;> simp only [Op.fits, Bool.and_eq_true, decide_eq_true_eq]
      · exact not_le.mp fun hle ↦ (hwrap hle).1 hop
      · exact ⟨not_le.mp fun hle ↦ (hwrap hle).2 hop, fun hdvd ↦ hone hdvd hop⟩
    obtain ⟨bits', hrun, hbit⟩ := foldlM_call bits hfits
    refine ⟨bits', hrun, fun idx ↦ ?_⟩
    rw [nnBitsetIsset_eq]
    grind

/-- Two words of which bits are set and cleared, and all bits of a part of a word. -/
theorem bitset_correct :
    Correct [.zero, .set 40, .set 3, (.clear 40 : Op 64)] 0 ∧
      Correct [.one, (.clear 2 : Op 5)] 0 :=
  ⟨(bitset_iff (by decide) _ (by decide) 0).mpr (by simp),
    (bitset_iff (by decide) _ (by decide) 0).mpr (by decide)⟩

/-- The word behind the array is touched. -/
theorem bitset_overrun : ¬ Correct [(.one : Op 32)] 0 := by
  rintro ⟨bits', hrun, -⟩
  contradiction

end OpenSplice.Ddsi.Bitset
