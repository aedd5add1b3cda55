import Mathlib

/-!
# Places in a ring

A ring of `depth` places has a head, which moves to the `next` place with every entry that is
written. The `age` of a place is the number of entries written after the one it holds, so that the
head has age `0` and the place behind it, which will be overwritten next, has age `depth - 1`.
-/

set_option autoImplicit false

namespace OpenSplice.Library.Ring

def next (depth pos : ℕ) : ℕ := if pos + 1 = depth then 0 else pos + 1

def age (depth head pos : ℕ) : ℕ := head + (if head < pos then depth else 0) - pos

def place (depth head d : ℕ) : ℕ :=
  if depth ≤ head + depth - d then head + depth - d - depth else head + depth - d

variable {depth head pos d : ℕ}

lemma next_lt (hpos : pos < depth) : next depth pos < depth := by
  unfold next
  split_ifs <;> omega

@[simp] lemma age_head : age depth head head = 0 := by
  simp [age]

lemma age_eq_zero (hpos : pos < depth) : age depth head pos = 0 ↔ pos = head := by
  unfold age
  split_ifs <;> omega

lemma age_injective (head : ℕ) {pos' : ℕ} (hpos : pos < depth) (hpos' : pos' < depth)
    (h : age depth head pos = age depth head pos') : pos = pos' := by
  unfold age at h
  split_ifs at h <;> omega

lemma age_next_head (hpos : pos < depth) (hne : pos ≠ next depth head) :
    age depth (next depth head) pos = age depth head pos + 1 := by
  unfold age next at *
  split_ifs at * <;> omega

section

variable (hhead : head < depth)
include hhead

lemma age_next_self : age depth head (next depth head) = depth - 1 := by
  unfold age next
  split_ifs <;> omega

lemma age_lt (hpos : pos < depth) : age depth head pos < depth := by
  unfold age
  split_ifs <;> omega

lemma age_place (hd : d < depth) : age depth head (place depth head d) = d := by
  unfold age place
  split_ifs <;> omega

lemma iterate_next_lt (k : ℕ) : (next depth)^[k] head < depth := by
  induction k with
  | zero => exact hhead
  | succ _ ih =>
    rw [Function.iterate_succ_apply']
    exact next_lt ih

/-- Going on from the head, the places are passed from the oldest to the youngest. -/
lemma age_iterate_next {k : ℕ} (hk : k < depth) :
    age depth head ((next depth)^[k + 1] head) = depth - (k + 1) := by
  induction k with
  | zero => exact age_next_self hhead
  | succ k ih =>
    have hage := ih (by omega)
    have hlt := iterate_next_lt hhead (k + 1)
    rw [Function.iterate_succ_apply']
    revert hage hlt
    unfold age next
    split_ifs at * <;> omega

lemma iterate_next_eq (hpos : pos < depth) :
    (next depth)^[depth - age depth head pos] head = pos := by
  have hlt := age_lt hhead hpos
  have hiter := age_iterate_next hhead (k := depth - age depth head pos - 1) (by omega)
  rw [show depth - age depth head pos - 1 + 1 = depth - age depth head pos by omega] at hiter
  refine age_injective head (iterate_next_lt hhead _) hpos ?_
  omega

end

end OpenSplice.Library.Ring
