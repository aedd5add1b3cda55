import Mathlib

/-!
# Neighbours in a set of a linear order

What the links of a doubly linked list in the order of its keys are, told from the set of the keys:
`Follows S a p` says that `p` is the least element of `S` above `a`, or nothing if there is none,
`Precedes` is the same thing downwards, and `Greatest S m` is about the far end.

When an element is removed, its neighbours become each other's (`Follows.remove`); when one is added
behind all others, the last element gets it as its neighbour (`Follows.insert_last`).
-/

set_option autoImplicit false

namespace OpenSplice.Library.Neighbour

variable {κ : Type*} [LinearOrder κ]

/-- The least element of `S` above `a`. -/
def Follows (S : Set κ) (a : κ) : Option κ → Prop
  | none => ∀ x ∈ S, x ≤ a
  | some b => b ∈ S ∧ a < b ∧ ∀ x ∈ S, a < x → b ≤ x

/-- The greatest element of `S` below `a`. -/
def Precedes (S : Set κ) (a : κ) : Option κ → Prop
  | none => ∀ x ∈ S, a ≤ x
  | some b => b ∈ S ∧ b < a ∧ ∀ x ∈ S, x < a → x ≤ b

/-- The greatest element of `S`. -/
def Greatest (S : Set κ) : Option κ → Prop
  | none => S = ∅
  | some b => b ∈ S ∧ ∀ x ∈ S, x ≤ b

variable {S : Set κ} {a c : κ} {p q m : Option κ}

lemma precedes_iff_follows_dual : Precedes S a p ↔ Follows (κ := κᵒᵈ) S a p := by
  cases p <;> rfl

lemma Follows.precedes (hp : Follows S a (some c)) (hq : Precedes S c q) (ha : a ∈ S) :
    q = some a := by
  cases q with
  | none => exact absurd (hq a ha) (not_le.mpr hp.2.1)
  | some b =>
    refine congrArg some (le_antisymm (not_lt.mp fun hab ↦ ?_) (hq.2.2 a ha hp.2.1))
    exact absurd (hp.2.2 b hq.1 hab) (not_le.mpr hq.2.1)

section

variable (hp : Follows S a p)
include hp

lemma Follows.unique (hq : Follows S a q) : p = q := by
  cases p with
  | none =>
    cases q with
    | none => rfl
    | some d => exact absurd (hp d hq.1) (not_le.mpr hq.2.1)
  | some b =>
    cases q with
    | none => exact absurd (hq b hp.1) (not_le.mpr hp.2.1)
    | some d => exact congrArg some (le_antisymm (hp.2.2 d hq.1 hq.2.1) (hq.2.2 b hp.1 hp.2.1))

lemma Follows.eq_some_iff (hq : Precedes S c q) (ha : a ∈ S) (hc : c ∈ S) :
    p = some c ↔ q = some a := by
  constructor
  · rintro rfl
    exact hp.precedes hq ha
  · rintro rfl
    exact Follows.precedes (κ := κᵒᵈ) hq hp hc

/-- When `c` is removed, the element before it is followed by the one after it. -/
lemma Follows.remove (hq : Follows S c q) : Follows (S \ {c}) a (if p = some c then q else p) := by
  split_ifs with hpc
  · subst hpc
    cases q with
    | none =>
      rintro x ⟨hx, hxc⟩
      exact not_lt.mp fun hax ↦ hxc (le_antisymm (hq x hx) (hp.2.2 x hx hax))
    | some =>
      refine ⟨⟨hq.1, ne_of_gt hq.2.1⟩, hp.2.1.trans hq.2.1, ?_⟩
      rintro x ⟨hx, hxc⟩ hax
      exact hq.2.2 x hx (lt_of_le_of_ne (hp.2.2 x hx hax) (Ne.symm hxc))
  · cases p with
    | none => exact fun x hx ↦ hp x hx.1
    | some => exact ⟨⟨hp.1, fun hbc ↦ hpc (congrArg some hbc)⟩, hp.2.1, fun x hx ↦ hp.2.2 x hx.1⟩

lemma Follows.remove_self : Follows (S \ {a}) a p := by
  have hremove := hp.remove hp
  rwa [if_neg] at hremove
  rintro rfl
  exact lt_irrefl a hp.2.1

end

lemma Precedes.unique (hp : Precedes S a p) (hq : Precedes S a q) : p = q := by
  exact Follows.unique (κ := κᵒᵈ) hp hq

/-- When `c` is removed, the element after it is preceded by the one before it. -/
lemma Precedes.remove (hp : Precedes S a p) (hq : Precedes S c q) :
    Precedes (S \ {c}) a (if p = some c then q else p) := by
  rw [precedes_iff_follows_dual] at hp hq ⊢
  exact Follows.remove hp hq

section InsertLast

variable (hc : ∀ x ∈ S, x < c)
include hc

lemma Follows.insert_last (hp : Follows S a p) (hm : Greatest S m) (ha : a ∈ S) :
    Follows (insert c S) a (if m = some a then some c else p) := by
  split_ifs with hma
  · subst hma
    refine ⟨Set.mem_insert c S, hc a ha, ?_⟩
    rintro x (rfl | hx) hax
    · exact le_refl x
    · exact absurd (hm.2 x hx) (not_le.mpr hax)
  · cases p with
    | none =>
      cases m with
      | none => exact absurd ha (Set.eq_empty_iff_forall_notMem.mp hm a)
      | some b => exact absurd (congrArg some (le_antisymm (hp b hm.1) (hm.2 a ha))) hma
    | some b =>
      refine ⟨Set.mem_insert_of_mem c hp.1, hp.2.1, ?_⟩
      rintro x (rfl | hx) hax
      · exact (hc b hp.1).le
      · exact hp.2.2 x hx hax

lemma Precedes.insert_last (hp : Precedes S a p) (ha : a ∈ S) : Precedes (insert c S) a p := by
  cases p with
  | none =>
    rintro x (rfl | hx)
    · exact (hc a ha).le
    · exact hp x hx
  | some =>
    refine ⟨Set.mem_insert_of_mem c hp.1, hp.2.1, ?_⟩
    rintro x (rfl | hx) hxa
    · exact absurd hxa (not_lt.mpr (hc a ha).le)
    · exact hp.2.2 x hx hxa

lemma follows_insert_last : Follows (insert c S) c none := by
  rintro x (rfl | hx)
  · exact le_refl x
  · exact (hc x hx).le

lemma precedes_insert_last (hm : Greatest S m) : Precedes (insert c S) c m := by
  cases m with
  | none =>
    rintro x (rfl | hx)
    · exact le_refl x
    · exact absurd hx (Set.eq_empty_iff_forall_notMem.mp hm x)
  | some b =>
    refine ⟨Set.mem_insert_of_mem c hm.1, hc b hm.1, ?_⟩
    rintro x (rfl | hx) hxc
    · exact absurd hxc (lt_irrefl x)
    · exact hm.2 x hx

lemma greatest_insert_last : Greatest (insert c S) (some c) :=
  ⟨Set.mem_insert c S, follows_insert_last hc⟩

end InsertLast

/-- The greatest element is removed, and the one before it is the greatest. -/
lemma Greatest.remove_last (hm : Greatest S (some c)) (hp : Precedes S c p) :
    Greatest (S \ {c}) p := by
  cases p with
  | none =>
    refine Set.eq_empty_iff_forall_notMem.mpr ?_
    rintro x ⟨hx, hxc⟩
    exact hxc (le_antisymm (hm.2 x hx) (hp x hx))
  | some =>
    refine ⟨⟨hp.1, ne_of_lt hp.2.1⟩, ?_⟩
    rintro x ⟨hx, hxc⟩
    exact hp.2.2 x hx (lt_of_le_of_ne (hm.2 x hx) hxc)

end OpenSplice.Library.Neighbour
