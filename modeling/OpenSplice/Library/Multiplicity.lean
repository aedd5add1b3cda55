import Mathlib

/-!
# How often a list has its elements

A list told as the multiset sum of its elements, each as often as it stands in the list. Passes over
a list, each of which takes some of its elements, take an element as often as passes take it
(`sum_flatMap_filter`), and two sums over a list without repetitions are the same only if every
element has the same multiplicity in both (`sum_nsmul_inj`).
-/

set_option autoImplicit false

namespace OpenSplice.Library

open List

variable {α β M : Type*} {l : List α} (f : α → List β) (p : α → Bool) {a : α}

lemma coe_flatMap (l : List α) :
    ((l.flatMap f : List β) : Multiset β) = (l.map fun a ↦ (f a : Multiset β)).sum := by
  rw [← Multiset.coe_bind]
  rfl

lemma sum_map_flatMap [AddCommMonoid M] (g : β → M) (l : List α) :
    ((l.flatMap f).map g).sum = (l.map fun a ↦ ((f a).map g).sum).sum := by
  rw [map_flatMap, flatMap_def, sum_flatten, map_map]
  rfl

/-- The passes `p` over a list: an element is taken as often as passes take it. -/
lemma sum_flatMap_filter [AddCommMonoid M] {ρ : Type*} (p : ρ → α → Bool) (g : α → M)
    (passes : List ρ) (l : List α) :
    ((passes.flatMap fun r ↦ l.filter (p r)).map g).sum =
      (l.map fun a ↦ passes.countP (p · a) • g a).sum := by
  induction passes with
  | nil => simp
  | cons r _ ih =>
    rw [flatMap_cons, map_append, sum_append, ih]
    simp [countP_cons, add_nsmul, ite_smul, sum_map_add, sum_map_ite, add_comm]

lemma count_sum_nsmul [DecidableEq α] (hnodup : l.Nodup) (f : α → ℕ) (ha : a ∈ l) :
    ((l.map fun b ↦ f b • ({b} : Multiset α)).sum).count a = f a := by
  rw [← sum_toFinset _ hnodup, Multiset.count_sum']
  simp [Multiset.count_singleton, ha]

/-- Sums over a list without repetitions have equal multiplicities. -/
lemma sum_nsmul_inj (hnodup : l.Nodup) {f g : α → ℕ} :
    (l.map fun a ↦ f a • ({a} : Multiset α)).sum = (l.map fun a ↦ g a • ({a} : Multiset α)).sum ↔
      ∀ a ∈ l, f a = g a := by
  classical
  constructor
  · intro heq a ha
    rw [← count_sum_nsmul hnodup f ha, heq, count_sum_nsmul hnodup g ha]
  · intro heq
    refine congrArg sum (map_congr_left fun a ha ↦ ?_)
    rw [heq a ha]

lemma coe_filter_eq_sum (l : List α) : ((l.filter p : List α) : Multiset α) =
      (l.map fun a ↦ (if p a then 1 else 0) • ({a} : Multiset α)).sum := by
  rw [← Multiset.sum_map_singleton (l.filter p : Multiset α)]
  simp [ite_smul, sum_map_ite, -Multiset.sum_map_singleton]

end OpenSplice.Library
