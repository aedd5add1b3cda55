import Mathlib

/-!
# Tables ordered by a comparison function

A table keeps its entries in the order of a comparison of their keys and refuses an entry whose key
compares equal to one it has. Nothing is known of the comparison in general, so the lemmas ask that
it is a strict total order on the keys that take part (`StrictTotalOn`). Then an insertion either
finds the entry with the same key (`insert_of_mem`) or puts the new one at its place
(`insert_of_notMem`).
-/

set_option autoImplicit false

namespace OpenSplice.Library.OrderedTable

open List

variable {α κ : Type*} {l : List α}

/-- A comparison is a strict total order on some keys. -/
structure StrictTotalOn (cmp : κ → κ → Ordering) (S : Set κ) : Prop where
  eq_iff : ∀ a ∈ S, ∀ b ∈ S, cmp a b = .eq ↔ a = b
  gt_iff : ∀ a ∈ S, ∀ b ∈ S, cmp a b = .gt ↔ cmp b a = .lt
  trans : ∀ a ∈ S, ∀ b ∈ S, ∀ c ∈ S, cmp a b = .lt → cmp b c = .lt → cmp a c = .lt

variable (key : α → κ) (cmp : κ → κ → Ordering)

def insert (x : α) : List α → Option α × List α
  | [] => (none, [x])
  | y :: ys =>
    match cmp (key x) (key y) with
    | .lt => (none, x :: y :: ys)
    | .eq => (some y, y :: ys)
    | .gt => ((insert x ys).1, y :: (insert x ys).2)

def Sorted (l : List α) : Prop := l.Pairwise fun a b ↦ cmp (key a) (key b) = .lt

variable {key cmp} {S : Set κ}

section

variable (hcmp : StrictTotalOn cmp S)
include hcmp

lemma insert_of_mem {x : α} (hx : key x ∈ S)
    (hl : ∀ y ∈ l, key y ∈ S) (hsorted : Sorted key cmp l) (hmem : ∃ y ∈ l, key y = key x) :
    ∃ y ∈ l, key y = key x ∧ insert key cmp x l = (some y, l) := by
  induction l with
  | nil => simp at hmem
  | cons y ys ih =>
    have hy := hl y mem_cons_self
    rw [Sorted, pairwise_cons] at hsorted
    unfold insert
    cases horder : cmp (key x) (key y) with
    | lt =>
      -- The key of `x` would be below all of the table, so below itself.
      obtain ⟨z, hz, hzx⟩ := hmem
      have hxz : cmp (key x) (key z) = .lt := by
        rcases mem_cons.mp hz with rfl | hz'
        · exact horder
        · exact hcmp.trans _ hx _ hy _ (hl z hz) horder (hsorted.1 z hz')
      rw [hzx, (hcmp.eq_iff _ hx _ hx).mpr rfl] at hxz
      exact absurd hxz (by decide)
    | eq => exact ⟨y, mem_cons_self, ((hcmp.eq_iff _ hx _ hy).mp horder).symm, rfl⟩
    | gt =>
      have hne : key y ≠ key x := by
        intro h
        rw [h, (hcmp.eq_iff _ hx _ hx).mpr rfl] at horder
        exact absurd horder (by decide)
      obtain ⟨z, hz, hzx⟩ := hmem
      have hz : z ∈ ys := by
        rcases mem_cons.mp hz with rfl | hz'
        · exact absurd hzx hne
        · exact hz'
      obtain ⟨w, hw, hwx, hinsert⟩ :=
        ih (fun a ha ↦ hl a (mem_cons_of_mem y ha)) hsorted.2 ⟨z, hz, hzx⟩
      exact ⟨w, mem_cons_of_mem y hw, hwx, by simp only [hinsert]⟩

lemma insert_of_notMem {x : α} (hx : key x ∈ S)
    (hl : ∀ y ∈ l, key y ∈ S) (hsorted : Sorted key cmp l) (hmem : ∀ y ∈ l, key y ≠ key x) :
    (insert key cmp x l).1 = none ∧ Sorted key cmp (insert key cmp x l).2 ∧
      (insert key cmp x l).2.Perm (x :: l) := by
  induction l with
  | nil => exact ⟨rfl, pairwise_singleton _ _, List.Perm.refl _⟩
  | cons y ys ih =>
    have hy := hl y mem_cons_self
    have htail := pairwise_cons.mp hsorted
    unfold insert
    cases horder : cmp (key x) (key y) with
    | lt =>
      refine ⟨rfl, pairwise_cons.mpr ⟨fun z hz ↦ ?_, hsorted⟩, List.Perm.refl _⟩
      rcases mem_cons.mp hz with rfl | hz'
      · exact horder
      · exact hcmp.trans _ hx _ hy _ (hl z hz) horder (htail.1 z hz')
    | eq => exact absurd ((hcmp.eq_iff _ hx _ hy).mp horder).symm (hmem y mem_cons_self)
    | gt =>
      obtain ⟨hnone, hrest, hperm⟩ := ih (fun a ha ↦ hl a (mem_cons_of_mem y ha)) htail.2
        fun a ha ↦ hmem a (mem_cons_of_mem y ha)
      refine ⟨hnone, pairwise_cons.mpr ⟨fun z hz ↦ ?_, hrest⟩,
        (hperm.cons y).trans (List.Perm.swap x y ys)⟩
      rcases mem_cons.mp (hperm.mem_iff.mp hz) with rfl | hz'
      · exact (hcmp.gt_iff _ hx _ hy).mp horder
      · exact htail.1 z hz'

lemma Sorted.nodup (hl : ∀ y ∈ l, key y ∈ S) (hsorted : Sorted key cmp l) : (l.map key).Nodup := by
  refine List.Pairwise.map key (fun a b h ↦ h) (hsorted.imp_of_mem fun {a b} ha hb hlt heq ↦ ?_)
  rw [(hcmp.eq_iff _ (hl a ha) _ (hl b hb)).mpr heq] at hlt
  exact absurd hlt (by decide)

end

end OpenSplice.Library.OrderedTable
