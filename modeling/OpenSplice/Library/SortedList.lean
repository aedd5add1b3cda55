import Mathlib

/-!
# Lists in strictly increasing order

An element is put in its place behind those that are smaller (`pairwise_insert`), also when some of
the smallest are dropped.

`GreatestOf d S l` says that the list holds the `d` greatest elements of a set, or all of them if
there are fewer. It is kept up when the element added to the set is in the list already
(`GreatestOf.insert_mem`), is too small (`GreatestOf.insert_below`), or takes its place in the list
and pushes the smallest out if there is no room (`GreatestOf.insert_between`).
-/

set_option autoImplicit false

namespace OpenSplice.Library.SortedList

open List

variable {κ : Type*} [LinearOrder κ]

lemma le_getLast {l : List κ} {x last : κ} (h : l.Pairwise (· < ·)) (hx : x ∈ l)
    (hlast : l.getLast? = some last) : x ≤ last := by
  obtain ⟨init, rfl⟩ := getLast?_eq_some_iff.mp hlast
  rcases mem_append.mp hx with hinit | hsingle
  · exact ((pairwise_append.mp h).2.2 x hinit last (mem_singleton_self last)).le
  · exact (mem_singleton.mp hsingle).le

/-- An element is inserted between the smaller and the greater ones. -/
lemma pairwise_insert {pushed older newer : List κ} {k : κ}
    (h : (pushed ++ (older ++ newer)).Pairwise (· < ·))
    (holder : ∀ x, (pushed ++ older).getLast? = some x → x < k) (hnewer : ∀ x ∈ newer, k < x) :
    (older ++ k :: newer).Pairwise (· < ·) := by
  have hfront : (pushed ++ older).Pairwise (· < ·) := by
    rw [← append_assoc] at h
    exact (pairwise_append.mp h).1
  have hrest := pairwise_append.mp (pairwise_append.mp h).2.1
  have hbefore : ∀ x ∈ older, x < k := by
    intro x hx
    rcases hlast : (pushed ++ older).getLast? with - | last
    · simp only [getLast?_eq_none_iff, append_eq_nil_iff] at hlast
      simp [hlast.2] at hx
    · exact (le_getLast hfront (mem_append_right pushed hx) hlast).trans_lt (holder last hlast)
  refine pairwise_append.mpr ⟨hrest.1, pairwise_cons.mpr ⟨hnewer, hrest.2.1⟩, ?_⟩
  intro x hx y hy
  rcases mem_cons.mp hy with rfl | hy
  · exact hbefore x hx
  · exact hrest.2.2 x hx y hy

/-- The list holds the `d` greatest elements of the set. -/
structure GreatestOf (d : ℕ) (S : Set κ) (l : List κ) : Prop where
  pairwise : l.Pairwise (· < ·)
  mem : ∀ x ∈ l, x ∈ S
  length_le : l.length ≤ d
  covers : ∀ x ∈ S, x ∈ l ∨ l.length = d ∧ ∀ y ∈ l, x < y

namespace GreatestOf

variable {d : ℕ} {S : Set κ} {l pushed older newer : List κ} {k : κ}

lemma empty : GreatestOf d (∅ : Set κ) [] := ⟨.nil, by simp, by simp, by simp⟩

lemma insert_mem (h : GreatestOf d S l) (hk : k ∈ l) : GreatestOf d (insert k S) l := by
  rwa [Set.insert_eq_of_mem (h.mem k hk)]

lemma insert_below (h : GreatestOf d S l) (hfull : l.length = d) (hk : ∀ x ∈ l, k < x) :
    GreatestOf d (insert k S) l := by
  refine ⟨h.pairwise, fun x hx ↦ Set.mem_insert_of_mem k (h.mem x hx), h.length_le, ?_⟩
  rintro x (rfl | hx)
  · exact .inr ⟨hfull, hk⟩
  · exact h.covers x hx

/-- An element takes its place, and the least ones are pushed out unless there is room. -/
lemma insert_between (h : GreatestOf d S (pushed ++ (older ++ newer)))
    (holder : ∀ x ∈ pushed ++ older, x < k) (hnewer : ∀ x ∈ newer, k < x)
    (hroom : (older ++ newer).length < d)
    (hpushed : pushed = [] ∨ (older ++ newer).length + 1 = d) :
    GreatestOf d (insert k S) (older ++ k :: newer) := by
  have hlength : (older ++ k :: newer).length = (older ++ newer).length + 1 := by
    simp [Nat.add_assoc]
  have hpairwise : (older ++ k :: newer).Pairwise (· < ·) :=
    pairwise_insert h.pairwise (fun x hx ↦ holder x (mem_of_getLast? hx)) hnewer
  have habove : ∀ x, (∀ y ∈ older ++ newer, x < y) → x < k → ∀ y ∈ older ++ k :: newer, x < y := by
    intro x hx hxk
    rw [forall_mem_append] at hx
    exact forall_mem_append.mpr ⟨hx.1, forall_mem_cons.mpr ⟨hxk, hx.2⟩⟩
  have hlt : ∀ x ∈ pushed, ∀ y ∈ older ++ newer, x < y := (pairwise_append.mp h.pairwise).2.2
  refine ⟨hpairwise, ?_, by omega, ?_⟩
  · rw [forall_mem_append, forall_mem_cons]
    exact ⟨fun x hx ↦ .inr (h.mem x (by simp [hx])), .inl rfl,
      fun x hx ↦ .inr (h.mem x (by simp [hx]))⟩
  · rintro x (rfl | hx)
    · exact .inl (by simp)
    · rcases h.covers x hx with hmem | ⟨hfull, hbelow⟩
      · rcases mem_append.mp hmem with hmem | hmem
        · -- A pushed element is below all that stay, and then there was no room.
          refine .inr ⟨?_, habove x (hlt x hmem) (holder x (mem_append_left older hmem))⟩
          rcases hpushed with rfl | hroom'
          · simp at hmem
          · omega
        · exact .inl (by
            rcases mem_append.mp hmem with hmem | hmem <;> simp [hmem])
      · -- What the list had no room for is below something that makes room for the new element.
        rcases pushed with - | ⟨y, pushed⟩
        · simp only [nil_append] at hfull
          omega
        · have hfull' : (older ++ newer).length + 1 = d := hpushed.resolve_left (by simp)
          have hxk : x < k := (hbelow y (by simp)).trans (holder y (by simp))
          exact .inr ⟨by omega, habove x (fun z hz ↦ hbelow z (by simp_all)) hxk⟩

end GreatestOf

end OpenSplice.Library.SortedList
