import Mathlib

/-!
# Circular doubly linked lists

Two functions `next` and `prev` link up elements. `Circular next prev l` says that the elements of
`l` form a ring in this order. A ring may be read off from any of its elements (`Circular.rotate`),
two rings can be joined (`Circular.join`), and an element can be taken out (`Circular.remove`), with
two assignments to each of the functions at most.
-/

set_option autoImplicit false

namespace OpenSplice.Library

open List Option Function

variable {α : Type} {x : α} {l : List α} {y : α} {xs : List α}

def Linked (next prev : α → α) (x y : α) : Prop := next x = y ∧ prev y = x

def Circular (next prev : α → α) : List α → Prop
  | [] => True
  | x :: xs => (x :: (xs ++ [x])).IsChain (Linked next prev)

variable {next prev next' prev' : α → α}

lemma circular_singleton : Circular next prev [x] ↔ next x = x ∧ prev x = x := by
  simp [Circular, Linked]

lemma isChain_imp {R S : α → α → Prop} (h : l.IsChain R)
    (himp : ∀ x ∈ l.dropLast, ∀ y ∈ l.tail, R x y → S x y) : l.IsChain S := by
  induction l with
  | nil => exact .nil
  | cons x l ih =>
    cases l with
    | nil => exact .singleton x
    | cons y =>
      obtain ⟨hxy, hrest⟩ := isChain_cons_cons.mp h
      refine isChain_cons_cons.mpr ⟨himp x (by simp) y (by simp) hxy, ih hrest fun z hz w hw ↦ ?_⟩
      exact himp z (by simp [hz]) w (mem_cons_of_mem y hw)

lemma isChain_linked_congr (h : l.IsChain (Linked next prev))
    (hnext : ∀ x ∈ l.dropLast, next' x = next x) (hprev : ∀ y ∈ l.tail, prev' y = prev y) :
    l.IsChain (Linked next' prev') :=
  isChain_imp h fun x hx y hy hxy ↦ ⟨(hnext x hx).trans hxy.1, (hprev y hy).trans hxy.2⟩

namespace Circular

lemma congr (h : Circular next prev l) (hnext : ∀ x ∈ l, next' x = next x)
    (hprev : ∀ x ∈ l, prev' x = prev x) : Circular next' prev' l := by
  cases l with
  | nil => trivial
  | cons =>
    refine isChain_linked_congr h (fun y hy ↦ hnext y ?_) fun y hy ↦ hprev y ?_
    · rw [← cons_append, dropLast_concat] at hy
      exact hy
    · rcases mem_append.mp hy with hy | hy
      · exact mem_cons_of_mem _ hy
      · rw [mem_singleton.mp hy]
        exact mem_cons_self

lemma rotate {l1 l2 : List α} (h : Circular next prev (x :: (l1 ++ y :: l2))) :
    Circular next prev (y :: (l2 ++ x :: l1)) := by
  have h' : ((x :: l1) ++ y :: (l2 ++ [x])).IsChain (Linked next prev) := by
    simpa [Circular] using h
  obtain ⟨hfirst, hsecond⟩ := isChain_split.mp h'
  have hgoal : ((y :: l2) ++ x :: (l1 ++ [y])).IsChain (Linked next prev) :=
    isChain_split.mpr ⟨by simpa using hsecond, by simpa using hfirst⟩
  simpa [Circular] using hgoal

lemma exists_rotation (h : Circular next prev l) (hx : x ∈ l) :
    ∃ xs, Circular next prev (x :: xs) ∧ (x :: xs).Perm l := by
  obtain ⟨l1, l2, rfl⟩ := append_of_mem hx
  cases l1 with
  | nil => exact ⟨l2, h, .refl _⟩
  | cons y l1 =>
    have hperm : (x :: l2 ++ y :: l1).Perm (y :: l1 ++ x :: l2) := perm_append_comm
    exact ⟨l2 ++ y :: l1, h.rotate, hperm⟩

lemma cons_cons (h : Circular next prev (x :: y :: l)) :
    next x = y ∧ prev y = x := (isChain_cons_cons.mp h).1

lemma concat (h : Circular next prev (x :: (l ++ [y]))) : next y = x ∧ prev x = y := by
  have h' : (x :: l ++ y :: [x]).IsChain (Linked next prev) := by simpa [Circular] using h
  simpa [Linked] using (isChain_split.mp h').2

end Circular

section

variable (h : Circular next prev (x :: xs))

include h

lemma Circular.getLast? : (x :: xs).getLast? = some (prev x) := by
  rcases eq_nil_or_concat xs with rfl | ⟨l, y, rfl⟩
  · simp [(circular_singleton.mp h).2]
  · rw [concat_eq_append] at h ⊢
    rw [h.concat.2, ← cons_append, getLast?_concat]

lemma Circular.head? : (xs ++ [x]).head? = some (next x) := by
  cases xs with
  | nil => simp [(circular_singleton.mp h).1]
  | cons => simp [h.cons_cons.1]

lemma Circular.next_mem : next x ∈ x :: xs := by
  have hmem := mem_of_mem_head? (mem_def.mpr h.head?)
  rcases mem_append.mp hmem with hmem | hmem
  · exact mem_cons_of_mem _ hmem
  · rw [mem_singleton.mp hmem]
    exact mem_cons_self

lemma Circular.prev_mem : prev x ∈ x :: xs := mem_of_mem_getLast? (mem_def.mpr h.getLast?)

end

lemma Circular.next_eq_self (h : Circular next prev (x :: l)) (hnodup : (x :: l).Nodup) :
    next x = x ↔ l = [] := by
  cases l with
  | nil => simp [(circular_singleton.mp h).1]
  | cons =>
    rw [h.cons_cons.1]
    simp only [nodup_cons, mem_cons, not_or] at hnodup
    simp [Ne.symm hnodup.1.1]

lemma ne_of_mem_dropLast (hnodup : l.Nodup) (hx : x ∈ l.dropLast) (hy : l.getLast? = some y) :
    x ≠ y := by
  rintro rfl
  rw [← dropLast_append_getLast? x (mem_def.mpr hy)] at hnodup
  exact (nodup_append.mp hnodup).2.2 x hx x (mem_singleton_self x) rfl

lemma ne_of_mem_tail (hnodup : l.Nodup) (hx : x ∈ l.tail) (hy : l.head? = some y) : x ≠ y := by
  rintro rfl
  cases l with
  | nil => simp at hx
  | cons z =>
    obtain rfl : z = x := by simpa using hy
    exact (nodup_cons.mp hnodup).1 hx

section Update

variable [DecidableEq α]

lemma Circular.join {m x : α} {ms xs : List α} (hm : Circular next prev (m :: ms))
    (hx : Circular next prev (x :: xs)) (hnodup : (m :: ms ++ x :: xs).Nodup) :
    Circular (update (update next m x) (prev x) (next m))
      (update (update prev (next m) (prev x)) x m) (m :: (x :: xs ++ ms)) := by
  obtain ⟨hms, hxs, hsep⟩ := nodup_append.mp hnodup
  have hms' : (ms ++ [m]).Nodup := (perm_append_singleton m ms).nodup_iff.mpr hms
  have hmx : ∀ y ∈ x :: xs, y ≠ m := fun y hy h ↦ hsep m mem_cons_self y hy h.symm
  have hnx : ∀ y ∈ x :: xs, y ≠ next m := fun y hy h ↦ hsep _ hm.next_mem y hy h.symm
  have hpm : ∀ y ∈ m :: ms, y ≠ prev x := fun y hy ↦ hsep y hy _ hx.prev_mem
  have hxm : ∀ y ∈ m :: ms, y ≠ x := fun y hy ↦ hsep y hy x mem_cons_self
  have hm' : ([m] ++ (ms ++ [m])).IsChain (Linked next prev) := hm
  have hx' : (x :: xs ++ [x]).IsChain (Linked next prev) := hx
  obtain ⟨-, hrest, -⟩ := isChain_append.mp hm'
  obtain ⟨hfirst, -⟩ := isChain_append.mp hx'
  have hshape : m :: (x :: xs ++ ms ++ [m]) = [m] ++ ((x :: xs) ++ (ms ++ [m])) := by simp
  rw [Circular, hshape]
  refine isChain_append.mpr ⟨.singleton m, isChain_append.mpr ⟨?_, ?_, ?_⟩, ?_⟩
  · -- the elements of the second ring
    refine isChain_linked_congr hfirst (fun y hy ↦ ?_) fun y hy ↦ ?_
    · rw [update_of_ne (ne_of_mem_dropLast hxs hy hx.getLast?),
        update_of_ne (hmx y (dropLast_subset _ hy))]
    · rw [update_of_ne (ne_of_mem_tail hxs hy rfl), update_of_ne (hnx y (mem_of_mem_tail hy))]
  · -- the elements of the first ring, from the second of them on
    refine isChain_linked_congr hrest (fun y hy ↦ ?_) fun y hy ↦ ?_
    · rw [dropLast_concat] at hy
      rw [update_of_ne (hpm y (mem_cons_of_mem _ hy)), update_of_ne]
      rintro rfl
      exact (nodup_cons.mp hms).1 hy
    · have hmem : y ∈ m :: ms := by simpa [or_comm] using mem_of_mem_tail hy
      rw [update_of_ne (hxm y hmem), update_of_ne (ne_of_mem_tail hms' hy hm.head?)]
  · intro y hy z hz
    obtain rfl := some_inj.mp (hx.getLast?.symm.trans hy)
    obtain rfl := some_inj.mp (hm.head?.symm.trans hz)
    exact ⟨update_self _ _ _, by
      rw [update_of_ne (hxm _ hm.next_mem), update_self]⟩
  · intro y hy z hz
    obtain rfl : m = y := by simpa using hy
    obtain rfl : x = z := by simpa using hz
    refine ⟨?_, update_self _ _ _⟩
    rw [update_of_ne (hpm m mem_cons_self), update_self]

lemma Circular.remove {x y : α} {l : List α} (h : Circular next prev (x :: y :: l))
    (hnodup : (x :: y :: l).Nodup) :
    Circular (update next (prev x) (next x)) (update prev (next x) (prev x)) (y :: l) := by
  obtain ⟨hxy, -⟩ := h.cons_cons
  have hlast := h.getLast?
  obtain ⟨-, hyl⟩ := nodup_cons.mp hnodup
  have h' : ([x] ++ ((y :: l) ++ [x])).IsChain (Linked next prev) := h
  obtain ⟨-, hrest, -⟩ := isChain_append.mp h'
  obtain ⟨hchain, -⟩ := isChain_append.mp hrest
  have hlast' : (y :: l).getLast? = some (prev x) := by exact hlast
  have hclose : y :: (l ++ [y]) = (y :: l) ++ [y] := rfl
  rw [Circular, hclose, hxy]
  refine isChain_append.mpr ⟨?_, .singleton y, ?_⟩
  · refine isChain_linked_congr hchain (fun z hz ↦ ?_) fun z hz ↦ ?_
    · rw [update_of_ne (ne_of_mem_dropLast hyl hz hlast')]
    · rw [update_of_ne (ne_of_mem_tail hyl hz rfl)]
  · intro z hz w hw
    obtain rfl := Option.mem_unique hlast' hz
    obtain rfl : y = w := by simpa using hw
    exact ⟨update_self _ _ _, update_self _ _ _⟩

end Update

end OpenSplice.Library
