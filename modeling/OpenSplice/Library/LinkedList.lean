import Mathlib

/-!
# Doubly linked lists in memory

A memory maps addresses to nodes with a value and a link in each direction. `Segment mem prev l
next` says that the nodes of `l`, from the oldest to the newest, are linked to each other in both
directions and to `prev` and `next` outside, and `Chained mem l oldest newest` that they are a whole
list with its two ends.

A node is removed at the old end (`Chained.removeOldest`) or inserted between two neighbours
(`Chained.insert`). A list is read off by following the links from one of its ends
(`Chained.walk_newer`, `Chained.walk_older`).
-/

set_option autoImplicit false

namespace OpenSplice.Library.LinkedList

open List Function

variable {κ β : Type} [DecidableEq κ]

/-- A node of a doubly linked list. -/
structure Node (κ β : Type) where
  value : β
  older : Option κ
  newer : Option κ
deriving DecidableEq

abbrev Memory (κ β : Type) := κ → Option (Node κ β)

def setOlder (mem : Memory κ β) (p : κ) (q : Option κ) : Option (Memory κ β) :=
  (mem p).map fun node ↦ Function.update mem p (some { node with older := q })

def setNewer (mem : Memory κ β) (p : κ) (q : Option κ) : Option (Memory κ β) :=
  (mem p).map fun node ↦ Function.update mem p (some { node with newer := q })

def store (mem : Memory κ β) (p : κ) (node : Node κ β) : Memory κ β :=
  Function.update mem p (some node)

def free (mem : Memory κ β) (p : κ) : Memory κ β := Function.update mem p none

/-- Assign to the link of a node if there is one. -/
def linkOlder (mem : Memory κ β) : Option κ → Option κ → Option (Memory κ β)
  | none, _ => some mem
  | some p, q => setOlder mem p q

@[inherit_doc linkOlder]
def linkNewer (mem : Memory κ β) : Option κ → Option κ → Option (Memory κ β)
  | none, _ => some mem
  | some p, q => setNewer mem p q

def walk (link : Node κ β → Option κ) (mem : Memory κ β) : ℕ → Option κ → Option (List (κ × β))
  | _, none => some []
  | 0, some _ => none
  | fuel + 1, some p => do
    let node ← mem p
    let rest ← walk link mem fuel (link node)
    some ((p, node.value) :: rest)

omit [DecidableEq κ] in
@[simp]
lemma walk_none (link : Node κ β → Option κ) (mem : Memory κ β) (fuel : ℕ) :
    walk link mem fuel none = some [] := by
  cases fuel <;> rfl

/-! ### Segments -/

def first : List (κ × β) → Option κ → Option κ
  | [], next => next
  | (p, _) :: _, _ => some p

def last : Option κ → List (κ × β) → Option κ
  | prev, [] => prev
  | _, (p, _) :: l => last (some p) l

/-- The nodes are linked to each other, to `prev` and to `next`. -/
def Segment (mem : Memory κ β) : Option κ → List (κ × β) → Option κ → Prop
  | _, [], _ => True
  | prev, (p, v) :: l, next => mem p = some ⟨v, prev, first l next⟩ ∧ Segment mem (some p) l next

abbrev addresses (l : List (κ × β)) : List κ := l.map Prod.fst

section Segments

variable {mem mem' : Memory κ β} {l a b : List (κ × β)} {prev next : Option κ} {p : κ} {v : β}
  {x : κ × β} {fuel : ℕ}

section

omit [DecidableEq κ]

@[simp]
lemma first_cons : first (x :: l) next = some x.1 := rfl

@[simp]
lemma last_nil : last prev ([] : List (κ × β)) = prev := rfl

@[simp]
lemma last_cons : last prev (x :: l) = last (some x.1) l := rfl

@[simp]
lemma first_append : first (a ++ b) next = first a (first b next) := by
  cases a <;> rfl

@[simp]
lemma last_append : last prev (a ++ b) = last (last prev a) b := by
  induction a generalizing prev with
  | nil => rfl
  | cons _ _ ih => exact ih

lemma last_concat : last prev (l ++ [(p, v)]) = some p := by
  rw [last_append]
  rfl

lemma last_mem (prev : Option κ) (h : l ≠ []) : ∃ p ∈ addresses l, last prev l = some p := by
  obtain ⟨init, ⟨p, v⟩, rfl⟩ := (eq_nil_or_concat' l).resolve_left h
  exact ⟨p, by simp, last_concat⟩

lemma last_congr (h : l ≠ []) (prev prev' : Option κ) : last prev l = last prev' l := by
  cases l with
  | nil => exact absurd rfl h
  | cons => rfl

lemma segment_append : Segment mem prev (a ++ b) next ↔
      Segment mem prev a (first b next) ∧ Segment mem (last prev a) b next := by
  induction a generalizing prev with
  | nil => simp [Segment, last]
  | cons x _ ih => simp only [cons_append, Segment, first_append, ih, last, and_assoc]

lemma Segment.frame (h : Segment mem prev l next)
    (hframe : ∀ x ∈ addresses l, mem' x = mem x) : Segment mem' prev l next := by
  induction l generalizing prev with
  | nil => trivial
  | cons x _ ih =>
    obtain ⟨p, v⟩ := x
    refine ⟨(hframe p (by simp)).trans h.1, ih h.2 fun x hx ↦ hframe x ?_⟩
    exact mem_cons_of_mem _ hx

lemma Segment.walk_newer (h : Segment mem prev l none) (hfuel : l.length ≤ fuel) :
    walk Node.newer mem fuel (first l none) = some l := by
  induction l generalizing prev fuel with
  | nil => exact walk_none _ _ _
  | cons x _ ih =>
    obtain ⟨fuel, rfl⟩ := Nat.exists_eq_succ_of_ne_zero (n := fuel) (by simp at hfuel; omega)
    have hrest := ih h.2 (by simpa using hfuel)
    rw [first, walk, h.1]
    simp [hrest]

/-- Following the links to the older nodes gives the segment from its end. -/
lemma Segment.walk_older (h : Segment mem none l next) (hfuel : l.length ≤ fuel) :
    walk Node.older mem fuel (last none l) = some l.reverse := by
  induction l using reverseRecOn generalizing next fuel with
  | nil => exact walk_none _ _ _
  | append_singleton _ x ih =>
    obtain ⟨fuel, rfl⟩ := Nat.exists_eq_succ_of_ne_zero (n := fuel) (by simp at hfuel; omega)
    obtain ⟨hl, hlast, -⟩ := segment_append.mp h
    have hrest := ih hl (by simpa using hfuel)
    rw [last_concat, walk, hlast]
    simp [hrest]

end

lemma last_cons_of_nodup (h : (addresses ((p, v) :: l)).Nodup) :
    (if some p = last none ((p, v) :: l) then none else last none ((p, v) :: l)) = last none l := by
  by_cases hl : l = []
  · subst hl
    exact if_pos rfl
  · obtain ⟨q, hq, hlast⟩ := last_mem (some p) hl
    have hne : some p ≠ last none ((p, v) :: l) := by
      rintro heq
      rw [last, hlast, Option.some_inj] at heq
      subst heq
      exact (nodup_cons.mp h).1 hq
    rw [if_neg hne]
    exact last_congr hl _ _

lemma Segment.linkOlder (h : Segment mem prev l next) (hnodup : (addresses l).Nodup)
    (q : Option κ) :
    ∃ mem', LinkedList.linkOlder mem (first l none) q = some mem' ∧ Segment mem' q l next ∧
      ∀ x, x ∉ addresses l → mem' x = mem x := by
  cases l with
  | nil => exact ⟨mem, rfl, trivial, fun _ _ ↦ rfl⟩
  | cons x l =>
    obtain ⟨p, v⟩ := x
    have hp := (nodup_cons.mp hnodup).1
    refine ⟨update mem p (some ⟨v, q, first l next⟩), ?_, ⟨?_, ?_⟩, ?_⟩
    · simp [first, LinkedList.linkOlder, setOlder, h.1]
    · exact update_self _ _ _
    · refine h.2.frame fun x hx ↦ update_of_ne ?_ _ _
      rintro rfl
      exact hp hx
    · refine fun x hx ↦ update_of_ne ?_ _ _
      rintro rfl
      exact hx mem_cons_self

lemma Segment.linkNewer (h : Segment mem prev l next) (hnodup : (addresses l).Nodup)
    (q : Option κ) :
    ∃ mem', LinkedList.linkNewer mem (last none l) q = some mem' ∧ Segment mem' prev l q ∧
      ∀ x, x ∉ addresses l → mem' x = mem x := by
  rcases eq_nil_or_concat' l with rfl | ⟨l, ⟨p, v⟩, rfl⟩
  · exact ⟨mem, rfl, trivial, fun _ _ ↦ rfl⟩
  · obtain ⟨hl, hlast, -⟩ := segment_append.mp h
    have hp : p ∉ addresses l := by
      rw [addresses, map_append] at hnodup
      exact fun hp ↦ (nodup_append.mp hnodup).2.2 p hp p (by simp) rfl
    refine ⟨update mem p (some ⟨v, last prev l, q⟩), ?_, segment_append.mpr ⟨?_, ?_, trivial⟩, ?_⟩
    · rw [last_concat, LinkedList.linkNewer, setNewer, hlast]
      rfl
    · refine Segment.frame hl fun x hx ↦ update_of_ne ?_ _ _
      rintro rfl
      exact hp hx
    · exact update_self _ _ _
    · refine fun x hx ↦ update_of_ne ?_ _ _
      rintro rfl
      exact hx (by simp)

end Segments

/-! ### Lists -/

/-- The nodes are a list with the given ends. -/
structure Chained (mem : Memory κ β) (l : List (κ × β)) (oldest newest : Option κ) : Prop where
  nodup : (addresses l).Nodup
  segment : Segment mem none l none
  oldest_eq : oldest = first l none
  newest_eq : newest = last none l

namespace Chained

variable {mem mem' : Memory κ β} {l a b : List (κ × β)} {oldest newest : Option κ} {p : κ} {v : β}

lemma removeOldest (h : Chained mem ((p, v) :: l) oldest newest) :
    mem p = some ⟨v, none, first l none⟩ ∧ ∃ mem', linkOlder mem (first l none) none = some mem' ∧
        Chained (free mem' p) l (first l none) (last none l) := by
  obtain ⟨hp, hnodup⟩ := nodup_cons.mp h.nodup
  have hfree : ∀ mem' : Memory κ β, ∀ x ∈ addresses l, free mem' p x = mem' x := by
    intro mem' x hx
    refine update_of_ne ?_ _ _
    rintro rfl
    exact hp hx
  obtain ⟨mem', hset, hsegment, -⟩ := Segment.linkOlder h.segment.2 hnodup none
  exact ⟨h.segment.1, mem', hset, hnodup, hsegment.frame (hfree mem'), rfl, rfl⟩

lemma insert (h : Chained mem (a ++ b) oldest newest) (hp : p ∉ addresses (a ++ b)) (v : β) :
    ∃ mem1 mem2,
      linkOlder (store mem p ⟨v, last none a, first b none⟩) (first b none) (some p) = some mem1 ∧
        linkNewer mem1 (last none a) (some p) = some mem2 ∧
          Chained mem2 (a ++ (p, v) :: b) (first (a ++ (p, v) :: b) none)
            (last none (a ++ (p, v) :: b)) := by
  obtain ⟨hpa, hpb⟩ : p ∉ addresses a ∧ p ∉ addresses b := by simpa using hp
  have hnodup : (addresses (a ++ (p, v) :: b)).Nodup := by
    rw [addresses, map_append, map_cons, nodup_middle, nodup_cons, ← map_append]
    exact ⟨hp, h.nodup⟩
  have hboth := h.nodup
  rw [addresses, map_append, nodup_append] at hboth
  obtain ⟨hnodupA, hnodupB, hdisjoint⟩ := hboth
  obtain ⟨hsegA, hsegB⟩ := segment_append.mp h.segment
  -- Neither part is touched by the new node, nor by the assignment to the other part.
  have hstore : ∀ x, x ≠ p → store mem p ⟨v, last none a, first b none⟩ x = mem x :=
    fun x hx ↦ update_of_ne hx _ _
  have hsegB' : Segment (store mem p ⟨v, last none a, first b none⟩) (last none a) b none :=
    hsegB.frame fun x hx ↦ hstore x (ne_of_mem_of_not_mem hx hpb)
  obtain ⟨mem1, hmem1, hb1, hframe1⟩ := hsegB'.linkOlder hnodupB (some p)
  have ha1 : Segment mem1 none a (first b none) :=
    hsegA.frame fun x hx ↦ (hframe1 x fun hxb ↦ hdisjoint x hx x hxb rfl).trans
      (hstore x (ne_of_mem_of_not_mem hx hpa))
  have hp1 : mem1 p = some ⟨v, last none a, first b none⟩ :=
    (hframe1 p hpb).trans (update_self _ _ _)
  obtain ⟨mem2, hmem2, ha2, hframe2⟩ := ha1.linkNewer hnodupA (some p)
  refine ⟨mem1, mem2, hmem1, hmem2, hnodup, segment_append.mpr ⟨ha2, ?_, ?_⟩, rfl, rfl⟩
  · exact (hframe2 p hpa).trans hp1
  · exact hb1.frame fun x hx ↦ hframe2 x fun hxa ↦ hdisjoint x hxa x hx rfl

end Chained

end OpenSplice.Library.LinkedList
