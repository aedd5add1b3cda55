import OpenSplice.Library.KeyedList

/-!
# Ordered lists of ordered lists

A list ordered by a key, each element of which holds a list ordered by a further key, is one list
ordered lexicographically by the pairs of keys (`ordered_flatten`). A search for the successor of a
pair stays in the inner list of the first key as long as that has a greater second key, and goes on
with the next inner list otherwise (`findSucc_flatten`).
-/

set_option autoImplicit false

namespace OpenSplice.Library.NestedList

open KeyedList Option List

variable {α κ τ ω : Type*}
variable (key : α → κ) (sub : α → List (τ × ω)) {l : List α}

variable {k : κ ×ₗ τ} {e : (κ ×ₗ τ) × ω}

def under (a : α) : List ((κ ×ₗ τ) × ω) := (sub a).map fun e ↦ (toLex (key a, e.1), e.2)

def flatten (l : List α) : List ((κ ×ₗ τ) × ω) := l.flatMap (under key sub)

variable {key sub} {a : α} {x : ω} {t : τ}

lemma mem_under : (k, x) ∈ under key sub a ↔ key a = (ofLex k).1 ∧ ((ofLex k).2, x) ∈ sub a := by
  simp only [under, List.mem_map, Prod.mk.injEq, Prod.exists]
  constructor
  · rintro ⟨t, y, hmem, rfl, rfl⟩
    exact ⟨rfl, hmem⟩
  · rintro ⟨hkey, hmem⟩
    exact ⟨_, _, hmem, by rw [hkey]; rfl, rfl⟩

lemma mem_flatten :
    (k, x) ∈ flatten key sub l ↔ ∃ a ∈ l, key a = (ofLex k).1 ∧ ((ofLex k).2, x) ∈ sub a := by
  simp [flatten, mem_under]

lemma flatten_cons (a : α) (l : List α) :
    flatten key sub (a :: l) = under key sub a ++ flatten key sub l :=
  flatMap_cons

lemma map_snd_flatten (l : List α) :
    (flatten key sub l).map Prod.snd = l.flatMap fun a ↦ (sub a).map Prod.snd := by
  simp only [flatten, List.map_flatMap, under, List.map_map]
  rfl

lemma fst_of_mem_under (h : e ∈ under key sub a) : (ofLex e.1).1 = key a := by
  exact (mem_under.mp h).1.symm

lemma exists_of_mem_flatten (h : e ∈ flatten key sub l) : ∃ a ∈ l, (ofLex e.1).1 = key a := by
  obtain ⟨a, ha, he⟩ := mem_flatMap.mp h
  exact ⟨a, ha, fst_of_mem_under he⟩

lemma head?_flatten (hne : ∀ a ∈ l, sub a ≠ []) : ((flatten key sub l).head?).map Prod.snd =
      l.head?.bind fun a ↦ (sub a).head?.map Prod.snd := by
  cases l with
  | nil => rfl
  | cons a =>
    obtain ⟨e, es, hsub⟩ := exists_cons_of_ne_nil (hne a mem_cons_self)
    rw [flatten_cons, under, hsub]
    simp [hsub]

variable [LinearOrder κ] [LinearOrder τ]

lemma ordered_under (h : Ordered Prod.fst (sub a)) : Ordered Prod.fst (under key sub a) := by
  refine pairwise_map.mpr (List.Pairwise.imp ?_ h)
  intro e e' hlt
  exact Prod.Lex.toLex_lt_toLex.mpr (.inr ⟨rfl, hlt⟩)

lemma ordered_flatten (hl : Ordered key l) (hsub : ∀ a ∈ l, Ordered Prod.fst (sub a)) :
    Ordered Prod.fst (flatten key sub l) := by
  refine pairwise_flatMap.mpr ⟨fun a ha ↦ ordered_under (hsub a ha), ?_⟩
  refine hl.imp fun {a b} hlt x hx y hy ↦ ?_
  refine Prod.Lex.lt_iff.mpr (.inl ?_)
  rw [fst_of_mem_under hx, fst_of_mem_under hy]
  exact hlt

/-! ### The first entry, and the successor of a pair of keys -/

lemma findSucc_under (key : α → κ) (a : α) (t : τ) :
    (findSucc Prod.fst (toLex (key a, t)) (under key sub a)).map Prod.snd =
      (findSucc Prod.fst t (sub a)).map Prod.snd := by
  unfold findSucc under
  rw [find?_map, Option.map_map]
  congr 2
  funext e
  simp [Prod.Lex.toLex_lt_toLex]

lemma findSucc_append_of_lt {k : κ} {pre post : List ((κ ×ₗ τ) × ω)}
    (hpre : ∀ e ∈ pre, (ofLex e.1).1 < k) :
    findSucc Prod.fst (toLex (k, t)) (pre ++ post) = findSucc Prod.fst (toLex (k, t)) post := by
  unfold findSucc
  rw [find?_append, find?_eq_none.mpr, none_or]
  intro e he
  have hlt := hpre e he
  simp only [decide_eq_true_eq, not_lt]
  exact Prod.Lex.le_iff.mpr (.inl hlt)

lemma findSucc_of_gt {k : κ} {l : List ((κ ×ₗ τ) × ω)}
    (h : ∀ e ∈ l, k < (ofLex e.1).1) : findSucc Prod.fst (toLex (k, t)) l = l.head? := by
  cases l with
  | nil => rfl
  | cons e =>
    refine find?_cons_of_pos ?_
    simp only [decide_eq_true_eq]
    exact Prod.Lex.lt_iff.mpr (.inl (h e mem_cons_self))

lemma findSucc_flatten (hl : Ordered key l) (hne : ∀ a ∈ l, sub a ≠ []) (k : κ) (t : τ) :
    (findSucc Prod.fst (toLex (k, t)) (flatten key sub l)).map Prod.snd =
      (((lookup key k l).bind fun a ↦ (findSucc Prod.fst t (sub a)).map Prod.snd).or
        ((findSucc key k l).bind fun a ↦ (sub a).head?.map Prod.snd)) := by
  induction l with
  | nil => rfl
  | cons a l ih =>
    obtain ⟨hafter, htail⟩ := List.pairwise_cons.mp hl
    have hne' : ∀ b ∈ l, sub b ≠ [] := fun b hb ↦ hne b (List.mem_cons_of_mem a hb)
    rw [flatten_cons]
    rcases lt_trichotomy (key a) k with hlt | heq | hgt
    · -- the element comes before the pair
      have hpre : ∀ e ∈ under key sub a, (ofLex e.1).1 < k := by
        intro e he
        rw [fst_of_mem_under he]
        exact hlt
      rw [findSucc_append_of_lt hpre, ih htail hne']
      simp [KeyedList.lookup, findSucc, hlt.ne, hlt.le]
    · -- the pair is searched for in the element's own list, and what follows comes after it
      subst heq
      have hpost : ∀ e ∈ flatten key sub l, key a < (ofLex e.1).1 := by
        intro e he
        obtain ⟨b, hb, hkey⟩ := exists_of_mem_flatten he
        rw [hkey]
        exact hafter b hb
      have hnext : findSucc key (key a) (a :: l) = l.head? :=
        findSucc_split (p := a) (List.nil_append (a :: l) ▸ hl)
      have hthis : lookup key (key a) (a :: l) = some a := by simp [KeyedList.lookup]
      rw [hnext, hthis, bind_some, ← findSucc_under key, ← head?_flatten hne',
        ← findSucc_of_gt hpost (t := t), ← map_or]
      unfold findSucc
      rw [List.find?_append]
    · -- the element comes after the pair, with all that follows
      have hgt' : ∀ b ∈ a :: l, k < key b :=
        List.forall_mem_cons.mpr ⟨hgt, fun b hb ↦ hgt.trans (hafter b hb)⟩
      have hall : ∀ e ∈ flatten key sub (a :: l), k < (ofLex e.1).1 := by
        intro e he
        obtain ⟨b, hb, hkey⟩ := exists_of_mem_flatten he
        rw [hkey]
        exact hgt' b hb
      have hlookup : lookup key k (a :: l) = none := lookup_eq_none.mpr fun b hb ↦ (hgt' b hb).ne'
      rw [← flatten_cons, findSucc_of_gt hall, head?_flatten hne, hlookup, bind_none, none_or]
      simp [findSucc, hgt]

end OpenSplice.Library.NestedList
