import Mathlib

/-!
# Lists ordered by a key

The in-order view of a search tree: a list whose elements carry pairwise different keys in
increasing order, with the lookups and updates such a tree offers. A development that only needs the
in-order sequence of a tree can use the operations as they are, and one that keeps the tree can
relate it to them. Every operation has one lemma on a split `pre ++ p :: post` of an ordered list.
-/

set_option autoImplicit false

namespace OpenSplice.Library.KeyedList

open List

variable {α κ : Type*} [LinearOrder κ] (key : α → κ)
  {pre post : List α} {p : α} {k : κ} {l : List α} {a x : α}

def Ordered (l : List α) : Prop := l.Pairwise fun a b ↦ key a < key b

/-- The element with key `k`. -/
def lookup (k : κ) (l : List α) : Option α := l.find? fun a ↦ key a = k

/-- The last element with key at most `k`. -/
def lookupPredEq (k : κ) (l : List α) : Option α := (l.filter fun a ↦ key a ≤ k).getLast?

/-- The first element with key at least `k`. -/
def lookupSuccEq (k : κ) (l : List α) : Option α := l.find? fun a ↦ k ≤ key a

/-- The first element with key above `k`: the in-order successor of the element with key `k`. -/
def findSucc (k : κ) (l : List α) : Option α := l.find? fun a ↦ k < key a

def lastKey (l : List α) : Option κ := l.getLast?.map key

def insert (x : α) : List α → List α
  | [] => [x]
  | a :: l => if key x < key a then x :: a :: l else a :: insert x l

/-- Removal of the element with key `k`. -/
def delete (k : κ) (l : List α) : List α := l.filter fun a ↦ key a ≠ k

/-- Replacement of the element with key `k` by `y`. -/
def update (k : κ) (y : α) (l : List α) : List α := l.map fun a ↦ if key a = k then y else a

/-- The element with key `k` is changed by `f`. -/
def modify (k : κ) (f : α → α) (l : List α) : List α := l.map fun a ↦ if key a = k then f a else a

variable {key} {y m : α} (f : α → α)

omit [LinearOrder κ] in
lemma mem_middle : a ∈ pre ++ p :: post ↔ a ∈ pre ∨ a = p ∨ a ∈ post := by
  rw [mem_append, mem_cons]

/-- An ordered list split at an element: the keys before it are smaller, those after it larger. -/
lemma ordered_append_cons : Ordered key (pre ++ p :: post) ↔
      Ordered key pre ∧ Ordered key post ∧ (∀ a ∈ pre, key a < key p) ∧
        (∀ b ∈ post, key p < key b) ∧ ∀ a ∈ pre, ∀ b ∈ post, key a < key b := by
  unfold Ordered
  rw [pairwise_append, pairwise_cons]
  simp only [mem_cons, forall_eq_or_imp]
  constructor
  · rintro ⟨hpre, ⟨hp, hpost⟩, hcross⟩
    exact ⟨hpre, hpost, fun a ha ↦ (hcross a ha).1, hp, fun a ha ↦ (hcross a ha).2⟩
  · rintro ⟨hpre, hpost, hbefore, hafter, hcross⟩
    exact ⟨hpre, ⟨hafter, hpost⟩, fun a ha ↦ ⟨hbefore a ha, hcross a ha⟩⟩

lemma Ordered.tail {a : α} {l : List α} (h : Ordered key (a :: l)) : Ordered key l :=
  (pairwise_cons.mp h).2

section

variable (h : Ordered key (pre ++ p :: post))
include h

lemma Ordered.replace {q : α}
    (hpre : ∀ a ∈ pre, key a < key q) (hpost : ∀ b ∈ post, key q < key b) :
    Ordered key (pre ++ q :: post) := by
  obtain ⟨hordPre, hordPost, -, -, hcross⟩ := ordered_append_cons.mp h
  exact ordered_append_cons.mpr ⟨hordPre, hordPost, hpre, hpost, hcross⟩

lemma Ordered.replace_same {q : α} (hkey : key q = key p) : Ordered key (pre ++ q :: post) := by
  obtain ⟨-, -, hbefore, hafter, -⟩ := ordered_append_cons.mp h
  exact h.replace (fun a ha ↦ hkey ▸ hbefore a ha) fun b hb ↦ hkey ▸ hafter b hb

lemma lookup_split : lookup key (key p) (pre ++ p :: post) = some p := by
  obtain ⟨-, -, hbefore, -⟩ := ordered_append_cons.mp h
  unfold lookup
  rw [find?_append, find?_eq_none.mpr, Option.none_or, find?_cons_of_pos] <;>
    simp
  intro a ha
  exact ne_of_lt (hbefore a ha)

end

lemma lookup_eq_some (h : lookup key k l = some p) : p ∈ l ∧ key p = k := by
  exact ⟨mem_of_find?_eq_some h, by simpa using find?_some h⟩

lemma lookup_eq_none : lookup key k l = none ↔ ∀ a ∈ l, key a ≠ k := by
  unfold lookup
  simp

section

variable (h : Ordered key l)
include h

lemma lookup_of_mem (ha : a ∈ l) : lookup key (key a) l = some a := by
  obtain ⟨pre, post, rfl⟩ := append_of_mem ha
  exact lookup_split h

lemma Ordered.eq_of_key {b : α} (ha : a ∈ l) (hb : b ∈ l) (hkey : key a = key b) : a = b := by
  have hlookup := lookup_of_mem h ha
  rw [hkey, lookup_of_mem h hb] at hlookup
  exact (Option.some_inj.mp hlookup).symm

lemma Ordered.eq_cons_of_least (ha : a ∈ l)
    (hleast : ∀ b ∈ l, key a ≤ key b) : ∃ l', l = a :: l' := by
  cases l with
  | nil => simp at ha
  | cons b l =>
    refine ⟨l, ?_⟩
    rcases mem_cons.mp ha with rfl | ha
    · rfl
    · have hba := (pairwise_cons.mp h).1 a ha
      have hab := hleast b mem_cons_self
      order

lemma Ordered.exists_split (k : κ) :
    ∃ pre post, l = pre ++ post ∧ (∀ a ∈ pre, key a ≤ k) ∧ ∀ b ∈ post, k < key b := by
  induction l with
  | nil => exact ⟨[], [], rfl, by simp, by simp⟩
  | cons a l ih =>
    by_cases hak : key a ≤ k
    · obtain ⟨pre, post, rfl, hpre, hpost⟩ := ih h.tail
      exact ⟨a :: pre, post, rfl, forall_mem_cons.mpr ⟨hak, hpre⟩, hpost⟩
    · have hafter := (pairwise_cons.mp h).1
      refine ⟨[], a :: l, rfl, by simp, forall_mem_cons.mpr ⟨by order, fun b hb ↦ ?_⟩⟩
      have := hafter b hb
      order

end

lemma lookupPredEq_split (hp : key p ≤ k) (hpost : ∀ b ∈ post, k < key b) :
    lookupPredEq key k (pre ++ p :: post) = some p := by
  unfold lookupPredEq
  have hnone : post.filter (fun a ↦ key a ≤ k) = [] := by
    rw [filter_eq_nil_iff]
    intro b hb
    have := hpost b hb
    simp only [decide_eq_true_eq]
    order
  rw [filter_append, filter_cons_of_pos (by simpa using hp), hnone]
  simp

/-- The predecessor lookup splits the list: what follows the result has a key above `k`. -/
lemma lookupPredEq_eq_some (hl : Ordered key l) (h : lookupPredEq key k l = some p) :
    ∃ pre post, l = pre ++ p :: post ∧ key p ≤ k ∧ ∀ b ∈ post, k < key b := by
  obtain ⟨pre, post, rfl, hpre, hpost⟩ := hl.exists_split k
  rw [lookupPredEq, filter_append, filter_eq_self.mpr (by simpa using hpre),
    filter_eq_nil_iff.mpr (by simpa using hpost), append_nil] at h
  obtain ⟨pre, rfl⟩ := getLast?_eq_some_iff.mp h
  exact ⟨pre, post, by simp, hpre p (by simp), hpost⟩

lemma lookupPredEq_eq_none : lookupPredEq key k l = none ↔ ∀ a ∈ l, k < key a := by
  unfold lookupPredEq
  simp

lemma lookupSuccEq_eq_some (h : lookupSuccEq key k l = some p) :
    ∃ pre post, l = pre ++ p :: post ∧ k ≤ key p ∧ ∀ a ∈ pre, key a < k := by
  obtain ⟨hk, pre, post, rfl, hpre⟩ := find?_eq_some_iff_append.mp h
  exact ⟨pre, post, rfl, by simpa using hk, fun a ha ↦ by simpa using hpre a ha⟩

lemma lookupSuccEq_eq_none : lookupSuccEq key k l = none ↔ ∀ a ∈ l, key a < k := by
  unfold lookupSuccEq
  simp

lemma findSucc_split (h : Ordered key (pre ++ p :: post)) :
    findSucc key (key p) (pre ++ p :: post) = post.head? := by
  obtain ⟨-, -, hbefore, hafter, -⟩ := ordered_append_cons.mp h
  unfold findSucc
  rw [find?_append, find?_eq_none.mpr, Option.none_or, find?_cons_of_neg (by simp)]
  · cases post with
    | nil => rfl
    | cons b => rw [find?_cons_of_pos (by simpa using hafter b mem_cons_self), head?_cons]
  · intro a ha
    have := hbefore a ha
    simp only [decide_eq_true_eq]
    order

/-- The element is inserted somewhere. -/
lemma exists_insert_eq (key : α → κ) (x : α) (l : List α) :
    ∃ pre post, l = pre ++ post ∧ insert key x l = pre ++ x :: post := by
  induction l with
  | nil => exact ⟨[], [], rfl, rfl⟩
  | cons a l ih =>
    unfold insert
    split_ifs
    · exact ⟨[], a :: l, rfl, rfl⟩
    · obtain ⟨pre, post, rfl, hinsert⟩ := ih
      exact ⟨a :: pre, post, rfl, by rw [hinsert, cons_append]⟩

lemma mem_insert : a ∈ insert key x l ↔ a = x ∨ a ∈ l := by
  obtain ⟨pre, post, rfl, hinsert⟩ := exists_insert_eq key x l
  rw [hinsert, mem_append, mem_cons, mem_append]
  tauto

lemma insert_split (hpre : ∀ a ∈ pre, key a < key x) (hpost : ∀ b ∈ post, key x < key b) :
    insert key x (pre ++ post) = pre ++ x :: post := by
  induction pre with
  | nil =>
    cases post with
    | nil => rfl
    | cons b => simp [insert, hpost b mem_cons_self]
  | cons a _ ih =>
    have ha := hpre a mem_cons_self
    simp only [cons_append, insert]
    rw [if_neg (by order), ih fun b hb ↦ hpre b (mem_cons_of_mem a hb)]

omit [LinearOrder κ] in
lemma lastKey_split (pre post : List α) (c : α) :
    lastKey key (pre ++ c :: post) = (lastKey key post).or (some (key c)) := by
  cases hlast : post.getLast? <;>
    simp [lastKey, getLast?_append, getLast?_cons, hlast]

omit [LinearOrder κ] in
lemma lastKey_concat (pre : List α) (last : α) : lastKey key (pre ++ [last]) = some (key last) := by
  simp [lastKey]

/-- The last key is that of an element exactly when nothing follows it. -/
lemma lastKey_eq_iff {pre post : List α} (hord : Ordered key (pre ++ m :: post)) :
    lastKey key (pre ++ m :: post) = some (key m) ↔ post = [] := by
  obtain ⟨-, -, -, hafter, -⟩ := ordered_append_cons.mp hord
  rw [lastKey_split]
  constructor
  · intro heq
    by_contra hne
    obtain ⟨init, last, rfl⟩ := (eq_nil_or_concat' post).resolve_left hne
    rw [lastKey_concat] at heq
    have := hafter last (by simp)
    simp only [Option.some_or, Option.some.injEq] at heq
    order
  · rintro rfl
    rfl

/-- The assignment of a cached last key when the element with key `key m` gets the key `k`. -/
lemma lastKey_rekey (hord : Ordered key (pre ++ m :: post)) (k : κ) :
    (if lastKey key (pre ++ m :: post) = some (key m) then some k
      else lastKey key (pre ++ m :: post)) = (lastKey key post).or (some k) := by
  rw [if_congr (lastKey_eq_iff hord) rfl rfl, lastKey_split]
  cases post with
  | nil => rfl
  | cons b post =>
    have hb : lastKey key (b :: post) = (lastKey key post).or (some (key b)) :=
      lastKey_split [] post b
    simp [hb]

/-- Insertion before an element with a larger key stays in front of it. -/
lemma insert_append_of_lt (h : key x < key y) (l r : List α) :
    insert key x (l ++ y :: r) = insert key x l ++ y :: r := by
  induction l with
  | nil => simp [insert, h]
  | cons _ _ ih =>
    simp only [cons_append, insert, ih]
    split_ifs <;> rfl

lemma insert_append_of_le (h : ∀ a ∈ l, key a ≤ key x) (r : List α) :
    insert key x (l ++ r) = l ++ insert key x r := by
  induction l with
  | nil => rfl
  | cons _ _ ih =>
    obtain ⟨ha, hl⟩ := forall_mem_cons.mp h
    simp only [cons_append, insert]
    rw [if_neg (by order), ih hl]

lemma delete_of_not_mem (h : ∀ a ∈ l, key a ≠ k) : delete key k l = l := by
  exact filter_eq_self.mpr fun a ha ↦ by simpa using h a ha

lemma delete_append (key : α → κ) (k : κ) (l r : List α) :
    delete key k (l ++ r) = delete key k l ++ delete key k r :=
  filter_append ..

lemma delete_split {pre post : List α} {p : α} (h : Ordered key (pre ++ p :: post)) :
    delete key (key p) (pre ++ p :: post) = pre ++ post := by
  obtain ⟨-, -, hbefore, hafter, -⟩ := ordered_append_cons.mp h
  have hp : delete key (key p) (p :: post) = delete key (key p) post := filter_cons_of_neg (by simp)
  rw [delete_append, hp, delete_of_not_mem fun a ha ↦ (hbefore a ha).ne,
    delete_of_not_mem fun b hb ↦ (hafter b hb).ne']

lemma mem_delete : a ∈ delete key k l ↔ a ∈ l ∧ key a ≠ k := by
  simp [delete]

lemma mem_modify {f : α → α} :
    a ∈ modify key k f l ↔ (∃ b ∈ l, key b = k ∧ f b = a) ∨ (a ∈ l ∧ key a ≠ k) := by
  simp [modify]
  constructor
  · rintro ⟨b, hb, rfl⟩
    by_cases hk : key b = k
    · exact .inl ⟨b, hb, hk, (if_pos hk).symm⟩
    · rw [if_neg hk]
      exact .inr ⟨hb, hk⟩
  · rintro (⟨b, hb, hk, rfl⟩ | ⟨ha, hk⟩)
    · exact ⟨b, hb, if_pos hk⟩
    · exact ⟨a, ha, if_neg hk⟩

lemma mem_modify_of_eq (ha : a ∈ l) (hk : key a = k) : f a ∈ modify key k f l :=
  mem_modify.mpr (.inl ⟨a, ha, hk, rfl⟩)

lemma mem_modify_of_ne (ha : a ∈ l) (hk : key a ≠ k) : a ∈ modify key k f l :=
  mem_modify.mpr (.inr ⟨ha, hk⟩)

section

variable (h : Ordered key l)
include h

namespace Ordered

lemma delete (k : κ) : Ordered key (delete key k l) := List.Pairwise.filter _ h

lemma length_delete (ha : a ∈ l) : (KeyedList.delete key (key a) l).length + 1 = l.length := by
  obtain ⟨pre, post, rfl⟩ := append_of_mem ha
  rw [delete_split h, length_append, length_append, length_cons, add_assoc]

lemma map_of_key {g : α → α} (hg : ∀ a, key (g a) = key a) : Ordered key (l.map g) :=
  pairwise_map.mpr (h.imp fun {a b} hlt ↦ by rwa [hg, hg])

lemma modify (k : κ) {f : α → α} (hf : ∀ a, key (f a) = key a) :
    Ordered key (modify key k f l) := by
  refine h.map_of_key fun a ↦ ?_
  split_ifs
  · exact hf a
  · rfl

lemma update {y : α} (hy : key y = k) : Ordered key (update key k y l) := by
  refine h.map_of_key fun a ↦ ?_
  split_ifs with hk
  · rw [hy, hk]
  · rfl

lemma insert (hx : ∀ a ∈ l, key a ≠ key x) : Ordered key (insert key x l) := by
  induction l with
  | nil => exact pairwise_singleton _ _
  | cons _ _ ih =>
    obtain ⟨hafter, -⟩ := pairwise_cons.mp h
    obtain ⟨ha, hl⟩ := forall_mem_cons.mp hx
    unfold KeyedList.insert
    split_ifs with hlt
    · refine pairwise_cons.mpr ⟨forall_mem_cons.mpr ⟨hlt, fun b hb ↦ ?_⟩, h⟩
      exact hlt.trans (hafter b hb)
    · refine pairwise_cons.mpr ⟨fun b hb ↦ ?_, ih h.tail hl⟩
      rcases mem_insert.mp hb with rfl | hb
      · order
      · exact hafter b hb

end Ordered

end

lemma map_modify {β : Type*} {f : α → β} {g : α → α} (hf : ∀ a, f (g a) = f a) (k : κ)
    (l : List α) : (modify key k g l).map f = l.map f := by
  rw [modify, map_map]
  refine map_congr_left fun a _ ↦ ?_
  rw [Function.comp_apply]
  split_ifs
  · exact hf a
  · rfl

lemma modify_split (h : Ordered key (pre ++ p :: post)) (g : α → α) :
    modify key (key p) g (pre ++ p :: post) = pre ++ g p :: post := by
  obtain ⟨-, -, hbefore, hafter, -⟩ := ordered_append_cons.mp h
  have hpre : ∀ a ∈ pre, (if key a = key p then g a else a) = a :=
    fun a ha ↦ if_neg (hbefore a ha).ne
  have hpost : ∀ a ∈ post, (if key a = key p then g a else a) = a :=
    fun a ha ↦ if_neg (hafter a ha).ne'
  rw [modify, map_append, map_cons, if_pos rfl, map_congr_left hpre,
    map_congr_left hpost, map_id', map_id']

lemma update_split {q : α} (h : Ordered key (pre ++ p :: post)) :
    update key (key p) q (pre ++ p :: post) = pre ++ q :: post :=
  modify_split h _

lemma mem_update : a ∈ update key k y l ↔ (a = y ∧ ∃ b ∈ l, key b = k) ∨ (a ∈ l ∧ key a ≠ k) :=
  (mem_modify (f := fun _ ↦ y)).trans (by aesop)

/-! ### Lookups in a changed list -/

lemma lookup_eq_some_iff (h : Ordered key l) : lookup key k l = some a ↔ a ∈ l ∧ key a = k := by
  constructor
  · exact lookup_eq_some
  · rintro ⟨ha, rfl⟩
    exact lookup_of_mem h ha

lemma lookup_insert (h : lookup key (key x) l = none) (k : κ) :
    lookup key k (insert key x l) = if k = key x then some x else lookup key k l := by
  obtain ⟨pre, post, rfl, hinsert⟩ := exists_insert_eq key x l
  rw [hinsert]
  unfold lookup at h ⊢
  rw [find?_append, Option.or_eq_none_iff] at h
  rw [find?_append, find?_append]
  split_ifs with hk
  · rw [hk, h.1, find?_cons_of_pos (by simp)]
    rfl
  · rw [find?_cons_of_neg (by simpa using Ne.symm hk)]

lemma lookup_update (hy : key y = k) (k' : κ) : lookup key k' (update key k y l) =
      if k' = k then (lookup key k l).map fun _ ↦ y else lookup key k' l := by
  unfold lookup update
  rw [find?_map]
  have hsame : ((fun a ↦ decide (key a = k')) ∘ fun a ↦ if key a = k then y else a) =
      fun a ↦ decide (key a = k') := by
    funext a
    by_cases hk : key a = k
    · simp [hk, hy]
    · simp [hk]
  rw [hsame]
  cases hfind : l.find? fun a ↦ decide (key a = k') with
  | none =>
    split_ifs with hk
    · rw [← hk, hfind]
      rfl
    · rfl
  | some a =>
    have ha : key a = k' := by simpa using find?_some hfind
    split_ifs with hk
    · simp [← hk, hfind, ha]
    · simp [ha, hk]

lemma lookup_delete (k k' : κ) (l : List α) :
    lookup key k' (delete key k l) = if k' = k then none else lookup key k' l := by
  unfold lookup delete
  rw [find?_filter]
  split_ifs with hk
  · subst hk
    simp
  · congr 1
    funext a
    by_cases ha : key a = k'
    · simp [ha, hk]
    · simp [ha]

/-! ### Predicates that change once along the list -/

/-- What follows the first element that satisfies a predicate that larger keys keep. -/
lemma Ordered.dropWhile_eq_filter (h : Ordered key l) {p : α → Bool}
    (hp : ∀ a b, key a < key b → p a → p b) :
    l.dropWhile (fun a ↦ !p a) = l.filter p := by
  induction l with
  | nil => rfl
  | cons a l ih =>
    by_cases ha : p a
    · have hall : ∀ b ∈ l, p b := fun b hb ↦ hp a b ((pairwise_cons.mp h).1 b hb) ha
      rw [dropWhile_cons_of_neg (by simp [ha]), filter_cons_of_pos ha, filter_eq_self.mpr hall]
    · rw [dropWhile_cons_of_pos (by simpa using ha), filter_cons_of_neg ha, ih h.tail]

/-- What stands before the first element that fails a predicate that smaller keys keep. -/
lemma Ordered.takeWhile_eq_filter (h : Ordered key l) {p : α → Bool}
    (hp : ∀ a b, key a < key b → p b → p a) : l.takeWhile p = l.filter p := by
  induction l with
  | nil => rfl
  | cons a l ih =>
    by_cases ha : p a
    · rw [takeWhile_cons_of_pos ha, filter_cons_of_pos ha, ih h.tail]
    · have hnone : ∀ b ∈ l, ¬ p b :=
        fun b hb hpb ↦ ha (hp a b ((pairwise_cons.mp h).1 b hb) hpb)
      rw [takeWhile_cons_of_neg ha, filter_cons_of_neg ha, filter_eq_nil_iff.mpr hnone]

/-- Going on until the first element that fails a predicate is reached. -/
lemma Ordered.takeWhile_ne_find (h : Ordered key l) (p : α → Bool) :
    l.takeWhile (fun a ↦ some (key a) ≠ (l.find? fun a ↦ !p a).map key) = l.takeWhile p := by
  induction l with
  | nil => rfl
  | cons a l ih =>
    by_cases ha : p a
    · have hne : some (key a) ≠ (l.find? fun a ↦ !p a).map key := by
        intro heq
        obtain ⟨b, hb, hkey⟩ := Option.map_eq_some_iff.mp heq.symm
        have hlt := (pairwise_cons.mp h).1 b (mem_of_find?_eq_some hb)
        exact hlt.ne' hkey
      rw [find?_cons_of_neg (by simp [ha]), takeWhile_cons_of_pos (by simpa using hne),
        takeWhile_cons_of_pos ha, ih h.tail]
    · rw [find?_cons_of_pos (by simpa using ha), takeWhile_cons_of_neg (by simp),
        takeWhile_cons_of_neg ha]

section Sum

variable {M : Type*} [AddCommMonoid M] {l : List α} {a : α}

lemma Ordered.sum_map (h : Ordered key l) (ha : a ∈ l) (f : α → M) :
    (l.map f).sum = f a + ((KeyedList.delete key (key a) l).map f).sum := by
  obtain ⟨pre, post, rfl⟩ := append_of_mem ha
  rw [delete_split h]
  simp only [map_append, map_cons, sum_append, sum_cons]
  exact add_left_comm _ _ _

lemma Ordered.sum_map_modify (h : Ordered key l) (ha : a ∈ l) (f : α → M) (g : α → α) :
    ((KeyedList.modify key (key a) g l).map f).sum =
      f (g a) + ((KeyedList.delete key (key a) l).map f).sum := by
  obtain ⟨pre, post, rfl⟩ := append_of_mem ha
  rw [delete_split h, modify_split h]
  simp only [map_append, map_cons, sum_append, sum_cons]
  exact add_left_comm _ _ _

end Sum

variable (h : Ordered key (pre ++ p :: post))
include h

/-- The part of an ordered list before an element is what has a smaller key. -/
lemma filter_lt_split : (pre ++ p :: post).filter (fun a ↦ key a < key p) = pre := by
  obtain ⟨-, -, hbefore, hafter, -⟩ := ordered_append_cons.mp h
  rw [filter_append, filter_cons_of_neg (by simp),
    filter_eq_self.mpr (fun a ha ↦ by simpa using hbefore a ha),
    filter_eq_nil_iff.mpr (fun b hb ↦ by simpa using le_of_lt (hafter b hb)),
    append_nil]

/-- The part of an ordered list after an element is what has a larger key. -/
lemma filter_gt_split : (pre ++ p :: post).filter (fun a ↦ key p < key a) = post := by
  obtain ⟨-, -, hbefore, hafter, -⟩ := ordered_append_cons.mp h
  rw [filter_append, filter_cons_of_neg (by simp),
    filter_eq_nil_iff.mpr (fun a ha ↦ by simpa using le_of_lt (hbefore a ha)),
    filter_eq_self.mpr (fun b hb ↦ by simpa using hafter b hb), nil_append]

end OpenSplice.Library.KeyedList
