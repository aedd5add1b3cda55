import OpenSplice.Library.KeyedList

/-!
# AVL trees

The trees of `ut_avl.c`, without duplicates and without augmentation. A tree is kept as the source
shapes it, heights included, since some clients look at its root (`ut_avlRoot`). Parent pointers and
paths have no counterpart: an update descends from the root and `rebalanceOne` is applied on the way
back up, until a node neither rotates nor changes its height.

The lookups are those of the in-order list (`Library.KeyedList`), and the lemmas say what the
updates do to that list.
-/

set_option autoImplicit false

namespace OpenSplice.Utilities

open Library KeyedList List

/-- A tree of `ut_avlNode_t`, each with its height. -/
inductive Avl (α : Type)
  | nil
  | node (left : Avl α) (x : α) (right : Avl α) (height : ℕ)
  deriving DecidableEq

namespace Avl

variable {α : Type} {t : Avl α}

def toList : Avl α → List α
  | nil => []
  | node l x r _ => l.toList ++ x :: r.toList

def height : Avl α → ℕ
  | nil => 0
  | node _ _ _ h => h

/-- `ut_avlRoot`. -/
def root : Avl α → Option α
  | nil => none
  | node _ x _ _ => some x

/-! ### Rebalancing -/

/-- `rotate_single`: to the right if `dir`, else to the left. -/
def rotateSingle (dir : Bool) (t : Avl α) : Avl α :=
  match dir, t with
  | true, node (node u y m _) x v _ =>
    node u y (node m x v (1 + m.height)) (1 + m.height + 1)
  | false, node v x (node m y u _) _ =>
    node (node v x m (1 + m.height)) y u (1 + m.height + 1)
  | _, t => t

/-- `rotate_double`. -/
def rotateDouble (dir : Bool) (t : Avl α) : Avl α :=
  match dir, t with
  | true, node (node u y (node a z b hz) hy) x v _ => node (node u y a hz) z (node b x v hz) hy
  | false, node v x (node (node a z b hz) y u hy) _ => node (node v x a hz) z (node b y u hz) hy
  | _, t => t

/-- `rotate`. -/
def rotate (dir : Bool) (t : Avl α) : Avl α :=
  match dir, t with
  | true, node (node u _ m _) _ _ _ =>
    if u.height < m.height then rotateDouble true t else rotateSingle true t
  | false, node _ _ (node m _ u _) _ =>
    if u.height < m.height then rotateDouble false t else rotateSingle false t
  | _, t => t

/-- `rebalance_one`: the rebalanced tree, and whether its parent is to be rebalanced too. -/
def rebalanceOne : Avl α → Avl α × Bool
  | nil => (nil, false)
  | node l x r h =>
    if r.height + 1 < l.height then (rotate true (node l x r h), true)
    else if l.height + 1 < r.height then (rotate false (node l x r h), true)
    else
      let height := (if l.height < r.height then r.height else l.height) + 1
      if height = h then (node l x r h, false) else (node l x r height, true)

def climb (t : Avl α) (changed : Bool) : Avl α × Bool :=
  if changed then rebalanceOne t else (t, false)

variable {κ : Type} [LinearOrder κ] (key : α → κ)

/-- `ut_avlInsertIPath` at the path of the key of `x`. -/
def insertClimb (x : α) : Avl α → Avl α × Bool
  | nil => (node nil x nil 1, true)
  | node l y r h =>
    if key x < key y then
      let sub := insertClimb x l
      climb (node sub.1 y r h) sub.2
    else
      let sub := insertClimb x r
      climb (node l y sub.1 h) sub.2

/-- `ut_avlInsert`. -/
def insert (x : α) (t : Avl α) : Avl α := (insertClimb key x t).1

/-- The removal of the last element of a tree that is not empty, as `delete_generic` does it to find
the substitute of a node with two children. -/
def removeMax : Avl α → α → Avl α → ℕ → α × Avl α × Bool
  | l, x, nil, _ => (x, l, true)
  | l, x, node l' x' r' h', h =>
    let sub := removeMax l' x' r' h'
    let up := climb (node l x sub.2.1 h) sub.2.2
    (sub.1, up.1, up.2)

/-- `delete_generic` at the node itself. -/
def deleteRoot : Avl α → Avl α → ℕ → Avl α × Bool
  | nil, r, _ => (r, true)
  | l, nil, _ => (l, true)
  | node l x r h, r', h' =>
    let sub := removeMax l x r h
    climb (node sub.2.1 sub.1 r' h') sub.2.2

/-- `ut_avlDelete` of the node with key `k`. -/
def deleteClimb (k : κ) : Avl α → Avl α × Bool
  | nil => (nil, false)
  | node l x r h =>
    if key x = k then deleteRoot l r h
    else if k < key x then
      let sub := deleteClimb k l
      climb (node sub.1 x r h) sub.2
    else
      let sub := deleteClimb k r
      climb (node l x sub.1 h) sub.2

/-- `ut_avlDelete`. -/
def delete (k : κ) (t : Avl α) : Avl α := (deleteClimb key k t).1

/-- An assignment to the element with key `k`, in place. -/
def update (k : κ) (y : α) : Avl α → Avl α
  | nil => nil
  | node l x r h => node (update k y l) (if key x = k then y else x) (update k y r) h

/-! ### The in-order sequence -/

@[simp] lemma toList_nil : (nil : Avl α).toList = [] := rfl

@[simp] lemma toList_node (l r : Avl α) (x : α) (h : ℕ) :
    (node l x r h).toList = l.toList ++ x :: r.toList := rfl

variable (dir : Bool) (k : κ)

section

variable (t : Avl α)

@[simp] lemma toList_rotateSingle : (rotateSingle dir t).toList = t.toList := by
  unfold rotateSingle
  split <;> simp

@[simp] lemma toList_rotateDouble : (rotateDouble dir t).toList = t.toList := by
  unfold rotateDouble
  split <;> simp

@[simp] lemma toList_rotate : (rotate dir t).toList = t.toList := by
  unfold rotate
  split
  · split_ifs <;> simp
  · split_ifs <;> simp
  · rfl

@[simp] lemma toList_rebalanceOne : (rebalanceOne t).1.toList = t.toList := by
  cases t with
  | nil => rfl
  | node =>
    unfold rebalanceOne
    dsimp only
    split_ifs <;> simp

@[simp] lemma toList_climb (changed : Bool) : (climb t changed).1.toList = t.toList := by
  unfold climb
  split_ifs <;> simp

end

lemma toList_removeMax (l : Avl α) (x : α) (r : Avl α) (h : ℕ) :
    (removeMax l x r h).2.1.toList ++ [(removeMax l x r h).1] = l.toList ++ x :: r.toList := by
  induction r generalizing l x h with
  | nil => rfl
  | node _ _ _ _ _ ih =>
    unfold removeMax
    rw [toList_climb, toList_node, append_assoc, cons_append, ih, toList_node]

lemma toList_deleteRoot (l r : Avl α) (h : ℕ) :
    (deleteRoot l r h).1.toList = l.toList ++ r.toList := by
  unfold deleteRoot
  split
  · rfl
  · simp
  · rw [toList_climb, toList_node, append_cons, toList_removeMax, toList_node]

lemma toList_update (y : α) (t : Avl α) :
    (update key k y t).toList = KeyedList.update key k y t.toList := by
  induction t with
  | nil => rfl
  | node _ _ _ _ ihl ihr => simp [update, ihl, ihr, KeyedList.update]

variable {key} {x : α}

lemma toList_insert (x : α) (hord : KeyedList.Ordered key t.toList) :
    (insert key x t).toList = KeyedList.insert key x t.toList := by
  unfold insert
  induction t with
  | nil => rfl
  | node l y r _ ihl ihr =>
    obtain ⟨hl, hr, hbefore, -⟩ := ordered_append_cons.mp hord
    unfold insertClimb
    split_ifs with hlt
    · rw [toList_climb, toList_node, ihl hl, toList_node, insert_append_of_lt hlt]
    · have hle : ∀ a ∈ l.toList ++ [y], key a ≤ key x := by
        simp only [forall_mem_append, forall_mem_singleton]
        refine ⟨fun a ha ↦ ?_, by order⟩
        have := hbefore a ha
        order
      have hinsert := insert_append_of_le hle r.toList
      rw [← append_cons, ← append_cons] at hinsert
      rw [toList_climb, toList_node, ihr hr, toList_node, hinsert]

lemma toList_delete (hord : KeyedList.Ordered key t.toList) :
    (delete key k t).toList = KeyedList.delete key k t.toList := by
  unfold delete
  induction t with
  | nil => rfl
  | node l x r _ ihl ihr =>
    obtain ⟨hl, hr, hbefore, hafter, -⟩ := ordered_append_cons.mp hord
    unfold deleteClimb
    split_ifs with heq hlt
    · subst heq
      rw [toList_deleteRoot, toList_node, delete_split hord]
    · have hr' : ∀ b ∈ x :: r.toList, key b ≠ k := by
        refine forall_mem_cons.mpr ⟨heq, fun b hb ↦ ?_⟩
        have := hafter b hb
        order
      rw [toList_climb, toList_node, ihl hl, toList_node, delete_append, delete_of_not_mem hr']
    · have hl' : ∀ a ∈ l.toList ++ [x], key a ≠ k := by
        simp only [forall_mem_append, forall_mem_singleton]
        refine ⟨fun a ha ↦ ?_, heq⟩
        have := hbefore a ha
        order
      have hdelete := delete_append key k (l.toList ++ [x]) r.toList
      rw [delete_of_not_mem hl', ← append_cons, ← append_cons] at hdelete
      rw [toList_climb, toList_node, ihr hr, toList_node, hdelete]

lemma root_of_toList_singleton (h : t.toList = [x]) : t.root = some x := by
  cases t with
  | nil => simp at h
  | node =>
    rw [toList_node, append_eq_singleton_iff] at h
    simp only [cons.injEq, reduceCtorEq, and_false, or_false] at h
    rw [root, h.2.1]

lemma root_mem (h : t.root = some x) : x ∈ t.toList := by
  cases t with
  | nil => simp [root] at h
  | node =>
    simp only [root, Option.some.injEq] at h
    simp [h]

end Avl

end OpenSplice.Utilities
