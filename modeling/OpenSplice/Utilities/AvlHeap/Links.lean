import OpenSplice.Utilities.AvlBalance
import OpenSplice.Utilities.AvlHeap.Model

/-!
# Trees in memory and their shape

`Rep t p o s` says that from the pointer `o` on, the nodes in memory are linked up like the tree
`s`, with `p` as the parent of its root. Of a tree that is being updated, `At` says it for the
subtree at the place of the update and for the context around it. Both only depend on the links of
the nodes they are about (`Rep.frame`, `RepCtx.frame`), and the names of the nodes are distinct, so
an assignment to one node does not disturb the rest. `Summed` says that the summaries in a subtree
are what the augment function makes of the objects below.
-/

set_option autoImplicit false

namespace OpenSplice.Utilities

open Avl List

namespace AvlTree

variable {κ β γ : Type} {td : Treedef κ β γ} {t t' : AvlTree β γ}
  {p o : Option ℕ} {d nd : Avl ℕ} {a x : ℕ} {s : Avl ℕ} {ctx : List (Frame ℕ)} {dir : Bool}
  {f : Frame ℕ}

section Assign

variable (t : AvlTree β γ) (a x : ℕ) (d e : Bool) (v : Option ℕ) (h : ℕ) (o : Option ℕ)
  (pnode : NodePtr)

section Modify

variable {t a x o} {δ : Type} {g : AvlNode β γ → δ} {f : AvlNode β γ → AvlNode β γ}

lemma node_modify (hf : ∀ n, g (f n) = g n) : g ((t.modify a f).node x) = g (t.node x) := by
  by_cases hx : x = a
  · subst hx
    simp [modify, hf]
  · simp [modify, hx]

lemma node_modify_set {z : δ} (hf : ∀ n, g (f n) = z) :
    g ((t.modify a f).node x) = if x = a then z else g (t.node x) := by
  by_cases hx : x = a <;> simp [modify, hf, hx]

lemma object_modify (hf : ∀ n, ((f n).payload, (f n).summary) = (n.payload, n.summary)) :
    (t.modify a f).object o = t.object o := by
  cases o with
  | none => rfl
  | some => exact congrArg some (node_modify (g := fun n ↦ (n.payload, n.summary)) hf)

end Modify

@[simp] lemma cs_setCs :
    ((t.setCs a d v).node x).cs e = if x = a ∧ e = d then v else (t.node x).cs e := by
  by_cases hx : x = a
  · subst hx
    cases d <;> cases e <;> simp [setCs, modify, AvlNode.setCs, AvlNode.cs]
  · simp [setCs, modify, hx]

@[simp] lemma parent_setCs : ((t.setCs a d v).node x).parent = (t.node x).parent :=
  node_modify fun _ ↦ by cases d <;> rfl

@[simp] lemma height_setCs : ((t.setCs a d v).node x).height = (t.node x).height :=
  node_modify fun _ ↦ by cases d <;> rfl

@[simp] lemma object_setCs : (t.setCs a d v).object o = t.object o :=
  object_modify fun _ ↦ by cases d <;> rfl

@[simp] lemma root_setCs : (t.setCs a d v).root = t.root := rfl

@[simp] lemma cs_setParent : ((t.setParent a v).node x).cs e = (t.node x).cs e :=
  node_modify (g := (·.cs e)) fun _ ↦ rfl

@[simp] lemma parent_setParent :
    ((t.setParent a v).node x).parent = if x = a then v else (t.node x).parent :=
  node_modify_set fun _ ↦ rfl

@[simp] lemma height_setParent : ((t.setParent a v).node x).height = (t.node x).height :=
  node_modify fun _ ↦ rfl

@[simp] lemma object_setParent : (t.setParent a v).object o = t.object o :=
  object_modify fun _ ↦ rfl

@[simp] lemma root_setParent : (t.setParent a v).root = t.root := rfl

@[simp] lemma cs_setParentOf : ((t.setParentOf o v).node x).cs e = (t.node x).cs e := by
  cases o <;> simp [setParentOf]

@[simp] lemma parent_setParentOf :
    ((t.setParentOf o v).node x).parent = if o = some x then v else (t.node x).parent := by
  cases o <;> simp [setParentOf, eq_comm]

@[simp] lemma height_setParentOf : ((t.setParentOf o v).node x).height = (t.node x).height := by
  cases o <;> simp [setParentOf]

@[simp] lemma object_setParentOf (o' : Option ℕ) : (t.setParentOf o v).object o' = t.object o' := by
  cases o <;> simp [setParentOf]

@[simp] lemma root_setParentOf : (t.setParentOf o v).root = t.root := by
  cases o <;> rfl

@[simp] lemma cs_setHeight : ((t.setHeight a h).node x).cs e = (t.node x).cs e :=
  node_modify (g := (·.cs e)) fun _ ↦ rfl

@[simp] lemma parent_setHeight : ((t.setHeight a h).node x).parent = (t.node x).parent :=
  node_modify fun _ ↦ rfl

@[simp] lemma height_setHeight :
    ((t.setHeight a h).node x).height = if x = a then h else (t.node x).height :=
  node_modify_set fun _ ↦ rfl

@[simp] lemma object_setHeight : (t.setHeight a h).object o = t.object o :=
  object_modify fun _ ↦ rfl

@[simp] lemma root_setHeight : (t.setHeight a h).root = t.root := rfl

@[simp] lemma cs_store :
    ((t.store pnode v).node x).cs e = if pnode = .cs x e then v else (t.node x).cs e := by
  cases pnode with
  | root => simp [store]
  | cs =>
    simp only [store, cs_setCs, NodePtr.cs.injEq]
    exact if_congr ⟨fun h ↦ ⟨h.1.symm, h.2.symm⟩, fun h ↦ ⟨h.1.symm, h.2.symm⟩⟩ rfl rfl

@[simp] lemma parent_store : ((t.store pnode v).node x).parent = (t.node x).parent := by
  cases pnode <;> simp [store]

@[simp] lemma height_store : ((t.store pnode v).node x).height = (t.node x).height := by
  cases pnode <;> simp [store]

@[simp] lemma object_store : (t.store pnode v).object o = t.object o := by
  cases pnode with
  | root => rfl
  | cs => simp [store]

@[simp] lemma root_store : (t.store pnode v).root = if pnode = .root then v else t.root := by
  cases pnode <;> simp [store]

@[simp] lemma load_store : (t.store pnode v).load pnode = v := by
  cases pnode <;> simp [store, load]

@[simp] lemma cs_initLeaf :
    ((t.initLeaf a v).node x).cs e = if x = a then none else (t.node x).cs e :=
  node_modify_set (g := (·.cs e)) fun _ ↦ by cases e <;> rfl

@[simp] lemma parent_initLeaf :
    ((t.initLeaf a v).node x).parent = if x = a then v else (t.node x).parent :=
  node_modify_set fun _ ↦ rfl

@[simp] lemma height_initLeaf :
    ((t.initLeaf a v).node x).height = if x = a then 1 else (t.node x).height :=
  node_modify_set fun _ ↦ rfl

@[simp] lemma object_initLeaf : (t.initLeaf a v).object o = t.object o := object_modify fun _ ↦ rfl

@[simp] lemma root_initLeaf : (t.initLeaf a v).root = t.root := rfl

variable (td : Treedef κ β γ)

lemma node_augment {δ : Type} {g : AvlNode β γ → δ} (hg : ∀ n z, g { n with summary := z } = g n) :
    g ((t.augment td a).node x) = g (t.node x) := by
  unfold augment
  cases td.augment with
  | none => rfl
  | some => exact node_modify fun n ↦ hg n _

@[simp] lemma cs_augment : ((t.augment td a).node x).cs e = (t.node x).cs e :=
  node_augment t a x td (g := (·.cs e)) fun _ _ ↦ rfl

@[simp] lemma parent_augment : ((t.augment td a).node x).parent = (t.node x).parent :=
  node_augment t a x td fun _ _ ↦ rfl

@[simp] lemma height_augment : ((t.augment td a).node x).height = (t.node x).height :=
  node_augment t a x td fun _ _ ↦ rfl

@[simp] lemma payload_augment : ((t.augment td a).node x).payload = (t.node x).payload :=
  node_augment t a x td fun _ _ ↦ rfl

lemma object_augment_of_ne (ho : o ≠ some a) : (t.augment td a).object o = t.object o := by
  unfold augment
  cases td.augment with
  | none => rfl
  | some =>
    cases o with
    | none => rfl
    | some y =>
      have hy : y ≠ a := fun h ↦ ho (congrArg some h)
      simp [object, modify, hy]

@[simp] lemma root_augment : (t.augment td a).root = t.root := by
  unfold augment
  cases td.augment <;> rfl

@[simp] lemma load_augment : (t.augment td a).load pnode = t.load pnode := by
  cases pnode <;> simp [load]

end Assign

/-! ### Linked subtrees -/

/-- The nodes from the pointer `o` on are linked up like the tree, and `p` is the parent. -/
def Rep (t : AvlTree β γ) : Option ℕ → Option ℕ → Avl ℕ → Prop
  | _, o, .nil => o = none
  | p, o, .node l a r h =>
    o = some a ∧ (t.node a).parent = p ∧ (t.node a).height = h ∧
      Rep t (some a) ((t.node a).cs false) l ∧ Rep t (some a) ((t.node a).cs true) r

lemma rep_branch {h : ℕ} :
    Rep t p o (branch dir d a nd h) ↔ o = some a ∧ (t.node a).parent = p ∧ (t.node a).height = h ∧
      Rep t (some a) ((t.node a).cs dir) d ∧ Rep t (some a) ((t.node a).cs !dir) nd := by
  cases dir
  · rfl
  · simp [branch, Rep]
    tauto

lemma mem_branch {h : ℕ} :
    x ∈ (branch dir d a nd h).toList ↔ x = a ∨ x ∈ d.toList ∨ x ∈ nd.toList := by
  cases dir <;> simp [branch] <;> tauto

/-- The links and the height of a node are the same in both memories. -/
structure SameNode (t t' : AvlTree β γ) (x : ℕ) : Prop where
  cs : ∀ e, (t'.node x).cs e = (t.node x).cs e
  parent : (t'.node x).parent = (t.node x).parent
  height : (t'.node x).height = (t.node x).height

section

variable (h : Rep t p o s)
include h

lemma Rep.root_eq : s.root = o := by
  cases s with
  | nil => exact h.symm
  | node => exact h.1.symm

lemma Rep.root_parent {x : ℕ} (hx : s.root = some x) : (t.node x).parent = p := by
  cases s with
  | nil => simp [Avl.root] at hx
  | node =>
    rw [← Option.some_inj.mp hx]
    exact h.2.1

lemma Rep.heightOf : t.heightOf o = s.height := by
  cases s with
  | nil =>
    obtain rfl : o = none := h
    rfl
  | node =>
    obtain ⟨rfl, -, hheight, -⟩ := h
    exact hheight

lemma Rep.frame (hsame : ∀ x ∈ s.toList, SameNode t t' x) : Rep t' p o s := by
  induction s generalizing p o with
  | nil => exact h
  | node _ a _ _ ihl ihr =>
    obtain ⟨ho, hparent, hheight, hl, hr⟩ := h
    have ha := hsame a (by simp)
    refine ⟨ho, ha.parent.trans hparent, ha.height.trans hheight, ?_, ?_⟩
    · rw [ha.cs]
      exact ihl hl fun x hx ↦ hsame x (by simp [hx])
    · rw [ha.cs]
      exact ihr hr fun x hx ↦ hsame x (by simp [hx])

lemma Rep.reparent {q : Option ℕ} (hnodup : s.toList.Nodup)
    (hcs : ∀ x ∈ s.toList, ∀ e, (t'.node x).cs e = (t.node x).cs e)
    (hparent : ∀ x ∈ s.toList, (t'.node x).parent = if o = some x then q else (t.node x).parent)
    (hheight : ∀ x ∈ s.toList, (t'.node x).height = (t.node x).height) : Rep t' q o s := by
  cases s with
  | nil => exact h
  | node l a r k =>
    obtain ⟨rfl, -, hh, hl, hr⟩ := h
    have hbelow : ∀ x, x ∈ l.toList ∨ x ∈ r.toList → SameNode t t' x := by
      intro x hx
      have hmem : x ∈ (Avl.node l a r k).toList := by
        rcases hx with hx | hx <;> simp [hx]
      have hne : a ≠ x := by
        rintro rfl
        have := nodup_append.mp hnodup
        rcases hx with hx | hx
        · exact this.2.2 a hx a (by simp) rfl
        · exact (nodup_cons.mp this.2.1).1 hx
      exact ⟨hcs x hmem, by rw [hparent x hmem, if_neg (by simpa using hne)], hheight x hmem⟩
    refine ⟨rfl, by rw [hparent a (by simp), if_pos rfl], (hheight a (by simp)).trans hh, ?_, ?_⟩
    · rw [hcs a (by simp)]
      exact hl.frame fun x hx ↦ hbelow x (.inl hx)
    · rw [hcs a (by simp)]
      exact hr.frame fun x hx ↦ hbelow x (.inr hx)

end

/-! ### Contexts -/

def holeParent : List (Frame ℕ) → Option ℕ
  | [] => none
  | f :: _ => some f.x

def holePtr : List (Frame ℕ) → NodePtr
  | [] => .root
  | f :: _ => .cs f.x f.dir

def RepCtx (t : AvlTree β γ) : List (Frame ℕ) → Prop
  | [] => True
  | f :: ctx =>
    (t.node f.x).parent = holeParent ctx ∧ (t.node f.x).height = f.height ∧
      Rep t (some f.x) ((t.node f.x).cs !f.dir) f.sibling ∧ t.load (holePtr ctx) = some f.x ∧
      RepCtx t ctx

/-- The tree has the subtree `s` at the place of the context. -/
structure At (t : AvlTree β γ) (s : Avl ℕ) (ctx : List (Frame ℕ)) : Prop where
  links : RepCtx t ctx
  focus : Rep t (holeParent ctx) (t.load (holePtr ctx)) s
  nodup : (s.toList ++ ctxList ctx).Nodup

lemma mem_ctxList_cons :
    x ∈ ctxList (f :: ctx) ↔ x = f.x ∨ x ∈ f.sibling.toList ∨ x ∈ ctxList ctx := by
  simp [ctxList]

/-- A context only depends on its own nodes, and not on the pointer to its place. -/
lemma RepCtx.frame (h : RepCtx t ctx) (hnodup : (ctxList ctx).Nodup)
    (hsame : ∀ x ∈ ctxList ctx, (t'.node x).parent = (t.node x).parent ∧
      (t'.node x).height = (t.node x).height ∧
      ∀ e, holePtr ctx ≠ .cs x e → (t'.node x).cs e = (t.node x).cs e)
    (hroot : ctx ≠ [] → t'.root = t.root) : RepCtx t' ctx := by
  induction ctx with
  | nil => trivial
  | cons f ctx ih =>
    obtain ⟨hparent, hheight, hsib, hload, hctx⟩ := h
    have hf := hsame f.x (mem_ctxList_cons.mpr (.inl rfl))
    rw [ctxList, flatMap_cons, cons_append, nodup_cons] at hnodup
    obtain ⟨hfresh, hrest⟩ := hnodup
    have hne : ∀ x, x ∈ f.sibling.toList ∨ x ∈ ctxList ctx → f.x ≠ x := by
      rintro x hx rfl
      exact hfresh (mem_append.mpr hx)
    -- the only pointer that may have changed is in the node of this frame
    have hcs : ∀ x, x ∈ f.sibling.toList ∨ x ∈ ctxList ctx → ∀ e,
        (t'.node x).cs e = (t.node x).cs e := fun x hx e ↦
      (hsame x (mem_ctxList_cons.mpr (.inr hx))).2.2 e fun heq ↦
        hne x hx (NodePtr.cs.inj heq).1
    have hctx' : RepCtx t' ctx := ih hctx (nodup_append.mp hrest).2.1 (fun x hx ↦
        ⟨(hsame x (mem_ctxList_cons.mpr (.inr (.inr hx)))).1,
          (hsame x (mem_ctxList_cons.mpr (.inr (.inr hx)))).2.1, fun e _ ↦ hcs x (.inr hx) e⟩)
      fun _ ↦ hroot (cons_ne_nil _ _)
    refine ⟨hf.1.trans hparent, hf.2.1.trans hheight, ?_, ?_, hctx'⟩
    · rw [hf.2.2 _ fun heq ↦ by simp [holePtr] at heq]
      exact hsib.frame fun x hx ↦ ⟨hcs x (.inl hx),
        (hsame x (mem_ctxList_cons.mpr (.inr (.inl hx)))).1,
        (hsame x (mem_ctxList_cons.mpr (.inr (.inl hx)))).2.1⟩
    · cases ctx with
      | nil => exact (hroot (cons_ne_nil _ _)).trans hload
      | cons g => refine (hcs g.x (.inr (mem_ctxList_cons.mpr (.inl rfl))) g.dir).trans hload

lemma at_cons : At t s (f :: ctx) ↔ At t (f.plug s) ctx := by
  have hperm : (s.toList ++ ctxList (f :: ctx)).Perm ((f.plug s).toList ++ ctxList ctx) := by
    rw [ctxList, flatMap_cons, ← append_assoc]
    refine List.Perm.append_right _ ?_
    unfold Frame.plug branch
    cases f.dir
    · exact List.Perm.refl _
    · refine perm_middle.trans ?_
      exact (perm_append_comm.cons _).trans perm_middle.symm
  constructor
  · rintro ⟨⟨hparent, hheight, hsib, hload, hctx⟩, hfocus, hnodup⟩
    exact ⟨hctx, rep_branch.mpr ⟨hload, hparent, hheight, hfocus, hsib⟩, hperm.nodup_iff.mp hnodup⟩
  · rintro ⟨hctx, hfocus, hnodup⟩
    obtain ⟨hload, hparent, hheight, hs, hsib⟩ := rep_branch.mp hfocus
    exact ⟨⟨hparent, hheight, hsib, hload, hctx⟩, hs, hperm.nodup_iff.mpr hnodup⟩

lemma at_append {inner : List (Frame ℕ)} : At t s (inner ++ ctx) ↔ At t (plug s inner) ctx := by
  induction inner generalizing s with
  | nil => rfl
  | cons _ _ ih =>
    rw [cons_append, at_cons, ih]
    rfl

lemma at_plug : At t s ctx ↔ At t (plug s ctx) [] := by
  rw [← at_append, append_nil]

/-! ### Summaries -/

def Fresh (td : Treedef κ β γ) (t : AvlTree β γ) (l : Avl ℕ) (a : ℕ) (r : Avl ℕ) : Prop :=
  ∀ f, td.augment = some f →
    (t.node a).summary = f (t.node a).payload (t.object l.root) (t.object r.root)

def Summed (td : Treedef κ β γ) (t : AvlTree β γ) : Avl ℕ → Prop
  | .nil => True
  | .node l a r _ => Fresh td t l a r ∧ Summed td t l ∧ Summed td t r

lemma summed_branch {h : ℕ} : Summed td t (branch dir d a nd h) ↔
      Fresh td t (if dir then nd else d) a (if dir then d else nd) ∧ Summed td t d ∧
        Summed td t nd := by
  cases dir
  · rfl
  · simp [branch, Summed]
    tauto

lemma summed_of_none (hnone : td.augment = none) (s : Avl ℕ) : Summed td t s := by
  induction s with
  | nil => trivial
  | node _ _ _ _ ihl ihr => exact ⟨fun f hf ↦ absurd (hnone.symm.trans hf) (by simp), ihl, ihr⟩

lemma mem_of_root (h : s.root = some a) : a ∈ s.toList := Avl.root_mem h

lemma Summed.frame (h : Summed td t s)
    (hsame : ∀ x ∈ s.toList, t'.object (some x) = t.object (some x)) : Summed td t' s := by
  induction s with
  | nil => trivial
  | node l a r k ihl ihr =>
    obtain ⟨hfresh, hl, hr⟩ := h
    have hroot : ∀ u : Avl ℕ, (∀ x ∈ u.toList, x ∈ (Avl.node l a r k).toList) →
        t'.object u.root = t.object u.root := by
      intro u hu
      cases hroot : u.root with
      | none => rfl
      | some x => exact hsame x (hu x (mem_of_root hroot))
    have ha := Option.some_inj.mp (hsame a (by simp))
    refine ⟨fun f hf ↦ ?_, ihl hl fun x hx ↦ hsame x (by simp [hx]),
      ihr hr fun x hx ↦ hsame x (by simp [hx])⟩
    rw [hroot l fun x hx ↦ by simp [hx], hroot r fun x hx ↦ by simp [hx],
      (Prod.mk.inj ha).1, (Prod.mk.inj ha).2]
    exact hfresh f hf

lemma fresh_augment {l r : Avl ℕ} (hl : (t.node a).cs false = l.root)
    (hr : (t.node a).cs true = r.root) (hal : a ∉ l.toList) (har : a ∉ r.toList) :
    Fresh td (t.augment td a) l a r := by
  intro f hf
  have hleft : l.root ≠ some a := fun h ↦ hal (mem_of_root h)
  have hright : r.root ≠ some a := fun h ↦ har (mem_of_root h)
  rw [object_augment_of_ne t a l.root td hleft, object_augment_of_ne t a r.root td hright,
    payload_augment, ← hl, ← hr]
  simp [augment, hf, modify, AvlNode.cs]

end AvlTree

end OpenSplice.Utilities
