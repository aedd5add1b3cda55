import OpenSplice.Utilities.AvlHeap.Links

/-!
# Rotations in memory

The assignments of a rotation link up the nodes like the rotated tree, in both directions at once:
`At.relinkSingle` and `At.relinkDouble`. What a rotation assigns to is said once for each field
(`cs_relinkSingle` and the like), and as the nodes are distinct, all other nodes are as before. The
links of a double rotation are those of two single ones (`links_relinkDouble`).
-/

set_option autoImplicit false

namespace OpenSplice.Utilities

open Avl List NodePtr

namespace AvlTree

variable {β γ : Type} {t : AvlTree β γ} {ctx : List (Frame ℕ)} (dir : Bool)

lemma branch_perm (d nd : Avl ℕ) (a h : ℕ) :
    (branch dir d a nd h).toList.Perm (a :: (d.toList ++ nd.toList)) := by
  cases dir
  · exact perm_middle
  · exact perm_middle.trans (perm_append_comm.cons a)

lemma holePtr_mem {x : ℕ} {e : Bool} (h : holePtr ctx = .cs x e) : x ∈ ctxList ctx := by
  cases ctx with
  | nil => simp [holePtr] at h
  | cons => exact mem_ctxList_cons.mpr (.inl (cs.inj h).1.symm)

lemma holePtr_ne_root (h : ctx ≠ []) : holePtr ctx ≠ .root := by
  cases ctx with
  | nil => exact absurd rfl h
  | cons => exact fun hc ↦ NodePtr.noConfusion hc

section Single

variable {pnode : NodePtr} {a b x : ℕ} {dir e : Bool}

lemma cs_relinkSingle : ((t.relinkSingle pnode a b dir).node x).cs e =
      if pnode = .cs x e then some b
      else if x = a ∧ e = !dir then (t.node b).cs dir
      else if x = b ∧ e = dir then some a else (t.node x).cs e := by
  simp [relinkSingle]

lemma parent_relinkSingle : ((t.relinkSingle pnode a b dir).node x).parent =
      if (t.node b).cs dir = some x then some a
      else if x = a then some b else if x = b then (t.node a).parent else (t.node x).parent := by
  simp [relinkSingle]

lemma height_relinkSingle : ((t.relinkSingle pnode a b dir).node x).height =
      if x = b then 1 + t.heightOf ((t.node b).cs dir) + 1
      else if x = a then 1 + t.heightOf ((t.node b).cs dir) else (t.node x).height := by
  have hheight : ∀ (t : AvlTree β γ) o, t.heightOf o = o.elim 0 fun y ↦ (t.node y).height :=
    fun _ _ ↦ rfl
  simp [relinkSingle, hheight]

lemma root_relinkSingle :
    (t.relinkSingle pnode a b dir).root = if pnode = .root then some b else t.root := by
  simp [relinkSingle]

end Single

lemma At.relinkSingle {dir : Bool} {v m u : Avl ℕ} {a b h hb : ℕ}
    (hat : At t (branch dir v a (branch dir m b u hb) h) ctx) :
    At (t.relinkSingle (holePtr ctx) a b dir)
      (branch dir (branch dir v a m (1 + m.height)) b u (1 + m.height + 1)) ctx := by
  obtain ⟨hctx, hfocus, hnodup⟩ := hat
  obtain ⟨hload, hparent, hheight, hv, hb'⟩ := rep_branch.mp hfocus
  obtain ⟨hcsb, hparentb, hheightb, hm, hu⟩ := rep_branch.mp hb'
  have hperm : (branch dir v a (branch dir m b u hb) h).toList.Perm
      (a :: b :: (v.toList ++ (m.toList ++ u.toList))) :=
    (branch_perm _ _ _ _ _).trans
      ((((branch_perm _ _ _ _ _).append_left _).trans perm_middle).cons a)
  have hperm' : (branch dir (branch dir v a m (1 + m.height)) b u (1 + m.height + 1)).toList.Perm
      (a :: b :: (v.toList ++ (m.toList ++ u.toList))) := by
    refine (branch_perm _ _ _ _ _).trans
      ((((branch_perm _ _ _ _ _).append_right _).cons b).trans ?_)
    rw [cons_append, append_assoc]
    exact List.Perm.swap a b _
  have hall := (hperm.append_right (ctxList ctx)).nodup_iff.mp hnodup
  have hhole : ∀ x e, holePtr ctx = .cs x e → x ∈ ctxList ctx := fun x e ↦ holePtr_mem
  have hmroot : ∀ x, (t.node b).cs dir = some x → x ∈ m.toList :=
    fun x hx ↦ mem_of_root (hm.root_eq.trans hx)
  simp only [cons_append, nodup_cons, nodup_append, mem_cons, mem_append, not_or] at hall
  refine ⟨hctx.frame (by grind) ?_ ?_,
    rep_branch.mpr ⟨by simp [AvlTree.relinkSingle], ?_, ?_, ?_, ?_⟩,
    (hperm'.append_right _).nodup_iff.mpr ((hperm.append_right _).nodup_iff.mp hnodup)⟩
  · intro x _
    simp only [parent_relinkSingle, height_relinkSingle, cs_relinkSingle]
    grind
  · intro hne
    rw [root_relinkSingle, if_neg (holePtr_ne_root hne)]
  · rw [parent_relinkSingle]
    grind
  · rw [height_relinkSingle, if_pos rfl, hm.heightOf]
  · have hcs : ((t.relinkSingle (holePtr ctx) a b dir).node b).cs dir = some a := by
      rw [cs_relinkSingle]
      grind
    rw [hcs]
    refine rep_branch.mpr ⟨rfl, ?_, ?_, ?_, ?_⟩
    · rw [parent_relinkSingle]
      grind
    · rw [height_relinkSingle, hm.heightOf]
      grind
    · have hcs' : ((t.relinkSingle (holePtr ctx) a b dir).node a).cs dir = (t.node a).cs dir := by
        rw [cs_relinkSingle]
        grind
      rw [hcs']
      refine hv.frame fun x hx ↦ ⟨fun e ↦ ?_, ?_, ?_⟩ <;>
        simp only [parent_relinkSingle, height_relinkSingle, cs_relinkSingle] <;> grind
    · have hcs' : ((t.relinkSingle (holePtr ctx) a b dir).node a).cs (!dir) =
          (t.node b).cs dir := by
        rw [cs_relinkSingle]
        grind
      rw [hcs']
      refine hm.reparent (by grind) (fun x hx e ↦ ?_) (fun x hx ↦ ?_) fun x hx ↦ ?_ <;>
        simp only [parent_relinkSingle, height_relinkSingle, cs_relinkSingle] <;> grind
  · have hcs : ((t.relinkSingle (holePtr ctx) a b dir).node b).cs (!dir) =
        (t.node b).cs (!dir) := by
      rw [cs_relinkSingle]
      grind
    rw [hcs]
    refine hu.frame fun x hx ↦ ⟨fun e ↦ ?_, ?_, ?_⟩ <;>
      simp only [parent_relinkSingle, height_relinkSingle, cs_relinkSingle] <;> grind

section Double

variable {pnode : NodePtr} {a b c x : ℕ} {dir e : Bool}

lemma cs_relinkDouble (hbc : b ≠ c) : ((t.relinkDouble pnode a b c dir).node x).cs e =
      if pnode = .cs x e then some c
      else if x = c then (if e = dir then some a else some b)
      else if x = a ∧ e = !dir then (t.node c).cs dir
      else if x = b ∧ e = dir then (t.node c).cs !dir else (t.node x).cs e := by
  simp only [relinkDouble, cs_setHeight, cs_store, cs_setParent, cs_setCs, cs_setParentOf]
  rcases Bool.eq_or_eq_not e dir with he | he <;> grind

lemma parent_relinkDouble (hbc : b ≠ c) : ((t.relinkDouble pnode a b c dir).node x).parent =
      if x = c then (t.node a).parent else if x = a ∨ x = b then some c
      else if (t.node c).cs dir = some x then some a
      else if (t.node c).cs (!dir) = some x then some b else (t.node x).parent := by
  simp only [relinkDouble, cs_setCs, cs_setParentOf, parent_setHeight, parent_store,
    parent_setParent, parent_setCs, parent_setParentOf]
  grind

lemma height_relinkDouble (hac : a ≠ c) : ((t.relinkDouble pnode a b c dir).node x).height =
      if x = c then (t.node b).height else if x = a ∨ x = b then (t.node c).height
      else (t.node x).height := by
  simp only [relinkDouble, height_setHeight, height_store, height_setParent, height_setCs,
    height_setParentOf]
  grind

lemma root_relinkDouble :
    (t.relinkDouble pnode a b c dir).root = if pnode = .root then some c else t.root := by
  simp [relinkDouble]

lemma load_relinkDouble {ctx : List (Frame ℕ)} :
    (t.relinkDouble (holePtr ctx) a b c dir).load (holePtr ctx) = some c := by
  cases ctx with
  | nil => exact root_relinkDouble
  | cons => simp [holePtr, load, AvlTree.relinkDouble]

/-- The links are those of two single rotations, of the lower two nodes and then of the upper
two. -/
lemma links_relinkDouble (pnode : NodePtr) (dir : Bool) (hab : a ≠ b) (hac : a ≠ c) (hbc : b ≠ c)
    (hchild : ∀ e, ∀ y ∈ [a, b, c], (t.node c).cs e ≠ some y) (x : ℕ) (e : Bool) :
    ((t.relinkDouble pnode a b c dir).node x).cs e =
        (((t.relinkSingle (.cs a !dir) b c !dir).relinkSingle pnode a c dir).node x).cs e ∧
      ((t.relinkDouble pnode a b c dir).node x).parent =
        (((t.relinkSingle (.cs a !dir) b c !dir).relinkSingle pnode a c dir).node x).parent := by
  constructor
  · simp only [cs_relinkDouble hbc, cs_relinkSingle, cs.injEq, Bool.not_not]
    rcases Bool.eq_or_eq_not e dir with he | he <;> grind
  · simp only [parent_relinkDouble hbc, parent_relinkSingle, cs_relinkSingle, cs.injEq,
      Bool.not_not]
    have hdir := hchild dir
    have hnot := hchild !dir
    simp only [mem_cons, not_mem_nil, or_false, forall_eq_or_imp, forall_eq] at hdir hnot
    grind

end Double

lemma branch_not (d nd : Avl ℕ) (x h : ℕ) : branch (!dir) d x nd h = branch dir nd x d h := by
  cases dir <;> rfl

lemma At.relinkDouble {dir : Bool} {v m1 m2 u : Avl ℕ} {a b c h hb hc : ℕ}
    (hat : At t (branch dir v a (branch dir (branch dir m1 c m2 hc) b u hb) h) ctx) :
    At (t.relinkDouble (holePtr ctx) a b c dir)
      (branch dir (branch dir v a m1 hc) c (branch dir m2 b u hc) hb) ctx := by
  obtain ⟨-, -, -, -, hb'⟩ := rep_branch.mp hat.focus
  obtain ⟨-, -, hheightb, hc', -⟩ := rep_branch.mp hb'
  obtain ⟨-, -, hheightc, hm1, hm2⟩ := rep_branch.mp hc'
  -- rotate the innermost node up twice
  have hlower :
      At t (branch (!dir) u b (branch (!dir) m2 c m1 hc) hb) (⟨!dir, a, v, h⟩ :: ctx) := by
    rw [at_cons]
    simpa only [Frame.plug, branch_not] using hat
  have hupper := at_cons.mp hlower.relinkSingle
  simp only [Frame.plug, branch_not] at hupper
  obtain ⟨hctx, hfocus, hnodup⟩ := hupper.relinkSingle
  have hperm : ∀ h₁ h₂ h₃,
      (branch dir (branch dir v a m1 h₁) c (branch dir m2 b u h₂) h₃).toList.Perm
      ([a, b, c] ++ (v.toList ++ (m1.toList ++ (m2.toList ++ u.toList)))) := by
    intro h₁ h₂ h₃
    refine (branch_perm _ _ _ _ _).trans ?_
    refine (((branch_perm _ _ _ _ _).append (branch_perm _ _ _ _ _)).cons c).trans ?_
    refine (List.Perm.swap a c _).trans (List.Perm.cons a ?_)
    refine (perm_middle.cons c).trans ((List.Perm.swap b c _).trans ?_)
    rw [append_assoc]
    rfl
  have hall := ((hperm _ _ _).append_right (ctxList ctx)).nodup_iff.mp hnodup
  rw [append_assoc, nodup_append] at hall
  obtain ⟨hthree, hrest, hapart⟩ := hall
  obtain ⟨hab, hac, hbc⟩ : a ≠ b ∧ a ≠ c ∧ b ≠ c := by simpa [and_assoc] using hthree
  have hchild : ∀ e, ∀ y ∈ [a, b, c], (t.node c).cs e ≠ some y := by
    intro e y hy he
    refine hapart y hy y ?_ rfl
    rcases Bool.eq_or_eq_not e dir with rfl | rfl
    · simp [mem_of_root (hm1.root_eq.trans he)]
    · simp [mem_of_root (hm2.root_eq.trans he)]
  have hlinks := links_relinkDouble (holePtr ctx) dir hab hac hbc hchild
  have hsame : ∀ x ∈ v.toList ++ (m1.toList ++ (m2.toList ++ u.toList)) ++ ctxList ctx,
      SameNode ((t.relinkSingle (.cs a !dir) b c !dir).relinkSingle (holePtr ctx) a c dir)
        (t.relinkDouble (holePtr ctx) a b c dir) x := by
    intro x hx
    refine ⟨fun e ↦ (hlinks x e).1, (hlinks x true).2, ?_⟩
    have hxa : x ≠ a := (hapart a (by simp) x hx).symm
    have hxb : x ≠ b := (hapart b (by simp) x hx).symm
    have hxc : x ≠ c := (hapart c (by simp) x hx).symm
    simp only [height_relinkDouble hac, height_relinkSingle, hxa, hxb, hxc, or_self, if_false]
  obtain ⟨-, hparentc, -, ha, hb''⟩ := rep_branch.mp hfocus
  obtain ⟨hcsa, hparenta, -, hv, hm1'⟩ := rep_branch.mp ha
  obtain ⟨hcsb, hparentb, -, hm2', hu⟩ := rep_branch.mp hb''
  have hheight : ∀ y, ((t.relinkDouble (holePtr ctx) a b c dir).node y).height = _ :=
    fun y ↦ height_relinkDouble hac
  refine ⟨hctx.frame (nodup_append.mp hrest).2.1 ?_ ?_, rep_branch.mpr ⟨load_relinkDouble, ?_, ?_,
    rep_branch.mpr ⟨?_, ?_, ?_, ?_, ?_⟩, rep_branch.mpr ⟨?_, ?_, ?_, ?_, ?_⟩⟩, ?_⟩
  · intro x hx
    obtain ⟨hcs, hparent', hheight'⟩ := hsame x (mem_append_right _ hx)
    exact ⟨hparent', hheight', fun e _ ↦ hcs e⟩
  · intro
    simp only [root_relinkDouble, root_relinkSingle, holePtr, reduceCtorEq, if_false]
  · exact (hlinks c true).2.trans hparentc
  · rw [hheight, if_pos rfl, hheightb]
  · exact (hlinks c dir).1.trans hcsa
  · exact (hlinks a true).2.trans hparenta
  · rw [hheight, if_neg hac, if_pos (.inl rfl), hheightc]
  · rw [(hlinks a dir).1]
    exact hv.frame fun x hx ↦ hsame x (by simp [hx])
  · rw [(hlinks a !dir).1]
    exact hm1'.frame fun x hx ↦ hsame x (by simp [hx])
  · exact (hlinks c !dir).1.trans hcsb
  · exact (hlinks b true).2.trans hparentb
  · rw [hheight, if_neg hbc, if_pos (.inr rfl), hheightc]
  · rw [(hlinks b dir).1]
    exact hm2'.frame fun x hx ↦ hsame x (by simp [hx])
  · rw [(hlinks b !dir).1]
    exact hu.frame fun x hx ↦ hsame x (by simp [hx])
  · exact ((hperm _ _ _).append_right _).nodup_iff.mpr
      (((hperm _ _ _).append_right _).nodup_iff.mp hnodup)

end AvlTree

end OpenSplice.Utilities
