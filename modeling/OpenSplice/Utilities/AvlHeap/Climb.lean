import OpenSplice.Utilities.AvlHeap.Rotate

/-!
# Rebalancing in memory

`rebalance_one` in memory is the one on trees (`At.rebalanceOne`): it links up the nodes like the
rebalanced tree, brings the summaries of that subtree up to date and leaves all other objects alone.
The climb up to the root follows by induction over the context (`At.climb`), whether it goes along a
path or along the parent pointers.
-/

set_option autoImplicit false

namespace OpenSplice.Utilities

open Avl List Option

namespace AvlTree

variable {κ β γ : Type} {td : Treedef κ β γ} {t t' t'' : AvlTree β γ}
  {l : List ℕ} {a n : ℕ} {ctx : List (Frame ℕ)} {r s : Avl ℕ} {h : ℕ} {path : List NodePtr}
  {dir : Bool}

/-! ### Objects -/

/-- The payloads are as before, and so are the summaries of all nodes but those in the list. -/
structure Kept (t t' : AvlTree β γ) (l : List ℕ) : Prop where
  payload : ∀ x, (t'.node x).payload = (t.node x).payload
  summary : ∀ x ∉ l, (t'.node x).summary = (t.node x).summary

lemma Kept.refl (t : AvlTree β γ) (l : List ℕ) : Kept t t l := ⟨fun _ ↦ rfl, fun _ _ ↦ rfl⟩

lemma Kept.trans (h : Kept t t' l) (h' : Kept t' t'' l) : Kept t t'' l :=
  ⟨fun x ↦ (h'.payload x).trans (h.payload x), fun x hx ↦ (h'.summary x hx).trans (h.summary x hx)⟩

lemma Kept.mono {l' : List ℕ} (h : Kept t t' l) (hsub : ∀ x ∈ l, x ∈ l') : Kept t t' l' :=
  ⟨h.payload, fun x hx ↦ h.summary x fun hl ↦ hx (hsub x hl)⟩

lemma Kept.object (h : Kept t t' l) {x : ℕ} (hx : x ∉ l) :
    t'.object (some x) = t.object (some x) := by
  simp [AvlTree.object, h.payload, h.summary x hx]

lemma Kept.of_object (h : ∀ o, t'.object o = t.object o) (l : List ℕ) : Kept t t' l := by
  have hx : ∀ x, (t'.node x).payload = (t.node x).payload ∧
      (t'.node x).summary = (t.node x).summary :=
    fun x ↦ Prod.mk.inj (some_inj.mp (h (some x)))
  exact ⟨fun x ↦ (hx x).1, fun x _ ↦ (hx x).2⟩

lemma kept_augment (ha : a ∈ l) : Kept t (t.augment td a) l := by
  refine ⟨fun x ↦ payload_augment t a x td, fun x hx ↦ ?_⟩
  have hne : some x ≠ some a := fun h ↦ hx (some_inj.mp h ▸ ha)
  exact (Prod.mk.inj (some_inj.mp (object_augment_of_ne t a (some x) td hne))).2

lemma Summed.kept (h : Summed td t s) (hkept : Kept t t' l)
    (hout : ∀ x ∈ s.toList, x ∉ l) : Summed td t' s :=
  h.frame fun x hx ↦ hkept.object (hout x hx)

lemma At.augment (hat : At t s ctx) (a : ℕ) : At (t.augment td a) s ctx := by
  obtain ⟨hctx, hfocus, hnodup⟩ := hat
  refine ⟨hctx.frame (nodup_append.mp hnodup).2.1 (fun x _ ↦ ⟨?_, ?_, fun e _ ↦ ?_⟩) fun _ ↦ ?_,
    ?_, hnodup⟩
  · exact parent_augment t a x td
  · exact height_augment t a x td
  · exact cs_augment t a x e td
  · exact root_augment t a td
  · rw [load_augment]
    exact hfocus.frame fun x _ ↦
      ⟨fun e ↦ cs_augment t a x e td, parent_augment t a x td, height_augment t a x td⟩

/-- The augment function brings a node up to date whose subtrees are. -/
lemma summed_augment {p o : Option ℕ} {l : Avl ℕ} (hrep : Rep t p o (.node l a r h))
    (hnodup : (Avl.node l a r h).toList.Nodup) (hl : Summed td t l) (hr : Summed td t r) :
    Summed td (t.augment td a) (.node l a r h) := by
  obtain ⟨-, -, -, hrepl, hrepr⟩ := hrep
  have hmiddle := nodup_cons.mp (perm_middle.nodup_iff.mp hnodup)
  have hal : a ∉ l.toList := fun h ↦ hmiddle.1 (mem_append_left _ h)
  have har : a ∉ r.toList := fun h ↦ hmiddle.1 (mem_append_right _ h)
  refine ⟨fresh_augment hrepl.root_eq.symm hrepr.root_eq.symm hal har, ?_, ?_⟩
  · exact hl.kept (kept_augment (mem_singleton_self a)) fun x hx hxa ↦
      hal (mem_singleton.mp hxa ▸ hx)
  · exact hr.kept (kept_augment (mem_singleton_self a)) fun x hx hxa ↦
      har (mem_singleton.mp hxa ▸ hx)

lemma summed_augment_branch {p o : Option ℕ} {d nd : Avl ℕ}
    (hrep : Rep t p o (branch dir d a nd h)) (hnodup : (branch dir d a nd h).toList.Nodup)
    (hd : Summed td t d) (hnd : Summed td t nd) :
    Summed td (t.augment td a) (branch dir d a nd h) := by
  cases dir
  · exact summed_augment hrep hnodup hd hnd
  · exact summed_augment hrep hnodup hnd hd

/-! ### One node -/

/-- The subtree at the place of the context has become another one. -/
structure Became (td : Treedef κ β γ) (t t' : AvlTree β γ) (s s' : Avl ℕ) (ctx : List (Frame ℕ)) :
    Prop where
  place : At t' s' ctx
  summed : Summed td t' s'
  kept : Kept t t' s.toList

lemma nodup_of_branch {d nd : Avl ℕ} (hnodup : (branch dir d a nd h).toList.Nodup) :
    (d.toList.Nodup ∧ nd.toList.Nodup) ∧ a ∉ d.toList ∧ a ∉ nd.toList ∧
      ∀ x ∈ d.toList, x ∉ nd.toList := by
  obtain ⟨ha, hrest⟩ := nodup_cons.mp ((branch_perm dir d nd a h).nodup_iff.mp hnodup)
  obtain ⟨hd, hnd, hne⟩ := nodup_append.mp hrest
  exact ⟨⟨hd, hnd⟩, fun h ↦ ha (mem_append_left _ h), fun h ↦ ha (mem_append_right _ h),
    fun x hx hx' ↦ hne x hx x hx' rfl⟩

section Rotate

variable {dir : Bool} {v u : Avl ℕ} {a b h hb : ℕ} {ctx : List (Frame ℕ)}

lemma At.rotateSingle {m : Avl ℕ} (hat : At t (branch dir v a (branch dir m b u hb) h) ctx)
    (hv : Summed td t v) (hm : Summed td t m) (hu : Summed td t u) :
    ∃ t', rotateSingle td t (holePtr ctx) a dir = some (t', holeParent ctx) ∧
      Became td t t' (branch dir v a (branch dir m b u hb) h)
        (Avl.rotateSingle dir (branch dir v a (branch dir m b u hb) h)) ctx := by
  obtain ⟨-, hparent, -, -, hb'⟩ := rep_branch.mp hat.focus
  have hcsb := (rep_branch.mp hb').1
  have hlinks : Kept t (t.relinkSingle (holePtr ctx) a b dir) [] :=
    Kept.of_object (fun o ↦ by simp [AvlTree.relinkSingle]) []
  refine ⟨_, by rw [AvlTree.rotateSingle, hcsb, hparent]; rfl, ?_⟩
  rw [rotateSingle_branch]
  have hat0 := hat.relinkSingle
  have hnodup0 := (nodup_append.mp hat0.nodup).1
  obtain ⟨⟨hinner, -⟩, -, -, hsep⟩ := nodup_of_branch hnodup0
  -- first the node that has gone down, then the one that has come up
  have hlower : Summed td ((t.relinkSingle (holePtr ctx) a b dir).augment td a)
      (branch dir v a m (1 + m.height)) :=
    summed_augment_branch (rep_branch.mp hat0.focus).2.2.2.1 hinner (hv.kept hlinks (by simp))
      (hm.kept hlinks (by simp))
  have hu1 : Summed td ((t.relinkSingle (holePtr ctx) a b dir).augment td a) u :=
    (hu.kept hlinks (by simp)).kept (kept_augment (mem_singleton_self a)) fun x hx hxa ↦
      hsep a (mem_branch.mpr (.inl rfl)) (mem_singleton.mp hxa ▸ hx)
  refine ⟨(hat0.augment a).augment b,
    summed_augment_branch (hat0.augment a).focus hnodup0 hlower hu1, ?_⟩
  refine ((hlinks.mono (by simp)).trans (kept_augment ?_)).trans (kept_augment ?_)
  · exact mem_branch.mpr (.inl rfl)
  · exact mem_branch.mpr (.inr (.inr (mem_branch.mpr (.inl rfl))))

lemma At.rotateDouble {m1 m2 : Avl ℕ} {c hc : ℕ}
    (hat : At t (branch dir v a (branch dir (branch dir m1 c m2 hc) b u hb) h) ctx)
    (hv : Summed td t v) (hm1 : Summed td t m1) (hm2 : Summed td t m2) (hu : Summed td t u) :
    ∃ t', rotateDouble td t (holePtr ctx) a dir = some (t', holeParent ctx) ∧
      Became td t t' (branch dir v a (branch dir (branch dir m1 c m2 hc) b u hb) h)
        (Avl.rotateDouble dir (branch dir v a (branch dir (branch dir m1 c m2 hc) b u hb) h))
        ctx := by
  obtain ⟨-, hparent, -, -, hb'⟩ := rep_branch.mp hat.focus
  obtain ⟨hcsb, -, -, hc', -⟩ := rep_branch.mp hb'
  have hcsc := (rep_branch.mp hc').1
  have hlinks : Kept t (t.relinkDouble (holePtr ctx) a b c dir) [] :=
    Kept.of_object (fun o ↦ by simp [AvlTree.relinkDouble]) []
  refine ⟨_, by rw [AvlTree.rotateDouble, hcsb, bind_some, hcsc, hparent]; rfl, ?_⟩
  rw [rotateDouble_branch]
  have hat0 := hat.relinkDouble
  have hnodup0 := (nodup_append.mp hat0.nodup).1
  obtain ⟨⟨hleft, hright⟩, -, -, hsep⟩ := nodup_of_branch hnodup0
  have hkept : ∀ (t : AvlTree β γ) (y : ℕ), Kept t (t.augment td y) [y] :=
    fun t y ↦ kept_augment (mem_singleton_self y)
  have ha : a ∈ (branch dir v a m1 hc).toList := mem_branch.mpr (.inl rfl)
  have hb : b ∈ (branch dir m2 b u hc).toList := mem_branch.mpr (.inl rfl)
  -- first the two nodes that end up side by side, then the one that has come up
  have ha1 : Summed td ((t.relinkDouble (holePtr ctx) a b c dir).augment td a)
      (branch dir v a m1 hc) :=
    summed_augment_branch (rep_branch.mp hat0.focus).2.2.2.1 hleft (hv.kept hlinks (by simp))
      (hm1.kept hlinks (by simp))
  have hside : ∀ s, Summed td t s → (∀ x ∈ s.toList, x ∈ (branch dir m2 b u hc).toList) →
      Summed td ((t.relinkDouble (holePtr ctx) a b c dir).augment td a) s := fun s hs hsub ↦
    (hs.kept hlinks (by simp)).kept (hkept _ a) fun x hx hxa ↦
      hsep a ha (mem_singleton.mp hxa ▸ hsub x hx)
  have hb2 := summed_augment_branch (rep_branch.mp (hat0.augment a).focus).2.2.2.2 hright
    (hside m2 hm2 fun x hx ↦ mem_branch.mpr (.inr (.inl hx)))
    (hside u hu fun x hx ↦ mem_branch.mpr (.inr (.inr hx)))
  have ha2 := ha1.kept (hkept _ b) fun x hx hxb ↦ hsep x hx (mem_singleton.mp hxb ▸ hb)
  refine ⟨((hat0.augment a).augment b).augment c,
    summed_augment_branch ((hat0.augment a).augment b).focus hnodup0 ha2 hb2, ?_⟩
  refine (((hlinks.mono (by simp)).trans (kept_augment ?_)).trans (kept_augment ?_)).trans
    (kept_augment ?_) <;> simp [mem_branch]

lemma At.rotate {nd : Avl ℕ} (hat : At t (branch dir v a nd h) ctx) (hv : Summed td t v)
    (hnd : Summed td t nd) (hne : nd.height ≠ 0) :
    ∃ t', rotate td t (holePtr ctx) a dir = some (t', holeParent ctx) ∧
      Became td t t' (branch dir v a nd h) (Avl.rotate dir (branch dir v a nd h)) ctx := by
  obtain ⟨m, b, u, hshape⟩ := exists_branch dir hne
  rw [hshape] at hat hnd ⊢
  obtain ⟨-, hm, hu⟩ := summed_branch.mp hnd
  obtain ⟨-, -, -, -, hb'⟩ := rep_branch.mp hat.focus
  obtain ⟨hcsb, -, -, hrepm, hrepu⟩ := rep_branch.mp hb'
  rw [rotate_branch, AvlTree.rotate, hcsb, bind_some, hrepm.heightOf, hrepu.heightOf]
  by_cases hlt : u.height < m.height
  · obtain ⟨m1, c, m2, hinner⟩ := exists_branch dir (Nat.ne_zero_of_lt hlt)
    rw [if_pos hlt, if_pos hlt]
    rw [hinner] at hat hm ⊢
    obtain ⟨-, hm1, hm2⟩ := summed_branch.mp hm
    exact hat.rotateDouble hv hm1 hm2 hu
  · rw [if_neg hlt, if_neg hlt]
    exact hat.rotateSingle hv hm hu

end Rotate

lemma At.setHeight {l : Avl ℕ} (hat : At t (.node l a r h) ctx) (h' : ℕ) :
    At (t.setHeight a h') (.node l a r h') ctx := by
  obtain ⟨hctx, ⟨hload, hparent, -, hl, hr⟩, hnodup⟩ := hat
  obtain ⟨hfocus, hk, hsep⟩ := nodup_append.mp hnodup
  have hbranch : (branch false l a r h).toList.Nodup := hfocus
  obtain ⟨-, hal, har, -⟩ := nodup_of_branch hbranch
  have hload' : (t.setHeight a h').load (holePtr ctx) = t.load (holePtr ctx) := by
    cases ctx with
    | nil => rfl
    | cons f => exact cs_setHeight t a f.x f.dir h'
  have hsame : ∀ x, x ≠ a → SameNode t (t.setHeight a h') x := fun x hx ↦
    ⟨fun e ↦ cs_setHeight t a x e h', parent_setHeight t a x h',
      by rw [height_setHeight, if_neg hx]⟩
  refine ⟨hctx.frame hk (fun x hx ↦ ?_) fun _ ↦ rfl, ⟨hload'.trans hload, ?_, ?_, ?_, ?_⟩, hnodup⟩
  · have hxa : x ≠ a := fun h ↦ hsep a (by simp) x hx h.symm
    exact ⟨(hsame x hxa).parent, (hsame x hxa).height, fun e _ ↦ (hsame x hxa).cs e⟩
  · rw [parent_setHeight, hparent]
  · rw [height_setHeight, if_pos rfl]
  · rw [cs_setHeight]
    exact hl.frame fun x hx ↦ hsame x fun h ↦ hal (h ▸ hx)
  · rw [cs_setHeight]
    exact hr.frame fun x hx ↦ hsame x fun h ↦ har (h ▸ hx)

lemma At.refresh {l : Avl ℕ} (hat : At t (.node l a r h) ctx) (hl : Summed td t l)
    (hr : Summed td t r) (h' : ℕ) :
    Became td t ((t.setHeight a h').augment td a) (.node l a r h) (.node l a r h') ctx := by
  have hat' := hat.setHeight h'
  have hlinks : Kept t (t.setHeight a h') [] := Kept.of_object (object_setHeight t a h') []
  refine ⟨hat'.augment a, summed_augment hat'.focus (nodup_append.mp hat.nodup).1 ?_ ?_,
    (hlinks.mono (by simp)).trans (kept_augment (by simp))⟩
  · exact hl.kept hlinks (by simp)
  · exact hr.kept hlinks (by simp)

lemma At.rebalanceOne {l : Avl ℕ} (hat : At t (.node l a r h) ctx) (hl : Summed td t l)
    (hr : Summed td t r) :
    ∃ t', rebalanceOne td t (holePtr ctx) a =
        some (t', if (Avl.rebalanceOne (.node l a r h)).2 || td.augment.isSome then holeParent ctx
          else none) ∧
      Became td t t' (.node l a r h) (Avl.rebalanceOne (.node l a r h)).1 ctx := by
  obtain ⟨hload, hparent, hheight, hrepl, hrepr⟩ := hat.focus
  have hleft : t.heightOf (t.node a).left = l.height := hrepl.heightOf
  have hright : t.heightOf (t.node a).right = r.height := hrepr.heightOf
  rw [AvlTree.rebalanceOne, Avl.rebalanceOne, hleft, hright]
  by_cases hhigh : r.height + 1 < l.height
  · rw [if_pos hhigh, if_pos hhigh]
    have hbranch : At t (branch true r a l h) ctx := hat
    exact hbranch.rotate hr hl (by omega)
  · rw [if_neg hhigh, if_neg hhigh]
    by_cases hlow : l.height + 1 < r.height
    · rw [if_pos hlow, if_pos hlow]
      have hbranch : At t (branch false l a r h) ctx := hat
      exact hbranch.rotate hl hr (by omega)
    · rw [if_neg hlow, if_neg hlow]
      rw [hheight, hparent]
      by_cases hsame : (if l.height < r.height then r.height else l.height) + 1 = h
      · rw [if_pos hsame]
        cases haug : td.augment with
        | none => exact ⟨t, by simp [hsame], hat, summed_of_none haug _, Kept.refl t _⟩
        | some =>
          refine ⟨(t.setHeight a h).augment td a, ?_, hat.refresh hl hr h⟩
          rw [if_neg (by simp), hsame]
          simp
      · rw [if_neg hsame, if_neg fun h ↦ hsame h.2]
        exact ⟨_, by simp, hat.refresh hl hr _⟩

/-! ### The climb -/

def ctxPath : List (Frame ℕ) → List NodePtr
  | [] => [.root]
  | f :: ctx => .cs f.x f.dir :: ctxPath ctx

lemma At.nodeptrFromNode {l : Avl ℕ} (hat : At t (.node l a r h) ctx) :
    t.nodeptrFromNode a = holePtr ctx := by
  obtain ⟨hctx, ⟨hload, hparent, -⟩, hnodup⟩ := hat
  rw [AvlTree.nodeptrFromNode, hparent]
  cases ctx with
  | nil => rfl
  | cons f =>
    obtain ⟨-, -, hsib, -⟩ := hctx
    have hcs : (t.node f.x).cs f.dir = some a := hload
    dsimp only [holeParent, holePtr]
    cases hdir : f.dir with
    | false =>
      rw [hdir] at hcs
      rw [if_pos (show (t.node f.x).left = some a from hcs)]
    | true =>
      rw [hdir] at hsib
      refine if_neg fun hleft ↦ ?_
      have hmem : a ∈ f.sibling.toList := mem_of_root (hsib.root_eq.trans hleft)
      exact (nodup_append.mp hnodup).2.2 a (by simp) a (mem_ctxList_cons.mpr (.inr (.inl hmem))) rfl

lemma plug_eq_node (f : Frame ℕ) (s : Avl ℕ) : ∃ l r, f.plug s = .node l f.x r f.height ∧
      ((l = s ∧ r = f.sibling) ∨ (l = f.sibling ∧ r = s)) := by
  cases hdir : f.dir with
  | false => exact ⟨s, f.sibling, by rw [Frame.plug, hdir]; rfl, .inl ⟨rfl, rfl⟩⟩
  | true => exact ⟨f.sibling, s, by rw [Frame.plug, hdir]; rfl, .inr ⟨rfl, rfl⟩⟩

/-- The subtrees beside the way up are as before an update below it. -/
lemma Kept.siblings (h : Kept t t' l) (hctx : ∀ f ∈ ctx, Summed td t f.sibling)
    (hout : ∀ x ∈ l, x ∉ ctxList ctx) : ∀ f ∈ ctx, Summed td t' f.sibling := by
  intro f hf
  refine (hctx f hf).kept h fun x hx hxl ↦ hout x hxl ?_
  exact mem_flatMap.mpr ⟨f, hf, mem_cons_of_mem _ hx⟩

/-- `rebalance_path` meets its assertion at every step: the entry of the path points to the node. -/
def PathHolds (td : Treedef κ β γ) : List NodePtr → Option ℕ → AvlTree β γ → Prop
  | _, none, _ => True
  | [], some _, _ => False
  | pnode :: path, some node, t => t.load pnode = some node ∧
    ∀ out, AvlTree.rebalanceOne td t pnode node = some out → PathHolds td path out.2 out.1

/-- The rebalancing from `whence` on leads to `t'`, along a path that is valid at every step, and
along the parent pointers in at most `n` steps. -/
structure Rebalances (td : Treedef κ β γ) (t : AvlTree β γ) (whence : Option ℕ)
    (path : List NodePtr) (n : ℕ) (t' : AvlTree β γ) : Prop where
  holds : PathHolds td path whence t
  byPath : rebalancePath td path whence t = some t'
  byParents : ∀ fuel, n ≤ fuel → rebalanceNopath td fuel whence t = some t'

lemma Rebalances.done (path : List NodePtr) (n : ℕ) : Rebalances td t none path n t :=
  ⟨by cases path <;> trivial, by cases path <;> rfl, fun fuel _ ↦ by cases fuel <;> rfl⟩

lemma Rebalances.step {pnode : NodePtr} {next : Option ℕ}
    (hload : t.load pnode = some a) (hptr : t.nodeptrFromNode a = pnode)
    (hrun : AvlTree.rebalanceOne td t pnode a = some (t', next))
    (h : Rebalances td t' next path n t'') :
    Rebalances td t (some a) (pnode :: path) (n + 1) t'' := by
  refine ⟨⟨hload, fun out hout ↦ ?_⟩, ?_, fun fuel hfuel ↦ ?_⟩
  · obtain rfl := Option.mem_unique hrun hout
    exact h.holds
  · rw [rebalancePath, hrun]
    exact h.byPath
  · obtain ⟨k, rfl⟩ : ∃ k, fuel = k + 1 := ⟨fuel - 1, by omega⟩
    rw [rebalanceNopath, hptr, hrun]
    exact h.byParents k (by omega)

/-- The climb to the root: by a path or by the parent pointers it does what `climbUp` does. -/
lemma At.climb {l : Avl ℕ} (hat : At t (.node l a r h) ctx) (hl : Summed td t l)
    (hr : Summed td t r) (hctx : ∀ f ∈ ctx, Summed td t f.sibling) :
    ∃ t', Rebalances td t (some a) (ctxPath ctx) (ctx.length + 1) t' ∧
      Became td t t' (plug (.node l a r h) ctx) (climbUp td.augment.isSome (.node l a r h) ctx)
        [] := by
  induction ctx generalizing t l a r h with
  | nil =>
    obtain ⟨t1, hrun, hbecame⟩ := hat.rebalanceOne hl hr
    rw [holeParent, ite_self] at hrun
    exact ⟨t1, .step hat.focus.1 hat.nodeptrFromNode hrun (.done _ _), hbecame⟩
  | cons f ctx ih =>
    obtain ⟨t1, hrun, hbecame⟩ := hat.rebalanceOne hl hr
    have hsibs := hbecame.kept.siblings hctx fun x hx hx' ↦
      (nodup_append.mp hat.nodup).2.2 x hx x hx' rfl
    have hlist : (plug (Avl.rebalanceOne (.node l a r h)).1 (f :: ctx)).toList =
        (plug (.node l a r h) (f :: ctx)).toList := by
      rw [toList_plug, toList_plug, toList_rebalanceOne]
    have hkept : Kept t t1 (plug (.node l a r h) (f :: ctx)).toList :=
      hbecame.kept.mono fun x hx ↦ by
        rw [toList_plug]
        exact mem_append_left _ (mem_append_right _ hx)
    rw [climbUp]
    by_cases hgo : ((Avl.rebalanceOne (.node l a r h)).2 || td.augment.isSome)
    · rw [if_pos hgo] at hrun ⊢
      obtain ⟨l', r', hplug, hsides⟩ := plug_eq_node f (Avl.rebalanceOne (.node l a r h)).1
      have hf := hsibs f mem_cons_self
      have hsummed : Summed td t1 l' ∧ Summed td t1 r' := by
        rcases hsides with ⟨rfl, rfl⟩ | ⟨rfl, rfl⟩
        · exact ⟨hbecame.summed, hf⟩
        · exact ⟨hf, hbecame.summed⟩
      have hup := at_cons.mp hbecame.place
      rw [hplug] at hup ⊢
      obtain ⟨t2, hclimb, hplace, hsum, hkept2⟩ :=
        ih hup hsummed.1 hsummed.2 fun g hg ↦ hsibs g (mem_cons_of_mem _ hg)
      rw [← hplug] at hkept2
      refine ⟨t2, hclimb.step hat.focus.1 hat.nodeptrFromNode hrun, hplace, hsum, hkept.trans ?_⟩
      rw [← hlist]
      exact hkept2
    · rw [if_neg hgo] at hrun ⊢
      have hnone : td.augment = none := by
        rw [Bool.or_eq_true, not_or] at hgo
        exact not_isSome_iff_eq_none.mp hgo.2
      exact ⟨t1, .step hat.focus.1 hat.nodeptrFromNode hrun (.done _ _),
        at_plug.mp hbecame.place, summed_of_none hnone _, hkept⟩

end AvlTree

end OpenSplice.Utilities
