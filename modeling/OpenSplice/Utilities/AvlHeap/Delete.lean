import OpenSplice.Utilities.AvlHeap.Insert

/-!
# Deletion in memory

`delete_generic` either leaves out a node with at most one child (`At.bypass`), or it leaves out the
predecessor of the node and puts it in the place of the node (`At.replace`). If the predecessor is
the left child the source takes a shortcut, which comes to the same. The climb starts at the lowest
node that has lost something.
-/

set_option autoImplicit false

namespace OpenSplice.Utilities

open Avl List AvlTree NodePtr

namespace AvlTree

variable {κ β γ : Type} {td : Treedef κ β γ} {t t' : AvlTree β γ}
  {ctx : List (Frame ℕ)} {a h w fuel hs : ℕ} {l r : Avl ℕ} {b : ℕ} {s : Avl ℕ}

/-! ### Links -/

/-- The node `a` is left out: its child takes its place. -/
structure Bypassed (t t' : AvlTree β γ) (a : ℕ) (child : Option ℕ) (ctx : List (Frame ℕ)) :
    Prop where
  cs : ∀ x, x ≠ a → ∀ e,
    (t'.node x).cs e = if holePtr ctx = .cs x e then child else (t.node x).cs e
  parent : ∀ x, x ≠ a →
    (t'.node x).parent = if child = some x then holeParent ctx else (t.node x).parent
  height : ∀ x, x ≠ a → (t'.node x).height = (t.node x).height
  root : t'.root = if holePtr ctx = .root then child else t.root

lemma load_holePtr {v : Option ℕ} (hcs : ∀ f ctx', ctx = f :: ctx' → (t.node f.x).cs f.dir = v)
    (hroot : ctx = [] → t.root = v) : t.load (holePtr ctx) = v := by
  cases ctx with
  | nil => exact hroot rfl
  | cons f ctx => exact hcs f ctx rfl

lemma At.bypass {dir : Bool} {c : Avl ℕ} (hat : At t (branch dir c a .nil h) ctx)
    (hby : Bypassed t t' a c.root ctx) : At t' c ctx := by
  obtain ⟨hctx, hfocus, hnodup⟩ := hat
  obtain ⟨-, -, -, hc, -⟩ := rep_branch.mp hfocus
  obtain ⟨hbranch, hk, hsep⟩ := nodup_append.mp hnodup
  obtain ⟨⟨hcn, -⟩, hac, -⟩ := nodup_of_branch hbranch
  have hcx : ∀ x ∈ c.toList, x ≠ a ∧ x ∉ ctxList ctx := fun x hx ↦
    ⟨fun h ↦ hac (h ▸ hx), fun hk ↦ hsep x (mem_branch.mpr (.inr (.inl hx))) x hk rfl⟩
  have hkx : ∀ x ∈ ctxList ctx, x ≠ a ∧ x ∉ c.toList := fun x hx ↦
    ⟨fun h ↦ hsep a (mem_branch.mpr (.inl rfl)) x hx h.symm, fun h ↦ (hcx x h).2 hx⟩
  have hload : t'.load (holePtr ctx) = c.root := by
    refine load_holePtr (fun f ctx' hf ↦ ?_) fun hnil ↦ ?_
    · have hmem : f.x ∈ ctxList ctx := hf ▸ mem_ctxList_cons.mpr (.inl rfl)
      rw [hby.cs f.x (hkx f.x hmem).1, if_pos (by rw [hf]; rfl)]
    · rw [hby.root, if_pos (by rw [hnil]; rfl)]
  refine ⟨hctx.frame hk (fun x hx ↦ ?_) fun hne ↦ ?_, ?_, ?_⟩
  · obtain ⟨hxa, hxc⟩ := hkx x hx
    refine ⟨?_, hby.height x hxa, fun e he ↦ ?_⟩
    · rw [hby.parent x hxa, if_neg fun h ↦ hxc (mem_of_root h)]
    · rw [hby.cs x hxa, if_neg he]
  · rw [hby.root, if_neg (holePtr_ne_root hne)]
  · rw [hload, hc.root_eq]
    refine hc.reparent hcn (fun x hx e ↦ ?_) (fun x hx ↦ ?_) fun x hx ↦ hby.height x (hcx x hx).1
    · rw [hby.cs x (hcx x hx).1, if_neg fun he ↦ (hcx x hx).2 (holePtr_mem he)]
    · rw [hby.parent x (hcx x hx).1, hc.root_eq]
  · exact nodup_append.mpr ⟨hcn, hk, fun x hx y hy ↦ hsep x (mem_branch.mpr (.inr (.inl hx))) y hy⟩

/-- The node `b` takes the place of `a`. -/
structure Replaced (t t' : AvlTree β γ) (a b : ℕ) (l r : Option ℕ) (h : ℕ) (ctx : List (Frame ℕ)) :
    Prop where
  cs : ∀ x, x ≠ a → ∀ e, (t'.node x).cs e =
    if holePtr ctx = .cs x e then some b
    else if x = b then (if e then r else l) else (t.node x).cs e
  parent : ∀ x, x ≠ a → (t'.node x).parent =
    if l = some x ∨ r = some x then some b
    else if x = b then holeParent ctx else (t.node x).parent
  height : ∀ x, x ≠ a → (t'.node x).height = if x = b then h else (t.node x).height
  root : t'.root = if holePtr ctx = .root then some b else t.root

lemma At.replace (hat : At t (.node l a r h) ctx) (hbt : b ∉ (Avl.node l a r h).toList)
    (hbc : b ∉ ctxList ctx) (hre : Replaced t t' a b l.root r.root h ctx) :
    At t' (.node l b r h) ctx := by
  obtain ⟨hctx, ⟨-, -, -, hl, hr⟩, hnodup⟩ := hat
  obtain ⟨hfocus, hk, hsep⟩ := nodup_append.mp hnodup
  have hbranch : (branch false l a r h).toList.Nodup := hfocus
  obtain ⟨⟨hln, hrn⟩, hal, har, hlr⟩ := nodup_of_branch hbranch
  have hmem : ∀ x, x ∈ (Avl.node l a r h).toList ↔ x = a ∨ x ∈ l.toList ∨ x ∈ r.toList :=
    fun x ↦ (mem_branch : x ∈ (branch false l a r h).toList ↔ _)
  rw [hmem, not_or, not_or] at hbt
  obtain ⟨hba, hbl, hbr⟩ := hbt
  have hkx : ∀ x ∈ ctxList ctx, x ≠ a ∧ x ≠ b ∧ x ∉ l.toList ∧ x ∉ r.toList := fun x hx ↦
    ⟨fun h ↦ hsep a ((hmem a).mpr (.inl rfl)) x hx h.symm, fun h ↦ hbc (h ▸ hx),
      fun h ↦ hsep x ((hmem x).mpr (.inr (.inl h))) x hx rfl,
      fun h ↦ hsep x ((hmem x).mpr (.inr (.inr h))) x hx rfl⟩
  have hcsb : ∀ e, (t'.node b).cs e = if e then r.root else l.root := by
    intro e
    rw [hre.cs b hba, if_neg fun he ↦ hbc (holePtr_mem he), if_pos rfl]
  have hside : ∀ s, Rep t (some a) s.root s → s.toList.Nodup → (∀ x ∈ s.toList, x ≠ a ∧ x ≠ b) →
      (∀ x ∈ s.toList, x ∉ ctxList ctx) →
      (∀ x ∈ s.toList, (l.root = some x ∨ r.root = some x) ↔ s.root = some x) →
      Rep t' (some b) s.root s := by
    intro s hs hsn hsx hsc hroots
    refine hs.reparent hsn (fun x hx e ↦ ?_) (fun x hx ↦ ?_) fun x hx ↦ ?_
    · rw [hre.cs x (hsx x hx).1, if_neg fun he ↦ hsc x hx (holePtr_mem he), if_neg (hsx x hx).2]
    · rw [hre.parent x (hsx x hx).1, if_neg (hsx x hx).2]
      exact if_congr (hroots x hx) rfl rfl
    · rw [hre.height x (hsx x hx).1, if_neg (hsx x hx).2]
  have hload' : t'.load (holePtr ctx) = some b := by
    refine load_holePtr (fun f ctx' hf ↦ ?_) fun hnil ↦ ?_
    · have hfx : f.x ∈ ctxList ctx := hf ▸ mem_ctxList_cons.mpr (.inl rfl)
      rw [hre.cs f.x (hkx f.x hfx).1, if_pos (by rw [hf]; rfl)]
    · rw [hre.root, if_pos (by rw [hnil]; rfl)]
  refine ⟨hctx.frame hk (fun x hx ↦ ?_) fun hne ↦ ?_, ⟨hload', ?_, ?_, ?_, ?_⟩, ?_⟩
  · obtain ⟨hxa, hxb, hxl, hxr⟩ := hkx x hx
    refine ⟨?_, ?_, fun e he ↦ ?_⟩
    · rw [hre.parent x hxa, if_neg hxb,
        if_neg fun h ↦ h.elim (fun h ↦ hxl (mem_of_root h)) fun h ↦ hxr (mem_of_root h)]
    · rw [hre.height x hxa, if_neg hxb]
    · rw [hre.cs x hxa, if_neg he, if_neg hxb]
  · rw [hre.root, if_neg (holePtr_ne_root hne)]
  · rw [hre.parent b hba, if_pos rfl,
      if_neg fun h ↦ h.elim (fun h ↦ hbl (mem_of_root h)) fun h ↦ hbr (mem_of_root h)]
  · rw [hre.height b hba, if_pos rfl]
  · rw [hcsb]
    refine hside l (hl.root_eq ▸ hl) hln (fun x hx ↦ ⟨fun h ↦ hal (h ▸ hx), fun h ↦ hbl (h ▸ hx)⟩)
      (fun x hx hk ↦ (hkx x hk).2.2.1 hx) fun x hx ↦ ?_
    exact or_iff_left fun h ↦ hlr x hx (mem_of_root h)
  · rw [hcsb]
    refine hside r (hr.root_eq ▸ hr) hrn (fun x hx ↦ ⟨fun h ↦ har (h ▸ hx), fun h ↦ hbr (h ▸ hx)⟩)
      (fun x hx hk ↦ (hkx x hk).2.2.2 hx) fun x hx ↦ ?_
    exact or_iff_right fun h ↦ hlr x (mem_of_root h) hx
  · have hmiddle : (a :: (l.toList ++ r.toList ++ ctxList ctx)).Nodup := by
      have hnodup' : ((branch false l a r h).toList ++ ctxList ctx).Nodup := hnodup
      exact ((branch_perm false l r a h).append_right _).nodup_iff.mp hnodup'
    have hb : (b :: (l.toList ++ r.toList ++ ctxList ctx)).Nodup := by
      refine nodup_cons.mpr ⟨?_, (nodup_cons.mp hmiddle).2⟩
      simp [hbl, hbr, hbc]
    exact ((branch_perm false l r b h).append_right _).nodup_iff.mpr hb

/-! ### Assignments of `delete_generic` -/

section Assign

variable {pnode : NodePtr} {a b w x : ℕ} {e : Bool} (n : AvlNode β γ)

lemma right_eq : n.right = n.cs true := rfl

lemma left_eq : n.left = n.cs false := rfl

lemma cs_placeSubst : ((t.placeSubst pnode a b).node x).cs e = if pnode = .cs x e then some b
      else if x = b ∧ e then (t.node a).cs true else (t.node x).cs e := by
  simp [placeSubst, right_eq]

lemma parent_placeSubst : ((t.placeSubst pnode a b).node x).parent =
      if (t.node a).cs true = some x then some b
      else if x = b then (t.node a).parent else (t.node x).parent := by
  simp [placeSubst, right_eq]

lemma height_placeSubst : ((t.placeSubst pnode a b).node x).height =
      if x = b then (t.node a).height else (t.node x).height := by
  simp [placeSubst]

lemma object_placeSubst (o : Option ℕ) : (t.placeSubst pnode a b).object o = t.object o := by
  simp [placeSubst]

lemma root_placeSubst :
    (t.placeSubst pnode a b).root = if pnode = .root then some b else t.root := by
  simp [placeSubst]

lemma cs_spliceSubst : ((t.spliceSubst a b w).node x).cs e =
      if x = b ∧ e = false then (t.node a).cs false
      else if x = w ∧ e then (t.node b).cs false else (t.node x).cs e := by
  simp [spliceSubst, right_eq, left_eq]

lemma parent_spliceSubst : ((t.spliceSubst a b w).node x).parent =
      if (t.node a).cs false = some x then some b
      else if (t.node b).cs false = some x then some w else (t.node x).parent := by
  simp [spliceSubst, right_eq, left_eq]

lemma height_spliceSubst : ((t.spliceSubst a b w).node x).height = (t.node x).height := by
  simp [spliceSubst]

end Assign

lemma bypassed_store {child : Option ℕ} :
    Bypassed t ((t.setParentOf child (holeParent ctx)).store (holePtr ctx) child) a child ctx :=
  ⟨fun x _ e ↦ by simp, fun x _ ↦ by simp, fun x _ ↦ by simp, by simp⟩

lemma At.placeSubst {sl R : Avl ℕ} (hat : At t (.node (.node sl b .nil hs) a R h) ctx) :
    At (t.placeSubst (holePtr ctx) a b) (.node sl b R h) ctx := by
  have hfocus := hat.focus
  obtain ⟨-, hparent, hheight, ⟨-, -, -, hsl, -⟩, hR⟩ := hfocus
  have hbranch : (branch false (.node sl b .nil hs) a R h).toList.Nodup :=
    (nodup_append.mp hat.nodup).1
  obtain ⟨⟨hinner, -⟩, hab, -, hsep⟩ := nodup_of_branch hbranch
  have hinner' : (branch false sl b .nil hs).toList.Nodup := hinner
  obtain ⟨-, hbsl, -⟩ := nodup_of_branch hinner'
  have hne : b ≠ a := fun h ↦ hab (by simp [h])
  have hbR : b ∉ R.toList := hsep b (by simp)
  -- first without the left child, in a memory of which the source skips the making
  have hout : At t (branch false sl b .nil hs) (⟨false, a, R, h⟩ :: ctx) := at_cons.mpr hat
  have hby := at_cons.mp (hout.bypass bypassed_store)
  have hR' : (t.node a).cs true = R.root := hR.root_eq.symm
  have hsl' : (t.node b).cs false = sl.root := hsl.root_eq.symm
  refine At.replace hby ?_ ?_ ⟨fun x hx e ↦ ?_, fun x hx ↦ ?_, fun x hx ↦ ?_, ?_⟩
  · simp [hbsl, hne, hbR]
  · exact fun hc ↦ (nodup_append.mp hat.nodup).2.2 b (by simp) b hc rfl
  · have hhole : ¬cs a false = cs x e := fun h ↦ hx (cs.inj h).1.symm
    rw [cs_placeSubst, cs_store, cs_setParentOf, holePtr, if_neg hhole, hR']
    by_cases hxb : x = b
    · subst hxb
      cases e <;> simp [hsl']
    · simp [hxb]
  · rw [parent_placeSubst, parent_store, parent_setParentOf, hR', hparent]
    by_cases hroot : sl.root = some x
    · have hxsl := mem_of_root hroot
      have hxb : x ≠ b := fun h ↦ hbsl (h ▸ hxsl)
      have hxR : R.root ≠ some x := fun h ↦ hsep x (by simp [hxsl]) (mem_of_root h)
      rw [if_neg hxR, if_neg hxb, if_pos (.inl hroot)]
      exact hsl.root_parent hroot
    · simp [hroot]
  · rw [height_placeSubst, height_store, height_setParentOf, hheight]
  · have hhole := holePtr_ne_root (cons_ne_nil (⟨false, a, R, h⟩ : Frame ℕ) ctx)
    rw [root_placeSubst, root_store, root_setParentOf, if_neg hhole]

/-- The assignments of `delete_generic` in terms of the memory in which the predecessor is left
out. -/
lemma replaced_splice {lroot rroot slroot : Option ℕ} (haw : a ≠ w)
    (hleft : (t.node a).cs false = lroot) (hright : (t.node a).cs true = rroot)
    (hsl : (t.node b).cs false = slroot) (hparent : (t.node a).parent = holeParent ctx)
    (hheight : (t.node a).height = h) (hlb : lroot ≠ some b) (hla : lroot ≠ some a)
    (hsa : slroot ≠ some a) :
    Replaced ((t.setParentOf slroot (some w)).store (.cs w true) slroot)
      ((t.spliceSubst a b w).placeSubst (holePtr ctx) a b) a b lroot rroot h ctx := by
  have hcsa : ((t.spliceSubst a b w).node a).cs true = rroot := by
    rw [cs_spliceSubst, if_neg (by simp), if_neg fun h ↦ haw h.1, hright]
  have hparenta : ((t.spliceSubst a b w).node a).parent = holeParent ctx := by
    rw [parent_spliceSubst, hleft, if_neg hla, hsl, if_neg hsa, hparent]
  refine ⟨fun x hx e ↦ ?_, fun x hx ↦ ?_, fun x hx ↦ ?_, ?_⟩
  · rw [cs_placeSubst, hcsa, cs_spliceSubst, hleft, hsl, cs_store, cs_setParentOf]
    by_cases hxb : x = b
    · cases e <;> simp [hxb]
    · simp [hxb, eq_comm (a := w), eq_comm (a := true)]
  · rw [parent_placeSubst, hcsa, hparenta, parent_spliceSubst, hleft, hsl, parent_store,
      parent_setParentOf]
    by_cases hxr : rroot = some x
    · simp [hxr]
    · by_cases hxb : x = b
      · simp [hxb, hlb]
      · simp [hxr, hxb]
  · rw [height_placeSubst, height_spliceSubst, height_spliceSubst, height_store, height_setParentOf,
      hheight]
  · simp [root_placeSubst, spliceSubst]

lemma At.spliceSubst {sl wl R : Avl ℕ} {hw : ℕ} {sp : List (Frame ℕ)}
    (hat : At t (.node (plug (.node wl w (.node sl b .nil hs) hw) sp) a R h) ctx) :
    At ((t.spliceSubst a b w).placeSubst (holePtr ctx) a b)
      (.node (plug (.node wl w sl hw) sp) b R h) ctx := by
  obtain ⟨-, hparent, hheight, -, hR⟩ := hat.focus
  -- the predecessor at its own place, and the memory in which it is left out
  have hout : At t (branch false sl b .nil hs)
      (⟨true, w, wl, hw⟩ :: (sp ++ ⟨false, a, R, h⟩ :: ctx)) :=
    at_cons.mpr (at_append.mpr (at_cons.mpr hat))
  have hby : At _ (.node (plug (.node wl w sl hw) sp) a R h) ctx :=
    at_cons.mp (at_append.mp (at_cons.mp (hout.bypass bypassed_store)))
  obtain ⟨-, -, -, hL', -⟩ := hby.focus
  have hsl : Rep t (some b) ((t.node b).cs false) sl := (rep_branch.mp hout.focus).2.2.2.1
  obtain ⟨hbn, -, hsep⟩ := nodup_append.mp hout.nodup
  obtain ⟨-, hbsl, -⟩ := nodup_of_branch hbn
  have hmem : ∀ y, y ∈ (Avl.node (plug (.node wl w sl hw) sp) a R h).toList ∨ y ∈ ctxList ctx ↔
      y ∈ sl.toList ∨ y ∈ ctxList (⟨true, w, wl, hw⟩ :: (sp ++ ⟨false, a, R, h⟩ :: ctx)) := by
    intro y
    have hplug : plug sl (⟨true, w, wl, hw⟩ :: (sp ++ ⟨false, a, R, h⟩ :: ctx)) =
        plug (.node (plug (.node wl w sl hw) sp) a R h) ctx := plug_append _ sp _
    rw [← mem_plug, ← mem_plug, hplug]
  have hb : ∀ y, y ∈ (Avl.node (plug (.node wl w sl hw) sp) a R h).toList ∨ y ∈ ctxList ctx →
      y ≠ b := by
    rintro y hy rfl
    rcases (hmem y).mp hy with hy | hy
    · exact hbsl hy
    · exact hsep y (mem_branch.mpr (.inl rfl)) y hy rfl
  have hbranch : (branch false (plug (.node wl w sl hw) sp) a R h).toList.Nodup :=
    (nodup_append.mp hby.nodup).1
  obtain ⟨-, haL, -⟩ := nodup_of_branch hbranch
  have haw : a ≠ w := fun h ↦ haL (mem_plug.mpr (.inl (by simp [h])))
  have hslL : ∀ y ∈ sl.toList, y ∈ (plug (.node wl w sl hw) sp).toList :=
    fun y hy ↦ mem_plug.mpr (.inl (by simp [hy]))
  have hleft : (t.node a).cs false = (plug (.node wl w sl hw) sp).root := by
    rw [hL'.root_eq, cs_store, cs_setParentOf, holePtr, if_neg (by simp)]
  refine hby.replace (fun h ↦ hb b (.inl h) rfl) (fun h ↦ hb b (.inr h) rfl) ?_
  refine replaced_splice haw hleft hR.root_eq.symm hsl.root_eq.symm hparent hheight ?_ ?_ ?_
  · exact fun h ↦ hb b (.inl (mem_append_left _ (mem_of_root h))) rfl
  · exact fun h ↦ haL (mem_of_root h)
  · exact fun h ↦ haL (hslL a (mem_of_root h))

/-! ### The end of a deletion -/

/-- What is left of `delete_generic` leads to a tree with the elements of the list, with a path and
without one. -/
def Ends (td : Treedef κ β γ) (t t₁ : AvlTree β γ) (whence : Option ℕ) (path : List NodePtr) (n : ℕ)
    (l : List ℕ) : Prop :=
  ∃ t' s, Rebalances td (whence.elim t₁ fun w ↦ t₁.augment td w) whence path n t' ∧
    Climbed td t t' s l

lemma At.ends (hat : At t' (.node l w r h) ctx) (hkept : Kept t t' [])
    (hl : Summed td t l) (hr : Summed td t r) (hctx : ∀ f ∈ ctx, Summed td t f.sibling)
    (hshaken : Shaken h l r) (hok : CtxOk ctx h) :
    Ends td t t' (some w) (ctxPath ctx) (ctx.length + 1)
      (before ctx ++ (Avl.node l w r h).toList ++ after ctx) := by
  obtain ⟨hnodup, -, hsep⟩ := nodup_append.mp hat.nodup
  have hbranch : (branch false l w r h).toList.Nodup := hnodup
  obtain ⟨-, hwl, hwr, -⟩ := nodup_of_branch hbranch
  have hkept' : Kept t (t'.augment td w) [w] :=
    (hkept.mono (by simp)).trans (kept_augment (mem_singleton_self w))
  obtain ⟨t'', s, hclimb, hclimbed⟩ := (hat.augment w).climbed
    (hl.kept hkept' fun x hx hxw ↦ hwl (mem_singleton.mp hxw ▸ hx))
    (hr.kept hkept' fun x hx hxw ↦ hwr (mem_singleton.mp hxw ▸ hx))
    (hkept'.siblings hctx fun x hx hxc ↦
      hsep w (by simp) x hxc (mem_singleton.mp hx).symm) hshaken hok
  exact ⟨t'', s, hclimb, hclimbed.place, hclimbed.balanced, hclimbed.summed, hclimbed.toList,
    fun x ↦ (hclimbed.payload x).trans (hkept'.payload x)⟩

lemma At.endsAbove {H : ℕ} (hat : At t' s ctx) (hkept : Kept t t' []) (hs : Summed td t s)
    (hctx : ∀ f ∈ ctx, Summed td t f.sibling) (hbal : s.Balanced) (hok : CtxOk ctx H)
    (hlo : H ≤ s.height + 1) (hhi : s.height ≤ H + 1) :
    Ends td t t' (holeParent ctx) (ctxPath ctx).tail ctx.length
      (before ctx ++ s.toList ++ after ctx) := by
  rw [← toList_plug]
  cases ctx with
  | nil => exact ⟨t', s, .done _ _, hat, hbal, hs.kept hkept (by simp), rfl, hkept.payload⟩
  | cons f ctx =>
    obtain ⟨l, r, hup, hshaken, hl, hr, hlist⟩ :=
      hat.above hs (hctx f mem_cons_self) hbal hok hlo hhi
    rw [hlist]
    exact hup.ends hkept hl hr (fun g hg ↦ hctx g (mem_cons_of_mem _ hg)) hshaken hok.2.2.2.2

lemma Ends.mono {t₁ : AvlTree β γ} {whence : Option ℕ} {path : List NodePtr} {n n' : ℕ}
    {l : List ℕ} (h : Ends td t t₁ whence path n l) (hn : n ≤ n') :
    Ends td t t₁ whence path n' l := by
  obtain ⟨t', s, hclimb, hclimbed⟩ := h
  exact ⟨t', s, ⟨hclimb.holds, hclimb.byPath, fun fuel hfuel ↦
    hclimb.byParents fuel (hn.trans hfuel)⟩, hclimbed⟩

lemma ctxPath_append (inner ctx : List (Frame ℕ)) :
    ctxPath (inner ++ ctx) = inner.map (fun f ↦ .cs f.x f.dir) ++ ctxPath ctx := by
  induction inner with
  | nil => rfl
  | cons _ _ ih =>
    rw [cons_append, ctxPath, ih]
    rfl

lemma ctxPath_eq (ctx : List (Frame ℕ)) : ctxPath ctx = holePtr ctx :: (ctxPath ctx).tail := by
  cases ctx <;> rfl

/-- The way down to the predecessor is that of the rightmost node below the left child. -/
lemma findSubst_spec {p o : Option ℕ} {x : ℕ} (path : List NodePtr)
    (hrep : Rep t p o (.node l x r h)) (hfuel : (Avl.node l x r h).toList.length ≤ fuel) :
    ∃ sp sl b hs, t.findSubst fuel x path = some (b, sp.map (fun f ↦ .cs f.x f.dir) ++ path) ∧
      plug (.node sl b .nil hs) sp = .node l x r h ∧ ∀ f ∈ sp, f.dir := by
  induction r generalizing l p o x h fuel path with
  | nil =>
    obtain ⟨n, rfl⟩ : ∃ n, fuel = n + 1 := ⟨fuel - 1, by simp at hfuel; omega⟩
    obtain ⟨-, -, -, -, hright⟩ := hrep
    have hnone : (t.node x).right = none := hright
    refine ⟨[], l, x, h, ?_, rfl, by simp⟩
    rw [findSubst, hnone]
    rfl
  | node l' x' r' h' _ ih =>
    obtain ⟨n, rfl⟩ : ∃ n, fuel = n + 1 := ⟨fuel - 1, by simp at hfuel; omega⟩
    obtain ⟨-, -, -, -, hright⟩ := hrep
    have hsome : (t.node x).right = some x' := hright.1
    have hlen : (Avl.node l' x' r' h').toList.length ≤ n := by
      rw [toList_node, length_append, length_cons] at hfuel
      omega
    obtain ⟨sp, sl, b, hs, hrun, hplug, hdir⟩ := ih (.cs x true :: path) hright hlen
    refine ⟨sp ++ [⟨true, x, l, h⟩], sl, b, hs, ?_, ?_, ?_⟩
    · rw [findSubst, hsome]
      simpa using hrun
    · rw [plug_append, hplug]
      rfl
    · intro f hf
      rcases mem_append.mp hf with hf | hf
      · exact hdir f hf
      · rw [mem_singleton.mp hf]

/-! ### The three cases of `delete_generic` -/

section Unlink

variable {a h fuel : ℕ} {ctx : List (Frame ℕ)} {R sl : Avl ℕ}

lemma At.unlink_child {dir : Bool} {c : Avl ℕ} (hat : At t (branch dir c a .nil h) ctx)
    (hbal : (plug (branch dir c a .nil h) ctx).Balanced)
    (hsum : Summed td t (plug (branch dir c a .nil h) ctx)) :
    ∃ t₁ whence, (∀ path, t.unlink (holePtr ctx) path fuel a = some (t₁, whence, path)) ∧
      Ends td t t₁ whence (ctxPath ctx).tail ctx.length (before ctx ++ c.toList ++ after ctx) := by
  obtain ⟨-, hparent, -, hc, hother⟩ := rep_branch.mp hat.focus
  have hother' : (t.node a).cs (!dir) = none := hother
  refine ⟨(t.setParentOf c.root (holeParent ctx)).store (holePtr ctx) c.root, holeParent ctx,
    fun path ↦ ?_, ?_⟩
  · have hcs : (t.node a).cs dir = c.root := hc.root_eq.symm
    rw [unlink, hparent]
    cases dir with
    | true => rw [show (t.node a).left = none from hother', show (t.node a).right = c.root from hcs]
    | false =>
      rw [show (t.node a).right = none from hother', show (t.node a).left = c.root from hcs]
      cases c.root <;> rfl
  · obtain ⟨hbranch, hok⟩ := balanced_plug.mp hbal
    obtain ⟨hcb, -, hheight, -, -⟩ := balanced_branch.mp hbranch
    obtain ⟨hcs, hsibs⟩ := summed_plug hsum
    have hnil : (Avl.nil : Avl ℕ).height = 0 := rfl
    rw [height_branch] at hok
    exact (hat.bypass bypassed_store).endsAbove (Kept.of_object (fun o ↦ by simp) [])
      (summed_branch.mp hcs).2.1 hsibs hcb hok (by omega) (by omega)

lemma Rep.exists_root {p o : Option ℕ} (h : Rep t p o R) (hR : R ≠ .nil) : ∃ x, o = some x := by
  cases R with
  | nil => exact absurd rfl hR
  | node => exact ⟨_, h.1⟩

lemma At.unlink_left {b hs : ℕ} (hat : At t (.node (.node sl b .nil hs) a R h) ctx)
    (hR : R ≠ .nil) (hbal : (plug (.node (.node sl b .nil hs) a R h) ctx).Balanced)
    (hsum : Summed td t (plug (.node (.node sl b .nil hs) a R h) ctx)) :
    ∃ t₁ whence, (∀ path, t.unlink (holePtr ctx) path fuel a =
        some (t₁, whence, holePtr ctx :: path)) ∧
      Ends td t t₁ whence (ctxPath ctx) (ctx.length + 1)
        (before ctx ++ (Avl.node sl b R h).toList ++ after ctx) := by
  obtain ⟨-, -, -, ⟨hleft, -, -, -, hright⟩, hRrep⟩ := hat.focus
  refine ⟨t.placeSubst (holePtr ctx) a b, some b, fun path ↦ ?_, ?_⟩
  · have hleft' : (t.node a).left = some b := hleft
    obtain ⟨rx, hright' : (t.node a).right = some rx⟩ := hRrep.exists_root hR
    have hnone : (t.node b).right = none := hright
    rw [unlink, hleft', hright']
    exact if_pos hnone
  · obtain ⟨hnode, hok⟩ := balanced_plug.mp hbal
    obtain ⟨⟨hslb, -, hhs, hslh, -⟩, hRb, hh, hlr, hrl⟩ := hnode
    obtain ⟨hnodes, hsibs⟩ := summed_plug hsum
    have hnil : (Avl.nil : Avl ℕ).height = 0 := rfl
    refine hat.placeSubst.ends (Kept.of_object object_placeSubst []) hnodes.2.1.2.1 hnodes.2.2 hsibs
      ⟨hslb, hRb, hs, R.height, hh, hlr, hrl, .inr ⟨rfl, ?_, ?_⟩⟩ hok <;> omega

lemma At.unlink_deep {wl : Avl ℕ} {b w x hs hw : ℕ} {sp : List (Frame ℕ)}
    (hat : At t (.node (plug (.node wl w (.node sl b .nil hs) hw) sp) a R h) ctx) (hR : R ≠ .nil)
    (hdir : ∀ f ∈ sp, f.dir) (hleft : (t.node a).left = some x)
    (hright : (t.node x).right ≠ none)
    (hfind : t.findSubst fuel x [] = some (b, .cs w true :: sp.map fun f ↦ .cs f.x f.dir))
    (hbal : (plug (.node (plug (.node wl w (.node sl b .nil hs) hw) sp) a R h) ctx).Balanced)
    (hsum : Summed td t (plug (.node (plug (.node wl w (.node sl b .nil hs) hw) sp) a R h) ctx)) :
    ∃ t₁ whence, (∀ path, t.unlink (holePtr ctx) path fuel a =
        some (t₁, whence, sp.map (fun f ↦ .cs f.x f.dir) ++ .cs b false :: holePtr ctx :: path)) ∧
      Ends td t t₁ whence (ctxPath (sp ++ ⟨false, b, R, h⟩ :: ctx)) (sp.length + ctx.length + 2)
        (before ctx ++ ((plug (.node wl w (.node sl b .nil hs) hw) sp).toList ++ R.toList) ++
          after ctx) := by
  -- the predecessor at its own place
  have hout : At t (.node sl b .nil hs) (⟨true, w, wl, hw⟩ :: (sp ++ ⟨false, a, R, h⟩ :: ctx)) :=
    at_cons.mpr (at_append.mpr (at_cons.mpr hat))
  have hwhole : plug (.node sl b .nil hs) (⟨true, w, wl, hw⟩ :: (sp ++ ⟨false, a, R, h⟩ :: ctx)) =
      plug (.node (plug (.node wl w (.node sl b .nil hs) hw) sp) a R h) ctx := plug_append _ sp _
  rw [← hwhole] at hbal hsum
  refine ⟨(t.spliceSubst a b w).placeSubst (holePtr ctx) a b, some w, fun path ↦ ?_, ?_⟩
  · obtain ⟨-, -, -, -, hRrep⟩ := hat.focus
    obtain ⟨rx, hright' : (t.node a).right = some rx⟩ := hRrep.exists_root hR
    have hparent : (t.node b).parent = some w := hout.focus.2.1
    rw [unlink, hleft, hright']
    dsimp only
    rw [if_neg hright, hfind, Option.bind_some, hparent]
    rfl
  · obtain ⟨⟨hslb, -, hhs, -⟩, hwlb, hhw, hle, hge, hok⟩ := balanced_plug.mp hbal
    obtain ⟨⟨-, hslS, -⟩, hsibs⟩ := summed_plug hsum
    have hnil : (Avl.nil : Avl ℕ).height = 0 := rfl
    have hplace : At ((t.spliceSubst a b w).placeSubst (holePtr ctx) a b) (.node wl w sl hw)
        (sp ++ ⟨false, b, R, h⟩ :: ctx) := at_append.mpr (at_cons.mpr hat.spliceSubst)
    have hkept : Kept t ((t.spliceSubst a b w).placeSubst (holePtr ctx) a b) [] :=
      Kept.of_object (fun o ↦ (object_placeSubst o).trans (by simp [AvlTree.spliceSubst])) []
    have hsibs' : ∀ f ∈ sp ++ ⟨false, b, R, h⟩ :: ctx, Summed td t f.sibling := by
      intro f hf
      rcases mem_append.mp hf with hf | hf
      · exact hsibs f (mem_cons_of_mem _ (mem_append_left _ hf))
      · rcases mem_cons.mp hf with rfl | hf
        · exact hsibs ⟨false, a, R, h⟩ (mem_cons_of_mem _ (mem_append_right _ mem_cons_self))
        · exact hsibs f (mem_cons_of_mem _ (mem_append_right _ (mem_cons_of_mem _ hf)))
    have hshaken : Shaken hw wl sl :=
      ⟨hwlb, hslb, wl.height, hs, by rw [max_comm]; exact hhw, hge, hle,
        .inl ⟨rfl, by omega, by omega⟩⟩
    have hok' : CtxOk (sp ++ ⟨false, b, R, h⟩ :: ctx) hw :=
      ctxOk_append_congr (f := ⟨false, a, R, h⟩) rfl rfl hok
    have hends := hplace.ends hkept (hsibs _ mem_cons_self) hslS hsibs' hshaken hok'
    have hlist : before (sp ++ ⟨false, b, R, h⟩ :: ctx) ++ (Avl.node wl w sl hw).toList ++
        after (sp ++ ⟨false, b, R, h⟩ :: ctx) =
        before ctx ++ ((plug (.node wl w (.node sl b .nil hs) hw) sp).toList ++ R.toList) ++
          after ctx := by
      have hplug : plug (.node wl w sl hw) (sp ++ ⟨false, b, R, h⟩ :: ctx) =
          plug (.node (plug (.node wl w sl hw) sp) b R h) ctx := plug_append _ sp _
      rw [← toList_plug, hplug, toList_plug, toList_node, toList_plug, toList_plug,
        after_eq_nil hdir]
      simp
    rw [← hlist]
    exact hends.mono (by simp; omega)

/-- What `delete_generic` does to a node, with the path to it or without. -/
lemma At.unlink {L : Avl ℕ} (hat : At t (.node L a R h) ctx)
    (hbal : (plug (.node L a R h) ctx).Balanced) (hsum : Summed td t (plug (.node L a R h) ctx))
    (hfuel : (plug (.node L a R h) ctx).toList.length ≤ fuel) :
    ∃ (t₁ : AvlTree β γ) (whence : Option ℕ) (longer : List NodePtr → List NodePtr),
      (∀ path, t.unlink (holePtr ctx) path fuel a = some (t₁, whence, longer path)) ∧
      Ends td t t₁ whence (longer (ctxPath ctx).tail) fuel
        (before ctx ++ (L.toList ++ R.toList) ++ after ctx) := by
  have hlen := length_le_plug (.node L a R h) ctx
  rw [toList_node, length_append, length_cons] at hlen
  by_cases hLnil : L = .nil
  · subst hLnil
    have hbranch : At t (branch true R a .nil h) ctx := hat
    obtain ⟨t₁, whence, hrun, hends⟩ := hbranch.unlink_child hbal hsum
    exact ⟨t₁, whence, id, hrun, hends.mono (by omega)⟩
  by_cases hRnil : R = .nil
  · subst hRnil
    have hbranch : At t (branch false L a .nil h) ctx := hat
    obtain ⟨t₁, whence, hrun, hends⟩ := hbranch.unlink_child hbal hsum
    rw [toList_nil, append_nil]
    exact ⟨t₁, whence, id, hrun, hends.mono (by omega)⟩
  · obtain ⟨ll, x, lr, lh, rfl⟩ : ∃ ll x lr lh, L = .node ll x lr lh := by
      cases L with
      | nil => exact absurd rfl hLnil
      | node ll x lr lh => exact ⟨ll, x, lr, lh, rfl⟩
    obtain ⟨-, -, -, hLrep, -⟩ := hat.focus
    have hfuelL : (Avl.node ll x lr lh).toList.length ≤ fuel := by omega
    obtain ⟨sp, sl, b, hs, hfind, hplug, hdir⟩ := findSubst_spec [] hLrep hfuelL
    rw [append_nil] at hfind
    cases sp with
    | nil =>
      obtain ⟨rfl, rfl, rfl, rfl⟩ := Avl.node.inj hplug
      obtain ⟨t₁, whence, hrun, hends⟩ := hat.unlink_left hRnil hbal hsum
      refine ⟨t₁, whence, fun path ↦ holePtr ctx :: path, hrun, ?_⟩
      dsimp only
      rw [← ctxPath_eq]
      have hlist : (Avl.node sl b .nil hs).toList ++ R.toList = (Avl.node sl b R h).toList := by
        simp
      rw [hlist]
      exact hends.mono (by omega)
    | cons f sp =>
      obtain ⟨dir, w, wl, hw⟩ := f
      obtain rfl : dir := hdir _ mem_cons_self
      have hshape : plug (.node wl w (.node sl b .nil hs) hw) sp = .node ll x lr lh := hplug
      have hright : (t.node x).right ≠ none := by
        intro hnone
        obtain ⟨n, rfl⟩ : ∃ n, fuel = n + 1 := ⟨fuel - 1, by omega⟩
        rw [findSubst, hnone] at hfind
        simp at hfind
      have hsp : sp.length + 2 ≤ (Avl.node ll x lr lh).toList.length := by
        have hle := length_le_plug (.node wl w (.node sl b .nil hs) hw) sp
        rw [hshape] at hle
        refine le_trans ?_ hle
        simp
        omega
      rw [← hshape] at hat hbal hsum ⊢
      obtain ⟨t₁, whence, hrun, hends⟩ := hat.unlink_deep hRnil
        (fun f hf ↦ hdir f (mem_cons_of_mem _ hf)) hLrep.1 hright hfind hbal hsum
      refine ⟨t₁, whence, _, hrun, ?_⟩
      rw [ctxPath_append] at hends
      rw [← ctxPath_eq]
      exact hends.mono (by omega)

end Unlink

/-! ### Deletion -/

lemma exists_plug (ha : a ∈ s.toList) : ∃ l r h ctx, plug (.node l a r h) ctx = s := by
  induction s with
  | nil => simp at ha
  | node l x r h ihl ihr =>
    rw [toList_node, mem_append, mem_cons] at ha
    rcases ha with ha | rfl | ha
    · obtain ⟨l', r', h', ctx, hplug⟩ := ihl ha
      exact ⟨l', r', h', ctx ++ [⟨false, x, r, h⟩], by rw [plug_append, hplug]; rfl⟩
    · exact ⟨l, r, h, [], rfl⟩
    · obtain ⟨l', r', h', ctx, hplug⟩ := ihr ha
      exact ⟨l', r', h', ctx ++ [⟨true, x, l, h⟩], by rw [plug_append, hplug]; rfl⟩

/-- The path of `delete_generic` meets the assertion at every step of the rebalancing. -/
def DeletePathHolds (td : Treedef κ β γ) (t : AvlTree β γ) (fuel node : ℕ) :
    List NodePtr → Prop
  | [] => False
  | pnode :: path => ∀ out, t.unlink pnode path fuel node = some out →
    PathHolds td out.2.2 out.2.1 (out.2.1.elim out.1 fun whence ↦ out.1.augment td whence)

/-- `delete_generic` at a node of the tree, with the path to it and without. -/
lemma Valid.deleteAt (hvalid : Valid td t s) (hplug : plug (.node l a r h) ctx = s)
    (hfuel : s.toList.length ≤ fuel) :
    ∃ t' s', deleteDPath td t fuel a (ctxPath ctx) = some t' ∧ delete td t fuel a = some t' ∧
      DeletePathHolds td t fuel a (ctxPath ctx) ∧ Valid td t' s' ∧
      s.toList.Perm (a :: s'.toList) ∧
      ∀ x, (t'.node x).payload = (t.node x).payload := by
  subst hplug
  have hat : At t (.node l a r h) ctx := at_plug.mpr hvalid.place
  obtain ⟨t₁, whence, longer, hunlink, t', s', hclimb, hclimbed⟩ :=
    hat.unlink hvalid.balanced hvalid.summed hfuel
  have hlist := hclimbed.toList
  have hold : (plug (.node l a r h) ctx).toList =
      before ctx ++ l.toList ++ a :: (r.toList ++ after ctx) := by
    rw [toList_plug, toList_node]
    simp
  have hnew : s'.toList = before ctx ++ l.toList ++ (r.toList ++ after ctx) := by
    rw [hlist]
    simp
  refine ⟨t', s', ?_, ?_, ?_, ⟨hclimbed.place, ?_, hclimbed.balanced, hclimbed.summed⟩, ?_,
    hclimbed.payload⟩
  · rw [ctxPath_eq, deleteDPath, hunlink, Option.bind_some]
    exact hclimb.byPath
  · rw [delete, hat.nodeptrFromNode, hunlink, Option.bind_some]
    exact hclimb.byParents fuel (le_refl fuel)
  · rw [ctxPath_eq]
    intro out hout
    obtain rfl := Option.some_inj.mp ((hunlink _).symm.trans hout)
    exact hclimb.holds
  · refine sorted_congr (fun x _ ↦ hclimbed.payload x) (hvalid.sorted.sublist ?_)
    rw [hnew, hold]
    exact List.Sublist.append_left (sublist_cons_self a _) _
  · rw [hnew, hold]
    exact perm_middle

end AvlTree

end OpenSplice.Utilities
