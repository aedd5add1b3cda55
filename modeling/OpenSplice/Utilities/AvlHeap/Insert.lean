import OpenSplice.Utilities.AvlHeap.Climb

/-!
# Insertion in memory

A lookup goes down the tree from the root, and the path it leaves behind is that of a context
(`lookupIPath_spec`). The key lies between the elements before and behind that place (`Between`).
The new node goes there as a leaf, and the climb from its parent does the rest (`At.climbAbove`), so
that `ut_avlInsertIPath` keeps what the tree is to be (`Valid.insertIPath`).
-/

set_option autoImplicit false

namespace OpenSplice.Utilities

open Avl List Ordering

namespace AvlTree

variable {κ β γ : Type} {td : Treedef κ β γ} {t t' : AvlTree β γ} {s : Avl ℕ} {ctx : List (Frame ℕ)}
  {a H : ℕ}

def keyOf (td : Treedef κ β γ) (t : AvlTree β γ) (x : ℕ) : κ := td.key (t.node x).payload

def InOrder (td : Treedef κ β γ) (t : AvlTree β γ) (x y : ℕ) : Prop :=
  td.comparekk (keyOf td t x) (keyOf td t y) = .lt ∨
    (td.allowDups = true ∧ td.comparekk (keyOf td t x) (keyOf td t y) = .eq)

/-- What a tree is to be: the nodes are linked up like the balanced tree `s`, in the order of their
keys, and their summaries are up to date. -/
structure Valid (td : Treedef κ β γ) (t : AvlTree β γ) (s : Avl ℕ) : Prop where
  place : At t s []
  sorted : s.toList.Pairwise (InOrder td t)
  balanced : s.Balanced
  summed : Summed td t s

/-! ### The climb from a parent -/

lemma summed_plug (h : Summed td t (plug s ctx)) :
    Summed td t s ∧ ∀ f ∈ ctx, Summed td t f.sibling := by
  induction ctx generalizing s with
  | nil => exact ⟨h, fun f hf ↦ absurd hf (by simp)⟩
  | cons f _ ih =>
    obtain ⟨hplug, hctx⟩ := ih (s := f.plug s) h
    obtain ⟨-, hs, hsib⟩ := summed_branch.mp hplug
    refine ⟨hs, fun g hg ↦ ?_⟩
    rcases mem_cons.mp hg with rfl | hg
    · exact hsib
    · exact hctx g hg

/-- What a climb leaves behind, from any node of a tree up to its root. -/
structure Climbed (td : Treedef κ β γ) (t t' : AvlTree β γ) (s : Avl ℕ) (l : List ℕ) : Prop where
  place : At t' s []
  balanced : s.Balanced
  summed : Summed td t' s
  toList : s.toList = l
  payload : ∀ x, (t'.node x).payload = (t.node x).payload

/-- The climb from a node one of whose subtrees has changed its height by at most one. -/
lemma At.climbed {l r : Avl ℕ} {h : ℕ} (hat : At t (.node l a r h) ctx) (hl : Summed td t l)
    (hr : Summed td t r) (hctx : ∀ f ∈ ctx, Summed td t f.sibling) (hshaken : Shaken h l r)
    (hok : CtxOk ctx h) :
    ∃ t' s, Rebalances td t (some a) (ctxPath ctx) (ctx.length + 1) t' ∧
      Climbed td t t' s (before ctx ++ (Avl.node l a r h).toList ++ after ctx) := by
  obtain ⟨t', hclimb, hplace, hsummed, hkept⟩ := hat.climb hl hr hctx
  exact ⟨t', _, hclimb, hplace, climbUp_balanced _ hshaken hok, hsummed, toList_climbUp _ _ _,
    hkept.payload⟩

/-- The node above a subtree that has changed its height by at most one. -/
lemma At.above {f : Frame ℕ} (hat : At t' s (f :: ctx)) (hs : Summed td t s)
    (hf : Summed td t f.sibling) (hbal : s.Balanced) (hok : CtxOk (f :: ctx) H)
    (hlo : H ≤ s.height + 1) (hhi : s.height ≤ H + 1) :
    ∃ l r, At t' (.node l f.x r f.height) ctx ∧ Shaken f.height l r ∧ Summed td t l ∧
      Summed td t r ∧
      (plug s (f :: ctx)).toList =
        before ctx ++ (Avl.node l f.x r f.height).toList ++ after ctx := by
  obtain ⟨l, r, hplug, hshaken⟩ := Frame.shaken hok hbal hlo hhi
  obtain ⟨l', r', hplug', hsides⟩ := plug_eq_node f s
  obtain ⟨rfl, -, rfl, -⟩ := node.inj (hplug.symm.trans hplug')
  refine ⟨l, r, ?_⟩
  rw [← toList_plug, ← hplug]
  refine ⟨at_cons.mp hat, hshaken, ?_⟩
  rcases hsides with ⟨rfl, rfl⟩ | ⟨rfl, rfl⟩
  · exact ⟨hs, hf, rfl⟩
  · exact ⟨hf, hs, rfl⟩

/-- The climb from the parent of a subtree that has changed its height by at most one. -/
lemma At.climbAbove (hat : At t s ctx) (hs : Summed td t s)
    (hctx : ∀ f ∈ ctx, Summed td t f.sibling) (hbal : s.Balanced) (hok : CtxOk ctx H)
    (hlo : H ≤ s.height + 1) (hhi : s.height ≤ H + 1) :
    ∃ t' s', rebalancePath td (ctxPath ctx).tail (holeParent ctx) t = some t' ∧
      Climbed td t t' s' (before ctx ++ s.toList ++ after ctx) := by
  rw [← toList_plug]
  cases ctx with
  | nil => exact ⟨t, s, rfl, hat, hbal, hs, rfl, fun _ ↦ rfl⟩
  | cons f ctx =>
    obtain ⟨l, r, hup, hshaken, hl, hr, hlist⟩ :=
      hat.above hs (hctx f mem_cons_self) hbal hok hlo hhi
    obtain ⟨t', s', hclimb, hclimbed⟩ :=
      hup.climbed hl hr (fun g hg ↦ hctx g (mem_cons_of_mem _ hg)) hshaken hok.2.2.2.2
    exact ⟨t', s', hclimb.byPath, hlist ▸ hclimbed⟩

/-! ### Looking up -/

/-- The key belongs at the place of the context. -/
structure Between (td : Treedef κ β γ) (t : AvlTree β γ) (key : κ) (ctx : List (Frame ℕ)) :
    Prop where
  low : ∀ x ∈ before ctx, comparenk td t x key ≠ .gt
  high : ∀ x ∈ after ctx, comparenk td t x key = .gt

section Lookup

variable [Std.TransCmp td.comparekk] {key : κ} {ctx : List (Frame ℕ)} {whole s : Avl ℕ} {fuel : ℕ}

lemma InOrder.low {x y : ℕ} (h : InOrder td t x y) (hy : comparenk td t y key ≠ .gt) :
    comparenk td t x key ≠ .gt := by
  have hxy : td.comparekk (keyOf td t x) (keyOf td t y) ≠ .gt := by
    rcases h with h | h <;> simp [h]
  exact isLE_iff_ne_gt.mp (Std.TransCmp.isLE_trans (isLE_iff_ne_gt.mpr hxy) (isLE_iff_ne_gt.mpr hy))

lemma InOrder.high {x y : ℕ} (h : InOrder td t y x) (hy : comparenk td t y key = .gt) :
    comparenk td t x key = .gt := by
  have hyx : (td.comparekk (keyOf td t y) (keyOf td t x)).isLE := by
    rcases h with h | h <;> simp [h]
  exact Std.OrientedCmp.gt_of_lt (Std.TransCmp.lt_of_lt_of_isLE (Std.OrientedCmp.lt_of_gt hy) hyx)

lemma Between.down {l r : Avl ℕ} {a h : ℕ} (hbetween : Between td t key ctx)
    (hsorted : (plug (.node l a r h) ctx).toList.Pairwise (InOrder td t)) :
    ∃ f s, f.x = a ∧ f.dir = decide (comparenk td t a key ≠ .gt) ∧
      f.plug s = .node l a r h ∧ s.toList.length < (Avl.node l a r h).toList.length ∧
        Between td t key (f :: ctx) := by
  have hmid : (Avl.node l a r h).toList.Pairwise (InOrder td t) := by
    rw [toList_plug] at hsorted
    exact (pairwise_append.mp (pairwise_append.mp hsorted).1).2.1
  obtain ⟨-, hright, hleft⟩ := pairwise_append.mp hmid
  by_cases hgt : comparenk td t a key = .gt
  · refine ⟨⟨false, a, r, h⟩, l, rfl, by simp [hgt], rfl, by simp, ?_, ?_⟩
    · intro x hx
      exact hbetween.low x (by simpa [before] using hx)
    · intro x hx
      rcases mem_append.mp hx with hx | hx
      · rcases mem_cons.mp hx with rfl | hx
        · exact hgt
        · exact ((List.pairwise_cons.mp hright).1 x hx).high hgt
      · exact hbetween.high x hx
  · refine ⟨⟨true, a, l, h⟩, r, rfl, by simp [hgt], rfl, by simp; omega, ?_, ?_⟩
    · intro x hx
      rcases mem_append.mp hx with hx | hx
      · exact hbetween.low x hx
      · rcases mem_append.mp hx with hx | hx
        · exact (hleft x hx a (by simp)).low hgt
        · rw [mem_singleton.mp hx]
          exact hgt
    · intro x hx
      exact hbetween.high x (by simpa [Avl.after] using hx)

/-- Where a lookup has got to. -/
structure Descent (td : Treedef κ β γ) (t : AvlTree β γ) (key : κ) (whole s : Avl ℕ)
    (ctx : List (Frame ℕ)) : Prop where
  place : At t s ctx
  plug : Avl.plug s ctx = whole
  between : Between td t key ctx

lemma Descent.down {l r : Avl ℕ} {a h : ℕ} (hd : Descent td t key whole (.node l a r h) ctx)
    (hsorted : whole.toList.Pairwise (InOrder td t)) :
    ∃ f s, f.x = a ∧ f.dir = decide (comparenk td t a key ≠ .gt) ∧
      s.toList.length < (Avl.node l a r h).toList.length ∧ (t.node a).cs f.dir = s.root ∧
      Descent td t key whole s (f :: ctx) := by
  obtain ⟨hplace, hplug, hbetween⟩ := hd
  rw [← hplug] at hsorted
  obtain ⟨f, s, hx, hdir, hfs, hlen, hbetween'⟩ := hbetween.down hsorted
  have hplace' : At t s (f :: ctx) := at_cons.mpr (hfs ▸ hplace)
  refine ⟨f, s, hx, hdir, hlen, ?_, hplace', ?_, hbetween'⟩
  · rw [← hx]
    exact hplace'.focus.root_eq.symm
  · rw [← hplug, ← hfs]
    rfl

lemma lookupBelow_spec (hd : Descent td t key whole s ctx)
    (hsorted : whole.toList.Pairwise (InOrder td t)) (hfuel : s.toList.length ≤ fuel) :
    ∃ ctx', lookupBelow td t key fuel s.root (holeParent ctx) (ctxPath ctx) =
      some (holeParent ctx', ctxPath ctx') ∧ Descent td t key whole .nil ctx' := by
  induction fuel generalizing s ctx with
  | zero =>
    cases s with
    | nil => exact ⟨ctx, rfl, hd⟩
    | node => simp at hfuel
  | succ fuel ih =>
    cases s with
    | nil => exact ⟨ctx, rfl, hd⟩
    | node =>
      obtain ⟨f, s, rfl, hdir, hlen, hcs, hd'⟩ := hd.down hsorted
      obtain ⟨ctx', hrun, hend⟩ := ih hd' (by omega)
      refine ⟨ctx', ?_, hend⟩
      rw [Avl.root, lookupBelow, ← hdir, hcs]
      exact hrun

/-- A lookup that has not met the key leaves only lesser ones behind on the left. -/
lemma Descent.lower {f : Frame ℕ} (hd : Descent td t key whole s (f :: ctx))
    (hsorted : whole.toList.Pairwise (InOrder td t))
    (hdir : f.dir = decide (comparenk td t f.x key ≠ .gt)) (hne : comparenk td t f.x key ≠ .eq)
    (hlow : ∀ x ∈ before ctx, comparenk td t x key = .lt) :
    ∀ x ∈ before (f :: ctx), comparenk td t x key = .lt := by
  intro x hx
  rcases mem_append.mp hx with hx | hx
  · exact hlow x hx
  · cases hright : f.dir with
    | false => simp [hright] at hx
    | true =>
      have hle := of_decide_eq_true (hdir.symm.trans hright)
      have hlt : comparenk td t f.x key = .lt := by
        cases hcmp : comparenk td t f.x key with
        | lt => rfl
        | eq => exact absurd hcmp hne
        | gt => exact absurd hcmp hle
      rw [hright, if_pos rfl] at hx
      rcases mem_append.mp hx with hx | hx
      · rw [← hd.plug, toList_plug, before, hright, if_pos rfl] at hsorted
        have hord := (pairwise_append.mp (pairwise_append.mp
          (pairwise_append.mp (pairwise_append.mp hsorted).1).1).2.1).2.2 x hx f.x
          mem_cons_self
        have hxle : (td.comparekk (keyOf td t x) (keyOf td t f.x)).isLE := by
          rcases hord with h | h <;> simp [h]
        exact Std.TransCmp.lt_of_isLE_of_lt hxle hlt
      · rw [mem_singleton.mp hx]
        exact hlt

omit [Std.TransCmp td.comparekk] in
lemma Descent.absent (hd : Descent td t key whole .nil ctx)
    (hlow : ∀ x ∈ before ctx, comparenk td t x key = .lt) :
    ∀ x ∈ whole.toList, comparenk td t x key ≠ .eq := by
  intro x hx
  rw [← hd.plug, toList_plug, toList_nil, append_nil] at hx
  rcases mem_append.mp hx with hx | hx
  · simp [hlow x hx]
  · simp [hd.between.high x hx]

/-- What `lookup_path` finds: a node with the key, or the place for one if there is none. -/
lemma lookupPath_spec (hd : Descent td t key whole s ctx)
    (hsorted : whole.toList.Pairwise (InOrder td t)) (hfuel : s.toList.length ≤ fuel)
    (hlow : ∀ x ∈ before ctx, comparenk td t x key = .lt) :
    ∃ s' ctx', lookupPath td t key fuel s.root (holeParent ctx) (ctxPath ctx) =
        some (s'.root, holeParent ctx', ctxPath ctx') ∧ Descent td t key whole s' ctx' ∧
      (∀ a, s'.root = some a → comparenk td t a key = .eq) ∧
      (s' = .nil → ∀ x ∈ whole.toList, comparenk td t x key ≠ .eq) := by
  induction fuel generalizing s ctx with
  | zero =>
    cases s with
    | nil => exact ⟨.nil, ctx, rfl, hd, by simp [Avl.root], fun _ ↦ hd.absent hlow⟩
    | node => simp at hfuel
  | succ fuel ih =>
    cases s with
    | nil => exact ⟨.nil, ctx, rfl, hd, by simp [Avl.root], fun _ ↦ hd.absent hlow⟩
    | node l a r h =>
      by_cases heq : comparenk td t a key = .eq
      · refine ⟨.node l a r h, ctx, ?_, hd, fun b hb ↦ ?_, by simp⟩
        · rw [Avl.root, lookupPath, if_pos heq]
        · rw [← Option.some_inj.mp hb]
          exact heq
      · obtain ⟨f, s, rfl, hdir, hlen, hcs, hd'⟩ := hd.down hsorted
        have hlow' := hd'.lower hsorted hdir heq hlow
        obtain ⟨s', ctx', hrun, hend⟩ := ih hd' (by omega) hlow'
        refine ⟨s', ctx', ?_, hend⟩
        rw [Avl.root, lookupPath, if_neg heq]
        dsimp only
        rw [← hdir, hcs]
        exact hrun

lemma Valid.lookupDPath_spec (hvalid : Valid td t s) (key : κ) (hfuel : s.toList.length ≤ fuel) :
    ∃ s' ctx, lookupPath td t key fuel t.root none [.root] =
        some (s'.root, holeParent ctx, ctxPath ctx) ∧ Descent td t key s s' ctx ∧
      (∀ a, s'.root = some a → comparenk td t a key = .eq) ∧
      (s' = .nil → ∀ x ∈ s.toList, comparenk td t x key ≠ .eq) := by
  have hstart : Descent td t key s s [] :=
    ⟨hvalid.place, rfl, by simp [before], by simp [Avl.after]⟩
  have hspec := lookupPath_spec hstart hvalid.sorted hfuel (by simp [before])
  have hroot : s.root = t.root := hvalid.place.focus.root_eq
  rwa [hroot] at hspec

lemma Valid.lookupIPath_spec (hvalid : Valid td t s)
    (hnew : td.allowDups ∨ ∀ x ∈ s.toList, comparenk td t x key ≠ .eq)
    (hfuel : s.toList.length ≤ fuel) :
    ∃ ctx, lookupIPath td t fuel key = some (holeParent ctx, ctxPath ctx) ∧
      Descent td t key s .nil ctx := by
  obtain ⟨s', ctx, hrun, hd, hfound, -⟩ := hvalid.lookupDPath_spec key hfuel
  rw [lookupIPath, hrun, Option.bind_some]
  cases s' with
  | nil => exact ⟨ctx, rfl, hd⟩
  | node l a r h =>
    have hlist := congrArg toList hd.plug
    rw [toList_plug] at hlist
    have hdups : td.allowDups := by
      refine hnew.resolve_right fun hne ↦ hne a ?_ (hfound a rfl)
      rw [← hlist]
      simp
    have hlen : (Avl.node l a r h).toList.length ≤ fuel := by
      rw [← hlist, length_append, length_append] at hfuel
      omega
    obtain ⟨ctx', hrun', hend⟩ := lookupBelow_spec hd hvalid.sorted hlen
    refine ⟨ctx', ?_, hend⟩
    dsimp only [Avl.root]
    rw [if_pos hdups]
    exact hrun'

end Lookup

/-! ### The new node -/

lemma At.leaf (hat : At t .nil ctx) (ha : a ∉ ctxList ctx) :
    At (((t.initLeaf a (holeParent ctx)).augment td a).store (holePtr ctx) (some a))
      (.node .nil a .nil 1) ctx := by
  obtain ⟨hctx, -, hnodup⟩ := hat
  have hne : ∀ x ∈ ctxList ctx, x ≠ a := fun x hx h ↦ ha (h ▸ hx)
  have hhole : ∀ e, holePtr ctx ≠ .cs a e := fun e he ↦ ha (holePtr_mem he)
  refine ⟨hctx.frame hnodup (fun x hx ↦ ?_) fun hne ↦ ?_,
    ⟨load_store _ _ _, by simp, by simp, ?_, ?_⟩, by simpa using ⟨ha, hnodup⟩⟩
  · refine ⟨by simp [hne x hx], by simp [hne x hx], fun e he ↦ ?_⟩
    simp [hne x hx, he]
  · simp [holePtr_ne_root hne]
  · simp [Rep, hhole]
  · simp [Rep, hhole]

lemma summed_leaf {p : Option ℕ} {pnode : NodePtr} :
    Summed td (((t.initLeaf a p).augment td a).store pnode (some a)) (.node .nil a .nil 1) := by
  have hleaf : Summed td ((t.initLeaf a p).augment td a) (.node .nil a .nil 1) :=
    ⟨fresh_augment (by simp [Avl.root]) (by simp [Avl.root]) (by simp) (by simp), trivial, trivial⟩
  exact hleaf.frame fun x _ ↦ object_store _ _ _ _

lemma sorted_congr {l : List ℕ} (hpayload : ∀ x ∈ l, (t'.node x).payload = (t.node x).payload)
    (h : l.Pairwise (InOrder td t)) : l.Pairwise (InOrder td t') := by
  refine h.imp_of_mem fun {x y} hx hy hxy ↦ ?_
  rw [InOrder, keyOf, keyOf, hpayload x hx, hpayload y hy]
  exact hxy

section Insert

variable [Std.TransCmp td.comparekk] {key : κ}

lemma Between.sorted {ctx : List (Frame ℕ)} {a : ℕ} (hbetween : Between td t key ctx)
    (hkey : comparenk td t a key = .eq)
    (hnew : td.allowDups ∨ ∀ x ∈ before ctx ++ after ctx, comparenk td t x key ≠ .eq)
    (hsorted : (before ctx ++ after ctx).Pairwise (InOrder td t)) :
    (before ctx ++ [a] ++ after ctx).Pairwise (InOrder td t) := by
  obtain ⟨hlow, hhigh, hacross⟩ := pairwise_append.mp hsorted
  have hbefore : ∀ x ∈ before ctx, InOrder td t x a := by
    intro x hx
    have hsame : td.comparekk (keyOf td t x) (keyOf td t a) = comparenk td t x key :=
      Std.TransCmp.congr_right hkey
    rw [InOrder, hsame]
    cases hcmp : comparenk td t x key with
    | lt => exact .inl rfl
    | eq => exact .inr ⟨hnew.resolve_right fun h ↦ h x (mem_append_left _ hx) hcmp, rfl⟩
    | gt => exact absurd hcmp (hbetween.low x hx)
  have hafter : ∀ y ∈ after ctx, InOrder td t a y := by
    intro y hy
    have hsame : td.comparekk (keyOf td t a) (keyOf td t y) = td.comparekk key (keyOf td t y) :=
      Std.TransCmp.congr_left hkey
    rw [InOrder, hsame]
    exact .inl (Std.OrientedCmp.lt_of_gt (hbetween.high y hy))
  rw [append_assoc, singleton_append]
  refine pairwise_append.mpr ⟨hlow, pairwise_cons.mpr ⟨hafter, hhigh⟩, fun x hx y hy ↦ ?_⟩
  rcases mem_cons.mp hy with rfl | hy
  · exact hbefore x hx
  · exact hacross x hx y hy

lemma Valid.insertIPath {s : Avl ℕ} {a fuel : ℕ} (hvalid : Valid td t s) (ha : a ∉ s.toList)
    (hkey : comparenk td t a key = .eq)
    (hnew : td.allowDups ∨ ∀ x ∈ s.toList, comparenk td t x key ≠ .eq)
    (hfuel : s.toList.length ≤ fuel) :
    ∃ t' s', ((lookupIPath td t fuel key).bind fun out ↦ insertIPath td t a out.1 out.2) = some t' ∧
      Valid td t' s' ∧ s'.toList.Perm (a :: s.toList) ∧
      ∀ x, (t'.node x).payload = (t.node x).payload := by
  obtain ⟨ctx, hlookup, hplace, hplug, hbetween⟩ := hvalid.lookupIPath_spec hnew hfuel
  have hlist : s.toList = before ctx ++ after ctx := by
    rw [← hplug, toList_plug, toList_nil, append_nil]
  obtain ⟨-, hok⟩ := balanced_plug.mp (hplug ▸ hvalid.balanced)
  obtain ⟨-, hsibs⟩ := summed_plug (hplug ▸ hvalid.summed)
  have hfresh : a ∉ ctxList ctx := by rwa [mem_ctxList, ← mem_append, ← hlist]
  -- the tree with the new leaf, before the climb
  have hleaf : At (((t.initLeaf a (holeParent ctx)).augment td a).store (holePtr ctx) (some a))
      (.node .nil a .nil 1) ctx := hplace.leaf hfresh
  have hkept : Kept t (((t.initLeaf a (holeParent ctx)).augment td a).store (holePtr ctx) (some a))
      [a] := by
    refine ((Kept.of_object (object_initLeaf t a _) _).trans (kept_augment ?_)).trans
      (Kept.of_object (fun o ↦ object_store _ _ _ _) _)
    exact mem_singleton_self a
  have hsibs' := hkept.siblings hsibs fun x hx ↦ mem_singleton.mp hx ▸ hfresh
  obtain ⟨t', s', hpath, hclimbed⟩ := hleaf.climbAbove summed_leaf hsibs'
    (by simp [Avl.Balanced, height]) hok (by simp [height]) (by simp [height])
  have hpayload : ∀ x, (t'.node x).payload = (t.node x).payload :=
    fun x ↦ (hclimbed.payload x).trans (hkept.payload x)
  have hlist' : s'.toList = before ctx ++ [a] ++ after ctx := hclimbed.toList
  refine ⟨t', s', ?_, ⟨hclimbed.place, ?_, hclimbed.balanced, hclimbed.summed⟩, ?_, hpayload⟩
  · rw [hlookup, Option.bind_some]
    cases ctx <;> exact hpath
  · rw [hlist']
    refine sorted_congr (fun x _ ↦ hpayload x) (hbetween.sorted hkey ?_ (hlist ▸ hvalid.sorted))
    rwa [← hlist]
  · rw [hlist', hlist, append_assoc]
    exact perm_middle

end Insert

end AvlTree

end OpenSplice.Utilities
