import OpenSplice.Utilities.Avl

/-!
# Balance of AVL trees

A balanced tree records correct heights, and the heights of siblings differ by at most one. An
update changes the height of one subtree by at most one, and `rebalanceOne` repairs the node above
it (`rebalanceOne_repaired`), whose height has then changed by at most one.

An update climbs from the place of the change to the root. Where it is, is a context: a list of
frames, the innermost first, each a node without the subtree that the climb comes from. The climb
keeps a tree balanced (`climbUp_balanced`).
-/

set_option autoImplicit false

namespace OpenSplice.Utilities

open List

namespace Avl

variable {α : Type} {t : Avl α} {x : α}

def Balanced : Avl α → Prop
  | nil => True
  | node l _ r h =>
    l.Balanced ∧ r.Balanced ∧ h = 1 + max l.height r.height ∧ l.height ≤ r.height + 1 ∧
      r.height ≤ l.height + 1

def branch (dir : Bool) (d : Avl α) (x : α) (nd : Avl α) (h : ℕ) : Avl α :=
  if dir then node nd x d h else node d x nd h

@[simp] lemma height_node (l r : Avl α) (x : α) (h : ℕ) : (node l x r h).height = h := rfl

lemma balanced_branch {dir : Bool} {d nd : Avl α} {h : ℕ} :
    (branch dir d x nd h).Balanced ↔ d.Balanced ∧ nd.Balanced ∧ h = 1 + max d.height nd.height ∧
      d.height ≤ nd.height + 1 ∧ nd.height ≤ d.height + 1 := by
  cases dir
  · rfl
  · simp [branch, Balanced, max_comm nd.height]
    tauto

variable (dir : Bool)

@[simp] lemma height_branch (d : Avl α) (x : α) (nd : Avl α) (h : ℕ) :
    (branch dir d x nd h).height = h := by
  cases dir <;> rfl

lemma rotateSingle_branch (v m u : Avl α) (x y : α) (h hy : ℕ) :
    rotateSingle dir (branch dir v x (branch dir m y u hy) h) =
      branch dir (branch dir v x m (1 + m.height)) y u (1 + m.height + 1) := by
  cases dir <;> rfl

lemma rotateDouble_branch (v a b u : Avl α) (x y z : α) (h hy hz : ℕ) :
    rotateDouble dir (branch dir v x (branch dir (branch dir a z b hz) y u hy) h) =
      branch dir (branch dir v x a hz) z (branch dir b y u hz) hy := by
  cases dir <;> rfl

lemma rotate_branch (v m u : Avl α) (x y : α) (h hy : ℕ) :
    rotate dir (branch dir v x (branch dir m y u hy) h) =
      if u.height < m.height then rotateDouble dir (branch dir v x (branch dir m y u hy) h)
      else rotateSingle dir (branch dir v x (branch dir m y u hy) h) := by
  cases dir <;> rfl

lemma exists_branch (ht : t.height ≠ 0) : ∃ d x nd, t = branch dir d x nd t.height := by
  cases t with
  | nil => exact absurd rfl ht
  | node l x r =>
    cases dir
    · exact ⟨l, x, r, rfl⟩
    · exact ⟨r, x, l, rfl⟩

/-- A rotation repairs a node that is too heavy against the direction. -/
lemma rotate_balanced {v nd : Avl α} (hv : v.Balanced) (hnd : nd.Balanced) (x : α) (h : ℕ)
    (heavy : nd.height = v.height + 2) :
    (rotate dir (branch dir v x nd h)).Balanced ∧
      nd.height ≤ (rotate dir (branch dir v x nd h)).height ∧
      (rotate dir (branch dir v x nd h)).height ≤ nd.height + 1 := by
  obtain ⟨m, y, u, hshape⟩ := exists_branch dir (t := nd) (by omega)
  rw [hshape] at hnd
  obtain ⟨hm, hu, hheight, hmu, hum⟩ := balanced_branch.mp hnd
  rw [hshape, rotate_branch, height_branch]
  split_ifs with hlt
  · -- the inner grandchild is the higher one
    obtain ⟨a, z, b, hm'⟩ := exists_branch dir (t := m) (by omega)
    rw [hm'] at hm
    obtain ⟨ha, hb, hz, hab, hba⟩ := balanced_branch.mp hm
    rw [hm', rotateDouble_branch, height_branch]
    refine ⟨balanced_branch.mpr ⟨balanced_branch.mpr ⟨hv, ha, ?_, ?_, ?_⟩,
      balanced_branch.mpr ⟨hb, hu, ?_, ?_, ?_⟩, ?_, ?_, ?_⟩, ?_, ?_⟩ <;> (try simp) <;> omega
  · rw [rotateSingle_branch, height_branch]
    refine ⟨balanced_branch.mpr
      ⟨balanced_branch.mpr ⟨hv, hm, ?_, ?_, ?_⟩, hu, ?_, ?_, ?_⟩, ?_, ?_⟩ <;>
      (try simp) <;> omega

/-- What `rebalance_one` does to a node whose subtrees are balanced, and differ by at most two. -/
structure Repaired (l r : Avl α) (h : ℕ) (out : Avl α × Bool) : Prop where
  balanced : out.1.Balanced
  lower : max l.height r.height ≤ out.1.height
  upper : out.1.height ≤ max l.height r.height + 1
  level : l.height ≤ r.height + 1 → r.height ≤ l.height + 1 →
    out.1.height = max l.height r.height + 1
  stop : out.2 = false → out.1.height = h

lemma rebalanceOne_repaired {l r : Avl α} (hl : l.Balanced) (hr : r.Balanced) (x : α) (h : ℕ)
    (hlr : l.height ≤ r.height + 2) (hrl : r.height ≤ l.height + 2) :
    Repaired l r h (rebalanceOne (node l x r h)) := by
  have hkeep : ∀ b, (b = false → 1 + max l.height r.height = h) → l.height ≤ r.height + 1 →
      r.height ≤ l.height + 1 → Repaired l r h (node l x r (1 + max l.height r.height), b) :=
    fun b hb hlr hrl ↦ ⟨⟨hl, hr, rfl, hlr, hrl⟩, by simp only [height_node]; omega,
      by simp; omega, fun _ _ ↦ by simp; omega, hb⟩
  by_cases hleft : r.height + 1 < l.height
  · rw [rebalanceOne, if_pos hleft]
    obtain ⟨hbal, hlo, hhi⟩ := rotate_balanced true hr hl x h (by omega)
    have hmax : max l.height r.height = l.height := max_eq_left (by omega)
    exact ⟨hbal, hmax.trans_le hlo, hhi.trans_eq (by rw [hmax]), fun _ ↦ by omega,
      fun hc ↦ absurd hc (by simp)⟩
  · by_cases hright : l.height + 1 < r.height
    · rw [rebalanceOne, if_neg hleft, if_pos hright]
      obtain ⟨hbal, hlo, hhi⟩ := rotate_balanced false hl hr x h (by omega)
      have hmax : max l.height r.height = r.height := max_eq_right (by omega)
      exact ⟨hbal, hmax.trans_le hlo, hhi.trans_eq (by rw [hmax]), fun _ ↦ by omega,
        fun hc ↦ absurd hc (by simp)⟩
    · have hheight : (if l.height < r.height then r.height else l.height) + 1 =
          1 + max l.height r.height := by
        split_ifs <;> omega
      rw [rebalanceOne, if_neg hleft, if_neg hright, hheight]
      dsimp only
      split_ifs with hsame
      · rw [← hsame]
        exact hsame ▸ hkeep false (fun _ ↦ hsame) (by omega) (by omega)
      · exact hkeep true (fun hc ↦ absurd hc (by simp)) (by omega) (by omega)

/-! ### Contexts -/

/-- A node without one of its subtrees: the right one if `dir`. -/
structure Frame (α : Type) where
  dir : Bool
  x : α
  sibling : Avl α
  height : ℕ

def Frame.plug (f : Frame α) (t : Avl α) : Avl α := branch f.dir t f.x f.sibling f.height

/-- The tree that has `t` at the place of the context. -/
def plug (t : Avl α) (ctx : List (Frame α)) : Avl α := ctx.foldl (fun t f ↦ f.plug t) t

lemma plug_append (t : Avl α) (inner ctx : List (Frame α)) :
    plug t (inner ++ ctx) = plug (plug t inner) ctx := foldl_append

def ctxList (ctx : List (Frame α)) : List α := ctx.flatMap fun f ↦ f.x :: f.sibling.toList

def before : List (Frame α) → List α
  | [] => []
  | f :: ctx => before ctx ++ if f.dir then f.sibling.toList ++ [f.x] else []

def after : List (Frame α) → List α
  | [] => []
  | f :: ctx => (if f.dir then [] else f.x :: f.sibling.toList) ++ after ctx

variable {ctx : List (Frame α)} {H : ℕ} (augmented : Bool) {y : α}

lemma after_eq_nil (h : ∀ f ∈ ctx, f.dir) : after ctx = [] := by
  induction ctx with
  | nil => rfl
  | cons f _ ih =>
    rw [after, h f mem_cons_self, if_pos rfl, ih fun g hg ↦ h g (mem_cons_of_mem _ hg)]
    rfl

lemma mem_ctxList : y ∈ ctxList ctx ↔ y ∈ before ctx ∨ y ∈ after ctx := by
  induction ctx with
  | nil => simp [ctxList, before, after]
  | cons f ctx ih =>
    have hcons : y ∈ ctxList (f :: ctx) ↔ (y = f.x ∨ y ∈ f.sibling.toList) ∨ y ∈ ctxList ctx := by
      simp [ctxList, or_assoc]
    rw [hcons, ih, before, after]
    cases f.dir <;> simp <;> tauto

lemma toList_plug (t : Avl α) (ctx : List (Frame α)) :
    (plug t ctx).toList = before ctx ++ t.toList ++ after ctx := by
  induction ctx generalizing t with
  | nil => simp [plug, before, after]
  | cons f ctx ih =>
    have hstep : plug t (f :: ctx) = plug (f.plug t) ctx := rfl
    rw [hstep, ih, before, after, Frame.plug, branch]
    cases f.dir <;> simp

lemma mem_plug : y ∈ (plug t ctx).toList ↔ y ∈ t.toList ∨ y ∈ ctxList ctx := by
  rw [toList_plug, mem_ctxList, mem_append, mem_append]
  tauto

lemma length_le_plug (t : Avl α) (ctx : List (Frame α)) :
    t.toList.length + ctx.length ≤ (plug t ctx).toList.length := by
  induction ctx generalizing t with
  | nil => exact le_refl _
  | cons f ctx ih =>
    have hstep : (f.plug t).toList.length = t.toList.length + f.sibling.toList.length + 1 := by
      unfold Frame.plug branch
      cases f.dir <;> simp <;> omega
    have hplug : plug t (f :: ctx) = plug (f.plug t) ctx := rfl
    have := ih (f.plug t)
    rw [hplug, length_cons]
    omega

def climbUp (augmented : Bool) : Avl α → List (Frame α) → Avl α
  | t, [] => (rebalanceOne t).1
  | t, f :: ctx =>
    if (rebalanceOne t).2 || augmented then climbUp augmented (f.plug (rebalanceOne t).1) ctx
    else plug (rebalanceOne t).1 (f :: ctx)

lemma toList_climbUp (t : Avl α) (ctx : List (Frame α)) :
    (climbUp augmented t ctx).toList = before ctx ++ t.toList ++ after ctx := by
  have hplug : ∀ (t : Avl α) (ctx : List (Frame α)),
      (plug (rebalanceOne t).1 ctx).toList = (plug t ctx).toList := by
    intro t ctx
    rw [toList_plug, toList_plug, toList_rebalanceOne]
  rw [← toList_plug]
  induction ctx generalizing t with
  | nil => exact toList_rebalanceOne t
  | cons f ctx ih =>
    unfold climbUp
    split_ifs
    · rw [ih]
      exact hplug t (f :: ctx)
    · exact hplug t (f :: ctx)

/-- The context is that of a balanced tree, which has a subtree of height `H` in its place. -/
def CtxOk : List (Frame α) → ℕ → Prop
  | [], _ => True
  | f :: ctx, H =>
    f.sibling.Balanced ∧ f.height = 1 + max H f.sibling.height ∧ H ≤ f.sibling.height + 1 ∧
      f.sibling.height ≤ H + 1 ∧ CtxOk ctx f.height

/-- Whether a context is one of a balanced tree does not depend on its elements. -/
lemma ctxOk_append_congr {inner : List (Frame α)} {f g : Frame α}
    (hsib : f.sibling = g.sibling) (hheight : f.height = g.height)
    (h : CtxOk (inner ++ f :: ctx) H) : CtxOk (inner ++ g :: ctx) H := by
  induction inner generalizing H with
  | nil =>
    obtain ⟨h1, h2, h3, h4, h5⟩ := h
    rw [hsib, hheight] at h2
    rw [hsib] at h1 h3 h4
    rw [hheight] at h5
    exact ⟨h1, h2, h3, h4, h5⟩
  | cons _ _ ih =>
    obtain ⟨h1, h2, h3, h4, h5⟩ := h
    exact ⟨h1, h2, h3, h4, ih h5⟩

lemma balanced_plug : (plug t ctx).Balanced ↔ t.Balanced ∧ CtxOk ctx t.height := by
  induction ctx generalizing t with
  | nil => simp [plug, CtxOk]
  | cons f ctx ih =>
    have hstep : plug t (f :: ctx) = plug (f.plug t) ctx := rfl
    rw [hstep, ih, Frame.plug, balanced_branch, height_branch, CtxOk]
    tauto

/-- A node whose height was `H`, and one of whose subtrees has changed its height by at most one. -/
structure Shaken (H : ℕ) (l r : Avl α) : Prop where
  left : l.Balanced
  right : r.Balanced
  near : ∃ hl hr, H = 1 + max hl hr ∧ hl ≤ hr + 1 ∧ hr ≤ hl + 1 ∧
    ((l.height = hl ∧ r.height ≤ hr + 1 ∧ hr ≤ r.height + 1) ∨
      (r.height = hr ∧ l.height ≤ hl + 1 ∧ hl ≤ l.height + 1))

/-- A subtree that has changed its height by at most one shakes the node above it. -/
lemma Frame.shaken {f : Frame α} (hctx : CtxOk (f :: ctx) H) (ht : t.Balanced)
    (hlo : H ≤ t.height + 1) (hhi : t.height ≤ H + 1) :
    ∃ l r, f.plug t = node l f.x r f.height ∧ Shaken f.height l r := by
  obtain ⟨hsib, hheight, hle, hge, -⟩ := hctx
  cases hdir : f.dir with
  | false =>
    exact ⟨t, f.sibling, by rw [plug, hdir]; rfl, ht, hsib, H, f.sibling.height, hheight, hle, hge,
      .inr ⟨rfl, hhi, hlo⟩⟩
  | true =>
    refine ⟨f.sibling, t, by rw [plug, hdir]; rfl, hsib, ht, f.sibling.height, H, ?_, hge, hle,
      .inl ⟨rfl, hhi, hlo⟩⟩
    rw [max_comm]
    exact hheight

lemma climbUp_balanced {l r : Avl α} (hshaken : Shaken H l r)
    (hctx : CtxOk ctx H) : (climbUp augmented (node l x r H) ctx).Balanced := by
  induction ctx generalizing l r x H with
  | nil =>
    obtain ⟨hl, hr, hl0, hr0, hH, hnear1, hnear2, hone⟩ := hshaken
    exact (rebalanceOne_repaired hl hr x H (by omega) (by omega)).balanced
  | cons _ _ ih =>
    obtain ⟨hl, hr, hl0, hr0, hH, hnear1, hnear2, hone⟩ := hshaken
    obtain ⟨hbal, hlo, hhi, hlevel, hstop⟩ := rebalanceOne_repaired hl hr x H (by omega) (by omega)
    unfold climbUp
    split_ifs with hgo
    · obtain ⟨l', r', hplug, hshaken'⟩ := Frame.shaken hctx hbal (by omega) (by omega)
      rw [hplug]
      exact ih hshaken' hctx.2.2.2.2
    · obtain ⟨hstopped, -⟩ := Bool.or_eq_false_iff.mp (Bool.eq_false_iff.mpr hgo)
      rw [balanced_plug, hstop hstopped]
      exact ⟨hbal, hctx⟩

end Avl

end OpenSplice.Utilities
