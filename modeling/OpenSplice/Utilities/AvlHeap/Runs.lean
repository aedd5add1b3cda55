import OpenSplice.Utilities.AvlHeap.Delete

/-!
# Runs of AVL trees

A run starts with an empty tree, and each step is a call of `ut_avlInsert`, of `ut_avlInsertIPath`
on a fresh path, of `ut_avlDelete`, of `ut_avlDeleteDPath` on a fresh path, or of
`ut_avlAugmentUpdate` after the owner of an object has changed it. `AvlReach` keeps the list of the
nodes that are in the tree by these calls.
-/

set_option autoImplicit false

namespace OpenSplice.Utilities

open Avl List AvlTree Option

namespace AvlTree

variable {κ β γ : Type} {td : Treedef κ β γ} {t t' : AvlTree β γ}

section Payload

variable {a x : ℕ} {p : β} {s : Avl ℕ}

lemma payload_setPayload :
    ((t.setPayload a p).node x).payload = if x = a then p else (t.node x).payload := by
  by_cases hx : x = a <;> simp [setPayload, modify, hx]

lemma sameNode_setPayload : SameNode t (t.setPayload a p) x := by
  by_cases hx : x = a
  · subst hx
    exact ⟨fun e ↦ by simp [setPayload, modify, AvlNode.cs], by simp [setPayload, modify],
      by simp [setPayload, modify]⟩
  · exact ⟨fun e ↦ by simp [setPayload, modify, hx], by simp [setPayload, modify, hx],
      by simp [setPayload, modify, hx]⟩

lemma object_setPayload (hx : x ≠ a) : (t.setPayload a p).object (some x) = t.object (some x) := by
  simp [object, setPayload, modify, hx]

lemma At.setPayload {ctx : List (Frame ℕ)} (hat : At t s ctx) : At (t.setPayload a p) s ctx := by
  obtain ⟨hctx, hfocus, hnodup⟩ := hat
  refine ⟨hctx.frame (nodup_append.mp hnodup).2.1 (fun x _ ↦ ?_) fun _ ↦ rfl, ?_, hnodup⟩
  · exact ⟨sameNode_setPayload.parent, sameNode_setPayload.height,
      fun e _ ↦ sameNode_setPayload.cs e⟩
  · have hload : (t.setPayload a p).load (holePtr ctx) = t.load (holePtr ctx) :=
      load_holePtr (fun f ctx' h ↦ by rw [h]; exact sameNode_setPayload.cs f.dir)
        fun h ↦ by rw [h]; rfl
    rw [hload]
    exact hfocus.frame fun x _ ↦ sameNode_setPayload

lemma Valid.setPayload (hvalid : Valid td t s) (ha : a ∉ s.toList) :
    Valid td (t.setPayload a p) s := by
  refine ⟨hvalid.place.setPayload, sorted_congr (fun x hx ↦ ?_) hvalid.sorted, hvalid.balanced,
    hvalid.summed.frame fun x hx ↦ object_setPayload fun h ↦ ha (h ▸ hx)⟩
  have hne : x ≠ a := fun h ↦ ha (h ▸ hx)
  rw [payload_setPayload, if_neg hne]

end Payload

/-! ### Bringing the summaries up to date -/

lemma At.augmentUpdate {l r : Avl ℕ} {a h fuel : ℕ} {ctx : List (Frame ℕ)}
    (hat : At t (.node l a r h) ctx) (hl : Summed td t l) (hr : Summed td t r)
    (hctx : ∀ f ∈ ctx, Summed td t f.sibling) (hfuel : ctx.length < fuel) :
    ∃ t', augmentUpdate td fuel (some a) t = some t' ∧
      Became td t t' (plug (.node l a r h) ctx) (plug (.node l a r h) ctx) [] := by
  cases haug : td.augment with
  | none =>
    obtain ⟨n, rfl⟩ : ∃ n, fuel = n + 1 := ⟨fuel - 1, by omega⟩
    refine ⟨t, ?_, at_plug.mp hat, summed_of_none haug _, Kept.refl t _⟩
    rw [AvlTree.augmentUpdate, haug]
    rfl
  | some g =>
    have hsome : ¬td.augment.isNone := by simp [haug]
    induction ctx generalizing t l a r h fuel with
    | nil =>
      obtain ⟨n, rfl⟩ : ∃ n, fuel = n + 1 := ⟨fuel - 1, by omega⟩
      refine ⟨t.augment td a, ?_, hat.augment a, ?_, kept_augment (by simp [plug])⟩
      · rw [augmentUpdate, if_neg hsome, parent_augment, hat.focus.2.1]
        cases n <;> rfl
      · exact summed_augment hat.focus (nodup_append.mp hat.nodup).1 hl hr
    | cons f ctx ih =>
      obtain ⟨n, rfl⟩ : ∃ n, fuel = n + 1 := ⟨fuel - 1, by omega⟩
      obtain ⟨hnodup, -, hsep⟩ := nodup_append.mp hat.nodup
      have hsummed := summed_augment hat.focus hnodup hl hr
      have hkept : Kept t (t.augment td a) [a] := kept_augment (mem_singleton_self a)
      have hsibs := hkept.siblings hctx fun x hx hxc ↦
        hsep a (by simp) x hxc (mem_singleton.mp hx).symm
      obtain ⟨l', r', hplug, hsides⟩ := plug_eq_node f (.node l a r h)
      have hsummed' : Summed td (t.augment td a) l' ∧ Summed td (t.augment td a) r' := by
        have hf := hsibs f mem_cons_self
        rcases hsides with ⟨rfl, rfl⟩ | ⟨rfl, rfl⟩
        · exact ⟨hsummed, hf⟩
        · exact ⟨hf, hsummed⟩
      have hup : At (t.augment td a) (f.plug (.node l a r h)) ctx := at_cons.mp (hat.augment a)
      have hstep : plug (.node l a r h) (f :: ctx) = plug (f.plug (.node l a r h)) ctx := rfl
      have hmem : a ∈ (plug (.node l a r h) (f :: ctx)).toList := mem_plug.mpr (.inl (by simp))
      rw [hplug] at hup hstep
      rw [hstep] at hmem ⊢
      have hlt : ctx.length < n := by simpa using hfuel
      obtain ⟨t', hrun, hplace, hsum, hkept'⟩ := ih hup hsummed'.1 hsummed'.2
        (fun g hg ↦ hsibs g (mem_cons_of_mem _ hg)) hlt
      refine ⟨t', ?_, hplace, hsum, (kept_augment hmem).trans hkept'⟩
      rw [augmentUpdate, if_neg hsome, parent_augment, hat.focus.2.1]
      exact hrun

/-- The object of a node in the tree is changed, and then the summaries are brought up to date. -/
lemma Valid.augmentUpdate {s : Avl ℕ} {a fuel : ℕ} {p : β} [Std.TransCmp td.comparekk]
    (hvalid : Valid td t s) (ha : a ∈ s.toList)
    (hkey : td.comparekk (td.key p) (keyOf td t a) = .eq) (hfuel : s.toList.length ≤ fuel) :
    ∃ t', augmentUpdate td fuel (some a) (t.setPayload a p) = some t' ∧ Valid td t' s ∧
      ∀ x, (t'.node x).payload = ((t.setPayload a p).node x).payload := by
  obtain ⟨l, r, h, ctx, rfl⟩ := exists_plug ha
  have hat : At t (.node l a r h) ctx := at_plug.mpr hvalid.place
  obtain ⟨⟨-, hl, hr⟩, hsibs⟩ := summed_plug hvalid.summed
  obtain ⟨hnodup, -, hsep⟩ := nodup_append.mp hat.nodup
  have hbranch : (branch false l a r h).toList.Nodup := hnodup
  obtain ⟨-, hal, har, -⟩ := nodup_of_branch hbranch
  have hlen := length_le_plug (.node l a r h) ctx
  rw [toList_node, length_append, length_cons] at hlen
  have hlt : ctx.length < fuel := by omega
  have hframe : ∀ s, a ∉ s.toList → Summed td t s → Summed td (t.setPayload a p) s :=
    fun s hs hsum ↦ hsum.frame fun x hx ↦ object_setPayload fun h ↦ hs (h ▸ hx)
  have hctx : ∀ f ∈ ctx, Summed td (t.setPayload a p) f.sibling := fun f hf ↦
    hframe _ (fun hmem ↦ hsep a (by simp) a
      (mem_flatMap.mpr ⟨f, hf, mem_cons_of_mem _ hmem⟩) rfl) (hsibs f hf)
  obtain ⟨t', hrun, hplace, hsum, hkept⟩ := hat.setPayload.augmentUpdate (hframe l hal hl)
    (hframe r har hr) hctx hlt
  refine ⟨t', hrun, ⟨hplace, ?_, hvalid.balanced, hsum⟩, hkept.payload⟩
  -- the new key compares like the old one
  have hsame : ∀ x, td.comparekk (keyOf td t' x) (keyOf td t x) = .eq := by
    intro x
    rw [keyOf, hkept.payload, payload_setPayload]
    split_ifs with hx
    · rw [hx]
      exact hkey
    · exact Std.ReflCmp.compare_self
  refine hvalid.sorted.imp fun {x y} hxy ↦ ?_
  have hcmp : td.comparekk (keyOf td t' x) (keyOf td t' y) =
      td.comparekk (keyOf td t x) (keyOf td t y) :=
    (Std.TransCmp.congr_left (hsame x)).trans (Std.TransCmp.congr_right (hsame y))
  rw [InOrder, hcmp]
  exact hxy

/-! ### Runs -/

/-- The calls that change a tree, with what the owner of the object assigns to it before. -/
inductive AvlCall (κ β : Type)
  | insert (node : ℕ) (p : β)
  | insertIPath (key : κ) (node : ℕ) (p : β)
  | delete (node : ℕ)
  | deleteDPath (key : κ)
  | augmentUpdate (node : ℕ) (p : β)

/-- A call, with the nodes that are in the tree before and after it. No loop has more steps than the
tree has nodes. -/
def avlCall (td : Treedef κ β γ) (t : AvlTree β γ) (nodes : List ℕ) :
    AvlCall κ β → Option (AvlTree β γ × List ℕ)
  | .insert node p =>
    (insert td (t.setPayload node p) nodes.length node).map fun t ↦ (t, node :: nodes)
  | .insertIPath key node p =>
    ((lookupIPath td (t.setPayload node p) nodes.length key).bind fun out ↦
      insertIPath td (t.setPayload node p) node out.1 out.2).map fun t ↦ (t, node :: nodes)
  | .delete node => (delete td t nodes.length node).map fun t ↦ (t, nodes.erase node)
  | .deleteDPath key =>
    (lookupPath td t key nodes.length t.root none [.root]).bind fun out ↦
      match out.1 with
      | none => some (t, nodes)
      | some node =>
        (deleteDPath td t nodes.length node out.2.2).map fun t ↦ (t, nodes.erase node)
  | .augmentUpdate node p =>
    (augmentUpdate td nodes.length (some node) (t.setPayload node p)).map fun t ↦ (t, nodes)

/-- What the caller has to see to: only new nodes are inserted and only those in the tree deleted, a
key occurs twice only where that is allowed, and an object in the tree keeps its key. -/
def AvlCall.Permitted (td : Treedef κ β γ) (t : AvlTree β γ) (nodes : List ℕ) : AvlCall κ β → Prop
  | .insert node p => node ∉ nodes ∧
    (td.allowDups = true ∨ ∀ x ∈ nodes, td.comparekk (keyOf td t x) (td.key p) ≠ .eq)
  | .insertIPath key node p => node ∉ nodes ∧ td.comparekk (td.key p) key = .eq ∧
    (td.allowDups = true ∨ ∀ x ∈ nodes, td.comparekk (keyOf td t x) key ≠ .eq)
  | .delete node => node ∈ nodes
  | .deleteDPath _ => True
  | .augmentUpdate node p => node ∈ nodes ∧ td.comparekk (td.key p) (keyOf td t node) = .eq

inductive AvlReach (td : Treedef κ β γ) : AvlTree β γ → List ℕ → Prop
  | init {t : AvlTree β γ} (hempty : t.root = none) : AvlReach td t []
  | call {t t' : AvlTree β γ} {nodes nodes' : List ℕ} {c : AvlCall κ β} (h : AvlReach td t nodes)
    (hpermitted : c.Permitted td t nodes) (hcall : avlCall td t nodes c = some (t', nodes')) :
    AvlReach td t' nodes'

section Run

variable [Std.TransCmp td.comparekk] {nodes : List ℕ} {s : Avl ℕ}

lemma Valid.insertNew {a fuel : ℕ} {p : β} {key : κ} (hvalid : Valid td t s)
    (ha : a ∉ s.toList) (hkey : td.comparekk (td.key p) key = .eq)
    (hnew : td.allowDups ∨ ∀ x ∈ s.toList, td.comparekk (keyOf td t x) key ≠ .eq)
    (hfuel : s.toList.length ≤ fuel) :
    ∃ t' s', ((lookupIPath td (t.setPayload a p) fuel key).bind fun out ↦
        AvlTree.insertIPath td (t.setPayload a p) a out.1 out.2) = some t' ∧
      Valid td t' s' ∧ s'.toList.Perm (a :: s.toList) := by
  have hkey' : comparenk td (t.setPayload a p) a key = .eq := by
    rw [comparenk, payload_setPayload, if_pos rfl]
    exact hkey
  have hnew' : td.allowDups ∨ ∀ x ∈ s.toList, comparenk td (t.setPayload a p) x key ≠ .eq := by
    refine hnew.imp_right fun hne x hx ↦ ?_
    have hxa : x ≠ a := fun h ↦ ha (h ▸ hx)
    rw [comparenk, payload_setPayload, if_neg hxa]
    exact hne x hx
  obtain ⟨t', s', hrun, hvalid', hperm, -⟩ :=
    (hvalid.setPayload ha).insertIPath ha hkey' hnew' hfuel
  exact ⟨t', s', hrun, hvalid', hperm⟩

lemma Valid.call {c : AvlCall κ β} (hvalid : Valid td t s)
    (hnodes : s.toList.Perm nodes) (hpermitted : c.Permitted td t nodes) :
    ∃ t' nodes' s', avlCall td t nodes c = some (t', nodes') ∧ Valid td t' s' ∧
      s'.toList.Perm nodes' := by
  have hfuel : s.toList.length ≤ nodes.length := le_of_eq hnodes.length_eq
  have hmem : ∀ x, x ∈ s.toList ↔ x ∈ nodes := fun x ↦ hnodes.mem_iff
  have herase : ∀ {a : ℕ} {s' : Avl ℕ}, s.toList.Perm (a :: s'.toList) →
      s'.toList.Perm (nodes.erase a) := by
    intro a s' hperm
    have h := (hperm.symm.trans hnodes).erase a
    rwa [erase_cons_head] at h
  cases c with
  | insert a p =>
    obtain ⟨ha, hnew⟩ := hpermitted
    obtain ⟨t', s', hrun, hvalid', hperm⟩ := hvalid.insertNew (p := p) (mt (hmem a).mp ha)
      Std.ReflCmp.compare_self (hnew.imp_right fun h x hx ↦ h x ((hmem x).mp hx)) hfuel
    refine ⟨t', _, s', ?_, hvalid', hperm.trans (hnodes.cons a)⟩
    have hkey : ((t.setPayload a p).node a).payload = p := by rw [payload_setPayload, if_pos rfl]
    rw [avlCall, insert, hkey, hrun]
    rfl
  | insertIPath _ a p =>
    obtain ⟨ha, hkey, hnew⟩ := hpermitted
    obtain ⟨t', s', hrun, hvalid', hperm⟩ := hvalid.insertNew (p := p) (mt (hmem a).mp ha)
      hkey (hnew.imp_right fun h x hx ↦ h x ((hmem x).mp hx)) hfuel
    refine ⟨t', _, s', ?_, hvalid', hperm.trans (hnodes.cons a)⟩
    rw [avlCall, hrun]
    rfl
  | delete a =>
    obtain ⟨l, r, h, ctx, hplug⟩ := exists_plug ((hmem a).mpr hpermitted)
    obtain ⟨t', s', -, hrun, -, hvalid', hperm, -⟩ := hvalid.deleteAt hplug hfuel
    refine ⟨t', _, s', ?_, hvalid', herase hperm⟩
    rw [avlCall, hrun]
    rfl
  | deleteDPath key =>
    obtain ⟨s₁, ctx, hlookup, hd, -⟩ := hvalid.lookupDPath_spec key hfuel
    rw [avlCall, hlookup, bind_some]
    cases s₁ with
    | nil => exact ⟨t, nodes, s, rfl, hvalid, hnodes⟩
    | node =>
      obtain ⟨t', s', hrun, -, -, hvalid', hperm, -⟩ := hvalid.deleteAt hd.plug hfuel
      refine ⟨t', _, s', ?_, hvalid', herase hperm⟩
      dsimp only [Avl.root]
      rw [hrun]
      rfl
  | augmentUpdate a =>
    obtain ⟨ha, hkey⟩ := hpermitted
    obtain ⟨t', hrun, hvalid', -⟩ := hvalid.augmentUpdate ((hmem a).mpr ha) hkey hfuel
    refine ⟨t', _, s, ?_, hvalid', hnodes⟩
    rw [avlCall, hrun]
    rfl

lemma AvlReach.valid (h : AvlReach td t nodes) : ∃ s, Valid td t s ∧ s.toList.Perm nodes := by
  induction h with
  | init hempty =>
    refine ⟨.nil, ⟨⟨trivial, ?_, nodup_nil⟩, .nil, trivial, trivial⟩, .refl _⟩
    exact hempty
  | call _ hpermitted hcall ih =>
    obtain ⟨s, hvalid, hnodes⟩ := ih
    obtain ⟨t', nodes', s', hcall', hvalid', hnodes'⟩ := hvalid.call hnodes hpermitted
    obtain ⟨rfl, rfl⟩ := Prod.mk.inj (mem_unique hcall hcall')
    exact ⟨s', hvalid', hnodes'⟩

/-- In every state of a run the nodes in memory form a tree with correct parent pointers, whose
in-order sequence is sorted and has each node that is in the tree once, with correct heights that
differ by at most one between siblings, and with all summaries up to date. The next call returns. -/
theorem avl_representation {nodes : List ℕ} (h : AvlReach td t nodes) :
    (∃ s, Rep t none t.root s ∧ s.toList.Nodup ∧ s.toList.Perm nodes ∧
      s.toList.Pairwise (InOrder td t) ∧ s.Balanced ∧ Summed td t s) ∧
    ∀ c : AvlCall κ β, c.Permitted td t nodes → (avlCall td t nodes c).isSome = true := by
  obtain ⟨s, hvalid, hnodes⟩ := h.valid
  refine ⟨⟨s, hvalid.place.focus, (List.nodup_append.mp hvalid.place.nodup).1, hnodes,
    hvalid.sorted, hvalid.balanced, hvalid.summed⟩, fun c hc ↦ ?_⟩
  obtain ⟨t', nodes', -, hcall, -⟩ := hvalid.call hnodes hc
  rw [hcall]
  rfl

/-- In a tree without equal keys, the deletion of a node along the path that `ut_avlLookupDPath`
finds and the one along the parent pointers leave the same memory. The path is valid at every step
of the rebalancing. -/
theorem deleteDPath_eq_delete {s : Avl ℕ} {a fuel : ℕ} (hvalid : Valid td t s)
    (hkeys : ∀ x ∈ s.toList, ∀ y ∈ s.toList,
      td.comparekk (keyOf td t x) (keyOf td t y) = .eq → x = y)
    (ha : a ∈ s.toList) (hfuel : s.toList.length ≤ fuel) :
    ∃ parent path t', lookupPath td t (keyOf td t a) fuel t.root none [.root] =
        some (some a, parent, path) ∧
      DeletePathHolds td t fuel a path ∧ deleteDPath td t fuel a path = some t' ∧
      delete td t fuel a = some t' := by
  obtain ⟨s₁, ctx, hlookup, hd, hfound, habsent⟩ := hvalid.lookupDPath_spec (keyOf td t a) hfuel
  cases s₁ with
  | nil => exact absurd Std.ReflCmp.compare_self (habsent rfl a ha)
  | node _ b =>
    have hb : b ∈ s.toList := by
      rw [← hd.plug, toList_plug]
      simp
    obtain rfl : b = a := hkeys b hb a ha (hfound b rfl)
    obtain ⟨t', s', hpath, hnopath, hholds, -⟩ := hvalid.deleteAt hd.plug hfuel
    exact ⟨_, _, t', hlookup, hholds, hpath, hnopath⟩

/-- In every state of a run the lookup of a key ends with a node in the tree that has the key, or
with none if no node has it. -/
theorem lookup_finds {nodes : List ℕ} (h : AvlReach td t nodes) (key : κ) :
    ∃ node parent path, lookupPath td t key nodes.length t.root none [.root] =
        some (node, parent, path) ∧
      (∀ a, node = some a → a ∈ nodes ∧ comparenk td t a key = .eq) ∧
      (node = none → ∀ x ∈ nodes, comparenk td t x key ≠ .eq) := by
  obtain ⟨s, hvalid, hnodes⟩ := h.valid
  obtain ⟨s', ctx, hrun, hd, hfound, habsent⟩ :=
    hvalid.lookupDPath_spec key hnodes.length_eq.le
  refine ⟨_, _, _, hrun, fun a ha ↦ ⟨hnodes.mem_iff.mp ?_, hfound a ha⟩, fun hnone x hx ↦ ?_⟩
  · rw [← hd.plug]
    exact mem_plug.mpr (.inl (mem_of_root ha))
  · cases s' with
    | nil => exact habsent rfl x (hnodes.mem_iff.mpr hx)
    | node => cases hnone

end Run

/-! ### A run -/

def sizeTree : Treedef ℕ ℕ ℕ where
  key := id
  comparekk := compare
  augment := some fun _ l r ↦ 1 + (l.elim 0 Prod.snd + r.elim 0 Prod.snd)
  allowDups := true

def emptyTree : AvlTree ℕ ℕ := ⟨none, fun _ ↦ ⟨none, none, none, 0, 0, 0⟩⟩

instance (td : Treedef κ β γ) (t : AvlTree β γ) (nodes : List ℕ) (c : AvlCall κ β) :
    Decidable (c.Permitted td t nodes) :=
  match c with
  | .insert _ _ => inferInstanceAs (Decidable (_ ∧ _))
  | .insertIPath _ _ _ => inferInstanceAs (Decidable (_ ∧ _ ∧ _))
  | .delete _ => inferInstanceAs (Decidable (_ ∈ _))
  | .deleteDPath _ => .isTrue trivial
  | .augmentUpdate _ _ => inferInstanceAs (Decidable (_ ∧ _))

def avlRun (td : Treedef κ β γ) :
    AvlTree β γ × List ℕ → List (AvlCall κ β) → Option (AvlTree β γ × List ℕ)
  | st, [] => some st
  | st, c :: cs =>
    if c.Permitted td st.1 st.2 then (avlCall td st.1 st.2 c).bind fun st ↦ avlRun td st cs
    else none

lemma AvlReach.run {st st' : AvlTree β γ × List ℕ} {cs : List (AvlCall κ β)}
    (h : AvlReach td st.1 st.2) (hrun : avlRun td st cs = some st') : AvlReach td st'.1 st'.2 := by
  induction cs generalizing st with
  | nil =>
    obtain rfl := some_inj.mp hrun
    exact h
  | cons c _ ih =>
    rw [avlRun] at hrun
    by_cases hc : c.Permitted td st.1 st.2
    · rw [if_pos hc] at hrun
      obtain ⟨⟨t1, nodes1⟩, hcall, hrest⟩ := bind_eq_some_iff.mp hrun
      exact ih (.call h hc hcall) hrest
    · rw [if_neg hc] at hrun
      simp at hrun

instance : Std.TransCmp sizeTree.comparekk :=
  inferInstanceAs (Std.TransCmp (compare : ℕ → ℕ → Ordering))

/-- A run with a key that occurs twice, a deletion by a node and one by a key. -/
theorem avl_representation_run :
    ∃ (t : AvlTree ℕ ℕ) (nodes : List ℕ), AvlReach sizeTree t nodes ∧ nodes = [6, 5, 3, 2, 0] ∧
      ((∃ s, Rep t none t.root s ∧ s.toList.Nodup ∧ s.toList.Perm nodes ∧
        s.toList.Pairwise (InOrder sizeTree t) ∧ s.Balanced ∧ Summed sizeTree t s) ∧
      ∀ c : AvlCall ℕ ℕ, c.Permitted sizeTree t nodes →
        (avlCall sizeTree t nodes c).isSome = true) := by
  have hrun : (avlRun sizeTree (emptyTree, []) [.insert 0 5, .insert 1 2, .insert 2 8,
      .insertIPath 1 3 1, .insert 4 4, .insert 5 4, .delete 1, .deleteDPath 4,
      .insert 6 9, .augmentUpdate 2 8]).any (fun out ↦ out.2 == [6, 5, 3, 2, 0]) := by
    decide +kernel
  obtain ⟨⟨t, nodes⟩, hst, hnodes⟩ := (any_eq_true _ _).mp hrun
  have hreach : AvlReach sizeTree t nodes := AvlReach.run (.init rfl) hst
  exact ⟨t, nodes, hreach, by simpa using hnodes, avl_representation hreach⟩

/-- The predecessor of the node is two levels below it, and the tree is rotated. -/
theorem deleteDPath_eq_delete_run :
    ∃ (t : AvlTree ℕ ℕ) (s : Avl ℕ), Valid sizeTree t s ∧ 0 ∈ s.toList ∧
      ∃ parent path t', lookupPath sizeTree t (keyOf sizeTree t 0) 7 t.root none [.root] =
          some (some 0, parent, path) ∧
        DeletePathHolds sizeTree t 7 0 path ∧ deleteDPath sizeTree t 7 0 path = some t' ∧
        delete sizeTree t 7 0 = some t' := by
  have hrun : (avlRun sizeTree (emptyTree, []) [.insert 0 5, .insert 1 2, .insert 2 8,
      .insert 3 1, .insert 4 3, .insert 5 9, .insert 6 4]).any (fun out ↦
        out.2 == [6, 5, 4, 3, 2, 1, 0] && out.2.all fun x ↦ out.2.all fun y ↦
          keyOf sizeTree out.1 x != keyOf sizeTree out.1 y || x == y) := by
    decide +kernel
  obtain ⟨⟨t, nodes⟩, hst, hout⟩ := (any_eq_true _ _).mp hrun
  simp only [Bool.and_eq_true, beq_iff_eq, List.all_eq_true, Bool.or_eq_true, bne_iff_ne] at hout
  obtain ⟨rfl, hkeys⟩ := hout
  obtain ⟨s, hvalid, hperm⟩ := (AvlReach.run (.init rfl) hst).valid
  have hzero : 0 ∈ s.toList := hperm.mem_iff.mpr (by simp)
  refine ⟨t, s, hvalid, hzero, deleteDPath_eq_delete hvalid (fun x hx y hy heq ↦ ?_) hzero ?_⟩
  · exact (hkeys x (hperm.mem_iff.mp hx) y (hperm.mem_iff.mp hy)).resolve_left
      fun hne ↦ hne (Nat.compare_eq_eq.mp heq)
  · exact hperm.length_eq.le

theorem lookup_finds_run :
    ∃ (t : AvlTree ℕ ℕ) (nodes : List ℕ), AvlReach sizeTree t nodes ∧ nodes = [3, 2, 0] ∧
      ∃ node parent path, lookupPath sizeTree t 5 nodes.length t.root none [.root] =
          some (node, parent, path) ∧
        (∀ a, node = some a → a ∈ nodes ∧ comparenk sizeTree t a 5 = .eq) ∧
        (node = none → ∀ x ∈ nodes, comparenk sizeTree t x 5 ≠ .eq) := by
  have hrun : (avlRun sizeTree (emptyTree, []) [.insert 0 5, .insert 1 2, .insert 2 5,
      .insert 3 7, .delete 1]).any (fun out ↦ out.2 == [3, 2, 0]) := by
    decide +kernel
  obtain ⟨⟨t, nodes⟩, hst, hnodes⟩ := (any_eq_true _ _).mp hrun
  have hreach : AvlReach sizeTree t nodes := AvlReach.run (.init rfl) hst
  exact ⟨t, nodes, hreach, by simpa using hnodes, lookup_finds hreach 5⟩

end AvlTree

end OpenSplice.Utilities
