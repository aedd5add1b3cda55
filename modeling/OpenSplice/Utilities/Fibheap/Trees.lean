import OpenSplice.Utilities.Fibheap.Model

/-!
# The trees of a Fibonacci heap

`Trees m M` says that the nodes in `M` form trees: the children of each of them are a ring that its
`children` field points into and its degree counts, and from each node the parent pointers lead to a
root. Where the roots are linked up themselves, `RootRing` says so. Every node is either a root or
in the ring of its one parent, so an assignment to one ring does not disturb the others.

The heap operations join two rings (`mergeNonemptyList_spec`), take a node out of one
(`deleteOneFromList_spec`), make a root the child of another (`Trees.addAsChild`) and a child a root
(`Trees.cut`).
-/

set_option autoImplicit false

namespace OpenSplice.Utilities

open Library Function List

namespace FibMem

variable {β : Type} {m m' : FibMem β} {M l : List ℕ} {x p c : ℕ} {ks rs : List ℕ}

/-! ### Rings -/

/-- Only the sibling links of the nodes in the list have changed. -/
structure LinksOnly (m m' : FibMem β) (l : List ℕ) : Prop where
  parent : m'.parent = m.parent
  children : m'.children = m.children
  mark : m'.mark = m.mark
  degree : m'.degree = m.degree
  object : m'.object = m.object
  next : ∀ x ∉ l, m'.next x = m.next x
  prev : ∀ x ∉ l, m'.prev x = m.prev x

def joined (l₁ l₂ : List ℕ) : List ℕ :=
  match l₁ with
  | [] => l₂
  | x :: xs => x :: (l₂ ++ xs)

lemma joined_perm (l₁ l₂ : List ℕ) : (joined l₁ l₂).Perm (l₁ ++ l₂) := by
  cases l₁ with
  | nil => exact .refl _
  | cons x => exact perm_append_comm.cons x

lemma mergeNonemptyList_spec {l₁ xs : List ℕ} (h1 : Circular m.next m.prev l₁)
    (h2 : Circular m.next m.prev (x :: xs)) (hnodup : (l₁ ++ x :: xs).Nodup) :
    LinksOnly m (m.mergeNonemptyList l₁.head? x).1 (l₁ ++ x :: xs) ∧
      (m.mergeNonemptyList l₁.head? x).2 = (joined l₁ (x :: xs)).head? ∧
      Circular (m.mergeNonemptyList l₁.head? x).1.next (m.mergeNonemptyList l₁.head? x).1.prev
        (joined l₁ (x :: xs)) := by
  cases l₁ with
  | nil => exact ⟨⟨rfl, rfl, rfl, rfl, rfl, fun _ _ ↦ rfl, fun _ _ ↦ rfl⟩, rfl, h2⟩
  | cons y =>
    refine ⟨⟨rfl, rfl, rfl, rfl, rfl, fun z hz ↦ ?_, fun z hz ↦ ?_⟩, rfl, h1.join h2 hnodup⟩
    · have hzy : z ≠ y := fun h ↦ hz (by simp [h])
      have hzp : z ≠ m.prev x := fun h ↦ hz (h ▸ mem_append_right _ h2.prev_mem)
      simp [mergeNonemptyList, hzy, hzp]
    · have hzx : z ≠ x := fun h ↦ hz (by simp [h])
      have hzn : z ≠ m.next y := fun h ↦ hz (h ▸ mem_append_left _ h1.next_mem)
      simp [mergeNonemptyList, hzx, hzn]

lemma deleteOneFromList_spec (h : Circular m.next m.prev l) (hnodup : l.Nodup) (hx : x ∈ l) :
    ∃ l', (x :: l').Perm l ∧ LinksOnly m (m.deleteOneFromList l.head? x).1 l ∧
      (m.deleteOneFromList l.head? x).2 = l'.head? ∧
      Circular (m.deleteOneFromList l.head? x).1.next
        (m.deleteOneFromList l.head? x).1.prev l' := by
  obtain ⟨l₁, l₂, rfl⟩ := append_of_mem hx
  have hperm : (x :: (l₂ ++ l₁)).Perm (l₁ ++ x :: l₂) :=
    (perm_append_comm.cons x).trans perm_middle.symm
  have hnodup' := hperm.nodup_iff.mpr hnodup
  -- the ring as it is read off from the node
  have hring : Circular m.next m.prev (x :: (l₂ ++ l₁)) := by
    cases l₁ with
    | nil => simpa using h
    | cons => exact h.rotate
  rcases hrest : l₂ ++ l₁ with _ | ⟨z, zs⟩
  · obtain ⟨rfl, rfl⟩ := append_eq_nil_iff.mp hrest
    have hself : m.next x = x := (circular_singleton.mp h).1
    refine ⟨[], .refl _, ?_, ?_, trivial⟩ <;> rw [deleteOneFromList, if_pos hself]
    · exact ⟨rfl, rfl, rfl, rfl, rfl, fun _ _ ↦ rfl, fun _ _ ↦ rfl⟩
    · rfl
  · have hself : m.next x ≠ x := by
      rw [Ne, hring.next_eq_self hnodup', hrest]
      exact cons_ne_nil z zs
    have hout : Circular (update m.next (m.prev x) (m.next x)) (update m.prev (m.next x) (m.prev x))
        (l₂ ++ l₁) := by
      rw [hrest] at hring hnodup' ⊢
      exact hring.remove hnodup'
    have hlinks : LinksOnly m (m.deleteOneFromList (l₁ ++ x :: l₂).head? x).1 (l₁ ++ x :: l₂) := by
      rw [deleteOneFromList, if_neg hself]
      refine ⟨rfl, rfl, rfl, rfl, rfl, fun y hy ↦ ?_, fun y hy ↦ ?_⟩
      · have hne : y ≠ m.prev x := fun heq ↦ hy (heq ▸ hperm.mem_iff.mp hring.prev_mem)
        exact update_of_ne hne _ _
      · have hne : y ≠ m.next x := fun heq ↦ hy (heq ▸ hperm.mem_iff.mp hring.next_mem)
        exact update_of_ne hne _ _
    cases l₁ with
    | nil =>
      rw [append_nil] at hout hrest
      refine ⟨l₂, .refl _, hlinks, ?_, ?_⟩
      · rw [deleteOneFromList, if_neg hself]
        rw [hrest] at h ⊢
        simp [h.cons_cons.1]
      · rw [deleteOneFromList, if_neg hself]
        exact hout
    | cons y l₁ =>
      have hback : (x :: (y :: l₁ ++ l₂)).Perm (y :: l₁ ++ x :: l₂) := perm_middle.symm
      refine ⟨y :: (l₁ ++ l₂), hback, hlinks, ?_, ?_⟩
      · have hne : x ≠ y := by
          rintro rfl
          simp at hnodup
        rw [deleteOneFromList, if_neg hself]
        simp [hne.symm]
      · rw [deleteOneFromList, if_neg hself]
        cases l₂ with
        | nil => simpa using hout
        | cons => exact hout.rotate

/-! ### Trees -/

inductive Climbs (parent : ℕ → Option ℕ) : ℕ → Prop
  | root {x : ℕ} (h : parent x = none) : Climbs parent x
  | step {x p : ℕ} (h : parent x = some p) (hp : Climbs parent p) : Climbs parent x

/-- The children of a node. -/
structure Kids (m : FibMem β) (M : List ℕ) (p : ℕ) (ks : List ℕ) : Prop where
  ring : Circular m.next m.prev ks
  nodup : ks.Nodup
  head : m.children p = ks.head?
  degree : m.degree p = ks.length
  mem : ∀ c, c ∈ ks ↔ c ∈ M ∧ m.parent c = some p

/-- The nodes form trees, the roots of which are not marked. -/
structure Trees (m : FibMem β) (M : List ℕ) : Prop where
  nodup : M.Nodup
  kids : ∀ p ∈ M, ∃ ks, Kids m M p ks
  closed : ∀ c ∈ M, ∀ p, m.parent c = some p → p ∈ M
  climbs : ∀ x ∈ M, Climbs m.parent x
  unmarked : ∀ x ∈ M, m.parent x = none → m.mark x = false

/-- The roots form a ring. -/
structure RootRing (m : FibMem β) (M rs : List ℕ) : Prop where
  ring : Circular m.next m.prev rs
  nodup : rs.Nodup
  mem : ∀ x, x ∈ rs ↔ x ∈ M ∧ m.parent x = none

lemma Kids.mono (h : Kids m M p ks) (hchildren : m'.children p = m.children p)
    (hdegree : m'.degree p = m.degree p) (hnext : ∀ c ∈ ks, m'.next c = m.next c)
    (hprev : ∀ c ∈ ks, m'.prev c = m.prev c) {M' : List ℕ}
    (hmem : ∀ c, c ∈ ks ↔ c ∈ M' ∧ m'.parent c = some p) : Kids m' M' p ks :=
  ⟨h.ring.congr hnext hprev, h.nodup, hchildren.trans h.head, hdegree.trans h.degree, hmem⟩

/-- The trees only depend on the links of nodes that are not roots. -/
lemma Trees.linksOnly (h : Trees m M) (hlinks : LinksOnly m m' l)
    (hl : ∀ x ∈ l, m.parent x = none) : Trees m' M := by
  refine ⟨h.nodup, fun p hp ↦ ?_, ?_, ?_, ?_⟩
  · obtain ⟨ks, hks⟩ := h.kids p hp
    have hout : ∀ c ∈ ks, c ∉ l := by
      intro c hc hcl
      have := ((hks.mem c).mp hc).2
      rw [hl c hcl] at this
      exact absurd this (by simp)
    exact ⟨ks, hks.mono (by rw [hlinks.children]) (by rw [hlinks.degree])
      (fun c hc ↦ hlinks.next c (hout c hc)) (fun c hc ↦ hlinks.prev c (hout c hc))
      (by rw [hlinks.parent]; exact hks.mem)⟩
  · rw [hlinks.parent]
    exact h.closed
  · rw [hlinks.parent]
    exact h.climbs
  · rw [hlinks.parent, hlinks.mark]
    exact h.unmarked

lemma RootRing.rotate (h : RootRing m M rs) (hx : x ∈ rs) :
    ∃ rs', RootRing m M rs' ∧ rs'.head? = some x := by
  obtain ⟨xs, hring, hperm⟩ := h.ring.exists_rotation hx
  exact ⟨x :: xs, ⟨hring, hperm.nodup_iff.mpr h.nodup, fun y ↦ hperm.mem_iff.trans (h.mem y)⟩, rfl⟩

lemma Trees.not_mem_kids (hks : Kids m M p ks) (hx : m.parent x = none) : x ∉ ks := by
  intro hmem
  have := ((hks.mem x).mp hmem).2
  rw [hx] at this
  exact absurd this (by simp)

lemma Kids.disjoint {q : ℕ} {ls : List ℕ} (hp : Kids m M p ks) (hq : Kids m M q ls) (hne : p ≠ q)
    (hx : x ∈ ks) : x ∉ ls := by
  intro hmem
  have h := ((hp.mem x).mp hx).2.symm.trans ((hq.mem x).mp hmem).2
  exact hne (Option.some_inj.mp h)

/-- The fields after `ut_fibheap_add_as_child`, where `ks` were the children before. -/
structure ChildAdded (m m' : FibMem β) (u v : ℕ) (ks : List ℕ) : Prop where
  parent : m'.parent = update m.parent v (some u)
  children : m'.children = update m.children u (joined ks [v]).head?
  mark : m'.mark = m.mark
  degree : m'.degree = update m.degree u (m.degree u + 1)
  object : m'.object = m.object
  ring : Circular m'.next m'.prev (joined ks [v])
  next : ∀ x, x ≠ v → x ∉ ks → m'.next x = m.next x
  prev : ∀ x, x ≠ v → x ∉ ks → m'.prev x = m.prev x

lemma addAsChild_spec {u v : ℕ} (hks : Kids m M u ks) (hv : v ∉ ks) :
    ChildAdded m (m.addAsChild u v) u v ks := by
  have hring : Circular (update m.next v v) (update m.prev v v) ks := by
    refine hks.ring.congr (fun x hx ↦ update_of_ne ?_ _ _) fun x hx ↦ update_of_ne ?_ _ _ <;>
      exact fun h ↦ hv (h ▸ hx)
  have hself : Circular (update m.next v v) (update m.prev v v) [v] :=
    circular_singleton.mpr ⟨update_self _ _ _, update_self _ _ _⟩
  have hnodup : (ks ++ [v]).Nodup :=
    (perm_append_singleton v ks).nodup_iff.mpr (nodup_cons.mpr ⟨hv, hks.nodup⟩)
  obtain ⟨hlinks, hhead, hjoined⟩ := mergeNonemptyList_spec (m := { m with
    degree := update m.degree u (m.degree u + 1)
    parent := update m.parent v (some u)
    prev := update m.prev v v
    next := update m.next v v }) hring hself hnodup
  rw [← hks.head] at hlinks hhead hjoined
  refine ⟨hlinks.parent, ?_, hlinks.mark, hlinks.degree, hlinks.object, hjoined, fun x hxv hx ↦ ?_,
    fun x hxv hx ↦ ?_⟩
  · rw [addAsChild]
    exact congrArg₂ (fun c o ↦ update c u o) hlinks.children hhead
  · exact (hlinks.next x (by simp [hx, hxv])).trans (update_of_ne hxv _ _)
  · exact (hlinks.prev x (by simp [hx, hxv])).trans (update_of_ne hxv _ _)

open Trees

lemma Trees.addAsChild {u v : ℕ} (h : Trees m M) (hu : u ∈ M) (hv : v ∈ M) (huv : u ≠ v)
    (huroot : m.parent u = none) (hvroot : m.parent v = none) : Trees (m.addAsChild u v) M := by
  obtain ⟨ks, hks⟩ := h.kids u hu
  have hvks : v ∉ ks := not_mem_kids hks hvroot
  have hadd := addAsChild_spec hks hvks
  have hparent : ∀ x, x ≠ v → (m.addAsChild u v).parent x = m.parent x := by
    intro x hx
    rw [hadd.parent, update_of_ne hx]
  refine ⟨h.nodup, fun p hp ↦ ?_, fun c hc p hcp ↦ ?_, fun x hx ↦ ?_, fun x hx hroot ↦ ?_⟩
  · by_cases hpu : p = u
    · subst hpu
      refine ⟨joined ks [v], hadd.ring, ?_, ?_, ?_, fun c ↦ ?_⟩
      · exact (joined_perm ks [v]).nodup_iff.mpr ((perm_append_singleton v ks).nodup_iff.mpr
          (nodup_cons.mpr ⟨hvks, hks.nodup⟩))
      · rw [hadd.children, update_self]
      · rw [hadd.degree, update_self, (joined_perm ks [v]).length_eq, hks.degree, length_append]
        rfl
      · rw [(joined_perm ks [v]).mem_iff, mem_append, mem_singleton, hks.mem, hadd.parent]
        by_cases hcv : c = v
        · simp [hcv, hv]
        · simp [hcv]
    · obtain ⟨ls, hls⟩ := h.kids p hp
      have hvls : ∀ c ∈ ls, c ≠ v := fun c hc hcv ↦ not_mem_kids hls hvroot (hcv ▸ hc)
      have hout : ∀ c ∈ ls, c ∉ ks := fun c hc ↦ hls.disjoint hks hpu hc
      refine ⟨ls, hls.mono ?_ ?_ (fun c hc ↦ hadd.next c (hvls c hc) (hout c hc))
        (fun c hc ↦ hadd.prev c (hvls c hc) (hout c hc)) fun c ↦ ?_⟩
      · rw [hadd.children, update_of_ne hpu]
      · rw [hadd.degree, update_of_ne hpu]
      · rw [hls.mem, hadd.parent]
        by_cases hcv : c = v
        · simp [hcv, hvroot, Ne.symm hpu]
        · rw [update_of_ne hcv]
  · by_cases hcv : c = v
    · subst hcv
      rw [hadd.parent, update_self] at hcp
      rw [← Option.some_inj.mp hcp]
      exact hu
    · exact h.closed c hc p (hparent c hcv ▸ hcp)
  · have hclimb : ∀ y, Climbs m.parent y → Climbs (m.addAsChild u v).parent y := by
      intro y hy
      have hroot : Climbs (m.addAsChild u v).parent u := .root ((hparent u huv).trans huroot)
      induction hy with
      | @root y hy =>
        by_cases hyv : y = v
        · refine .step ?_ hroot
          rw [hyv, hadd.parent, update_self]
        · exact .root ((hparent y hyv).trans hy)
      | step hy _ ih =>
        refine .step ((hparent _ ?_).trans hy) ih
        rintro rfl
        rw [hvroot] at hy
        simp at hy
    exact hclimb x (h.climbs x hx)
  · have hxv : x ≠ v := by
      rintro rfl
      rw [hadd.parent, update_self] at hroot
      simp at hroot
    rw [hadd.mark]
    exact h.unmarked x hx ((hparent x hxv).symm.trans hroot)

/-- The fields after a child `c` has been cut from its parent `p`, which keeps the children `ks`,
and joined the roots `rs`. -/
structure CutOff (m m' : FibMem β) (p c : ℕ) (ks rs : List ℕ) : Prop where
  parent : m'.parent = update m.parent c none
  children : m'.children = update m.children p ks.head?
  mark : m'.mark = update m.mark c false
  degree : m'.degree = update m.degree p (m.degree p - 1)
  object : m'.object = m.object
  kidsRing : Circular m'.next m'.prev ks
  rootRing : Circular m'.next m'.prev (joined rs [c])
  next : ∀ x, x ≠ c → x ∉ ks → x ∉ rs → m'.next x = m.next x
  prev : ∀ x, x ≠ c → x ∉ ks → x ∉ rs → m'.prev x = m.prev x

lemma cutFromParent_spec (hks : Kids m M p ks) (hc : c ∈ ks) (hrs : RootRing m M rs) :
    ∃ ks', (c :: ks').Perm ks ∧ CutOff m (m.cutFromParent p c rs.head?).1 p c ks' rs ∧
      (m.cutFromParent p c rs.head?).2 = (joined rs [c]).head? := by
  have hsep : ∀ x ∈ rs, x ∉ ks := fun x hx ↦ not_mem_kids hks ((hrs.mem x).mp hx).2
  have hcrs : c ∉ rs := fun h ↦ hsep c h hc
  obtain ⟨ks', hperm, hdel, hhead, hring⟩ := deleteOneFromList_spec hks.ring hks.nodup hc
  obtain ⟨hcks', -⟩ := nodup_cons.mp (hperm.nodup_iff.mpr hks.nodup)
  have hsub : ∀ x ∈ ks', x ∈ ks := fun x hx ↦ hperm.mem_iff.mp (mem_cons_of_mem _ hx)
  rw [← hks.head] at hdel hhead hring
  unfold cutFromParent
  generalize m.deleteOneFromList (m.children p) c = del at hdel hhead hring ⊢
  -- the roots and the cut node, just before they are joined
  have hrs' : Circular (update del.1.next c c) (update del.1.prev c c) rs := by
    have hne : ∀ x ∈ rs, x ≠ c := fun x hx h ↦ hcrs (h ▸ hx)
    refine hrs.ring.congr (fun x hx ↦ ?_) fun x hx ↦ ?_
    · rw [update_of_ne (hne x hx), hdel.next x (hsep x hx)]
    · rw [update_of_ne (hne x hx), hdel.prev x (hsep x hx)]
  have hself : Circular (update del.1.next c c) (update del.1.prev c c) [c] :=
    circular_singleton.mpr ⟨update_self _ _ _, update_self _ _ _⟩
  have hnodup : (rs ++ [c]).Nodup :=
    (perm_append_singleton c rs).nodup_iff.mpr (nodup_cons.mpr ⟨hcrs, hrs.nodup⟩)
  obtain ⟨hlinks, hhead', hjoined⟩ := mergeNonemptyList_spec (m := { del.1 with
    children := update del.1.children p del.2
    degree := update del.1.degree p (del.1.degree p - 1)
    mark := update del.1.mark c false
    parent := update del.1.parent c none
    next := update del.1.next c c
    prev := update del.1.prev c c }) hrs' hself hnodup
  refine ⟨ks', hperm, ⟨?_, ?_, ?_, ?_, ?_, ?_, hjoined, fun x hxc hxks hxrs ↦ ?_,
    fun x hxc hxks hxrs ↦ ?_⟩, hhead'⟩
  · exact hlinks.parent.trans (by rw [hdel.parent])
  · exact hlinks.children.trans (by rw [hdel.children, hhead])
  · exact hlinks.mark.trans (by rw [hdel.mark])
  · exact hlinks.degree.trans (by rw [hdel.degree])
  · exact hlinks.object.trans hdel.object
  · have hxc : ∀ x ∈ ks', x ≠ c := fun x hx h ↦ hcks' (h ▸ hx)
    have hout : ∀ x ∈ ks', x ∉ rs ++ [c] := by
      intro x hx hmem
      rcases mem_append.mp hmem with hmem | hmem
      · exact hsep x hmem (hsub x hx)
      · exact hxc x hx (mem_singleton.mp hmem)
    refine hring.congr (fun x hx ↦ ?_) fun x hx ↦ ?_
    · exact (hlinks.next x (hout x hx)).trans (update_of_ne (hxc x hx) _ _)
    · exact (hlinks.prev x (hout x hx)).trans (update_of_ne (hxc x hx) _ _)
  · have hxks' : x ∉ ks := fun h ↦ (mem_cons.mp (hperm.mem_iff.mpr h)).elim hxc hxks
    exact (hlinks.next x (by simp [hxc, hxrs])).trans
      ((update_of_ne hxc _ _).trans (hdel.next x hxks'))
  · have hxks' : x ∉ ks := fun h ↦ (mem_cons.mp (hperm.mem_iff.mpr h)).elim hxc hxks
    exact (hlinks.prev x (by simp [hxc, hxrs])).trans
      ((update_of_ne hxc _ _).trans (hdel.prev x hxks'))

lemma Trees.cut (h : Trees m M) (hrs : RootRing m M rs) (hc : c ∈ M) (hcp : m.parent c = some p) :
    Trees (m.cutFromParent p c rs.head?).1 M ∧
      RootRing (m.cutFromParent p c rs.head?).1 M (joined rs [c]) ∧
      ∃ ks, (∀ x ∈ ks, x ∈ M) ∧ CutOff m (m.cutFromParent p c rs.head?).1 p c ks rs ∧
        (m.cutFromParent p c rs.head?).2 = (joined rs [c]).head? := by
  have hpM := h.closed c hc p hcp
  obtain ⟨ks, hks⟩ := h.kids p hpM
  have hcks : c ∈ ks := (hks.mem c).mpr ⟨hc, hcp⟩
  obtain ⟨ks', hperm, hcut, hhead⟩ := cutFromParent_spec hks hcks hrs
  generalize m.cutFromParent p c rs.head? = out at hcut hhead ⊢
  obtain ⟨hcks', hnodup'⟩ := nodup_cons.mp (hperm.nodup_iff.mpr hks.nodup)
  have hcrs : c ∉ rs := fun hmem ↦ by
    have := ((hrs.mem c).mp hmem).2
    rw [hcp] at this
    exact absurd this (by simp)
  have hparent : ∀ x, x ≠ c → out.1.parent x = m.parent x := fun x hx ↦ by
    rw [hcut.parent, update_of_ne hx]
  refine ⟨⟨h.nodup, fun q hq ↦ ?_, fun x hx q hxq ↦ ?_, fun x hx ↦ ?_, fun x hx hroot ↦ ?_⟩,
    ⟨hcut.rootRing, ?_, fun x ↦ ?_⟩, ks', fun x hx ↦ ?_, hcut, hhead⟩
  · by_cases hqp : q = p
    · subst hqp
      refine ⟨ks', hcut.kidsRing, hnodup', ?_, ?_, fun x ↦ ?_⟩
      · rw [hcut.children, update_self]
      · rw [hcut.degree, update_self, hks.degree, ← hperm.length_eq]
        rfl
      · rw [hcut.parent]
        by_cases hxc : x = c
        · simp [hxc, hcks']
        · rw [update_of_ne hxc, ← hks.mem, ← hperm.mem_iff, mem_cons]
          simp [hxc]
    · obtain ⟨ls, hls⟩ := h.kids q hq
      have hne : ∀ x ∈ ls, x ≠ c := fun x hx hxc ↦ hls.disjoint hks hqp hx (hxc ▸ hcks)
      have hout : ∀ x ∈ ls, x ∉ ks' ∧ x ∉ rs := fun x hx ↦
        ⟨fun hmem ↦ hls.disjoint hks hqp hx (hperm.mem_iff.mp (mem_cons_of_mem _ hmem)),
          fun hmem ↦ not_mem_kids hls ((hrs.mem x).mp hmem).2 hx⟩
      refine ⟨ls, hls.mono ?_ ?_ (fun x hx ↦ hcut.next x (hne x hx) (hout x hx).1 (hout x hx).2)
        (fun x hx ↦ hcut.prev x (hne x hx) (hout x hx).1 (hout x hx).2) fun x ↦ ?_⟩
      · rw [hcut.children, update_of_ne hqp]
      · rw [hcut.degree, update_of_ne hqp]
      · rw [hls.mem, hcut.parent]
        by_cases hxc : x = c
        · simp [hxc, hcp, Ne.symm hqp]
        · rw [update_of_ne hxc]
  · by_cases hxc : x = c
    · rw [hxc, hcut.parent, update_self] at hxq
      simp at hxq
    · exact h.closed x hx q (hparent x hxc ▸ hxq)
  · have hclimb : ∀ y, Climbs m.parent y → Climbs out.1.parent y := by
      intro y hy
      induction hy with
      | @root y hy =>
        by_cases hyc : y = c
        · exact .root (by rw [hyc, hcut.parent, update_self])
        · exact .root ((hparent y hyc).trans hy)
      | @step y _ hy _ ih =>
        by_cases hyc : y = c
        · exact .root (by rw [hyc, hcut.parent, update_self])
        · exact .step ((hparent y hyc).trans hy) ih
    exact hclimb x (h.climbs x hx)
  · rw [hcut.mark]
    by_cases hxc : x = c
    · rw [hxc, update_self]
    · rw [update_of_ne hxc]
      exact h.unmarked x hx ((hparent x hxc).symm.trans hroot)
  · exact (joined_perm rs [c]).nodup_iff.mpr ((perm_append_singleton c rs).nodup_iff.mpr
      (nodup_cons.mpr ⟨hcrs, hrs.nodup⟩))
  · rw [(joined_perm rs [c]).mem_iff, mem_append, mem_singleton, hrs.mem, hcut.parent]
    by_cases hxc : x = c
    · simp [hxc, hc]
    · simp [hxc]
  · exact ((hks.mem x).mp (hperm.mem_iff.mp (mem_cons_of_mem _ hx))).1

end FibMem

end OpenSplice.Utilities
