import OpenSplice.Utilities.Fibheap.Degree

/-!
# Fibonacci heaps as a whole

`Heap cmp m roots M` is what holds of a heap between two calls: its nodes form trees, the roots are
a ring that `roots` points into, no node is greater than its children, and the root that `roots`
points to is the least one, hence the least node (`Heap.le_of_mem`). It only depends on the fields
of its own nodes (`Heap.frame`), so an operation that leaves them `Untouched` does not disturb it.
Insertion and merging join two rings (`Heap.mergeInto`).
-/

set_option autoImplicit false

namespace OpenSplice.Utilities

open Library Function List Ordering

namespace FibMem

variable {β : Type} {cmp : β → β → Ordering} {m m' : FibMem β} {M l : List ℕ} {roots : Option ℕ}
  {a r x : ℕ}

/-- Nothing but the fields of nodes in the list has changed, and no object. -/
structure Untouched (m m' : FibMem β) (M : List ℕ) : Prop where
  parent : ∀ x ∉ M, m'.parent x = m.parent x
  children : ∀ x ∉ M, m'.children x = m.children x
  prev : ∀ x ∉ M, m'.prev x = m.prev x
  next : ∀ x ∉ M, m'.next x = m.next x
  mark : ∀ x ∉ M, m'.mark x = m.mark x
  degree : ∀ x ∉ M, m'.degree x = m.degree x
  object : m'.object = m.object

lemma Untouched.refl (m : FibMem β) (M : List ℕ) : Untouched m m M :=
  ⟨fun _ _ ↦ rfl, fun _ _ ↦ rfl, fun _ _ ↦ rfl, fun _ _ ↦ rfl, fun _ _ ↦ rfl, fun _ _ ↦ rfl, rfl⟩

lemma Untouched.trans {m'' : FibMem β} (h : Untouched m m' M) (h' : Untouched m' m'' M) :
    Untouched m m'' M :=
  ⟨fun x hx ↦ (h'.parent x hx).trans (h.parent x hx),
    fun x hx ↦ (h'.children x hx).trans (h.children x hx),
    fun x hx ↦ (h'.prev x hx).trans (h.prev x hx), fun x hx ↦ (h'.next x hx).trans (h.next x hx),
    fun x hx ↦ (h'.mark x hx).trans (h.mark x hx),
    fun x hx ↦ (h'.degree x hx).trans (h.degree x hx), h'.object.trans h.object⟩

lemma Untouched.mono {M' : List ℕ} (h : Untouched m m' M) (hsub : ∀ x ∈ M, x ∈ M') :
    Untouched m m' M' :=
  ⟨fun x hx ↦ h.parent x (mt (hsub x) hx), fun x hx ↦ h.children x (mt (hsub x) hx),
    fun x hx ↦ h.prev x (mt (hsub x) hx), fun x hx ↦ h.next x (mt (hsub x) hx),
    fun x hx ↦ h.mark x (mt (hsub x) hx), fun x hx ↦ h.degree x (mt (hsub x) hx), h.object⟩

lemma LinksOnly.untouched (h : LinksOnly m m' l) (hsub : ∀ x ∈ l, x ∈ M) : Untouched m m' M := by
  refine ⟨fun x _ ↦ ?_, fun x _ ↦ ?_, fun x hx ↦ h.prev x (mt (hsub x) hx),
    fun x hx ↦ h.next x (mt (hsub x) hx), fun x _ ↦ ?_, fun x _ ↦ ?_, h.object⟩
  · rw [h.parent]
  · rw [h.children]
  · rw [h.mark]
  · rw [h.degree]

/-! ### Heaps -/

def Ordered (cmp : β → β → Ordering) (m : FibMem β) (M : List ℕ) : Prop :=
  ∀ c ∈ M, ∀ p, m.parent c = some p → m.compareNodes cmp p c ≠ .gt

/-- What holds of a heap between two calls. -/
structure Heap (cmp : β → β → Ordering) (m : FibMem β) (roots : Option ℕ) (M : List ℕ) : Prop where
  trees : Trees m M
  grown : Grown m none M
  ordered : Ordered cmp m M
  ring : ∃ rs, RootRing m M rs ∧ roots = rs.head?
  least : ∀ r, roots = some r → ∀ x ∈ M, m.parent x = none → m.compareNodes cmp r x ≠ .gt

lemma Heap.of_linksOnly {rs : List ℕ} (htrees : Trees m M) (hgrown : Grown m none M)
    (hordered : Ordered cmp m M) (hlinks : LinksOnly m m' l) (hl : ∀ x ∈ l, m.parent x = none)
    (hrs : RootRing m' M rs) (hr : r ∈ rs)
    (hleast : ∀ x ∈ M, m.parent x = none → m.compareNodes cmp r x ≠ .gt) :
    Heap cmp m' (some r) M := by
  obtain ⟨rs', hrs', hhead⟩ := hrs.rotate hr
  have hcmp : ∀ a b, m'.compareNodes cmp a b = m.compareNodes cmp a b := fun a b ↦ by
    rw [compareNodes, compareNodes, hlinks.object]
  refine ⟨htrees.linksOnly hlinks hl, ?_, fun c hc p hcp ↦ ?_, ⟨rs', hrs', hhead.symm⟩,
    fun r' hr' x hx hroot ↦ ?_⟩
  · refine hgrown.mono (List.Sublist.refl M) fun c _ p hcp ↦ ⟨hlinks.parent ▸ hcp, ?_⟩
    rw [grownDegree, grownDegree, hlinks.degree, hlinks.mark]
  · rw [hcmp]
    exact hordered c hc p (hlinks.parent ▸ hcp)
  · rw [hcmp, ← Option.some_inj.mp hr']
    exact hleast x hx (hlinks.parent ▸ hroot)

lemma Heap.frame {K : List ℕ} (h : Heap cmp m roots M) (hm : Untouched m m' K)
    (hout : ∀ x ∈ M, x ∉ K) : Heap cmp m' roots M := by
  have hparent : ∀ x ∈ M, m'.parent x = m.parent x := fun x hx ↦ hm.parent x (hout x hx)
  have hcmp : ∀ a b, m'.compareNodes cmp a b = m.compareNodes cmp a b := fun a b ↦ by
    rw [compareNodes, compareNodes, hm.object]
  have hclimb : ∀ x, Climbs m.parent x → x ∈ M → Climbs m'.parent x := by
    intro x hx
    induction hx with
    | root hx => exact fun hxM ↦ .root ((hparent _ hxM).trans hx)
    | step hx _ ih =>
      exact fun hxM ↦ .step ((hparent _ hxM).trans hx) (ih (h.trees.closed _ hxM _ hx))
  obtain ⟨rs, hrs, hroots⟩ := h.ring
  have hrsM : ∀ x ∈ rs, x ∉ K := fun x hx ↦ hout x ((hrs.mem x).mp hx).1
  refine ⟨⟨h.trees.nodup, fun p hp ↦ ?_, fun c hc p hcp ↦ ?_,
    fun x hx ↦ hclimb x (h.trees.climbs x hx) hx, fun x hx hroot ↦ ?_⟩, ?_, fun c hc p hcp ↦ ?_,
    ⟨rs, ⟨?_, hrs.nodup, fun x ↦ ?_⟩, hroots⟩, fun r hr x hx hroot ↦ ?_⟩
  · obtain ⟨ks, hks⟩ := h.trees.kids p hp
    have hksM : ∀ c ∈ ks, c ∈ M := fun c hc ↦ ((hks.mem c).mp hc).1
    refine ⟨ks, hks.mono (hm.children p (hout p hp)) (hm.degree p (hout p hp))
      (fun c hc ↦ hm.next c (hout c (hksM c hc))) (fun c hc ↦ hm.prev c (hout c (hksM c hc)))
      fun c ↦ ?_⟩
    rw [hks.mem]
    exact and_congr_right fun hc ↦ by rw [hparent c hc]
  · exact h.trees.closed c hc p (hparent c hc ▸ hcp)
  · rw [hm.mark x (hout x hx)]
    exact h.trees.unmarked x hx (hparent x hx ▸ hroot)
  · refine h.grown.mono (List.Sublist.refl M) fun c hc p hcp ↦ ⟨hparent c hc ▸ hcp, ?_⟩
    rw [grownDegree, grownDegree, hm.degree c (hout c hc), hm.mark c (hout c hc)]
  · rw [hcmp]
    exact h.ordered c hc p (hparent c hc ▸ hcp)
  · exact hrs.ring.congr (fun x hx ↦ hm.next x (hrsM x hx)) fun x hx ↦ hm.prev x (hrsM x hx)
  · rw [hrs.mem]
    exact and_congr_right fun hx ↦ by rw [hparent x hx]
  · rw [hcmp]
    exact h.least r hr x hx (hparent x hx ▸ hroot)

section Compare

variable [Std.TransCmp cmp] {a b c : ℕ}

lemma compareNodes_self : m.compareNodes cmp a a ≠ .gt := by
  have hself : cmp (m.object a) (m.object a) = .eq := Std.ReflCmp.compare_self
  rw [compareNodes, hself]
  simp

lemma compareNodes_trans (hab : m.compareNodes cmp a b ≠ .gt) (hbc : m.compareNodes cmp b c ≠ .gt) :
    m.compareNodes cmp a c ≠ .gt := by
  have hab' : (cmp (m.object a) (m.object b)).isLE := isLE_iff_ne_gt.mpr hab
  have hbc' : (cmp (m.object b) (m.object c)).isLE := isLE_iff_ne_gt.mpr hbc
  have hac : (cmp (m.object a) (m.object c)).isLE := Std.TransCmp.isLE_trans hab' hbc'
  exact isLE_iff_ne_gt.mp hac

lemma compareNodes_of_not_lt (hab : m.compareNodes cmp a b ≠ .lt) :
    m.compareNodes cmp b a ≠ .gt := by
  intro hgt
  have hgt' : cmp (m.object b) (m.object a) = .gt := hgt
  have hlt : cmp (m.object a) (m.object b) = .lt := Std.OrientedCmp.lt_of_gt hgt'
  exact hab hlt

end Compare

/-- From every node the parent pointers lead to a root that is not greater. -/
lemma Trees.exists_root [Std.TransCmp cmp] (h : Trees m M) (hordered : Ordered cmp m M)
    (hx : x ∈ M) : ∃ r ∈ M, m.parent r = none ∧ m.compareNodes cmp r x ≠ .gt := by
  have hclimb := h.climbs x hx
  induction hclimb with
  | @root x hroot => exact ⟨x, hx, hroot, compareNodes_self⟩
  | @step x p hp _ ih =>
    obtain ⟨r, hr, hroot, hle⟩ := ih (h.closed x hx p hp)
    exact ⟨r, hr, hroot, compareNodes_trans hle (hordered x hx p hp)⟩

lemma Heap.le_of_mem [Std.TransCmp cmp] (h : Heap cmp m roots M) (hr : roots = some r)
    (hx : x ∈ M) : m.compareNodes cmp r x ≠ .gt := by
  obtain ⟨y, hy, hroot, hyx⟩ := h.trees.exists_root h.ordered hx
  exact compareNodes_trans (h.least r hr y hy hroot) hyx

lemma Heap.roots_eq [Std.TransCmp cmp] (h : Heap cmp m roots M) :
    (roots = none ∧ M = []) ∨ ∃ r ∈ M, roots = some r ∧ m.parent r = none := by
  obtain ⟨rs, hrs, hroots⟩ := h.ring
  cases rs with
  | nil =>
    refine .inl ⟨hroots, eq_nil_iff_forall_not_mem.mpr fun x hx ↦ ?_⟩
    obtain ⟨r, hr, hroot, -⟩ := h.trees.exists_root h.ordered hx
    exact absurd ((hrs.mem r).mpr ⟨hr, hroot⟩) (by simp)
  | cons r =>
    obtain ⟨hr, hroot⟩ := (hrs.mem r).mp mem_cons_self
    exact .inr ⟨r, hr, hroots, hroot⟩

section Append

variable {N : List ℕ} (hdisjoint : ∀ x ∈ M, x ∉ N)
include hdisjoint

lemma Trees.append (hM : Trees m M) (hN : Trees m N) : Trees m (M ++ N) := by
  have hkids : ∀ {A B : List ℕ}, Trees m A → Trees m B → (∀ x ∈ A, x ∉ B) → (∀ x, x ∈ M ++ N ↔
      x ∈ A ∨ x ∈ B) → ∀ p ∈ A, ∃ ks, Kids m (M ++ N) p ks := by
    intro A B hA hB hAB hmem p hp
    obtain ⟨ks, hks⟩ := hA.kids p hp
    refine ⟨ks, hks.ring, hks.nodup, hks.head, hks.degree, fun c ↦ ?_⟩
    rw [hks.mem, hmem]
    refine ⟨fun h ↦ ⟨.inl h.1, h.2⟩, fun h ↦ ⟨h.1.resolve_right fun hc ↦ ?_, h.2⟩⟩
    exact hAB p hp (hB.closed c hc p h.2)
  refine ⟨nodup_append.mpr ⟨hM.nodup, hN.nodup, fun x hx y hy h ↦ hdisjoint x hx (h ▸ hy)⟩,
    fun p hp ↦ ?_, fun c hc p hcp ↦ ?_, fun x hx ↦ ?_, fun x hx ↦ ?_⟩
  · rcases mem_append.mp hp with hp | hp
    · exact hkids hM hN hdisjoint (fun _ ↦ mem_append) p hp
    · exact hkids hN hM (fun x hx hxM ↦ hdisjoint x hxM hx) (fun _ ↦ mem_append.trans or_comm) p hp
  · rcases mem_append.mp hc with hc | hc
    · exact mem_append_left _ (hM.closed c hc p hcp)
    · exact mem_append_right _ (hN.closed c hc p hcp)
  · exact (mem_append.mp hx).elim (hM.climbs x) (hN.climbs x)
  · exact (mem_append.mp hx).elim (hM.unmarked x) (hN.unmarked x)

lemma Grown.append (hM : Grown m none M) (hN : Grown m none N) (hMt : Trees m M)
    (hNt : Trees m N) : Grown m none (M ++ N) := by
  have hzero : ∀ {B : List ℕ} {p : ℕ}, Trees m B → p ∉ B → ∀ k,
      B.countP (fun c ↦ m.parent c = some p ∧ m.grownDegree none c < k) = 0 := by
    intro B p hB hp k
    refine countP_eq_zero.mpr fun c hc hcp ↦ hp ?_
    simp only [decide_eq_true_eq] at hcp
    exact hB.closed c hc p hcp.1
  intro p hp k
  rw [countP_append]
  rcases mem_append.mp hp with hp | hp
  · rw [hzero hNt (hdisjoint p hp) k]
    exact hM p hp k
  · rw [hzero hMt (fun hpM ↦ hdisjoint p hpM hp) k, Nat.zero_add]
    exact hN p hp k

lemma Heap.mergeInto [Std.TransCmp cmp] {br : Option ℕ} (hM : Heap cmp m roots M)
    (hN : Heap cmp m br N) :
    Heap cmp (m.mergeInto cmp roots br).1 (m.mergeInto cmp roots br).2 (M ++ N) ∧
      Untouched m (m.mergeInto cmp roots br).1 (M ++ N) := by
  rcases hN.roots_eq with ⟨rfl, rfl⟩ | ⟨b, hb, rfl, -⟩
  · rw [append_nil]
    exact ⟨hM, .refl m M⟩
  rcases hM.roots_eq with ⟨rfl, rfl⟩ | ⟨r, hr, rfl, -⟩
  · exact ⟨hN, .refl m N⟩
  obtain ⟨rs, hrs, hrhead⟩ := hM.ring
  obtain ⟨bs, hbs, hbhead⟩ := hN.ring
  obtain ⟨xs, rfl⟩ : ∃ xs, bs = b :: xs := by
    cases bs with
    | nil => simp at hbhead
    | cons _ xs => exact ⟨xs, by rw [Option.some_inj.mp hbhead]⟩
  have hsep : ∀ x ∈ rs, x ∉ b :: xs := fun x hx hxb ↦
    hdisjoint x ((hrs.mem x).mp hx).1 ((hbs.mem x).mp hxb).1
  have hnodup : (rs ++ b :: xs).Nodup := nodup_append.mpr
    ⟨hrs.nodup, hbs.nodup, fun x hx y hy h ↦ hsep x hx (h ▸ hy)⟩
  obtain ⟨hlinks, hhead, hring⟩ := mergeNonemptyList_spec hrs.ring hbs.ring hnodup
  rw [← hrhead] at hlinks hhead hring
  have hall : ∀ x ∈ rs ++ b :: xs, x ∈ M ++ N ∧ m.parent x = none := by
    intro x hx
    rcases mem_append.mp hx with hx | hx
    · exact ⟨mem_append_left _ ((hrs.mem x).mp hx).1, ((hrs.mem x).mp hx).2⟩
    · exact ⟨mem_append_right _ ((hbs.mem x).mp hx).1, ((hbs.mem x).mp hx).2⟩
  have hroots : RootRing (m.mergeNonemptyList (some r) b).1 (M ++ N) (joined rs (b :: xs)) := by
    refine ⟨hring, (joined_perm rs _).nodup_iff.mpr hnodup, fun x ↦ ?_⟩
    rw [(joined_perm rs _).mem_iff, mem_append, hrs.mem, hbs.mem, hlinks.parent, mem_append]
    tauto
  have hordered : Ordered cmp m (M ++ N) := fun c hc p hcp ↦
    (mem_append.mp hc).elim (fun h ↦ hM.ordered c h p hcp) fun h ↦ hN.ordered c h p hcp
  have hheap : ∀ y, (y = b ∧ m.compareNodes cmp b r ≠ .gt) ∨
      (y = r ∧ m.compareNodes cmp r b ≠ .gt) →
      Heap cmp (m.mergeNonemptyList (some r) b).1 (some y) (M ++ N) := by
    intro y hy
    refine Heap.of_linksOnly (hM.trees.append hdisjoint hN.trees)
      (hM.grown.append hdisjoint hN.grown hM.trees hN.trees) hordered hlinks
      (fun x hx ↦ (hall x hx).2) hroots ?_ fun x hx hroot ↦ ?_
    · rw [(joined_perm rs _).mem_iff]
      rcases hy with ⟨rfl, -⟩ | ⟨rfl, -⟩
      · simp
      · exact mem_append_left _ (mem_of_mem_head? (Option.mem_def.mpr hrhead.symm))
    · have hle : m.compareNodes cmp y r ≠ .gt ∧ m.compareNodes cmp y b ≠ .gt := by
        rcases hy with ⟨rfl, hle⟩ | ⟨rfl, hle⟩
        · exact ⟨hle, compareNodes_self⟩
        · exact ⟨compareNodes_self, hle⟩
      rcases mem_append.mp hx with hx | hx
      · exact compareNodes_trans hle.1 (hM.least r rfl x hx hroot)
      · exact compareNodes_trans hle.2 (hN.least b rfl x hx hroot)
  refine ⟨?_, hlinks.untouched fun x hx ↦ (hall x hx).1⟩
  rw [FibMem.mergeInto]
  split_ifs with hlt
  · exact hheap b (.inl ⟨rfl, by simp [hlt]⟩)
  · exact hheap r (.inr ⟨rfl, compareNodes_of_not_lt hlt⟩)

end Append

lemma Heap.singleton [Std.TransCmp cmp] (hroot : m.parent a = none)
    (hchildren : m.children a = none) (hnext : m.next a = a) (hprev : m.prev a = a)
    (hmark : m.mark a = false) (hdegree : m.degree a = 0) : Heap cmp m (some a) [a] := by
  have hnone : ∀ x ∈ [a], ∀ p, m.parent x ≠ some p := by
    intro x hx p hxp
    rw [mem_singleton.mp hx, hroot] at hxp
    simp at hxp
  refine ⟨⟨nodup_singleton a, fun p hp ↦ ⟨[], trivial, nodup_nil, ?_, ?_, fun c ↦ ?_⟩,
    fun c hc p hcp ↦ absurd hcp (hnone c hc p), fun x hx ↦ ?_, fun x hx _ ↦ ?_⟩, fun p hp k ↦ ?_,
    fun c hc p hcp ↦ absurd hcp (hnone c hc p),
    ⟨[a], ⟨circular_singleton.mpr ⟨hnext, hprev⟩, nodup_singleton a, fun x ↦ ?_⟩, rfl⟩,
    fun r hr x hx _ ↦ ?_⟩
  · rw [mem_singleton.mp hp]
    exact hchildren
  · rw [mem_singleton.mp hp]
    exact hdegree
  · exact ⟨fun hc ↦ absurd hc (by simp), fun hc ↦ absurd hc.2 (hnone c hc.1 p)⟩
  · exact .root (mem_singleton.mp hx ▸ hroot)
  · rw [mem_singleton.mp hx]
    exact hmark
  · have hzero : [a].countP (fun c ↦ m.parent c = some p ∧ m.grownDegree none c < k) = 0 :=
      countP_eq_zero.mpr fun c hc hcp ↦ hnone c hc p (decide_eq_true_eq.mp hcp).1
    omega
  · exact ⟨fun hx ↦ ⟨hx, mem_singleton.mp hx ▸ hroot⟩, fun hx ↦ hx.1⟩
  · rw [mem_singleton.mp hx, ← Option.some_inj.mp hr]
    exact compareNodes_self

/-- `ut_fibheapInsert`: a heap of one node is merged into the others. -/
lemma Heap.insert [Std.TransCmp cmp] (h : Heap cmp m roots M) (ha : a ∉ M) :
    Heap cmp (m.fibheapInsert cmp roots a).1 (m.fibheapInsert cmp roots a).2 (M ++ [a]) ∧
      Untouched m (m.fibheapInsert cmp roots a).1 (M ++ [a]) := by
  rw [fibheapInsert]
  have hout : ∀ x ∈ M, x ∉ [a] := fun x hx hxa ↦ ha (mem_singleton.mp hxa ▸ hx)
  generalize hm1 : ({ m with
      parent := update m.parent a none, children := update m.children a none
      prev := update m.prev a a, next := update m.next a a
      mark := update m.mark a false, degree := update m.degree a 0 } : FibMem β) = m1
  have hne : ∀ x, x ∉ [a] → x ≠ a := fun x hx hxa ↦ hx (by simp [hxa])
  have huntouched : Untouched m m1 [a] := by
    subst hm1
    exact ⟨fun x hx ↦ update_of_ne (hne x hx) _ _, fun x hx ↦ update_of_ne (hne x hx) _ _,
      fun x hx ↦ update_of_ne (hne x hx) _ _, fun x hx ↦ update_of_ne (hne x hx) _ _,
      fun x hx ↦ update_of_ne (hne x hx) _ _, fun x hx ↦ update_of_ne (hne x hx) _ _, rfl⟩
  have hsingle : Heap cmp m1 (some a) [a] := by
    subst hm1
    exact .singleton (update_self _ _ _) (update_self _ _ _) (update_self _ _ _)
      (update_self _ _ _) (update_self _ _ _) (update_self _ _ _)
  obtain ⟨hheap, hmerge⟩ := (h.frame huntouched hout).mergeInto hout hsingle
  exact ⟨hheap, (huntouched.mono fun x hx ↦ mem_append_right _ hx).trans hmerge⟩

end FibMem

end OpenSplice.Utilities
