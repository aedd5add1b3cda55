import OpenSplice.Utilities.Fibheap.Consolidate

/-!
# Taking a root out of a Fibonacci heap

`ut_fibheapExtractMin` takes the root that the heap points to out of its ring, makes roots of its
children (`Trees.orphan`), and consolidates what is left. Nothing of this depends on that root being
the least one (`extractMin_spec`), which is what `ut_fibheapDelete` makes use of.
-/

set_option autoImplicit false

namespace OpenSplice.Utilities

open Library Function List

namespace FibMem

variable {β : Type} {cmp : β → β → Ordering} {m m' : FibMem β} {M ks rs : List ℕ} {x fuel : ℕ}

/-! ### The children become roots -/

/-- The nodes in the list have lost their parent and their mark. -/
structure Orphaned (m m' : FibMem β) (l : List ℕ) : Prop where
  parent : ∀ x, m'.parent x = if x ∈ l then none else m.parent x
  mark : ∀ x, m'.mark x = if x ∈ l then false else m.mark x
  children : m'.children = m.children
  prev : m'.prev = m.prev
  next : m'.next = m.next
  degree : m'.degree = m.degree
  object : m'.object = m.object

lemma Orphaned.untouched {l : List ℕ} (h : Orphaned m m' l) (hsub : ∀ x ∈ l, x ∈ M) :
    Untouched m m' M := by
  refine ⟨fun x hx ↦ ?_, fun x _ ↦ ?_, fun x _ ↦ ?_, fun x _ ↦ ?_, fun x hx ↦ ?_, fun x _ ↦ ?_,
    h.object⟩
  · rw [h.parent, if_neg (mt (hsub x) hx)]
  · rw [h.children]
  · rw [h.prev]
  · rw [h.next]
  · rw [h.mark, if_neg (mt (hsub x) hx)]
  · rw [h.degree]

lemma orphan_spec {mark n : ℕ} {us : List ℕ} (hmark : mark ∉ us)
    (hchain : (n :: us ++ [mark]).IsChain fun x y ↦ m.next x = y) (hfuel : us.length < fuel) :
    ∃ m', orphan mark fuel n m = some m' ∧ Orphaned m m' (n :: us) := by
  induction us generalizing fuel n m with
  | nil =>
    obtain ⟨fuel, rfl⟩ : ∃ k, fuel = k + 1 := ⟨fuel - 1, by omega⟩
    have hnext : m.next n = mark := by simpa using hchain
    refine ⟨{ m with parent := update m.parent n none, mark := update m.mark n false }, ?_,
      fun x ↦ ?_, fun x ↦ ?_, rfl, rfl, rfl, rfl, rfl⟩
    · rw [orphan]
      exact if_pos hnext
    · by_cases hx : x = n <;> simp [hx]
    · by_cases hx : x = n <;> simp [hx]
  | cons y us ih =>
    obtain ⟨fuel, rfl⟩ : ∃ k, fuel = k + 1 := ⟨fuel - 1, by omega⟩
    obtain ⟨hnext, hrest⟩ := isChain_cons_cons.mp hchain
    have hne : m.next n ≠ mark := by
      rw [hnext]
      exact fun heq ↦ hmark (by simp [heq])
    have hlt : us.length < fuel := by simpa using hfuel
    obtain ⟨m', hrun, horphan⟩ := ih
      (m := { m with parent := update m.parent n none, mark := update m.mark n false })
      (fun hmem ↦ hmark (mem_cons_of_mem _ hmem)) hrest hlt
    refine ⟨m', ?_, fun x ↦ ?_, fun x ↦ ?_, horphan.children, horphan.prev, horphan.next,
      horphan.degree, horphan.object⟩
    · rw [orphan]
      exact (if_neg hne).trans (hnext ▸ hrun)
    · rw [horphan.parent]
      by_cases hx : x ∈ y :: us
      · simp [hx, mem_cons_of_mem n hx]
      · by_cases hxn : x = n <;> simp_all
    · rw [horphan.mark]
      by_cases hx : x ∈ y :: us
      · simp [hx, mem_cons_of_mem n hx]
      · by_cases hxn : x = n <;> simp_all

lemma Trees.orphan (h : Trees m M) (hroot : m.parent x = none) (hks : Kids m M x ks)
    (horphan : Orphaned m m' ks) : Trees m' (M.erase x) := by
  have hold : ∀ c p, m'.parent c = some p → c ∉ ks ∧ m.parent c = some p := by
    intro c p hcp
    rw [horphan.parent] at hcp
    split_ifs at hcp with hc
    exact ⟨hc, hcp⟩
  have hsub : ∀ y ∈ M.erase x, y ∈ M := fun y hy ↦ mem_of_mem_erase hy
  refine ⟨h.nodup.erase x, fun p hp ↦ ?_, fun c hc p hcp ↦ ?_, fun y hy ↦ ?_, fun y hy hyroot ↦ ?_⟩
  · obtain ⟨hpx, hpM⟩ := (h.nodup.mem_erase_iff).mp hp
    obtain ⟨ls, hls⟩ := h.kids p hpM
    refine ⟨ls, hls.mono (by rw [horphan.children]) (by rw [horphan.degree])
      (fun c _ ↦ by rw [horphan.next]) (fun c _ ↦ by rw [horphan.prev]) fun c ↦ ⟨fun hc ↦ ?_,
      fun hc ↦ ?_⟩⟩
    · obtain ⟨hcM, hcp⟩ := (hls.mem c).mp hc
      have hcx : c ≠ x := by
        rintro rfl
        rw [hroot] at hcp
        simp at hcp
      refine ⟨(h.nodup.mem_erase_iff).mpr ⟨hcx, hcM⟩, ?_⟩
      rw [horphan.parent, if_neg (hls.disjoint hks hpx hc), hcp]
    · exact (hls.mem c).mpr ⟨hsub c hc.1, (hold c p hc.2).2⟩
  · obtain ⟨hcks, hparent⟩ := hold c p hcp
    refine (h.nodup.mem_erase_iff).mpr ⟨?_, h.closed c (hsub c hc) p hparent⟩
    rintro rfl
    exact hcks ((hks.mem c).mpr ⟨hsub c hc, hparent⟩)
  · have hclimb : ∀ z, Climbs m.parent z → Climbs m'.parent z := by
      intro z hz
      induction hz with
      | @root _ hz => exact .root (by rw [horphan.parent, hz, ite_self])
      | @step z _ hz _ ih =>
        by_cases hzks : z ∈ ks
        · exact .root (by rw [horphan.parent, if_pos hzks])
        · exact .step (by rw [horphan.parent, if_neg hzks, hz]) ih
    exact hclimb y (h.climbs y (hsub y hy))
  · rw [horphan.mark]
    split_ifs with hyks
    · rfl
    · rw [horphan.parent, if_neg hyks] at hyroot
      exact h.unmarked y (hsub y hy) hyroot

lemma isChain_of_circular {next prev : ℕ → ℕ} {xs : List ℕ} (h : Circular next prev (x :: xs)) :
    (x :: xs ++ [x]).IsChain fun a b ↦ next a = b :=
  List.IsChain.imp (fun _ _ hab ↦ hab.1) h

/-- What is left after a root has been taken out. -/
structure Uprooted (cmp : β → β → Ordering) (m m' : FibMem β) (M : List ℕ) (x : ℕ) (rs : List ℕ) :
    Prop where
  trees : Trees m' (M.erase x)
  grown : Grown m' none (M.erase x)
  ordered : Ordered cmp m' (M.erase x)
  ring : RootRing m' (M.erase x) rs
  untouched : Untouched m m' M

lemma joined_nil (l : List ℕ) : joined l [] = l := by
  cases l <;> rfl

lemma uproot_spec (htrees : Trees m M) (hgrown : Grown m none M)
    (hordered : Ordered cmp m M) (hrs : RootRing m M rs) (hhead : rs.head? = some x)
    (hks : Kids m M x ks) (hfuel : ks.length ≤ fuel) :
    ∃ m' rs', m.uproot fuel x = some (m', rs'.head?) ∧ Uprooted cmp m m' M x rs' := by
  have hxrs : x ∈ rs := mem_of_mem_head? (Option.mem_def.mpr hhead)
  obtain ⟨hxM, hroot⟩ := (hrs.mem x).mp hxrs
  obtain ⟨l, hperm, hdel, hdelhead, hdelring⟩ := deleteOneFromList_spec hrs.ring hrs.nodup hxrs
  rw [hhead] at hdel hdelhead hdelring
  unfold uproot
  generalize m.deleteOneFromList (some x) x = del at hdel hdelhead hdelring ⊢
  have hrsroot : ∀ y ∈ rs, m.parent y = none := fun y hy ↦ ((hrs.mem y).mp hy).2
  have hksrs : ∀ y ∈ ks, y ∉ rs := fun y hy hmem ↦ Trees.not_mem_kids hks (hrsroot y hmem) hy
  obtain ⟨hxl, hlnodup⟩ := nodup_cons.mp (hperm.nodup_iff.mpr hrs.nodup)
  have hlrs : ∀ y, y ∈ l ↔ y ∈ rs ∧ y ≠ x := by
    intro y
    rw [← hperm.mem_iff, mem_cons]
    exact ⟨fun hy ↦ ⟨.inr hy, fun heq ↦ hxl (heq ▸ hy)⟩, fun hy ↦ hy.1.resolve_left hy.2⟩
  have hksring : Circular del.1.next del.1.prev ks :=
    hks.ring.congr (fun y hy ↦ hdel.next y (hksrs y hy)) fun y hy ↦ hdel.prev y (hksrs y hy)
  have hkids : Kids del.1 M x ks :=
    ⟨hksring, hks.nodup, by rw [hdel.children, hks.head], by rw [hdel.degree, hks.degree],
      by rw [hdel.parent]; exact hks.mem⟩
  have hnodup : (l ++ ks).Nodup := nodup_append.mpr ⟨hlnodup, hks.nodup,
    fun y hy z hz heq ↦ hksrs z hz (heq ▸ ((hlrs y).mp hy).1)⟩
  -- the children become roots and join the others, whether there are any or not
  suffices hdone : ∀ m1 m2, Orphaned del.1 m1 ks → LinksOnly m1 m2 (l ++ ks) →
      Circular m2.next m2.prev (joined l ks) → Uprooted cmp m m2 M x (joined l ks) by
    dsimp only
    rw [hkids.head]
    cases ks with
    | nil =>
      refine ⟨del.1, _, ?_, hdone del.1 del.1
        ⟨fun y ↦ by simp, fun y ↦ by simp, rfl, rfl, rfl, rfl, rfl⟩
        ⟨rfl, rfl, rfl, rfl, rfl, fun _ _ ↦ rfl, fun _ _ ↦ rfl⟩ ?_⟩
      · rw [joined_nil, ← hdelhead]
        rfl
      · rw [joined_nil]
        exact hdelring
    | cons mark ks =>
      obtain ⟨m1, hrun, horphan⟩ := orphan_spec (nodup_cons.mp hks.nodup).1
        (isChain_of_circular hksring) hfuel
      have hl1 : Circular m1.next m1.prev l := by rwa [horphan.next, horphan.prev]
      have hk1 : Circular m1.next m1.prev (mark :: ks) := by rwa [horphan.next, horphan.prev]
      obtain ⟨hlinks, hhead', hring⟩ := mergeNonemptyList_spec hl1 hk1 hnodup
      refine ⟨_, _, ?_, hdone m1 _ horphan hlinks hring⟩
      dsimp
      rw [hrun, hdelhead, ← hhead']
      rfl
  intro m1 m2 horphan hlinks hring
  have hparent2 : ∀ y, m2.parent y = if y ∈ ks then none else m.parent y := by
    intro y
    rw [hlinks.parent, horphan.parent, hdel.parent]
  have hold : ∀ c p, m2.parent c = some p → c ∉ ks ∧ m.parent c = some p := by
    intro c p hcp
    rw [hparent2] at hcp
    split_ifs at hcp with hc
    exact ⟨hc, hcp⟩
  have hobject : m2.object = m.object := by rw [hlinks.object, horphan.object, hdel.object]
  refine ⟨?_, ?_, fun c hc p hcp ↦ ?_, ⟨hring, ?_, fun y ↦ ?_⟩, ?_⟩
  · have htrees1 := (htrees.linksOnly hdel hrsroot).orphan (by rw [hdel.parent]; exact hroot) hkids
      horphan
    refine htrees1.linksOnly hlinks fun y hy ↦ ?_
    rw [horphan.parent, hdel.parent]
    rcases mem_append.mp hy with hy | hy
    · rw [hrsroot y ((hlrs y).mp hy).1, ite_self]
    · rw [if_pos hy]
  · refine hgrown.mono erase_sublist fun c _ p hcp ↦ ⟨(hold c p hcp).2, ?_⟩
    rw [grownDegree, grownDegree, hlinks.degree, hlinks.mark, horphan.degree, horphan.mark,
      if_neg (hold c p hcp).1, hdel.degree, hdel.mark]
  · rw [compareNodes, hobject]
    exact hordered c (mem_of_mem_erase hc) p (hold c p hcp).2
  · exact (joined_perm l ks).nodup_iff.mpr hnodup
  · rw [(joined_perm l ks).mem_iff, mem_append, hlrs, hrs.mem, htrees.nodup.mem_erase_iff, hparent2]
    by_cases hyks : y ∈ ks
    · have hyx : y ≠ x := fun heq ↦ hksrs y hyks (heq ▸ hxrs)
      simp [hyks, hyx, ((hks.mem y).mp hyks).1]
    · simp
      tauto
  · have hksM : ∀ y ∈ ks, y ∈ M := fun y hy ↦ ((hks.mem y).mp hy).1
    refine ((hdel.untouched fun y hy ↦ ((hrs.mem y).mp hy).1).trans (horphan.untouched hksM)).trans
      (hlinks.untouched fun y hy ↦ ?_)
    rcases mem_append.mp hy with hy | hy
    · exact ((hrs.mem y).mp ((hlrs y).mp hy).1).1
    · exact hksM y hy

lemma Trees.eq_of_alone (h : Trees m M) (hrs : RootRing m M [x]) (hks : Kids m M x []) {y : ℕ}
    (hy : y ∈ M) : y = x := by
  have hclimb := h.climbs y hy
  induction hclimb with
  | @root y hroot => simpa using (hrs.mem y).mpr ⟨hy, hroot⟩
  | @step y p hp _ ih =>
    obtain rfl := ih (h.closed y hy p hp)
    exact absurd ((hks.mem y).mpr ⟨hy, hp⟩) (by simp)

variable [Std.TransCmp cmp]

/-- `ut_fibheapExtractMin` on a heap that points to any of its roots. -/
lemma extractMin_spec (htrees : Trees m M) (hgrown : Grown m none M)
    (hordered : Ordered cmp m M) (hrs : RootRing m M rs) (hhead : rs.head? = some x)
    (hfuel : M.length ≤ fuel) :
    (m.fibheapExtractMin cmp fuel (some x) = none ∧ Nat.fib (maxDegree + 3) ≤ M.length) ∨
    ∃ m' roots', m.fibheapExtractMin cmp fuel (some x) = some (some x, m', roots') ∧
      Heap cmp m' roots' (M.erase x) ∧ Untouched m m' M := by
  obtain ⟨xs, rfl⟩ : ∃ xs, rs = x :: xs := by
    cases rs with
    | nil => simp at hhead
    | cons _ xs => exact ⟨xs, by rw [Option.some_inj.mp hhead]⟩
  obtain ⟨hxM, hroot⟩ := (hrs.mem x).mp mem_cons_self
  obtain ⟨ks, hks⟩ := htrees.kids x hxM
  rw [fibheapExtractMin]
  split_ifs with halone
  · obtain rfl : xs = [] := (hrs.ring.next_eq_self hrs.nodup).mp halone.1
    obtain rfl : ks = [] := head?_eq_none_iff.mp (hks.head.symm.trans halone.2)
    have hempty : M.erase x = [] := by
      refine eq_nil_iff_forall_not_mem.mpr fun y hy ↦ ?_
      obtain ⟨hne, hyM⟩ := (htrees.nodup.mem_erase_iff).mp hy
      exact hne (htrees.eq_of_alone hrs hks hyM)
    refine .inr ⟨m, none, rfl, ?_, .refl m M⟩
    rw [hempty]
    exact ⟨⟨nodup_nil, by simp, by simp, by simp, by simp⟩, fun p hp ↦ absurd hp (by simp),
      fun c hc ↦ absurd hc (by simp), ⟨[], ⟨trivial, nodup_nil, by simp⟩, rfl⟩, by simp⟩
  · have hkslen : ks.length ≤ fuel := by
      have hsub := hks.nodup.subperm fun y hy ↦ ((hks.mem y).mp hy).1
      exact hsub.length_le.trans hfuel
    obtain ⟨m1, rs', hrun, hup⟩ := uproot_spec htrees hgrown hordered hrs rfl hks hkslen
    have hlen : (M.erase x).length = M.length - 1 := length_erase_of_mem hxM
    have hrest : M.erase x ≠ [] := by
      -- a sibling or a child is left
      intro hempty
      have hnone : ∀ y ∈ M, y = x := by
        intro y hy
        by_contra hne
        have := (htrees.nodup.mem_erase_iff).mpr ⟨hne, hy⟩
        rw [hempty] at this
        exact absurd this (by simp)
      refine halone ⟨(hrs.ring.next_eq_self hrs.nodup).mpr ?_, ?_⟩
      · refine eq_nil_iff_forall_not_mem.mpr fun y hy ↦ ?_
        obtain rfl := hnone y ((hrs.mem y).mp (mem_cons_of_mem _ hy)).1
        exact (nodup_cons.mp hrs.nodup).1 hy
      · rw [hks.head, head?_eq_none_iff]
        refine eq_nil_iff_forall_not_mem.mpr fun y hy ↦ ?_
        obtain rfl := hnone y ((hks.mem y).mp hy).1
        exact Trees.not_mem_kids hks hroot hy
    have hrslen : rs'.length ≤ (M.erase x).length :=
      (hup.ring.nodup.subperm fun y hy ↦ ((hup.ring.mem y).mp hy).1).length_le
    obtain ⟨mark, us, rfl⟩ : ∃ mark us, rs' = mark :: us := by
      cases rs' with
      | nil =>
        obtain ⟨y, hy⟩ := exists_mem_of_ne_nil _ hrest
        obtain ⟨r, hr, hrroot, -⟩ := hup.trees.exists_root hup.ordered hy
        exact absurd ((hup.ring.mem r).mpr ⟨hr, hrroot⟩) (by simp)
      | cons mark us => exact ⟨mark, us, rfl⟩
    have hsorted : Sorted cmp m1 (M.erase x) [] [] (mark :: us) :=
      ⟨hup.trees, hup.grown, hup.ordered, fun d r hr ↦ absurd hr (by simp [slot]),
        fun y hy ↦ (hup.ring.mem y).mp hy, hup.ring.nodup,
        fun y hy hyroot ↦ .inl ((hup.ring.mem y).mpr ⟨hy, hyroot⟩)⟩
    have hfuel' : us.length < fuel := by
      rw [length_cons] at hrslen
      omega
    rw [hrun, Option.bind_some, head?_cons, Option.bind_some]
    rcases consolidate_spec hsorted (nodup_cons.mp hup.ring.nodup).1
        (isChain_of_circular hup.ring.ring) hfuel' with
      ⟨hnone, hlarge⟩ | ⟨arr, m2, hcons, hsorted', huntouched⟩
    · exact .inl ⟨by rw [hnone]; rfl, by omega⟩
    obtain ⟨m3, newmin, hscan, hheap, huntouched'⟩ := scanRoots_spec hsorted' hrest
    refine .inr ⟨m3, some newmin, ?_, hheap,
      hup.untouched.trans ((huntouched.trans huntouched').mono fun y hy ↦ mem_of_mem_erase hy)⟩
    rw [hcons, Option.bind_some, hscan]
    rfl

end FibMem

end OpenSplice.Utilities
