import OpenSplice.Utilities.Fibheap.Heap

/-!
# Consolidation of a Fibonacci heap

The loops of `ut_fibheapExtractMin` over the roots. The ring of the roots is taken apart on the way:
a root is either still to be visited, and then linked to the next one to be visited, or it is in the
array at the place of its degree (`Sorted`). What the array has in the end is linked up again
(`scanRoots_spec`).
-/

set_option autoImplicit false

namespace OpenSplice.Utilities

open Library Function List Option

namespace FibMem

variable {β : Type} {cmp : β → β → Ordering} {m m' : FibMem β} {M : List ℕ}
  {arr : RootArray} {n x d : ℕ} {us : List ℕ}

lemma slot_set {i : ℕ} {v : Option ℕ} (hd : d < arr.length) :
    slot (arr.set d v) i = if i = d then v else slot arr i := by
  unfold slot
  rw [getElem?_set]
  by_cases hi : i = d
  · subst hi
    simp [hd]
  · rw [if_neg (Ne.symm hi), if_neg hi]

lemma slot_lt (h : slot arr d = some x) : d < arr.length := by
  by_contra hlt
  rw [slot, getElem?_eq_none (by omega)] at h
  simp at h

lemma slot_initRoots (arr : RootArray) (d i : ℕ) : slot (initRoots arr d) i = slot arr i := by
  unfold slot initRoots
  by_cases hi : i < arr.length
  · rw [getElem?_append_left hi]
  · rw [getElem?_append_right (by omega), getElem?_eq_none (by omega : arr.length ≤ i)]
    cases h : (replicate (d + 1 - arr.length) (none : Option ℕ))[i - arr.length]? with
    | none => rfl
    | some =>
      rw [eq_of_mem_replicate (mem_of_getElem? h)]
      rfl

lemma lt_length_initRoots (arr : RootArray) (d : ℕ) : d < (initRoots arr d).length := by
  unfold initRoots
  rw [length_append, length_replicate]
  omega

lemma mem_filterMap_slot : x ∈ arr.filterMap id ↔ ∃ d, slot arr d = some x := by
  rw [mem_filterMap]
  constructor
  · rintro ⟨o, ho, hx⟩
    obtain ⟨d, hd⟩ := getElem?_of_mem ho
    exact ⟨d, by rw [slot, hd]; exact hx⟩
  · rintro ⟨d, hd⟩
    rw [slot, join_eq_some_iff] at hd
    exact ⟨some x, mem_of_getElem? hd, rfl⟩

/-! ### Sorting by degree -/

/-- Where the consolidation has got to: the root `n` is at work, `us` are still to be visited and
all other roots are in the array. -/
structure Sorted (cmp : β → β → Ordering) (m : FibMem β) (M : List ℕ) (arr : RootArray)
    (busy us : List ℕ) : Prop where
  trees : Trees m M
  grown : Grown m none M
  ordered : Ordered cmp m M
  placed : ∀ d r, slot arr d = some r → (r ∈ M ∧ m.parent r = none) ∧ m.degree r = d ∧
    r ∉ busy ++ us
  waiting : ∀ x ∈ busy ++ us, x ∈ M ∧ m.parent x = none
  nodup : (busy ++ us).Nodup
  cover : ∀ x ∈ M, m.parent x = none → x ∈ busy ++ us ∨ ∃ d, slot arr d = some x

lemma ChildAdded.untouched {u v : ℕ} {ks : List ℕ} (h : ChildAdded m m' u v ks)
    (hks : Kids m M u ks) (hu : u ∈ M) (hv : v ∈ M) : Untouched m m' M := by
  have hne : ∀ {x y : ℕ}, y ∈ M → x ∉ M → x ≠ y := fun hy hx heq ↦ hx (heq ▸ hy)
  have hout : ∀ x ∉ M, x ∉ ks := fun x hx hmem ↦ hx ((hks.mem x).mp hmem).1
  refine ⟨fun x hx ↦ ?_, fun x hx ↦ ?_, fun x hx ↦ h.prev x (hne hv hx) (hout x hx),
    fun x hx ↦ h.next x (hne hv hx) (hout x hx), fun x _ ↦ ?_, fun x hx ↦ ?_, h.object⟩
  · rw [h.parent, update_of_ne (hne hv hx)]
  · rw [h.children, update_of_ne (hne hu hx)]
  · rw [h.mark]
  · rw [h.degree, update_of_ne (hne hu hx)]

lemma Sorted.link {r u v : ℕ} (h : Sorted cmp m M arr [n] us)
    (hr : slot arr (m.degree n) = some r) (huv : (u = r ∧ v = n) ∨ (u = n ∧ v = r))
    (hcmp : m.compareNodes cmp u v ≠ .gt) :
    Sorted cmp (m.addAsChild u v) M (arr.set (m.degree n) none) [u] us ∧
      (∀ x ∈ us, (m.addAsChild u v).next x = m.next x) ∧ Untouched m (m.addAsChild u v) M := by
  obtain ⟨⟨hrM, hrroot⟩, hdegree, hrout⟩ := h.placed _ _ hr
  obtain ⟨hnM, hnroot⟩ := h.waiting n (by simp)
  have hrn : r ≠ n := fun heq ↦ hrout (by simp [heq])
  have hrus : r ∉ us := fun hmem ↦ hrout (by simp [hmem])
  have hnus : n ∉ us := (nodup_cons.mp h.nodup).1
  obtain ⟨huM, hvM, huroot, hvroot, hne, hsame, huus, hvus⟩ : u ∈ M ∧ v ∈ M ∧ m.parent u = none ∧
      m.parent v = none ∧ u ≠ v ∧ m.degree u = m.degree v ∧ u ∉ us ∧ v ∉ us := by
    rcases huv with ⟨rfl, rfl⟩ | ⟨rfl, rfl⟩
    · exact ⟨hrM, hnM, hrroot, hnroot, hrn, hdegree, hrus, hnus⟩
    · exact ⟨hnM, hrM, hnroot, hrroot, hrn.symm, hdegree.symm, hnus, hrus⟩
  obtain ⟨ks, hks⟩ := h.trees.kids u huM
  have hadd := addAsChild_spec hks (Trees.not_mem_kids hks hvroot)
  have htrees := h.trees.addAsChild huM hvM hne huroot hvroot
  have hroots : ∀ x, (m.addAsChild u v).parent x = none ↔ m.parent x = none ∧ x ≠ v := by
    intro x
    rw [hadd.parent]
    by_cases hxv : x = v
    · simp [hxv]
    · simp [hxv]
  refine ⟨⟨htrees, h.grown.addAsChild htrees hadd huroot hne hsame, fun c hc p hcp ↦ ?_,
    fun d x hx ↦ ?_, fun x hx ↦ ?_, ?_, fun x hx hroot ↦ ?_⟩, fun x hx ↦ ?_,
    hadd.untouched hks huM hvM⟩
  · have hcmp' : ∀ a b, (m.addAsChild u v).compareNodes cmp a b = m.compareNodes cmp a b :=
      fun a b ↦ by rw [compareNodes, compareNodes, hadd.object]
    rw [hcmp']
    by_cases hcv : c = v
    · rw [hcv, hadd.parent, update_self] at hcp
      rw [hcv, ← some_inj.mp hcp]
      exact hcmp
    · rw [hadd.parent, update_of_ne hcv] at hcp
      exact h.ordered c hc p hcp
  · rw [slot_set (slot_lt hr)] at hx
    by_cases hd : d = m.degree n
    · rw [if_pos hd] at hx
      simp at hx
    · rw [if_neg hd] at hx
      obtain ⟨⟨hxM, hxroot⟩, hxd, hxout⟩ := h.placed d x hx
      -- the entries of the array have different degrees
      have hxr : x ≠ r := fun heq ↦ hd (by rw [← hxd, heq, hdegree])
      have hxn : x ≠ n := fun heq ↦ hxout (by simp [heq])
      have hxu : x ≠ u ∧ x ≠ v := by
        rcases huv with ⟨rfl, rfl⟩ | ⟨rfl, rfl⟩
        · exact ⟨hxr, hxn⟩
        · exact ⟨hxn, hxr⟩
      refine ⟨⟨hxM, (hroots x).mpr ⟨hxroot, hxu.2⟩⟩, ?_, ?_⟩
      · rw [hadd.degree, update_of_ne hxu.1, hxd]
      · simp only [singleton_append, mem_cons, not_or] at hxout ⊢
        exact ⟨hxu.1, hxout.2⟩
  · rcases mem_cons.mp hx with rfl | hx
    · exact ⟨huM, (hroots x).mpr ⟨huroot, hne⟩⟩
    · obtain ⟨hxM, hxroot⟩ := h.waiting x (mem_cons_of_mem _ hx)
      exact ⟨hxM, (hroots x).mpr ⟨hxroot, fun heq ↦ hvus (heq ▸ hx)⟩⟩
  · exact nodup_cons.mpr ⟨huus, (nodup_cons.mp h.nodup).2⟩
  · obtain ⟨hxroot, hxv⟩ := (hroots x).mp hroot
    by_cases hxu : x = u
    · exact .inl (by simp [hxu])
    · have hxnr : x ≠ n ∧ x ≠ r := by
        rcases huv with ⟨rfl, rfl⟩ | ⟨rfl, rfl⟩
        · exact ⟨hxv, hxu⟩
        · exact ⟨hxu, hxv⟩
      rcases h.cover x hx hxroot with hmem | ⟨d, hd⟩
      · rcases mem_cons.mp hmem with hmem | hmem
        · exact absurd hmem hxnr.1
        · exact .inl (mem_cons_of_mem _ hmem)
      · refine .inr ⟨d, ?_⟩
        rw [slot_set (slot_lt hr), if_neg ?_, hd]
        rintro rfl
        exact hxnr.2 (Option.mem_unique hd hr)
  · refine hadd.next x (fun heq ↦ hvus (heq ▸ hx)) ?_
    exact Trees.not_mem_kids hks (h.waiting x (mem_cons_of_mem _ hx)).2

/-! ### The loops -/

lemma countP_set_none (h : slot arr d = some x) :
    (arr.set d none).countP isSome < arr.countP isSome := by
  have hd := slot_lt h
  rw [slot, join_eq_some_iff, getElem?_eq_getElem hd] at h
  rw [countP_set hd, some_inj.mp h]
  have hpos : 0 < arr.countP isSome :=
    countP_pos_iff.mpr ⟨some x, some_inj.mp h ▸ getElem_mem hd, rfl⟩
  simp only [isSome_some, isSome_none, if_true]
  rw [if_neg (by simp)]
  omega

lemma Sorted.place (h : Sorted cmp m M arr [n] us) (hslot : slot arr (m.degree n) = none) :
    Sorted cmp m M ((initRoots arr (m.degree n)).set (m.degree n) (some n)) [] us := by
  have hset : ∀ i, slot ((initRoots arr (m.degree n)).set (m.degree n) (some n)) i =
      if i = m.degree n then some n else slot arr i := by
    intro i
    rw [slot_set (lt_length_initRoots arr _), slot_initRoots]
  obtain ⟨hnus, hus⟩ := nodup_cons.mp h.nodup
  refine ⟨h.trees, h.grown, h.ordered, fun d r hr ↦ ?_, fun x hx ↦ ?_, hus, fun x hx hroot ↦ ?_⟩
  · rw [hset] at hr
    split_ifs at hr with hd
    · obtain rfl := some_inj.mp hr
      exact ⟨h.waiting n (by simp), hd.symm, hnus⟩
    · obtain ⟨hrM, hrd, hrout⟩ := h.placed d r hr
      exact ⟨hrM, hrd, fun hmem ↦ hrout (mem_cons_of_mem _ hmem)⟩
  · exact h.waiting x (mem_cons_of_mem _ hx)
  · rcases h.cover x hx hroot with hmem | ⟨d, hd⟩
    · rcases mem_cons.mp hmem with rfl | hmem
      · exact .inr ⟨m.degree x, by rw [hset, if_pos rfl]⟩
      · exact .inl hmem
    · refine .inr ⟨d, ?_⟩
      rw [hset, if_neg ?_, hd]
      rintro rfl
      rw [hslot] at hd
      simp at hd

variable [Std.TransCmp cmp] {fuel : ℕ}

/-- The root at work is linked until there is no other root of its degree. -/
lemma linkLoop_spec (h : Sorted cmp m M arr [n] us) (hfuel : arr.countP isSome < fuel) :
    ∃ n' arr' m', linkLoop cmp fuel n arr m = some (n', arr', m') ∧ Sorted cmp m' M arr' [n'] us ∧
      slot arr' (m'.degree n') = none ∧ (∀ x ∈ us, m'.next x = m.next x) ∧ Untouched m m' M := by
  induction fuel generalizing n arr m with
  | zero => omega
  | succ _ ih =>
    rw [linkLoop]
    cases hr : slot arr (m.degree n) with
    | none => exact ⟨n, arr, m, rfl, h, hr, fun _ _ ↦ rfl, .refl m M⟩
    | some r =>
      have hcount := countP_set_none hr
      have hcmp : m.compareNodes cmp (if m.compareNodes cmp r n = .lt then r else n)
          (if m.compareNodes cmp r n = .lt then n else r) ≠ .gt := by
        by_cases hlt : m.compareNodes cmp r n = .lt
        · rw [if_pos hlt, if_pos hlt, hlt]
          simp
        · rw [if_neg hlt, if_neg hlt]
          exact compareNodes_of_not_lt hlt
      obtain ⟨hlinked, hnext, huntouched⟩ := h.link hr (by split_ifs <;> simp) hcmp
      obtain ⟨n', arr', m', hrun, hsorted, hslot, hnext', huntouched'⟩ := ih hlinked (by omega)
      exact ⟨n', arr', m', hrun, hsorted, hslot, fun x hx ↦ (hnext' x hx).trans (hnext x hx),
        huntouched.trans huntouched'⟩

lemma consolidate_step (mark fuel : ℕ) (h : Sorted cmp m M arr [] (n :: us)) :
    (consolidate cmp mark (fuel + 1) n arr m = none ∧ Nat.fib (maxDegree + 3) ≤ M.length) ∨
    ∃ arr' m', consolidate cmp mark (fuel + 1) n arr m =
        (if m.next n = mark then some (arr', m')
          else consolidate cmp mark fuel (m.next n) arr' m') ∧
      Sorted cmp m' M arr' [] us ∧ (∀ x ∈ us, m'.next x = m.next x) ∧ Untouched m m' M := by
  have hbusy : Sorted cmp m M arr [n] us := ⟨h.trees, h.grown, h.ordered, h.placed, h.waiting,
    h.nodup, h.cover⟩
  obtain ⟨n', arr', m', hrun, hsorted, hslot, hnext, huntouched⟩ :=
    linkLoop_spec hbusy (Nat.lt_succ_of_le countP_le_length)
  by_cases hdegree : maxDegree < m'.degree n'
  · refine .inl ⟨?_, ?_⟩
    · rw [consolidate, hrun]
      simp [hdegree]
    · by_contra hM
      have hle := hsorted.trees.degree_le_maxDegree hsorted.grown
        (hsorted.waiting n' (by simp)).1 (Nat.lt_of_not_le hM)
      omega
  · refine .inr ⟨_, m', ?_, hsorted.place hslot, hnext, huntouched⟩
    rw [consolidate, hrun]
    simp [hdegree]

/-- The loop over the roots. The array can only be too small for very many nodes. -/
lemma consolidate_spec {mark : ℕ} (h : Sorted cmp m M arr [] (n :: us)) (hmark : mark ∉ us)
    (hchain : (n :: us ++ [mark]).IsChain fun x y ↦ m.next x = y) (hfuel : us.length < fuel) :
    (consolidate cmp mark fuel n arr m = none ∧ Nat.fib (maxDegree + 3) ≤ M.length) ∨
    ∃ arr' m', consolidate cmp mark fuel n arr m = some (arr', m') ∧ Sorted cmp m' M arr' [] [] ∧
      Untouched m m' M := by
  induction us generalizing fuel n arr m with
  | nil =>
    obtain ⟨fuel, rfl⟩ : ∃ k, fuel = k + 1 := ⟨fuel - 1, by omega⟩
    refine (consolidate_step mark fuel h).imp_right
      fun ⟨arr', m', hrun, hsorted, _, huntouched⟩ ↦ ?_
    have hnext : m.next n = mark := by simpa using hchain
    rw [if_pos hnext] at hrun
    exact ⟨arr', m', hrun, hsorted, huntouched⟩
  | cons x us ih =>
    obtain ⟨fuel, rfl⟩ : ∃ k, fuel = k + 1 := ⟨fuel - 1, by omega⟩
    rcases consolidate_step mark fuel h with
      hlarge | ⟨arr', m', hrun, hsorted, hnexts, huntouched⟩
    · exact .inl hlarge
    obtain ⟨hnext, hrest⟩ := isChain_cons_cons.mp hchain
    have hne : ¬m.next n = mark := by
      rw [hnext]
      exact fun heq ↦ hmark (by simp [heq])
    have hchain' : (x :: us ++ [mark]).IsChain fun x y ↦ m'.next x = y := by
      refine isChain_imp hrest fun y hy z _ hyz ↦ (hnexts y ?_).trans hyz
      have hy' : y ∈ (x :: us ++ [mark]).dropLast := hy
      rwa [dropLast_concat] at hy'
    rw [if_neg hne, hnext] at hrun
    rw [hrun]
    exact (ih hsorted (fun hmem ↦ hmark (mem_cons_of_mem _ hmem)) hchain'
      (by simpa using hfuel)).imp_right fun ⟨arr'', m'', hrun', hsorted', huntouched'⟩ ↦
        ⟨arr'', m'', hrun', hsorted', huntouched.trans huntouched'⟩

/-! ### Linking up what is left -/

variable (cmp) in
/-- The roots are linked up one after the other, and the least of them is kept. -/
lemma relinkRoots_spec (m : FibMem β) (newmin : ℕ) {rs : List ℕ} {cursor : ℕ}
    (hnodup : (cursor :: rs).Nodup) :
    ∃ min last m', relinkRoots cmp rs newmin cursor m = (min, last, m') ∧
      LinksOnly m m' (cursor :: rs) ∧ m'.prev cursor = m.prev cursor ∧
      (cursor :: rs).IsChain (Linked m'.next m'.prev) ∧ (cursor :: rs).getLast? = some last ∧
      min ∈ newmin :: rs ∧ ∀ x ∈ newmin :: rs, m.compareNodes cmp min x ≠ .gt := by
  induction rs generalizing newmin cursor m with
  | nil =>
    refine ⟨newmin, cursor, m, rfl, ⟨rfl, rfl, rfl, rfl, rfl, fun _ _ ↦ rfl, fun _ _ ↦ rfl⟩, rfl,
      .singleton cursor, rfl, by simp, fun x hx ↦ ?_⟩
    rw [mem_singleton.mp hx]
    exact compareNodes_self
  | cons r _ ih =>
    obtain ⟨hcursor, hrest⟩ := nodup_cons.mp hnodup
    have hne : cursor ≠ r := fun h ↦ hcursor (by simp [h])
    obtain ⟨min, last, m', hrun, hlinks, hprev, hchain, hlast, hmem, hle⟩ :=
      ih { m with prev := update m.prev r cursor, next := update m.next cursor r }
        (if m.compareNodes cmp r newmin = .lt then r else newmin) hrest
    have hcmp : ∀ a b, ({ m with prev := update m.prev r cursor, next := update m.next cursor r } :
        FibMem β).compareNodes cmp a b = m.compareNodes cmp a b := fun _ _ ↦ rfl
    have hr : m'.prev r = cursor := hprev.trans (update_self _ _ _)
    have hnext : m'.next cursor = r := (hlinks.next cursor hcursor).trans (update_self _ _ _)
    refine ⟨min, last, m', hrun, ⟨hlinks.parent, hlinks.children, hlinks.mark, hlinks.degree,
      hlinks.object, fun x hx ↦ ?_, fun x hx ↦ ?_⟩, ?_,
      isChain_cons_cons.mpr ⟨⟨hnext, hr⟩, hchain⟩, ?_, ?_, fun x hx ↦ ?_⟩
    · simp only [mem_cons, not_or] at hx
      exact (hlinks.next x (by simp [hx])).trans (update_of_ne hx.1 _ _)
    · simp only [mem_cons, not_or] at hx
      exact (hlinks.prev x (by simp [hx])).trans (update_of_ne hx.2.1 _ _)
    · exact (hlinks.prev cursor hcursor).trans (update_of_ne hne _ _)
    · rw [getLast?_cons_cons]
      exact hlast
    · split_ifs at hmem with hlt
      · exact mem_cons_of_mem _ hmem
      · rcases mem_cons.mp hmem with hmem | hmem
        · simp [hmem]
        · simp [hmem]
    · simp only [hcmp] at hle
      have hboth : m.compareNodes cmp min newmin ≠ .gt ∧ m.compareNodes cmp min r ≠ .gt := by
        have hfirst := hle _ mem_cons_self
        split_ifs at hfirst with hlt
        · exact ⟨compareNodes_trans hfirst (by simp [hlt]), hfirst⟩
        · exact ⟨hfirst, compareNodes_trans hfirst (compareNodes_of_not_lt hlt)⟩
      rcases mem_cons.mp hx with rfl | hx
      · exact hboth.1
      · rcases mem_cons.mp hx with rfl | hx
        · exact hboth.2
        · exact hle x (mem_cons_of_mem _ hx)

omit [Std.TransCmp cmp] in
lemma Sorted.nodup_roots (h : Sorted cmp m M arr [] []) : (arr.filterMap id).Nodup := by
  refine pairwise_filterMap.mpr (pairwise_iff_getElem.mpr fun i j hi hj hij x hx y hy ↦ ?_)
  have hdegree : ∀ (k z : ℕ) (hk : k < arr.length), id arr[k] = some z → m.degree z = k := by
    intro k z hk hz
    refine (h.placed k z ?_).2.1
    rw [slot, getElem?_eq_getElem hk]
    exact hz
  rintro rfl
  exact absurd ((hdegree i x hi hx).symm.trans (hdegree j x hj hy)) (by omega)

omit [Std.TransCmp cmp] in
lemma Sorted.mem_roots (h : Sorted cmp m M arr [] []) (x : ℕ) :
    x ∈ arr.filterMap id ↔ x ∈ M ∧ m.parent x = none := by
  rw [mem_filterMap_slot]
  constructor
  · rintro ⟨d, hd⟩
    exact (h.placed d x hd).1
  · rintro ⟨hx, hroot⟩
    exact (h.cover x hx hroot).resolve_left (by simp)

lemma scanRoots_spec (h : Sorted cmp m M arr [] []) (hM : M ≠ []) :
    ∃ m' newmin, m.scanRoots cmp arr = some (m', newmin) ∧ Heap cmp m' (some newmin) M ∧
      Untouched m m' M := by
  have hnodup := h.nodup_roots
  have hmem := h.mem_roots
  rw [scanRoots]
  cases hroots : arr.filterMap id with
  | nil =>
    obtain ⟨x, hx⟩ := exists_mem_of_ne_nil M hM
    obtain ⟨r, hr, hroot, -⟩ := h.trees.exists_root h.ordered hx
    have := (hmem r).mpr ⟨hr, hroot⟩
    rw [hroots] at this
    exact absurd this (by simp)
  | cons mark rs =>
    rw [hroots] at hnodup hmem
    obtain ⟨newmin, last, m', hrun, hlinks, -, hchain, hlast, hmin, hle⟩ :=
      relinkRoots_spec cmp m mark hnodup
    have hlastmem : last ∈ mark :: rs := mem_of_mem_getLast? (mem_def.mpr hlast)
    have hne : ∀ x ∉ mark :: rs, x ≠ last ∧ x ≠ mark := fun x hx ↦
      ⟨fun heq ↦ hx (heq ▸ hlastmem), fun heq ↦ hx (by simp [heq])⟩
    have hclosed : LinksOnly m { m' with
        prev := update m'.prev mark last, next := update m'.next last mark } (mark :: rs) :=
      ⟨hlinks.parent, hlinks.children, hlinks.mark, hlinks.degree, hlinks.object,
        fun x hx ↦ (update_of_ne (hne x hx).1 _ _).trans (hlinks.next x hx),
        fun x hx ↦ (update_of_ne (hne x hx).2 _ _).trans (hlinks.prev x hx)⟩
    have hring : Circular (update m'.next last mark) (update m'.prev mark last) (mark :: rs) := by
      have hshape : mark :: (rs ++ [mark]) = (mark :: rs) ++ [mark] := rfl
      rw [Circular, hshape]
      refine isChain_append.mpr ⟨?_, .singleton mark, fun x hx y hy ↦ ?_⟩
      · exact isChain_linked_congr hchain
          (fun x hx ↦ update_of_ne (ne_of_mem_dropLast hnodup hx hlast) _ _)
          fun x hx ↦ update_of_ne (ne_of_mem_tail hnodup hx rfl) _ _
      · obtain rfl := Option.mem_unique hlast hx
        obtain rfl : mark = y := by simpa using hy
        exact ⟨update_self _ _ _, update_self _ _ _⟩
    have hrootRing : RootRing { m' with
        prev := update m'.prev mark last, next := update m'.next last mark } M (mark :: rs) := by
      refine ⟨hring, hnodup, fun x ↦ ?_⟩
      rw [hmem x, ← hlinks.parent]
    have hmin' : newmin ∈ mark :: rs := by simpa using hmin
    dsimp only
    rw [hrun]
    refine ⟨_, newmin, rfl, Heap.of_linksOnly h.trees h.grown h.ordered hclosed
      (fun x hx ↦ ((hmem x).mp hx).2) hrootRing hmin' fun x hx hroot ↦ ?_,
      hclosed.untouched fun x hx ↦ ((hmem x).mp hx).1⟩
    refine hle x ?_
    simpa using (hmem x).mpr ⟨hx, hroot⟩

end FibMem

end OpenSplice.Utilities
