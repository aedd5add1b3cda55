import OpenSplice.Utilities.Fibheap.ExtractMin

/-!
# Cuts in a Fibonacci heap

`ut_fibheap_cutnode` makes a root of a node and then of its marked ancestors, up to the first one
that is not marked. A cut takes a child from a node whose mark does not say so yet; `Grown` has an
argument for that node (`Grown.cut`), and the loop stops when the loss can be noted by the mark or
need not be, at a root (`cutLoop_spec`).

After a key has been lowered only the order of the node and its parent may be violated, and the cut
removes this edge (`decreaseKey_spec`). A node is deleted by making it a root and extracting it as
if it were the least one (`delete_spec`).
-/

set_option autoImplicit false

namespace OpenSplice.Utilities

open Library Function Option List Ordering

namespace FibMem

variable {β : Type} {cmp : β → β → Ordering} {m m' : FibMem β} {M : List ℕ} {roots : Option ℕ}
  {x p r fuel : ℕ} {rs : List ℕ}

/-- Some nodes of the list have become roots, and nothing has been linked to another parent. -/
structure Pruned (m m' : FibMem β) (M : List ℕ) : Prop where
  parent : ∀ x, m'.parent x = m.parent x ∨ m'.parent x = none
  untouched : Untouched m m' M

lemma Pruned.refl (m : FibMem β) (M : List ℕ) : Pruned m m M := ⟨fun _ ↦ .inl rfl, .refl m M⟩

lemma Pruned.trans {m'' : FibMem β} (h : Pruned m m' M) (h' : Pruned m' m'' M) :
    Pruned m m'' M := by
  refine ⟨fun x ↦ ?_, h.untouched.trans h'.untouched⟩
  rcases h'.parent x with hx | hx
  · rw [hx]
    exact h.parent x
  · exact .inr hx

lemma Pruned.parent_eq_some (h : Pruned m m' M) (hx : m'.parent x = some p) :
    m.parent x = some p := by
  rcases h.parent x with heq | heq
  · exact heq ▸ hx
  · rw [heq] at hx
    simp at hx

lemma Pruned.setMark (hx : x ∈ M) (b : Bool) : Pruned m { m with mark := update m.mark x b } M := by
  refine ⟨fun _ ↦ .inl rfl, fun _ _ ↦ rfl, fun _ _ ↦ rfl, fun _ _ ↦ rfl, fun _ _ ↦ rfl,
    fun y hy ↦ update_of_ne ?_ _ _, fun _ _ ↦ rfl, rfl⟩
  rintro rfl
  exact hy hx

lemma Trees.setMark (h : Trees m M) (hx : m.parent x = some p) (b : Bool) :
    Trees { m with mark := update m.mark x b } M := by
  refine ⟨h.nodup, fun q hq ↦ ?_, h.closed, h.climbs, fun y hy hroot ↦ ?_⟩
  · obtain ⟨ks, hks⟩ := h.kids q hq
    exact ⟨ks, hks.ring, hks.nodup, hks.head, hks.degree, hks.mem⟩
  · have hne : y ≠ x := by
      rintro rfl
      exact absurd (hx.symm.trans hroot) (by simp)
    exact (update_of_ne hne _ _).trans (h.unmarked y hy hroot)

section Cut

variable {p c : ℕ} {ks rs : List ℕ}

lemma CutOff.pruned (h : CutOff m m' p c ks rs) (hp : p ∈ M) (hc : c ∈ M)
    (hks : ∀ x ∈ ks, x ∈ M) (hrs : ∀ x ∈ rs, x ∈ M) : Pruned m m' M := by
  have hne : ∀ {y}, y ∈ M → ∀ x ∉ M, x ≠ y := fun hy x hx hxy ↦ hx (hxy ▸ hy)
  refine ⟨fun x ↦ ?_, fun x hx ↦ ?_, fun x hx ↦ ?_,
    fun x hx ↦ h.prev x (hne hc x hx) (mt (hks x) hx) (mt (hrs x) hx),
    fun x hx ↦ h.next x (hne hc x hx) (mt (hks x) hx) (mt (hrs x) hx), fun x hx ↦ ?_,
    fun x hx ↦ ?_, h.object⟩
  · by_cases hxc : x = c
    · exact .inr (by rw [hxc, h.parent, update_self])
    · exact .inl (by rw [h.parent, update_of_ne hxc])
  · rw [h.parent, update_of_ne (hne hc x hx)]
  · rw [h.children, update_of_ne (hne hp x hx)]
  · rw [h.mark, update_of_ne (hne hc x hx)]
  · rw [h.degree, update_of_ne (hne hp x hx)]

lemma Grown.cut (h : Grown m (some c) M) (hcut : CutOff m m' p c ks rs) : Grown m' (some p) M := by
  refine h.mono (List.Sublist.refl M) fun x _ q hxq ↦ ?_
  have hxc : x ≠ c := by
    rintro rfl
    rw [hcut.parent, update_self] at hxq
    simp at hxq
  have hcx : (some c : Option ℕ) ≠ some x := fun hcx ↦ hxc (some_inj.mp hcx).symm
  rw [hcut.parent, update_of_ne hxc] at hxq
  refine ⟨hxq, ?_⟩
  rw [grownDegree, grownDegree, hcut.mark, hcut.degree, update_of_ne hxc, if_neg hcx]
  by_cases hxp : x = p
  · subst hxp
    rw [update_self, if_pos rfl]
    omega
  · rw [update_of_ne hxp]
    omega

lemma CutOff.countP_lt (h : CutOff m m' p c ks rs) (hc : c ∈ M) (hcp : m.parent c = some p) :
    M.countP (fun x ↦ (m'.parent x).isSome) < M.countP fun x ↦ (m.parent x).isSome := by
  have hperm := perm_cons_erase hc
  have hle : (M.erase c).countP (fun x ↦ (m'.parent x).isSome) ≤
      (M.erase c).countP fun x ↦ (m.parent x).isSome := by
    refine countP_mono_left fun x _ hx ↦ ?_
    rw [h.parent] at hx
    by_cases hxc : x = c
    · rw [hxc, hcp]
      rfl
    · rwa [update_of_ne hxc] at hx
  rw [hperm.countP_eq, hperm.countP_eq, countP_cons, countP_cons, h.parent, update_self,
    hcp, ← h.parent]
  simp
  omega

end Cut

lemma joined_head? (h : rs.head? = some r) : (joined rs [x]).head? = some r := by
  cases rs with
  | nil => simp at h
  | cons => exact h

/-- The loop of `ut_fibheap_cutnode`. It stops at a root or at a node that is not marked. -/
lemma cutLoop_spec (htrees : Trees m M) (hgrown : Grown m (some x) M)
    (hrs : RootRing m M rs) (hr : rs.head? = some r) (hx : x ∈ M)
    (hfuel : M.countP (fun c ↦ (m.parent c).isSome) < fuel) :
    ∃ m' rs' y, cutLoop fuel x rs.head? m = some (m', some r, y) ∧ Trees m' M ∧
      Grown m' (some y) M ∧ RootRing m' M rs' ∧ rs'.head? = some r ∧ y ∈ M ∧
      (m'.parent y = none ∨ m'.mark y = false) ∧ Pruned m m' M ∧
      (m.mark x → m'.parent x = none) := by
  induction fuel generalizing m x rs with
  | zero => exact absurd hfuel (Nat.not_lt_zero _)
  | succ _ ih =>
    rw [cutLoop]
    cases hp : m.parent x with
    | none =>
      exact ⟨m, rs, x, by rw [hr], htrees, hgrown, hrs, hr, hx, .inl hp, .refl m M, fun _ ↦ hp⟩
    | some p =>
      dsimp only
      split_ifs with hmark
      · obtain ⟨htrees', hrs', ks, hks, hcut, hhead⟩ := htrees.cut hrs hx hp
        have hpM := htrees.closed x hx p hp
        have hr' := joined_head? (x := x) hr
        have hlt := hcut.countP_lt hx hp
        obtain ⟨m', rs'', y, hloop, htrees'', hgrown'', hring'', hhead'', hy, hstop, hpruned, -⟩ :=
          ih htrees' (hgrown.cut hcut) hrs' hr' hpM (by omega)
        have hroots : ∀ z ∈ rs, z ∈ M := fun z hz ↦ ((hrs.mem z).mp hz).1
        have hfirst := hcut.pruned hpM hx hks hroots
        refine ⟨m', rs'', y, ?_, htrees'', hgrown'', hring'', hhead'', hy, hstop,
          hfirst.trans hpruned, fun _ ↦ (hpruned.parent x).elim (·.trans ?_) id⟩
        · rw [hhead]
          exact hloop
        · rw [hcut.parent, update_self]
      · refine ⟨m, rs, x, by rw [hr], htrees, hgrown, hrs, hr, hx, .inr ?_, .refl m M, ?_⟩
        · exact Bool.eq_false_iff.mpr hmark
        · exact fun h ↦ absurd h hmark

/-! ### The operations that cut -/

lemma Trees.countP_lt_length (h : Trees m M) (hx : x ∈ M) :
    M.countP (fun c ↦ (m.parent c).isSome) < M.length := by
  have hclimb := h.climbs x hx
  induction hclimb with
  | @root x hroot =>
    rw [countP_lt_length_iff]
    exact ⟨x, hx, by rw [hroot]; rfl⟩
  | @step x p hp _ ih => exact ih (h.closed x hx p hp)

lemma cutnode_spec (htrees : Trees m M) (hgrown : Grown m none M)
    (hrs : RootRing m M rs) (hr : rs.head? = some r) (hx : x ∈ M) (hp : m.parent x = some p)
    (hfuel : M.length ≤ fuel) :
    ∃ m' rs', m.cutnode fuel (some r) x = some (m', some r) ∧ Trees m' M ∧ Grown m' none M ∧
      RootRing m' M rs' ∧ rs'.head? = some r ∧ Pruned m m' M ∧ m'.parent x = none := by
  have hmarked : Grown { m with mark := update m.mark x true } (some x) M := by
    refine hgrown.mono (List.Sublist.refl M) fun c _ q hcq ↦ ⟨hcq, ?_⟩
    rw [grownDegree, grownDegree]
    by_cases hcx : c = x
    · simp only [hcx, update_self, if_true]
      split_ifs <;> omega
    · simp only [update_of_ne hcx, reduceCtorEq, if_false]
      omega
  obtain ⟨m1, rs1, y, hloop, htrees1, hgrown1, hrs1, hr1, hy, hstop, hpruned, hroot⟩ :=
    cutLoop_spec (htrees.setMark hp true) hmarked ⟨hrs.ring, hrs.nodup, hrs.mem⟩ hr hx
      (lt_of_lt_of_le (htrees.countP_lt_length hx) hfuel)
  have hpruned' := (Pruned.setMark hx true).trans hpruned
  have hroot' := hroot (update_self _ _ _)
  rw [cutnode, ← hr, hloop, map_some]
  cases hpy : m1.parent y with
  | none =>
    refine ⟨m1, rs1, by simp [hr], htrees1, ?_, hrs1, hr ▸ hr1, hpruned', hroot'⟩
    refine hgrown1.mono (List.Sublist.refl M) fun c _ q hcq ↦ ⟨hcq, ?_⟩
    have hne : (some y : Option ℕ) ≠ some c := by
      intro hyc
      rw [some_inj.mp hyc, hcq] at hpy
      simp at hpy
    rw [grownDegree, grownDegree, if_neg hne]
    simp
  | some q =>
    have hmark : m1.mark y = false := hstop.resolve_left (by simp [hpy])
    refine ⟨_, rs1, by simp [hr], htrees1.setMark hpy true, ?_, ⟨hrs1.ring, hrs1.nodup, hrs1.mem⟩,
      hr ▸ hr1, hpruned'.trans (Pruned.setMark hy true), hroot'⟩
    -- the mark stands for the loss now
    refine hgrown1.mono (List.Sublist.refl M) fun c _ q hcq ↦ ⟨hcq, ?_⟩
    rw [grownDegree, grownDegree]
    by_cases hcy : c = y
    · simp [hcy, hmark]
    · simp [update_of_ne hcy, Ne.symm hcy]

lemma Pruned.ordered (h : Pruned m m' M) (hordered : Ordered cmp m M) : Ordered cmp m' M := by
  intro c hc p hcp
  rw [compareNodes, h.untouched.object]
  exact hordered c hc p (h.parent_eq_some hcp)

section Order

variable [Std.TransCmp cmp] {a fuel y : ℕ} {p : β}

lemma delete_spec (h : Heap cmp m roots M) (ha : a ∈ M) (hfuel : M.length ≤ fuel) :
    (m.fibheapDelete cmp fuel roots a = none ∧ Nat.fib (maxDegree + 3) ≤ M.length) ∨
    ∃ m' roots', m.fibheapDelete cmp fuel roots a = some (m', roots') ∧
      Heap cmp m' roots' (M.erase a) ∧ Untouched m m' M := by
  have hextract : ∀ {m1 : FibMem β} {rs : List ℕ}, Trees m1 M → Grown m1 none M →
      RootRing m1 M rs → Pruned m m1 M → m1.parent a = none →
      ((m1.fibheapExtractMin cmp fuel (some a)).map (·.2) = none ∧
        Nat.fib (maxDegree + 3) ≤ M.length) ∨
      ∃ m' roots', (m1.fibheapExtractMin cmp fuel (some a)).map (·.2) = some (m', roots') ∧
        Heap cmp m' roots' (M.erase a) ∧ Untouched m m' M := by
    intro m1 rs htrees hgrown hrs hpruned hroot
    obtain ⟨rs', hrs', hhead⟩ := hrs.rotate ((hrs.mem a).mpr ⟨ha, hroot⟩)
    rcases extractMin_spec htrees hgrown (hpruned.ordered h.ordered) hrs' hhead hfuel with
      ⟨hnone, hlarge⟩ | ⟨m', roots', hout, hheap, huntouched⟩
    · exact .inl ⟨by rw [hnone]; rfl, hlarge⟩
    · exact .inr ⟨m', roots', by rw [hout]; rfl, hheap, hpruned.untouched.trans huntouched⟩
  obtain ⟨rs, hrs, hhead⟩ := h.ring
  rcases h.roots_eq with ⟨rfl, rfl⟩ | ⟨r, -, rfl, -⟩
  · simp at ha
  rw [fibheapDelete]
  cases hp : m.parent a with
  | none => exact hextract h.trees h.grown hrs (.refl m M) hp
  | some =>
    obtain ⟨m1, rs1, hcut, htrees, hgrown, hrs1, -, hpruned, hroot⟩ :=
      cutnode_spec h.trees h.grown hrs hhead.symm ha hp hfuel
    rw [hcut, bind_some]
    exact hextract htrees hgrown hrs1 hpruned hroot

/-- The least root, after `a` has become a root or its key has been lowered. -/
lemma updateMin_spec {r : ℕ} {rs : List ℕ} (htrees : Trees m M) (hgrown : Grown m none M)
    (hordered : Ordered cmp m M) (hrs : RootRing m M rs) (hr : rs.head? = some r) (ha : a ∈ M)
    (hroot : m.parent a = none)
    (hleast : ∀ x ∈ M, m.parent x = none → x ≠ a → m.compareNodes cmp r x ≠ .gt) :
    ∃ roots', m.updateMin cmp (some r) a = some (m, roots') ∧ Heap cmp m roots' M := by
  have hheap : ∀ y, (y = a ∧ m.compareNodes cmp a r ≠ .gt) ∨
      (y = r ∧ m.compareNodes cmp r a ≠ .gt) → Heap cmp m (some y) M := by
    intro y hy
    have hyrs : y ∈ rs := by
      rcases hy with ⟨rfl, -⟩ | ⟨rfl, -⟩
      · exact (hrs.mem y).mpr ⟨ha, hroot⟩
      · exact mem_of_mem_head? (mem_def.mpr hr)
    have hle : m.compareNodes cmp y r ≠ .gt ∧ m.compareNodes cmp y a ≠ .gt := by
      rcases hy with ⟨rfl, hle⟩ | ⟨rfl, hle⟩
      · exact ⟨hle, compareNodes_self⟩
      · exact ⟨compareNodes_self, hle⟩
    obtain ⟨rs', hrs', hhead⟩ := hrs.rotate hyrs
    refine ⟨htrees, hgrown, hordered, ⟨rs', hrs', hhead.symm⟩, fun z hz x hx hxroot ↦ ?_⟩
    obtain rfl := some_inj.mp hz
    by_cases hxa : x = a
    · exact hxa ▸ hle.2
    · exact compareNodes_trans hle.1 (hleast x hx hxroot hxa)
  rw [updateMin, map_some]
  split_ifs with hlt
  · exact ⟨some a, rfl, hheap a (.inl ⟨rfl, by simp [hlt]⟩)⟩
  · exact ⟨some r, rfl, hheap r (.inr ⟨rfl, compareNodes_of_not_lt hlt⟩)⟩

/-! ### Assignments by the owner of an object -/

omit [Std.TransCmp cmp] in
lemma Trees.setObject (h : Trees m M) : Trees (m.setObject a p) M := by
  refine ⟨h.nodup, fun q hq ↦ ?_, h.closed, h.climbs, h.unmarked⟩
  obtain ⟨ks, hks⟩ := h.kids q hq
  exact ⟨ks, hks.ring, hks.nodup, hks.head, hks.degree, hks.mem⟩

omit [Std.TransCmp cmp] in
lemma RootRing.setObject {rs : List ℕ} (h : RootRing m M rs) : RootRing (m.setObject a p) M rs :=
  ⟨h.ring, h.nodup, h.mem⟩

omit [Std.TransCmp cmp] in
@[simp]
lemma object_setObject : (m.setObject a p).object = update m.object a p := rfl

omit [Std.TransCmp cmp] in
lemma compareNodes_setObject_of_ne {x : ℕ} (hx : x ≠ a) (hy : y ≠ a) :
    (m.setObject a p).compareNodes cmp x y = m.compareNodes cmp x y := by
  rw [compareNodes, object_setObject, update_of_ne hx, update_of_ne hy, compareNodes]

/-- A lower key is less than whatever was not less than the old one. -/
lemma compareNodes_setObject_self (hp : cmp p (m.object a) ≠ .gt)
    (hy : m.compareNodes cmp a y ≠ .gt) : (m.setObject a p).compareNodes cmp a y ≠ .gt := by
  by_cases hya : y = a
  · rw [hya]
    exact compareNodes_self
  · have hle : (cmp p (m.object a)).isLE := isLE_iff_ne_gt.mpr hp
    have hle' : (cmp (m.object a) (m.object y)).isLE := isLE_iff_ne_gt.mpr hy
    have hlow : (cmp p (m.object y)).isLE := Std.TransCmp.isLE_trans hle hle'
    rw [compareNodes, object_setObject, update_self, update_of_ne hya]
    exact isLE_iff_ne_gt.mp hlow

/-- `ut_fibheapDecreaseKey`, after the key of a node has been lowered. -/
lemma decreaseKey_spec (h : Heap cmp m roots M) (ha : a ∈ M) (hp : cmp p (m.object a) ≠ .gt)
    (hfuel : M.length ≤ fuel) :
    ∃ m' roots', (m.setObject a p).fibheapDecreaseKey cmp fuel roots a = some (m', roots') ∧
      Heap cmp m' roots' M ∧ Untouched (m.setObject a p) m' M := by
  obtain ⟨rs, hrs, hhead⟩ := h.ring
  rcases h.roots_eq with ⟨rfl, rfl⟩ | ⟨r, -, rfl, -⟩
  · simp at ha
  have htrees : Trees (m.setObject a p) M := h.trees.setObject
  have hrs1 : RootRing (m.setObject a p) M rs := hrs.setObject
  -- the order is only violated between the node and its parent
  have hedge : ∀ c ∈ M, c ≠ a → ∀ q, m.parent c = some q →
      (m.setObject a p).compareNodes cmp q c ≠ .gt := by
    intro c hc hca q hcq
    have hold := h.ordered c hc q hcq
    by_cases hqa : q = a
    · subst hqa
      exact compareNodes_setObject_self hp hold
    · rwa [compareNodes_setObject_of_ne hqa hca]
  have hleast : ∀ x ∈ M, x ≠ a → (m.setObject a p).compareNodes cmp r x ≠ .gt := by
    intro x hx hxa
    have hold := h.le_of_mem rfl hx
    by_cases hra : r = a
    · subst hra
      exact compareNodes_setObject_self hp hold
    · rwa [compareNodes_setObject_of_ne hra hxa]
  rw [fibheapDecreaseKey]
  cases hq : (m.setObject a p).parent a with
  | none =>
    have hordered : Ordered cmp (m.setObject a p) M := by
      intro c hc q hcq
      refine hedge c hc ?_ q hcq
      rintro rfl
      rw [hcq] at hq
      simp at hq
    obtain ⟨roots', hout, hheap⟩ := updateMin_spec htrees h.grown hordered hrs1 hhead.symm ha hq
      fun x hx _ hxa ↦ hleast x hx hxa
    exact ⟨_, roots', hout, hheap, .refl _ M⟩
  | some q =>
    dsimp only
    split_ifs with hle
    · refine ⟨_, _, rfl, ⟨htrees, h.grown, fun c hc q' hcq ↦ ?_, ⟨rs, hrs1, hhead⟩,
        fun r' hr' x hx hroot ↦ ?_⟩, .refl _ M⟩
      · by_cases hca : c = a
        · subst hca
          rw [← Option.mem_unique hq hcq]
          exact isLE_iff_ne_gt.mp hle
        · exact hedge c hc hca q' hcq
      · rw [← some_inj.mp hr']
        refine hleast x hx ?_
        rintro rfl
        rw [hroot] at hq
        simp at hq
    · obtain ⟨m1, rs1, hcut, htrees1, hgrown1, hring1, hr1, hpruned, hroot⟩ :=
        cutnode_spec htrees h.grown hrs1 hhead.symm ha hq hfuel
      have hcmp : ∀ x y, m1.compareNodes cmp x y = (m.setObject a p).compareNodes cmp x y := by
        intro x y
        rw [compareNodes, hpruned.untouched.object, compareNodes]
      have hordered : Ordered cmp m1 M := by
        intro c hc q' hcq
        rw [hcmp]
        refine hedge c hc ?_ q' (hpruned.parent_eq_some hcq)
        rintro rfl
        rw [hroot] at hcq
        simp at hcq
      obtain ⟨roots', hout, hheap⟩ := updateMin_spec htrees1 hgrown1 hordered hring1 hr1 ha hroot
        fun x hx _ hxa ↦ by
          rw [hcmp]
          exact hleast x hx hxa
      refine ⟨m1, roots', ?_, hheap, hpruned.untouched⟩
      rw [hcut, bind_some]
      exact hout

omit [Std.TransCmp cmp] in
lemma Heap.setObject (h : Heap cmp m roots M) (ha : a ∉ M) :
    Heap cmp (m.setObject a p) roots M := by
  obtain ⟨rs, hrs, hhead⟩ := h.ring
  have hcmp : ∀ x ∈ M, ∀ y ∈ M,
      (m.setObject a p).compareNodes cmp x y = m.compareNodes cmp x y := fun x hx y hy ↦
    compareNodes_setObject_of_ne (fun hxa ↦ ha (hxa ▸ hx)) fun hya ↦ ha (hya ▸ hy)
  refine ⟨h.trees.setObject, h.grown, fun c hc q hcq ↦ ?_, ⟨rs, hrs.setObject, hhead⟩,
    fun r hr x hx hroot ↦ ?_⟩
  · rw [hcmp q (h.trees.closed c hc q hcq) c hc]
    exact h.ordered c hc q hcq
  · have hrM : r ∈ M := by
      have hmem : r ∈ rs := mem_of_mem_head? (mem_def.mpr (hhead ▸ hr))
      exact ((hrs.mem r).mp hmem).1
    rw [hcmp r hrM x hx]
    exact h.least r hr x hx hroot

end Order

end FibMem

end OpenSplice.Utilities
