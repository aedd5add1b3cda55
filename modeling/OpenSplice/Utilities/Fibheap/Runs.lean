import OpenSplice.Utilities.Fibheap.Cut

/-!
# Runs of Fibonacci heaps

A run has heaps by any names, which are empty at first, over one memory. Its steps are the calls of
`ut_fibheapInsert`, `ut_fibheapMerge`, `ut_fibheapDecreaseKey`, `ut_fibheapDelete` and
`ut_fibheapExtractMin`, and `Heaps` keeps the nodes that are in each heap by these calls. An
operation on one heap only assigns to fields of its own nodes, so the others stay what they are
(`Apart.set`). A heap is emptied in the order of the keys (`Heap.extractAll`).
-/

set_option autoImplicit false

namespace OpenSplice.Utilities

open Library Function Option List

namespace FibMem

variable {ι β : Type} [DecidableEq ι] {cmp : β → β → Ordering}

/-- The heaps of a run, with the nodes that have been inserted and not removed. -/
structure Heaps (ι β : Type) where
  mem : FibMem β
  roots : ι → Option ℕ
  nodes : ι → List ℕ

def Heaps.set (st : Heaps ι β) (i : ι) (m : FibMem β) (roots : Option ℕ) (nodes : List ℕ) :
    Heaps ι β :=
  ⟨m, update st.roots i roots, update st.nodes i nodes⟩

/-- The calls that change heaps, with what the owner of an object assigns to it before. -/
inductive FibCall (ι β : Type)
  | insert (heap : ι) (node : ℕ) (p : β)
  | merge (a b : ι)
  | decreaseKey (heap : ι) (node : ℕ) (p : β)
  | delete (heap : ι) (node : ℕ)
  | extractMin (heap : ι)

def fibCall (cmp : β → β → Ordering) (st : Heaps ι β) : FibCall ι β → Option (Heaps ι β)
  | .insert i node p =>
    let out := (st.mem.setObject node p).fibheapInsert cmp (st.roots i) node
    some (st.set i out.1 out.2 (st.nodes i ++ [node]))
  | .merge a b =>
    let out := st.mem.fibheapMerge cmp (st.roots a) (st.roots b)
    some ((st.set b out.1 out.2.2 []).set a out.1 out.2.1 (st.nodes a ++ st.nodes b))
  | .decreaseKey i node p =>
    ((st.mem.setObject node p).fibheapDecreaseKey cmp (st.nodes i).length (st.roots i) node).map
      fun out ↦ st.set i out.1 out.2 (st.nodes i)
  | .delete i node =>
    (st.mem.fibheapDelete cmp (st.nodes i).length (st.roots i) node).map
      fun out ↦ st.set i out.1 out.2 ((st.nodes i).erase node)
  | .extractMin i =>
    (st.mem.fibheapExtractMin cmp (st.nodes i).length (st.roots i)).map
      fun out ↦ st.set i out.2.1 out.2.2 (out.1.elim (st.nodes i) (st.nodes i).erase)

/-- What the caller has to see to: a node is in one heap at most, only nodes in the heap are
deleted, a key is only lowered, and a heap is not merged with itself. -/
def FibCall.Permitted (cmp : β → β → Ordering) (st : Heaps ι β) : FibCall ι β → Prop
  | .insert _ node _ => ∀ i, node ∉ st.nodes i
  | .merge a b => a ≠ b
  | .decreaseKey i node p => node ∈ st.nodes i ∧ cmp p (st.mem.object node) ≠ .gt
  | .delete i node => node ∈ st.nodes i
  | .extractMin _ => True

def FibCall.size (st : Heaps ι β) : FibCall ι β → ℕ
  | .delete i _ | .extractMin i => (st.nodes i).length
  | _ => 0

inductive FibReach (cmp : β → β → Ordering) : Heaps ι β → Prop
  | init (m : FibMem β) : FibReach cmp ⟨m, fun _ ↦ none, fun _ ↦ []⟩
  | call {st st' : Heaps ι β} {c : FibCall ι β} (h : FibReach cmp st)
    (hpermitted : c.Permitted cmp st) (hcall : fibCall cmp st c = some st') : FibReach cmp st'

/-! ### Heaps that do not share nodes -/

/-- Every heap is what it is to be, and no node is in two of them. -/
structure Apart (cmp : β → β → Ordering) (st : Heaps ι β) : Prop where
  heap : ∀ i, Heap cmp st.mem (st.roots i) (st.nodes i)
  disjoint : ∀ i j, i ≠ j → ∀ x ∈ st.nodes i, x ∉ st.nodes j

lemma heap_nil (cmp : β → β → Ordering) (m : FibMem β) : Heap cmp m none [] := by
  refine ⟨⟨nodup_nil, ?_, ?_, ?_, ?_⟩, ?_, ?_, ⟨[], ⟨trivial, nodup_nil, ?_⟩, rfl⟩, ?_⟩ <;>
    simp [Grown, Ordered]

/-- An operation on one heap, after the owner of an object may have assigned to it. -/
lemma Apart.set {st : Heaps ι β} {i : ι} {m m' : FibMem β} {roots' : Option ℕ} {K M' : List ℕ}
    (h : Apart cmp st) (hothers : ∀ j, j ≠ i → Heap cmp m (st.roots j) (st.nodes j))
    (hK : ∀ j, j ≠ i → ∀ x ∈ st.nodes j, x ∉ K) (hm : Untouched m m' K)
    (hheap : Heap cmp m' roots' M') (hsub : ∀ x ∈ M', x ∈ K) :
    Apart cmp (st.set i m' roots' M') := by
  refine ⟨fun j ↦ ?_, fun j k hjk x hx ↦ ?_⟩
  · by_cases hji : j = i
    · subst hji
      simpa [Heaps.set] using hheap
    · simpa [Heaps.set, hji] using (hothers j hji).frame hm (hK j hji)
  · by_cases hji : j = i
    · subst hji
      have hkj : k ≠ j := fun hkj ↦ hjk hkj.symm
      simp only [Heaps.set, update_self, update_of_ne hkj] at hx ⊢
      exact fun hxk ↦ hK k hkj x hxk (hsub x hx)
    · by_cases hki : k = i
      · subst hki
        simp only [Heaps.set, update_self, update_of_ne hji] at hx ⊢
        exact fun hxk ↦ hK j hji x hx (hsub x hxk)
      · simp only [Heaps.set, update_of_ne hji, update_of_ne hki] at hx ⊢
        exact h.disjoint j k hjk x hx

section Run

variable [Std.TransCmp cmp] {st st' : Heaps ι β}

/-- One call: it returns if the heap is not too large, and the heaps stay what they are to be. -/
lemma Apart.call {c : FibCall ι β} (h : Apart cmp st) (hpermitted : c.Permitted cmp st) :
    (fibCall cmp st c = none ∧ Nat.fib (maxDegree + 3) ≤ c.size st) ∨
    ∃ st', fibCall cmp st c = some st' ∧ Apart cmp st' := by
  have hself : ∀ i j, j ≠ i → ∀ x ∈ st.nodes j, x ∉ st.nodes i := fun i j hji ↦ h.disjoint j i hji
  cases c with
  | insert i a p =>
    have hheaps : ∀ j, Heap cmp (st.mem.setObject a p) (st.roots j) (st.nodes j) := fun j ↦
      (h.heap j).setObject (hpermitted j)
    obtain ⟨hheap, huntouched⟩ := (hheaps i).insert (hpermitted i)
    refine .inr ⟨_, rfl, h.set (fun j _ ↦ hheaps j) (fun j hji x hx hxK ↦ ?_) huntouched hheap
      fun x hx ↦ hx⟩
    rcases mem_append.mp hxK with hxi | hxa
    · exact hself i j hji x hx hxi
    · exact hpermitted j (mem_singleton.mp hxa ▸ hx)
  | merge a b =>
    have hab : a ≠ b := hpermitted
    obtain ⟨hheap, huntouched⟩ := (h.heap a).mergeInto (h.disjoint a b hab) (h.heap b)
    -- first the nodes of the second heap are taken from it, then the first one gets them
    have hempty : Apart cmp (st.set b st.mem none []) :=
      h.set (fun j _ ↦ h.heap j) (hself b) (.refl _ _) (heap_nil cmp _) (by simp)
    have hset := hempty.set (i := a) (fun j _ ↦ hempty.heap j) (fun j hja x hx hxK ↦ ?_) huntouched
      hheap fun x hx ↦ hx
    · exact .inr ⟨_, rfl, hset⟩
    · by_cases hjb : j = b
      · simp [Heaps.set, hjb] at hx
      · simp only [Heaps.set, update_of_ne hjb] at hx
        rcases mem_append.mp hxK with hxa | hxb
        · exact hself a j hja x hx hxa
        · exact hself b j hjb x hx hxb
  | decreaseKey i a =>
    obtain ⟨ha, hp⟩ := hpermitted
    obtain ⟨m', roots', hout, hheap, huntouched⟩ := decreaseKey_spec (h.heap i) ha hp le_rfl
    refine .inr ⟨st.set i m' roots' (st.nodes i), ?_,
      h.set (fun j hji ↦ ?_) (hself i) huntouched hheap fun x hx ↦ hx⟩
    · rw [fibCall, hout]
      rfl
    · exact (h.heap j).setObject fun haj ↦ hself i j hji a haj ha
  | delete i =>
    rcases delete_spec (h.heap i) hpermitted le_rfl with
      ⟨hnone, hlarge⟩ | ⟨m', roots', hout, hheap, huntouched⟩
    · exact .inl ⟨by rw [fibCall, hnone]; rfl, hlarge⟩
    refine .inr ⟨_, ?_, h.set (fun j _ ↦ h.heap j) (hself i) huntouched hheap
      fun x hx ↦ mem_of_mem_erase hx⟩
    rw [fibCall, hout]
    rfl
  | extractMin i =>
    rw [fibCall]
    obtain ⟨rs, hrs, hhead⟩ := (h.heap i).ring
    cases hroots : st.roots i with
    | none =>
      have hnil : Heap cmp st.mem none (st.nodes i) := hroots ▸ h.heap i
      exact .inr ⟨_, rfl, h.set (fun j _ ↦ h.heap j) (hself i) (.refl _ _) hnil fun x hx ↦ hx⟩
    | some =>
      rcases extractMin_spec (h.heap i).trees (h.heap i).grown (h.heap i).ordered hrs
          (hhead.symm.trans hroots) le_rfl with
        ⟨hnone, hlarge⟩ | ⟨m', roots', hout, hheap, huntouched⟩
      · exact .inl ⟨by rw [hnone]; rfl, hlarge⟩
      refine .inr ⟨_, ?_, h.set (fun j _ ↦ h.heap j) (hself i) huntouched hheap
        fun x hx ↦ mem_of_mem_erase hx⟩
      rw [hout]
      rfl

lemma FibReach.apart (h : FibReach cmp st) : Apart cmp st := by
  induction h with
  | init m => exact ⟨fun _ ↦ heap_nil cmp m, fun _ _ _ x hx ↦ absurd hx (by simp)⟩
  | call _ hpermitted hcall ih =>
    rcases ih.call hpermitted with ⟨hnone, -⟩ | ⟨st'', hcall', hapart⟩
    · rw [hnone] at hcall
      simp at hcall
    · obtain rfl := mem_unique hcall hcall'
      exact hapart

/-- In every state of a run, each heap holds the nodes that were inserted and not removed, in trees
with no node greater than its children (`Heap`). `ut_fibheapMin` gives a least node, unless there is
none, and `ut_fibheapExtractMin` takes that node out. The next call returns, unless the heap has so
many nodes that a degree may exceed `MAX_DEGREE`. -/
theorem fibheap_representation (h : FibReach cmp st) :
    (∀ i, Heap cmp st.mem (st.roots i) (st.nodes i)) ∧
    (∀ i j, i ≠ j → ∀ x ∈ st.nodes i, x ∉ st.nodes j) ∧
    (∀ i, fibheapMin (st.roots i) = none ↔ st.nodes i = []) ∧
    (∀ i r, fibheapMin (st.roots i) = some r →
      r ∈ st.nodes i ∧ ∀ x ∈ st.nodes i, st.mem.compareNodes cmp r x ≠ .gt) ∧
    (∀ i out, st.mem.fibheapExtractMin cmp (st.nodes i).length (st.roots i) = some out →
      out.1 = fibheapMin (st.roots i)) ∧
    ∀ c : FibCall ι β, c.Permitted cmp st → c.size st < Nat.fib (maxDegree + 3) →
      (fibCall cmp st c).isSome = true := by
  have hapart := h.apart
  refine ⟨hapart.heap, hapart.disjoint, fun i ↦ ?_, fun i r hr ↦ ?_, fun i out hout ↦ ?_,
    fun c hc hsize ↦ ?_⟩
  · rw [fibheapMin]
    rcases (hapart.heap i).roots_eq with ⟨hnone, hnil⟩ | ⟨r, hr, hroots, -⟩
    · simp [hnone, hnil]
    · simp [hroots, ne_nil_of_mem hr]
  · rw [fibheapMin] at hr
    refine ⟨?_, fun x hx ↦ (hapart.heap i).le_of_mem hr hx⟩
    rcases (hapart.heap i).roots_eq with ⟨hnone, -⟩ | ⟨r', hr', hroots, -⟩
    · exact absurd (hnone.symm.trans hr) (by simp)
    · obtain rfl := mem_unique hroots hr
      exact hr'
  · rw [fibheapMin]
    obtain ⟨rs, hrs, hhead⟩ := (hapart.heap i).ring
    cases hroots : st.roots i with
    | none =>
      rw [hroots] at hout
      obtain rfl := some_inj.mp hout
      rfl
    | some =>
      rw [hroots] at hout
      rcases extractMin_spec (hapart.heap i).trees (hapart.heap i).grown (hapart.heap i).ordered hrs
          (hhead.symm.trans hroots) le_rfl with ⟨hnone, -⟩ | ⟨m', roots', hout', -⟩
      · exact absurd (hnone.symm.trans hout) (by simp)
      · obtain rfl := mem_unique hout hout'
        rfl
  · rcases hapart.call hc with ⟨-, hlarge⟩ | ⟨st', hcall, -⟩
    · omega
    · rw [hcall]
      rfl

/-! ### Sorting -/

/-- The nodes that `n` calls of `ut_fibheapExtractMin` return, up to the first that returns none. -/
def extractAll (cmp : β → β → Ordering) : ℕ → FibMem β → Option ℕ → Option (List ℕ)
  | 0, _, _ => some []
  | n + 1, m, roots =>
    (m.fibheapExtractMin cmp (n + 1) roots).bind fun out ↦
      out.1.elim (some []) fun x ↦ (extractAll cmp n out.2.1 out.2.2).map (x :: ·)

lemma Heap.extractAll {m : FibMem β} {roots : Option ℕ} {M : List ℕ} (h : Heap cmp m roots M)
    (hsize : M.length < Nat.fib (maxDegree + 3)) :
    ∃ l, FibMem.extractAll cmp M.length m roots = some l ∧ l.Perm M ∧
      l.Pairwise fun x y ↦ m.compareNodes cmp x y ≠ .gt := by
  induction hlen : M.length generalizing m roots M with
  | zero =>
    obtain rfl := length_eq_zero_iff.mp hlen
    exact ⟨[], rfl, .refl _, .nil⟩
  | succ n ih =>
    obtain ⟨rs, hrs, hhead⟩ := h.ring
    rcases h.roots_eq with ⟨-, rfl⟩ | ⟨r, hr, rfl, -⟩
    · cases hlen
    rcases extractMin_spec h.trees h.grown h.ordered hrs hhead.symm hlen.le with
      ⟨-, hlarge⟩ | ⟨m', roots', hout, hheap, huntouched⟩
    · omega
    have hlen' : (M.erase r).length = n := by
      rw [length_erase_of_mem hr, hlen]
      rfl
    obtain ⟨l, hrun, hperm, hsorted⟩ := ih hheap (by omega) hlen'
    refine ⟨r :: l, ?_, (hperm.cons r).trans (perm_cons_erase hr).symm, .cons (fun y hy ↦ ?_) ?_⟩
    · rw [FibMem.extractAll, hout, bind_some, elim_some, hrun]
      rfl
    · exact h.le_of_mem rfl (mem_of_mem_erase (hperm.mem_iff.mp hy))
    · simpa only [compareNodes, huntouched.object] using hsorted

/-- From any state of a run, `ut_fibheapExtractMin` returns the nodes of a heap in the order of
their keys, each once. -/
theorem extractMin_sorts (h : FibReach cmp st) (i : ι)
    (hsize : (st.nodes i).length < Nat.fib (maxDegree + 3)) :
    ∃ l, extractAll cmp (st.nodes i).length st.mem (st.roots i) = some l ∧
      l.Perm (st.nodes i) ∧ l.Pairwise fun x y ↦ st.mem.compareNodes cmp x y ≠ .gt :=
  (h.apart.heap i).extractAll hsize

end Run

/-! ### A run -/

instance [Fintype ι] (st : Heaps ι β) (c : FibCall ι β) : Decidable (c.Permitted cmp st) :=
  match c with
  | .insert _ node _ => inferInstanceAs (Decidable (∀ i, node ∉ st.nodes i))
  | .merge _ _ => inferInstanceAs (Decidable (_ ≠ _))
  | .decreaseKey _ _ _ => inferInstanceAs (Decidable (_ ∧ _))
  | .delete _ _ => inferInstanceAs (Decidable (_ ∈ _))
  | .extractMin _ => .isTrue trivial

def fibRun [Fintype ι] (cmp : β → β → Ordering) :
    Heaps ι β → List (FibCall ι β) → Option (Heaps ι β)
  | st, [] => some st
  | st, c :: cs =>
    if c.Permitted cmp st then (fibCall cmp st c).bind fun st ↦ fibRun cmp st cs else none

lemma FibReach.run [Fintype ι] {st st' : Heaps ι β} {cs : List (FibCall ι β)}
    (h : FibReach cmp st) (hrun : fibRun cmp st cs = some st') : FibReach cmp st' := by
  induction cs generalizing st with
  | nil =>
    obtain rfl := some_inj.mp hrun
    exact h
  | cons c _ ih =>
    rw [fibRun] at hrun
    by_cases hc : c.Permitted cmp st
    · rw [if_pos hc] at hrun
      obtain ⟨st1, hcall, hrest⟩ := bind_eq_some_iff.mp hrun
      exact ih (.call h hc hcall) hrest
    · rw [if_neg hc] at hrun
      simp at hrun

def blankMem : FibMem ℕ :=
  ⟨fun _ ↦ none, fun _ ↦ none, fun _ ↦ 0, fun _ ↦ 0, fun _ ↦ false, fun _ ↦ 0, fun _ ↦ 0⟩

/-- Two heaps that are merged, with cuts that cascade. -/
theorem fibheap_representation_run :
    ∃ st : Heaps (Fin 2) ℕ, FibReach compare st ∧ st.nodes 0 = [1, 2, 3, 4, 5, 6, 9] ∧
      st.nodes 1 = [] ∧ fibheapMin (st.roots 0) = some 6 ∧
      (∀ i, Heap compare st.mem (st.roots i) (st.nodes i)) ∧
      (∀ x ∈ st.nodes 0, st.mem.compareNodes compare 6 x ≠ .gt) ∧
      ∀ c : FibCall (Fin 2) ℕ, c.Permitted compare st → c.size st < Nat.fib (maxDegree + 3) →
        (fibCall compare st c).isSome = true := by
  have hrun : (fibRun compare (⟨blankMem, fun _ ↦ none, fun _ ↦ []⟩ : Heaps (Fin 2) ℕ)
      [.insert 0 0 10, .insert 0 1 11, .insert 0 2 12, .insert 0 3 13, .insert 0 4 14,
        .insert 1 5 15, .insert 1 6 16, .insert 1 7 17, .insert 1 8 18, .insert 1 9 19,
        .extractMin 0, .merge 0 1, .delete 0 8, .extractMin 1, .decreaseKey 0 7 3,
        .decreaseKey 0 4 5, .decreaseKey 0 6 4, .extractMin 0]).any
      (fun st ↦ st.nodes 0 == [1, 2, 3, 4, 5, 6, 9] && st.nodes 1 == [] && st.roots 0 == some 6) =
      true := by
    decide +kernel
  obtain ⟨st, hst, hout⟩ := (any_eq_true _ _).mp hrun
  simp only [Bool.and_eq_true, beq_iff_eq] at hout
  have hreach : FibReach compare st := FibReach.run (.init blankMem) hst
  obtain ⟨hheap, -, -, hmin, -, hcall⟩ := fibheap_representation hreach
  exact ⟨st, hreach, hout.1.1, hout.1.2, hout.2, hheap, (hmin 0 6 hout.2).2, hcall⟩

theorem extractMin_sorts_run :
    ∃ st : Heaps (Fin 2) ℕ, FibReach compare st ∧ st.nodes 0 = [0, 3, 2] ∧
      ∃ l, extractAll compare (st.nodes 0).length st.mem (st.roots 0) = some l ∧
        l.Perm (st.nodes 0) ∧ l.Pairwise fun x y ↦ st.mem.compareNodes compare x y ≠ .gt := by
  have hrun : (fibRun compare (⟨blankMem, fun _ ↦ none, fun _ ↦ []⟩ : Heaps (Fin 2) ℕ)
      [.insert 0 0 7, .insert 0 1 5, .insert 1 2 6, .insert 0 3 9, .extractMin 0, .merge 0 1,
        .decreaseKey 0 3 2]).any fun st ↦ st.nodes 0 == [0, 3, 2] := by
    decide +kernel
  obtain ⟨st, hst, hnodes⟩ := (any_eq_true _ _).mp hrun
  have hreach : FibReach compare st := FibReach.run (.init blankMem) hst
  have hsize : (st.nodes 0).length < Nat.fib (maxDegree + 3) := by
    rw [eq_of_beq hnodes]
    decide +kernel
  exact ⟨st, hreach, eq_of_beq hnodes, extractMin_sorts hreach 0 hsize⟩

end FibMem

end OpenSplice.Utilities
