import OpenSplice.Utilities.Fibheap.Trees

/-!
# Degrees in a Fibonacci heap

A node that becomes a child has the degree of its new parent, and it is cut when it loses a second
child; the first loss is what the mark is for. So among the children of a node there are at most `k`
whose degree, counting the mark, is less than `k` (`Grown`), and a node of degree `d` has at least
`fib (d + 2)` nodes below it, itself included (`Trees.fib_degree_le`), which is why the array of
`ut_fibheapExtractMin` suffices.
-/

set_option autoImplicit false

namespace OpenSplice.Utilities

open Library Function List

namespace FibMem

variable {β : Type} {m m' : FibMem β} {M : List ℕ} {parent : ℕ → Option ℕ} {p x q : ℕ} {ks : List ℕ}

/-- The degree of a node, and the child it may have lost. The loss of the node `lost` is not yet
noted by its mark. -/
def grownDegree (m : FibMem β) (lost : Option ℕ) (c : ℕ) : ℕ :=
  m.degree c + (if m.mark c then 1 else 0) + if lost = some c then 1 else 0

/-- At most `k` children of a node have a degree of less than `k`, counting what they have lost. -/
def Grown (m : FibMem β) (lost : Option ℕ) (M : List ℕ) : Prop :=
  ∀ p ∈ M, ∀ k, M.countP (fun c ↦ m.parent c = some p ∧ m.grownDegree lost c < k) ≤ k

/-- If at most `k` numbers are less than `k`, they are at least `0, 1, 2, …` in some order. -/
lemma fib_le_sum_of_countP {l : List ℕ} (h : ∀ k, l.countP (· < k) ≤ k) :
    Nat.fib (l.length + 2) ≤ (l.map fun e ↦ Nat.fib (e + 1)).sum + 1 := by
  induction hn : l.length generalizing l with
  | zero => simp
  | succ n ih =>
    -- one of the numbers is large, since not all of them are less than `n`
    obtain ⟨e, hmem, he⟩ : ∃ e ∈ l, n ≤ e := by
      by_contra hall
      push Not at hall
      have hcount : l.countP (· < n) = l.length := countP_eq_length.mpr fun e he ↦ by
        simpa using hall e he
      have := h n
      omega
    have hperm := perm_cons_erase hmem
    have hrest : ∀ k, (l.erase e).countP (· < k) ≤ k := fun k ↦
      (erase_sublist.countP_le).trans (h k)
    have hlen : (l.erase e).length = n := by
      rw [length_erase_of_mem hmem]
      omega
    have hsum := ih hrest hlen
    rw [(hperm.map _).sum_eq, map_cons, sum_cons]
    have hfib : Nat.fib (n + 1) ≤ Nat.fib (e + 1) := Nat.fib_mono (by omega)
    have hstep : Nat.fib (n + 1 + 2) = Nat.fib (n + 1) + Nat.fib (n + 2) := Nat.fib_add_two
    omega

/-! ### Subtrees -/

/-- `x` is `p` or lies below it. -/
inductive Below (parent : ℕ → Option ℕ) (p : ℕ) : ℕ → Prop
  | self : Below parent p p
  | step {x q : ℕ} (h : parent x = some q) (hq : Below parent p q) : Below parent p x

lemma Below.trans (hx : Below parent q x) (hq : Below parent p q) : Below parent p x := by
  induction hx with
  | self => exact hq
  | step h _ ih => exact .step h ih

lemma Climbs.not_below (hx : Climbs parent x) (hq : parent x = some q) : ¬Below parent x q := by
  induction hx generalizing q with
  | root h => rw [h] at hq; simp at hq
  | @step _ p h _ ih =>
    obtain rfl : p = q := Option.mem_unique h hq
    intro hbelow
    cases hbelow with
    | self => exact ih h .self
    | step h' hq' => exact ih h' (hq'.trans (.step h .self))

lemma Below.linear {c c' : ℕ} (h : Below parent c x) (h' : Below parent c' x) :
    Below parent c c' ∨ Below parent c' c := by
  induction h with
  | self => exact .inr h'
  | @step _ _ hx hq ih =>
    cases h' with
    | self => exact .inl (.step hx hq)
    | step hx' hq' =>
      obtain rfl := Option.mem_unique hx hx'
      exact ih hq'

lemma Trees.not_below_siblings {c c' : ℕ} (h : Trees m M) (hc : c ∈ M) (hc' : c' ∈ M)
    (hcp : m.parent c = some p) (hcp' : m.parent c' = some p) (hne : c ≠ c')
    (hx : Below m.parent c x) : ¬Below m.parent c' x := by
  have habove : ∀ a b, a ∈ M → m.parent a = some p → m.parent b = some p → a ≠ b →
      ¬Below m.parent a b := by
    intro a b ha hap hbp hab hbelow
    cases hbelow with
    | self => exact hab rfl
    | step hq hbelow =>
      obtain rfl := Option.mem_unique hbp hq
      exact (h.climbs a ha).not_below hap hbelow
  intro hx'
  rcases hx.linear hx' with hbelow | hbelow
  · exact habove c c' hc hcp hcp' hne hbelow
  · exact habove c' c hc' hcp' hcp (Ne.symm hne) hbelow

open Classical in
noncomputable def subtree (m : FibMem β) (M : List ℕ) (p : ℕ) : List ℕ :=
  M.filter fun x ↦ Below m.parent p x

lemma mem_subtree : x ∈ m.subtree M p ↔ x ∈ M ∧ Below m.parent p x := by
  simp [subtree]

/-- A subtree is at least as large as those of the children and the node itself. -/
lemma Trees.sum_subtree_le (h : Trees m M) (hp : p ∈ M) (hks : Kids m M p ks) :
    (ks.map fun c ↦ (m.subtree M c).length).sum + 1 ≤ (m.subtree M p).length := by
  have hkid : ∀ c ∈ ks, c ∈ M ∧ m.parent c = some p := fun c hc ↦ (hks.mem c).mp hc
  have hnodup : (p :: ks.flatMap fun c ↦ m.subtree M c).Nodup := by
    refine nodup_cons.mpr ⟨fun hmem ↦ ?_, nodup_flatMap.mpr ⟨fun c _ ↦ ?_, ?_⟩⟩
    · obtain ⟨c, hc, hpc⟩ := mem_flatMap.mp hmem
      exact (h.climbs c (hkid c hc).1).not_below (hkid c hc).2 (mem_subtree.mp hpc).2
    · exact h.nodup.filter _
    · refine hks.nodup.imp_of_mem fun {c c'} hc hc' hne x hx hx' ↦ ?_
      exact h.not_below_siblings (hkid c hc).1 (hkid c' hc').1 (hkid c hc).2 (hkid c' hc').2 hne
        (mem_subtree.mp hx).2 (mem_subtree.mp hx').2
  have hsub : (p :: ks.flatMap fun c ↦ m.subtree M c) ⊆ m.subtree M p := by
    intro x hx
    rcases mem_cons.mp hx with rfl | hx
    · exact mem_subtree.mpr ⟨hp, .self⟩
    · obtain ⟨c, hc, hxc⟩ := mem_flatMap.mp hx
      obtain ⟨hxM, hbelow⟩ := mem_subtree.mp hxc
      exact mem_subtree.mpr ⟨hxM, hbelow.trans (.step (hkid c hc).2 .self)⟩
  have hlen := (hnodup.subperm hsub).length_le
  rwa [length_cons, length_flatMap] at hlen

lemma Kids.perm_filter (h : Trees m M) (hks : Kids m M p ks) :
    ks.Perm (M.filter fun c ↦ m.parent c = some p) := by
  refine (perm_ext_iff_of_nodup hks.nodup (h.nodup.filter _)).mpr fun c ↦ ?_
  rw [hks.mem, mem_filter]
  simp

lemma Grown.countP_kids (hgrown : Grown m none M) (h : Trees m M) (hp : p ∈ M)
    (hks : Kids m M p ks) (k : ℕ) : (ks.map (m.grownDegree none)).countP (· < k) ≤ k := by
  have hcount := hgrown p hp k
  rw [countP_map, (hks.perm_filter h).countP_eq, countP_filter]
  refine le_of_eq_of_le (countP_congr fun c _ ↦ ?_) hcount
  simp [and_comm]

/-- The size of a subtree is exponential in the degree of its root. -/
lemma Trees.fib_degree_le (h : Trees m M) (hgrown : Grown m none M) (hp : p ∈ M) :
    Nat.fib (m.degree p + 2) ≤ (m.subtree M p).length := by
  induction hn : (m.subtree M p).length using Nat.strong_induction_on generalizing p with
  | _ n ih =>
    obtain ⟨ks, hks⟩ := h.kids p hp
    have hsum := h.sum_subtree_le hp hks
    have hkid : ∀ c ∈ ks, Nat.fib (m.grownDegree none c + 1) ≤ (m.subtree M c).length := by
      intro c hc
      have hle : (m.subtree M c).length ≤ (ks.map fun c ↦ (m.subtree M c).length).sum :=
        single_le_sum (by simp) _ (mem_map.mpr ⟨c, hc, rfl⟩)
      have hgrow : m.grownDegree none c ≤ m.degree c + 1 := by
        unfold grownDegree
        split_ifs <;> simp_all
      exact (Nat.fib_mono (by omega)).trans (ih _ (by omega) ((hks.mem c).mp hc).1 rfl)
    have hfib := fib_le_sum_of_countP (hgrown.countP_kids h hp hks)
    rw [length_map, ← hks.degree, map_map] at hfib
    have hmono := sum_le_sum hkid
    rw [hn] at hsum
    exact hfib.trans ((Nat.add_le_add_right hmono 1).trans hsum)

/-- The degrees are within the array of `ut_fibheapExtractMin`. -/
lemma Trees.degree_le_maxDegree (h : Trees m M) (hgrown : Grown m none M) (hp : p ∈ M)
    (hM : M.length < Nat.fib (maxDegree + 3)) : m.degree p ≤ maxDegree := by
  have hle := (h.fib_degree_le hgrown hp).trans (length_filter_le _ M)
  by_contra hlt
  exact absurd (Nat.fib_mono (show maxDegree + 3 ≤ m.degree p + 2 by omega)) (by omega)

/-! ### Growth along the operations -/

lemma Grown.mono {lost lost' : Option ℕ} {M' : List ℕ} (h : Grown m lost M) (hsub : M'.Sublist M)
    (hkeep : ∀ c ∈ M', ∀ p, m'.parent c = some p → m.parent c = some p ∧
      m.grownDegree lost c ≤ m'.grownDegree lost' c) : Grown m' lost' M' := by
  intro p hp k
  have hcount := h p (hsub.subset hp) k
  refine le_trans (le_trans (countP_mono_left fun c hc hpc ↦ ?_) hsub.countP_le) hcount
  simp only [decide_eq_true_eq] at hpc ⊢
  obtain ⟨hparent, hle⟩ := hkeep c hc p hpc.1
  exact ⟨hparent, lt_of_le_of_lt hle hpc.2⟩

lemma Trees.countP_parent (h : Trees m M) (hp : p ∈ M) :
    M.countP (fun c ↦ m.parent c = some p) = m.degree p := by
  obtain ⟨ks, hks⟩ := h.kids p hp
  rw [countP_eq_length_filter, ← (hks.perm_filter h).length_eq, hks.degree]

lemma Grown.addAsChild {u v : ℕ} (h : Grown m none M) (htrees : Trees m' M)
    (hadd : ChildAdded m m' u v ks) (huroot : m.parent u = none) (huv : u ≠ v)
    (hdegree : m.degree u = m.degree v) : Grown m' none M := by
  have hsame : ∀ c, c ≠ u → m'.grownDegree none c = m.grownDegree none c := by
    intro c hc
    rw [grownDegree, grownDegree, hadd.degree, hadd.mark, update_of_ne hc]
  -- a child other than the new one was a child before
  have hold : ∀ c p k, c ≠ v → m'.parent c = some p → m'.grownDegree none c < k →
      m.parent c = some p ∧ m.grownDegree none c < k := by
    intro c p k hcv hparent hlt
    rw [hadd.parent, update_of_ne hcv] at hparent
    have hcu : c ≠ u := by
      rintro rfl
      rw [huroot] at hparent
      simp at hparent
    exact ⟨hparent, hsame c hcu ▸ hlt⟩
  intro p hp k
  by_cases hfew : p = u ∧ m.degree v < k
  · obtain ⟨rfl, hlt⟩ := hfew
    have hcount := htrees.countP_parent hp
    rw [hadd.degree, update_self] at hcount
    have hle : M.countP (fun c ↦ m'.parent c = some p ∧ m'.grownDegree none c < k) ≤
        M.countP fun c ↦ m'.parent c = some p := by
      refine countP_mono_left fun c _ hc ↦ ?_
      simp only [decide_eq_true_eq] at hc ⊢
      exact hc.1
    omega
  · refine le_trans (countP_mono_left fun c _ hc ↦ ?_) (h p hp k)
    simp only [decide_eq_true_eq] at hc ⊢
    refine hold c p k ?_ hc.1 hc.2
    rintro rfl
    rw [hadd.parent, update_self] at hc
    refine hfew ⟨(Option.some_inj.mp hc.1).symm, lt_of_le_of_lt ?_ hc.2⟩
    rw [hsame c (Ne.symm huv), grownDegree]
    omega

end FibMem

end OpenSplice.Utilities
