import OpenSplice.Ddsi.Whc.Order

/-!
# The index of a cache

An index node has a ring of the latest samples of its instance. `RingOk` is about one ring: its head
holds a sample, and the older a place, the smaller the number of the sample there. `IdxOk` is about
the index and the samples together: a ring holds exactly the samples whose `idxnode` and
`idxnode_pos` point to it, and they have its key.

`delete_one_sample_from_idx` leaves the other samples of a ring with a pointer to a freed index node
when it deletes the one at the head; `NoStale` says that this has not happened. Each edit of the
samples, of a ring or of the index keeps `IdxOk`.
-/

set_option autoImplicit false

namespace OpenSplice.Ddsi

open Library KeyedList List Option WhcSample WhcIdxnode Ring

/-! ### One ring -/

/-- The ring holds the sample `s` at place `i`. -/
def WhcIdxnode.Holds (n : WhcIdxnode) (i : ℕ) (s : ℤ) : Prop := n.hist[i]? = some (some s)

variable {n : WhcIdxnode} {i : ℕ}

lemma WhcIdxnode.holds_iff_join {s : ℤ} : n.Holds i s ↔ n.hist[i]?.join = some s := by
  unfold WhcIdxnode.Holds
  cases n.hist[i]? <;> simp

lemma WhcIdxnode.Holds.unique {s t : ℤ} (hs : n.Holds i s) (ht : n.Holds i t) : s = t :=
  some_inj.mp (Option.mem_unique hs ht)

/-- A ring of the given depth. -/
structure RingOk (depth : ℕ) (n : WhcIdxnode) : Prop where
  length : n.hist.length = depth
  headidx_lt : n.headidx < depth
  head : ∃ s, n.Holds n.headidx s
  aged : ∀ i j s t, n.Holds i s → n.Holds j t →
    Ring.age depth n.headidx i < Ring.age depth n.headidx j → t < s

section RingOk

variable {depth name key : ℕ} {n : WhcIdxnode} {i : ℕ} {s : ℤ}

lemma WhcIdxnode.clear_holds {pos : ℕ} : (n.clear pos).Holds i s ↔ i ≠ pos ∧ n.Holds i s := by
  unfold WhcIdxnode.Holds clear
  by_cases hi : i = pos
  · subst hi
    simp [getElem?_set]
  · simp [getElem?_set_ne (Ne.symm hi), hi]

section

variable (h : RingOk depth n)
include h

lemma RingOk.lt_of_holds (hs : n.Holds i s) : i < depth := by
  obtain ⟨hi, -⟩ := List.getElem?_eq_some_iff.mp hs
  exact hi.trans_eq h.length

lemma RingOk.clear {pos : ℕ} (hpos : pos ≠ n.headidx) : RingOk depth (n.clear pos) := by
  obtain ⟨s, hs⟩ := h.head
  refine ⟨(length_set ..).trans h.length, h.headidx_lt, ⟨s, ?_⟩, fun i j s t hi hj ↦ ?_⟩
  · exact clear_holds.mpr ⟨hpos.symm, hs⟩
  · exact h.aged i j s t (clear_holds.mp hi).2 (clear_holds.mp hj).2

lemma RingOk.push_holds {t : ℤ} : (n.push depth s).Holds i t ↔
      (i = next depth n.headidx ∧ t = s) ∨ (i ≠ next depth n.headidx ∧ n.Holds i t) := by
  have hlt : next depth n.headidx < n.hist.length := (next_lt h.headidx_lt).trans_eq h.length.symm
  unfold WhcIdxnode.Holds push
  by_cases hi : i = next depth n.headidx
  · subst hi
    simp [hlt, eq_comm]
  · simp [getElem?_set_ne (Ne.symm hi), hi]

lemma RingOk.push {s : ℤ} (hs : ∀ i t, n.Holds i t → t < s) : RingOk depth (n.push depth s) := by
  have hnext := next_lt h.headidx_lt
  refine ⟨(length_set ..).trans h.length, hnext, ⟨s, ?_⟩, fun i j t u hi hj hage ↦ ?_⟩
  · exact h.push_holds.mpr (.inl ⟨rfl, rfl⟩)
  · replace hage : age depth (next depth n.headidx) i < age depth (next depth n.headidx) j := hage
    rcases h.push_holds.mp hi with ⟨rfl, rfl⟩ | ⟨hi, hni⟩ <;>
      rcases h.push_holds.mp hj with ⟨rfl, rfl⟩ | ⟨hj, hnj⟩
    · exact absurd hage (lt_irrefl _)
    · exact hs j u hnj
    · rw [age_head] at hage
      exact absurd hage (Nat.not_lt_zero _)
    · refine h.aged i j t u hni hnj ?_
      rw [age_next_head (h.lt_of_holds hni) hi, age_next_head (h.lt_of_holds hnj) hj] at hage
      omega

end

lemma newIdxnode_holds {t : ℤ} : (newIdxnode name key depth s).Holds i t ↔ i = 0 ∧ t = s := by
  unfold WhcIdxnode.Holds newIdxnode
  cases i with
  | zero => simp [eq_comm]
  | succ => simp [getElem?_replicate]

lemma ringOk_new (hdepth : 0 < depth) : RingOk depth (newIdxnode name key depth s) := by
  refine ⟨?_, hdepth, ⟨s, newIdxnode_holds.mpr ⟨rfl, rfl⟩⟩, fun i j t u hi hj hage ↦ ?_⟩
  · simp [newIdxnode]
    omega
  · rw [(newIdxnode_holds.mp hi).1, (newIdxnode_holds.mp hj).1] at hage
    exact absurd hage (lt_irrefl _)

end RingOk

/-! ### The index and the samples -/

/-- The rings hold the samples that point to them. -/
structure IdxOk (admin : WhcAdmin) (samples : List WhcSample) : Prop where
  ordered : KeyedList.Ordered WhcIdxnode.name admin.idxHash
  fresh : ∀ n ∈ admin.idxHash, n.name < admin.nextIdxnode
  known : ∀ w ∈ samples, ∀ name, w.idxnode = some name → name < admin.nextIdxnode
  keys : ∀ m ∈ admin.idxHash, ∀ n ∈ admin.idxHash, m.key = n.key → m = n
  ring : ∀ n ∈ admin.idxHash, RingOk admin.idxdepth n
  entry : ∀ n ∈ admin.idxHash, ∀ i s, n.Holds i s ↔
    ∃ w ∈ samples, w.seq = s ∧ w.idxnode = some n.name ∧ w.idxnodePos = i
  key : ∀ n ∈ admin.idxHash, ∀ w ∈ samples, w.idxnode = some n.name → w.serdata.key = n.key

/-- No sample above `cur` points to an index node that was freed. -/
def NoStale (cur : ℤ) (admin : WhcAdmin) (samples : List WhcSample) : Prop :=
  ∀ w ∈ samples, cur < w.seq → ∀ name, w.idxnode = some name → ∃ n ∈ admin.idxHash, n.name = name

lemma NoStale.mono {cur cur' : ℤ} {admin : WhcAdmin} {samples : List WhcSample}
    (h : NoStale cur admin samples) (hle : cur ≤ cur') : NoStale cur' admin samples :=
  fun w hw hlt ↦ h w hw (hle.trans_lt hlt)

section IdxOk

variable {admin : WhcAdmin} {samples : List WhcSample}
  {n : WhcIdxnode} {w : WhcSample} {m : WhcIdxnode} {samples' : List WhcSample} {oldn : Option ℤ}
  {name key : ℕ}

section

variable (h : IdxOk admin samples)
include h

lemma IdxOk.of_eq {admin' : WhcAdmin}
    (hidx : admin'.idxHash = admin.idxHash) (hdepth : admin'.idxdepth = admin.idxdepth)
    (hname : admin'.nextIdxnode = admin.nextIdxnode) : IdxOk admin' samples := by
  refine ⟨?_, ?_, ?_, ?_, ?_, ?_, ?_⟩
  · rw [hidx]
    exact h.ordered
  · rw [hidx, hname]
    exact h.fresh
  · rw [hname]
    exact h.known
  · rw [hidx]
    exact h.keys
  · rw [hidx, hdepth]
    exact h.ring
  · rw [hidx]
    exact h.entry
  · rw [hidx]
    exact h.key

lemma IdxOk.findIdxnode (hn : n ∈ admin.idxHash) : admin.findIdxnode n.name = some n :=
  lookup_of_mem h.ordered hn

lemma IdxOk.holds (hn : n ∈ admin.idxHash) (hw : w ∈ samples)
    (hname : w.idxnode = some n.name) : n.Holds w.idxnodePos w.seq :=
  (h.entry n hn _ _).mpr ⟨w, hw, rfl, hname, rfl⟩

lemma IdxOk.eq_of_name (hm : m ∈ admin.idxHash) (hn : n ∈ admin.idxHash)
    (hname : m.name = n.name) : m = n :=
  h.ordered.eq_of_key hm hn hname

end

lemma findIdxnode_eq_some (hn : admin.findIdxnode name = some n) :
    n ∈ admin.idxHash ∧ n.name = name :=
  lookup_eq_some hn

/-! ### Edits of one index node -/

lemma mem_setIdxnode : m ∈ (admin.setIdxnode n).idxHash ↔
      (m = n ∧ ∃ k ∈ admin.idxHash, k.name = n.name) ∨ (m ∈ admin.idxHash ∧ m.name ≠ n.name) :=
  mem_update

lemma mem_freeIdxnode : m ∈ (admin.freeIdxnode name).idxHash ↔ m ∈ admin.idxHash ∧ m.name ≠ name :=
  mem_delete

section

variable (h : IdxOk admin samples)
include h

/-- An index node `n` becomes `n'`, and the samples change with it. -/
lemma IdxOk.setIdxnode (hn : n ∈ admin.idxHash) (n' : WhcIdxnode)
    (hname : n'.name = n.name) (hkey : n'.key = n.key) (hring : RingOk admin.idxdepth n')
    (hknown : ∀ w ∈ samples', ∀ name, w.idxnode = some name → name < admin.nextIdxnode)
    (hentry : ∀ i s, n'.Holds i s ↔
      ∃ w ∈ samples', w.seq = s ∧ w.idxnode = some n.name ∧ w.idxnodePos = i)
    (hwkey : ∀ w ∈ samples', w.idxnode = some n.name → w.serdata.key = n.key)
    (hother : ∀ m ∈ admin.idxHash, m ≠ n → (∀ i s, m.Holds i s ↔
        ∃ w ∈ samples', w.seq = s ∧ w.idxnode = some m.name ∧ w.idxnodePos = i) ∧
      ∀ w ∈ samples', w.idxnode = some m.name → w.serdata.key = m.key) :
    IdxOk (admin.setIdxnode n') samples' := by
  have hmem : ∀ m ∈ (admin.setIdxnode n').idxHash, m = n' ∨ (m ∈ admin.idxHash ∧ m ≠ n) := by
    intro m hm
    rcases mem_setIdxnode.mp hm with ⟨rfl, -⟩ | ⟨hm, hne⟩
    · exact .inl rfl
    · exact .inr ⟨hm, fun heq ↦ hne (by rw [heq, hname])⟩
  refine ⟨h.ordered.update rfl, fun m hm ↦ ?_, hknown, fun m hm k hk hmk ↦ ?_, fun m hm ↦ ?_,
    fun m hm ↦ ?_, fun m hm ↦ ?_⟩
  · rcases hmem m hm with rfl | ⟨hm, -⟩
    · exact hname ▸ h.fresh n hn
    · exact h.fresh m hm
  · rcases hmem m hm with hmeq | ⟨hm', hmn⟩ <;> rcases hmem k hk with hkeq | ⟨hk', hkn⟩
    · rw [hmeq, hkeq]
    · exact absurd (h.keys k hk' n hn (by rw [← hmk, hmeq, hkey])) hkn
    · exact absurd (h.keys m hm' n hn (by rw [hmk, hkeq, hkey])) hmn
    · exact h.keys m hm' k hk' hmk
  · rcases hmem m hm with rfl | ⟨hm, -⟩
    · exact hring
    · exact h.ring m hm
  · rcases hmem m hm with rfl | ⟨hm, hmn⟩
    · rw [hname]
      exact hentry
    · exact (hother m hm hmn).1
  · rcases hmem m hm with rfl | ⟨hm, hmn⟩
    · rw [hname, hkey]
      exact hwkey
    · exact (hother m hm hmn).2

/-- An index node is taken away, and the samples change without the others noticing. -/
lemma IdxOk.restrict (name : ℕ)
    (hknown : ∀ w ∈ samples', ∀ name, w.idxnode = some name → name < admin.nextIdxnode)
    (hother : ∀ m ∈ admin.idxHash, m.name ≠ name → (∀ i s, m.Holds i s ↔
        ∃ w ∈ samples', w.seq = s ∧ w.idxnode = some m.name ∧ w.idxnodePos = i) ∧
      ∀ w ∈ samples', w.idxnode = some m.name → w.serdata.key = m.key) :
    IdxOk (admin.freeIdxnode name) samples' := by
  refine ⟨h.ordered.delete name, fun m hm ↦ ?_, hknown, fun m hm k hk ↦ ?_, fun m hm ↦ ?_,
    fun m hm ↦ ?_, fun m hm ↦ ?_⟩
  · exact h.fresh m (mem_freeIdxnode.mp hm).1
  · exact h.keys m (mem_freeIdxnode.mp hm).1 k (mem_freeIdxnode.mp hk).1
  · exact h.ring m (mem_freeIdxnode.mp hm).1
  · exact (hother m (mem_freeIdxnode.mp hm).1 (mem_freeIdxnode.mp hm).2).1
  · exact (hother m (mem_freeIdxnode.mp hm).1 (mem_freeIdxnode.mp hm).2).2

lemma IdxOk.free (name : ℕ) : IdxOk (admin.freeIdxnode name) samples :=
  h.restrict name h.known fun m hm _ ↦ ⟨h.entry m hm, h.key m hm⟩

end

/-! ### Dropping a sample -/

lemma deleteOneSampleFromIdx_cases {admin' : WhcAdmin}
    (hdel : deleteOneSampleFromIdx admin w = some admin') :
    (w.idxnode = none ∧ admin' = admin) ∨ ∃ n, n ∈ admin.idxHash ∧ w.idxnode = some n.name ∧
        ((w.idxnodePos ≠ n.headidx ∧ admin' = admin.setIdxnode (n.clear w.idxnodePos)) ∨
          (w.idxnodePos = n.headidx ∧ admin' = admin.freeIdxnode n.name)) := by
  unfold deleteOneSampleFromIdx at hdel
  cases hname : w.idxnode with
  | none =>
    simp only [hname, some_inj] at hdel
    exact .inl ⟨rfl, hdel.symm⟩
  | some =>
    simp only [hname] at hdel
    obtain ⟨n, hfind, hadmin⟩ := map_eq_some_iff.mp hdel
    obtain ⟨hn, rfl⟩ := findIdxnode_eq_some hfind
    refine .inr ⟨n, hn, rfl, ?_⟩
    by_cases hpos : w.idxnodePos = n.headidx
    · rw [if_neg (not_not.mpr hpos)] at hadmin
      exact .inr ⟨hpos, hadmin.symm⟩
    · rw [if_pos hpos] at hadmin
      exact .inl ⟨hpos, hadmin.symm⟩

section

variable (h : IdxOk admin samples)

include h

/-- A ring does not notice that a sample goes which does not point to it. -/
lemma IdxOk.entry_delete (hord : KeyedList.Ordered seq samples) (hw : w ∈ samples)
    (hm : m ∈ admin.idxHash)
    (hne : w.idxnode ≠ some m.name) (i : ℕ) (s : ℤ) :
    m.Holds i s ↔ ∃ v ∈ delete seq w.seq samples,
      v.seq = s ∧ v.idxnode = some m.name ∧ v.idxnodePos = i := by
  rw [h.entry m hm]
  constructor
  · rintro ⟨v, hv, hseq, hname, hpos⟩
    refine ⟨v, mem_delete.mpr ⟨hv, fun heq ↦ hne ?_⟩, hseq, hname, hpos⟩
    rw [← hord.eq_of_key hv hw heq, hname]
  · rintro ⟨v, hv, hrest⟩
    exact ⟨v, (mem_delete.mp hv).1, hrest⟩

lemma IdxOk.drop {w : WhcSample} (hord : KeyedList.Ordered seq samples)
    (hw : w ∈ samples) {admin' : WhcAdmin}
    (hdel : deleteOneSampleFromIdx admin w = some admin') :
    IdxOk admin' (delete seq w.seq samples) := by
  have hsub : ∀ v ∈ delete seq w.seq samples, v ∈ samples :=
    fun v hv ↦ (mem_delete.mp hv).1
  have hknown : ∀ v ∈ delete seq w.seq samples, ∀ name,
      v.idxnode = some name → name < admin.nextIdxnode := fun v hv ↦ h.known v (hsub v hv)
  rcases deleteOneSampleFromIdx_cases hdel with ⟨hnone, rfl⟩ | ⟨n, hn, hname, hcase⟩
  · refine ⟨h.ordered, h.fresh, hknown, h.keys, h.ring, fun m hm ↦ ?_, fun m hm v hv ↦ ?_⟩
    · exact h.entry_delete hord hw hm (by rw [hnone]; simp)
    · exact h.key m hm v (hsub v hv)
  · have hother : ∀ m ∈ admin.idxHash, m ≠ n → w.idxnode ≠ some m.name := by
      intro m hm hmn heq
      rw [hname, some_inj] at heq
      exact hmn (h.eq_of_name hm hn heq.symm)
    rcases hcase with ⟨hpos, rfl⟩ | ⟨-, rfl⟩
    · refine h.setIdxnode hn (n.clear w.idxnodePos) rfl rfl ((h.ring n hn).clear hpos) hknown
        (fun i s ↦ ?_) (fun v hv ↦ h.key n hn v (hsub v hv)) fun m hm hmn ↦
          ⟨h.entry_delete hord hw hm (hother m hm hmn), fun v hv ↦ h.key m hm v (hsub v hv)⟩
      rw [clear_holds]
      constructor
      · rintro ⟨hi, hs⟩
        obtain ⟨v, hv, rfl, hvname, rfl⟩ := (h.entry n hn i s).mp hs
        refine ⟨v, mem_delete.mpr ⟨hv, fun heq ↦ hi ?_⟩, rfl, hvname, rfl⟩
        rw [hord.eq_of_key hv hw heq]
      · rintro ⟨v, hv, rfl, hvname, rfl⟩
        obtain ⟨hv, hne⟩ := mem_delete.mp hv
        refine ⟨fun heq ↦ hne ?_, h.holds hn hv hvname⟩
        have hvholds := h.holds hn hv hvname
        rw [heq] at hvholds
        exact hvholds.unique (h.holds hn hw hname)
    · refine h.restrict n.name hknown fun m hm hmn ↦
        ⟨h.entry_delete hord hw hm (hother m hm fun heq ↦ hmn (by rw [heq])), fun v hv ↦
          h.key m hm v (hsub v hv)⟩

/-! ### Changing and adding samples -/

lemma IdxOk.of_samples
    (hknown : ∀ w ∈ samples', ∀ name, w.idxnode = some name → name < admin.nextIdxnode)
    (hentry : ∀ m ∈ admin.idxHash, ∀ i s, m.Holds i s ↔
        ∃ w ∈ samples', w.seq = s ∧ w.idxnode = some m.name ∧ w.idxnodePos = i)
    (hkey : ∀ m ∈ admin.idxHash, ∀ w ∈ samples', w.idxnode = some m.name →
      w.serdata.key = m.key) : IdxOk admin samples' :=
  ⟨h.ordered, h.fresh, hknown, h.keys, h.ring, hentry, hkey⟩

lemma IdxOk.ack (s : ℤ) : IdxOk admin (modify seq s acked samples) := by
  have hback : ∀ v ∈ modify seq s acked samples, ∃ w ∈ samples,
      v.seq = w.seq ∧ v.idxnode = w.idxnode ∧ v.idxnodePos = w.idxnodePos ∧
        v.serdata = w.serdata := by
    intro v hv
    rcases mem_modify.mp hv with ⟨w, hw, -, rfl⟩ | ⟨hv, -⟩
    · exact ⟨w, hw, rfl, rfl, rfl, rfl⟩
    · exact ⟨v, hv, rfl, rfl, rfl, rfl⟩
  refine h.of_samples (fun v hv name hname ↦ ?_) (fun m hm i t ↦ ?_) fun m hm v hv hname ↦ ?_
  · obtain ⟨w, hw, -, hidx, -⟩ := hback v hv
    exact h.known w hw name (hidx ▸ hname)
  · rw [h.entry m hm]
    constructor
    · rintro ⟨w, hw, hseq, hname, hpos⟩
      by_cases hs : w.seq = s
      · exact ⟨w.acked, mem_modify_of_eq _ hw hs, hseq, hname, hpos⟩
      · exact ⟨w, mem_modify_of_ne _ hw hs, hseq, hname, hpos⟩
    · rintro ⟨v, hv, hseq, hname, hpos⟩
      obtain ⟨w, hw, hvseq, hvidx, hvpos, -⟩ := hback v hv
      exact ⟨w, hw, hvseq ▸ hseq, hvidx ▸ hname, hvpos ▸ hpos⟩
  · obtain ⟨w, hw, -, hidx, -, hser⟩ := hback v hv
    rw [hser]
    exact h.key m hm w hw (hidx ▸ hname)

lemma IdxOk.release {s : ℤ} (hs : ∀ n ∈ admin.idxHash, ∀ i, ¬ n.Holds i s) :
    IdxOk admin (modify seq s released samples) := by
  have hback : ∀ v ∈ modify seq s released samples, ∀ name,
      v.idxnode = some name → v ∈ samples ∧ v.seq ≠ s := by
    intro v hv name hname
    rcases mem_modify.mp hv with ⟨w, -, -, rfl⟩ | hv
    · simp [released] at hname
    · exact hv
  refine h.of_samples (fun v hv name hname ↦ ?_) (fun m hm i t ↦ ?_) fun m hm v hv hname ↦ ?_
  · exact h.known v (hback v hv name hname).1 name hname
  · rw [h.entry m hm]
    constructor
    · rintro ⟨w, hw, hseq, hname, hpos⟩
      refine ⟨w, mem_modify_of_ne _ hw fun heq ↦ ?_, hseq, hname, hpos⟩
      exact hs m hm w.idxnodePos (heq ▸ h.holds hm hw hname)
    · rintro ⟨v, hv, hseq, hname, hpos⟩
      exact ⟨v, (hback v hv _ hname).1, hseq, hname, hpos⟩
  · exact h.key m hm v (hback v hv _ hname).1 hname

lemma IdxOk.concat (hw : w.idxnode = none) : IdxOk admin (samples ++ [w]) := by
  have hback : ∀ v ∈ samples ++ [w], ∀ name, v.idxnode = some name → v ∈ samples := by
    intro v hv name hname
    rcases mem_append.mp hv with hv | hv
    · exact hv
    · rw [mem_singleton.mp hv, hw] at hname
      simp at hname
  refine h.of_samples (fun v hv name hname ↦ ?_) (fun m hm i t ↦ ?_) fun m hm v hv hname ↦ ?_
  · exact h.known v (hback v hv name hname) name hname
  · rw [h.entry m hm]
    constructor
    · rintro ⟨v, hv, hrest⟩
      exact ⟨v, mem_append_left _ hv, hrest⟩
    · rintro ⟨v, hv, hseq, hname, hpos⟩
      exact ⟨v, hback v hv _ hname, hseq, hname, hpos⟩
  · exact h.key m hm v (hback v hv _ hname) hname

lemma IdxOk.setPruneSeq (hn : n ∈ admin.idxHash) (m : ℤ) :
    IdxOk (admin.setIdxnode { n with pruneSeq := m }) samples := by
  have hring := h.ring n hn
  exact h.setIdxnode hn { n with pruneSeq := m } rfl rfl
    ⟨hring.length, hring.headidx_lt, hring.head, hring.aged⟩ h.known (h.entry n hn) (h.key n hn)
    fun m hm _ ↦ ⟨h.entry m hm, h.key m hm⟩

end

/-! ### New samples in the index -/

lemma findKey_eq_some (hn : admin.findKey key = some n) : n ∈ admin.idxHash ∧ n.key = key :=
  ⟨mem_of_find?_eq_some hn, by simpa using find?_some hn⟩

lemma findKey_eq_none : admin.findKey key = none ↔ ∀ n ∈ admin.idxHash, n.key ≠ key := by
  unfold WhcAdmin.findKey
  simp

/-- A sample that is not in the index becomes the first one of an instance. -/
lemma IdxOk.addIdxnode (h : IdxOk admin samples) (hord : KeyedList.Ordered seq samples)
    (hw : w ∈ samples) (hnone : w.idxnode = none) (hdepth : 0 < admin.idxdepth)
    (hkey : ∀ n ∈ admin.idxHash, n.key ≠ w.serdata.key) :
    IdxOk (admin.addIdxnode w.seq w.serdata.key)
      (modify seq w.seq (joined admin.nextIdxnode 0) samples) := by
  have hmem : ∀ v ∈ modify seq w.seq (joined admin.nextIdxnode 0)
      samples, v = w.joined admin.nextIdxnode 0 ∨ (v ∈ samples ∧ v.seq ≠ w.seq) := by
    intro v hv
    rcases mem_modify.mp hv with ⟨b, hb, hseq, rfl⟩ | hv
    · rw [hord.eq_of_key hb hw hseq]
      exact .inl rfl
    · exact .inr hv
  have hnew : w.joined admin.nextIdxnode 0 ∈ modify seq w.seq
      (joined admin.nextIdxnode 0) samples :=
    mem_modify_of_eq _ hw rfl
  have hidx : ∀ m ∈ (admin.addIdxnode w.seq w.serdata.key).idxHash, m ∈ admin.idxHash ∨
      m = newIdxnode admin.nextIdxnode w.serdata.key admin.idxdepth w.seq := by
    intro m hm
    rcases mem_append.mp hm with hm | hm
    · exact .inl hm
    · exact .inr (mem_singleton.mp hm)
  refine ⟨?_, fun m hm ↦ ?_, fun v hv name hname ↦ ?_, fun m hm k hk hmk ↦ ?_, fun m hm ↦ ?_,
    fun m hm i t ↦ ?_, fun m hm v hv hname ↦ ?_⟩
  · refine pairwise_append.mpr ⟨h.ordered, pairwise_singleton _ _, fun a ha b hb ↦ ?_⟩
    rw [mem_singleton.mp hb]
    exact h.fresh a ha
  · rcases hidx m hm with hm | rfl
    · exact (h.fresh m hm).trans (Nat.lt_succ_self _)
    · exact Nat.lt_succ_self _
  · rcases hmem v hv with rfl | ⟨hv, -⟩
    · exact (some_inj.mp hname) ▸ Nat.lt_succ_self _
    · exact (h.known v hv name hname).trans (Nat.lt_succ_self _)
  · rcases hidx m hm with hm | rfl <;> rcases hidx k hk with hk | rfl
    · exact h.keys m hm k hk hmk
    · exact absurd hmk (hkey m hm)
    · exact absurd hmk.symm (hkey k hk)
    · rfl
  · rcases hidx m hm with hm | rfl
    · exact h.ring m hm
    · exact ringOk_new hdepth
  · rcases hidx m hm with hm | rfl
    · rw [h.entry m hm]
      constructor
      · rintro ⟨v, hv, hseq, hname, hpos⟩
        refine ⟨v, mem_modify_of_ne _ hv fun heq ↦ ?_, hseq, hname, hpos⟩
        rw [hord.eq_of_key hv hw heq, hnone] at hname
        simp at hname
      · rintro ⟨v, hv, hseq, hname, hpos⟩
        rcases hmem v hv with rfl | ⟨hv, -⟩
        · exact absurd (some_inj.mp hname) (h.fresh m hm).ne'
        · exact ⟨v, hv, hseq, hname, hpos⟩
    · rw [newIdxnode_holds]
      constructor
      · rintro ⟨rfl, rfl⟩
        exact ⟨_, hnew, rfl, rfl, rfl⟩
      · rintro ⟨v, hv, hseq, hname, hpos⟩
        rcases hmem v hv with rfl | ⟨hv, -⟩
        · exact ⟨hpos.symm, hseq.symm⟩
        · exact absurd (h.known v hv _ hname) (lt_irrefl _)
  · rcases hidx m hm with hm | rfl
    · rcases hmem v hv with rfl | ⟨hv, -⟩
      · exact absurd (some_inj.mp hname) (h.fresh m hm).ne'
      · exact h.key m hm v hv hname
    · rcases hmem v hv with rfl | ⟨hv, -⟩
      · rfl
      · exact absurd (h.known v hv _ hname) (lt_irrefl _)

def releaseOld (oldn : Option ℤ) (samples : List WhcSample) : List WhcSample :=
  match oldn with
  | none => samples
  | some o => KeyedList.modify WhcSample.seq o WhcSample.released samples

lemma mem_releaseOld {v : WhcSample} : v ∈ releaseOld oldn samples ↔
      (∃ w ∈ samples, oldn = some w.seq ∧ w.released = v) ∨ (v ∈ samples ∧ oldn ≠ some v.seq) := by
  cases oldn with
  | none => simp [releaseOld]
  | some o => simp [releaseOld, mem_modify, eq_comm (a := o)]

/-- A sample that is not in the index joins the ring of its instance, in the place of the oldest
one. -/
lemma IdxOk.push (h : IdxOk admin samples) (hord : KeyedList.Ordered seq samples)
    {n : WhcIdxnode} (hn : n ∈ admin.idxHash) {w : WhcSample} (hw : w ∈ samples)
    (hnone : w.idxnode = none) (hkey : w.serdata.key = n.key)
    (hlast : ∀ v ∈ samples, v.seq ≤ w.seq)
    (hold : ∀ s, n.Holds (next admin.idxdepth n.headidx) s ↔ oldn = some s) :
    IdxOk (admin.setIdxnode (n.push admin.idxdepth w.seq)) (modify seq w.seq
        (joined n.name (next admin.idxdepth n.headidx))
        (releaseOld oldn samples)) := by
  set pos := next admin.idxdepth n.headidx with hpos
  have hring := h.ring n hn
  have hne : ∀ v ∈ samples, ∀ name, v.idxnode = some name → v.seq ≠ w.seq := by
    intro v hv name hname heq
    rw [hord.eq_of_key hv hw heq, hnone] at hname
    simp at hname
  have hwkeep : w ∈ releaseOld oldn samples := by
    refine mem_releaseOld.mpr (.inr ⟨hw, fun heq ↦ ?_⟩)
    obtain ⟨v, hv, hseq, hname, -⟩ := (h.entry n hn _ _).mp ((hold w.seq).mpr heq)
    exact hne v hv _ hname hseq
  -- who is where afterwards
  have hmem : ∀ v ∈ modify seq w.seq (joined n.name pos)
      (releaseOld oldn samples), ∀ name, v.idxnode = some name →
      v = w.joined n.name pos ∨ (v ∈ samples ∧ v.seq ≠ w.seq ∧ oldn ≠ some v.seq) := by
    intro v hv name hname
    rcases mem_modify.mp hv with ⟨b, hb, hseq, rfl⟩ | ⟨hv, hvw⟩
    · rcases mem_releaseOld.mp hb with ⟨c, -, hco, rfl⟩ | ⟨hb, -⟩
      · obtain ⟨d, hd, hdseq, hdname, -⟩ := (h.entry n hn _ _).mp ((hold _).mpr hco)
        exact absurd (hdseq.trans hseq) (hne d hd _ hdname)
      · rw [hord.eq_of_key hb hw hseq]
        exact .inl rfl
    · rcases mem_releaseOld.mp hv with ⟨c, -, -, rfl⟩ | ⟨hv, hvo⟩
      · simp [released] at hname
      · exact .inr ⟨hv, hvw, hvo⟩
  have hkeep : ∀ v ∈ samples, ∀ name, v.idxnode = some name → oldn ≠ some v.seq →
      v ∈ modify seq w.seq (joined n.name pos) (releaseOld oldn samples) := by
    intro v hv name hname hvo
    exact mem_modify_of_ne _ (mem_releaseOld.mpr (.inr ⟨hv, hvo⟩)) (hne v hv name hname)
  refine h.setIdxnode hn (n.push admin.idxdepth w.seq) rfl rfl (hring.push fun i t ht ↦ ?_)
    (fun v hv name hname ↦ ?_) (fun i t ↦ ?_) (fun v hv hname ↦ ?_) fun m hm hmn ↦
      ⟨fun i t ↦ ?_, fun v hv hname ↦ ?_⟩
  · obtain ⟨v, hv, rfl, hname, -⟩ := (h.entry n hn i t).mp ht
    exact lt_of_le_of_ne (hlast v hv) (hne v hv _ hname)
  · rcases hmem v hv name hname with rfl | ⟨hv, -⟩
    · exact (some_inj.mp hname) ▸ h.fresh n hn
    · exact h.known v hv name hname
  · rw [hring.push_holds]
    constructor
    · rintro (⟨rfl, rfl⟩ | ⟨hi, ht⟩)
      · exact ⟨_, mem_modify_of_eq _ hwkeep rfl, rfl, rfl, rfl⟩
      · obtain ⟨v, hv, rfl, hname, rfl⟩ := (h.entry n hn i t).mp ht
        refine ⟨v, hkeep v hv _ hname fun heq ↦ hi ?_, rfl, hname, rfl⟩
        obtain ⟨u, hu, huseq, -, hupos⟩ := (h.entry n hn _ _).mp ((hold _).mpr heq)
        rw [← hord.eq_of_key hu hv huseq, hupos]
    · rintro ⟨v, hv, rfl, hname, rfl⟩
      rcases hmem v hv _ hname with rfl | ⟨hv, -, hvo⟩
      · exact .inl ⟨rfl, rfl⟩
      · have hholds := h.holds hn hv hname
        refine .inr ⟨fun heq ↦ hvo ((hold _).mp ?_), hholds⟩
        rwa [heq, ← hpos] at hholds
  · rcases hmem v hv _ hname with rfl | ⟨hv, -⟩
    · exact hkey
    · exact h.key n hn v hv hname
  · rw [h.entry m hm]
    constructor
    · rintro ⟨v, hv, rfl, hname, rfl⟩
      refine ⟨v, hkeep v hv _ hname fun heq ↦ hmn ?_, rfl, hname, rfl⟩
      obtain ⟨u, hu, huseq, huname, -⟩ := (h.entry n hn _ _).mp ((hold _).mpr heq)
      rw [hord.eq_of_key hu hv huseq, hname, some_inj] at huname
      exact h.eq_of_name hm hn huname
    · rintro ⟨v, hv, rfl, hname, rfl⟩
      rcases hmem v hv _ hname with rfl | ⟨hv, -⟩
      · exact absurd (h.eq_of_name hm hn (some_inj.mp hname).symm) hmn
      · exact ⟨v, hv, rfl, hname, rfl⟩
  · rcases hmem v hv _ hname with rfl | ⟨hv, -⟩
    · exact absurd (h.eq_of_name hm hn (some_inj.mp hname).symm) hmn
    · exact h.key m hm v hv hname

end IdxOk

end OpenSplice.Ddsi
