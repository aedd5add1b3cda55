import OpenSplice.Ddsi.Whc.Remove

/-!
# Inserting a sample

What `whc_insert` does. A new sample always goes to the end of the order. Unless it is empty or
there is no index, its instance is looked up; an unregister takes the instance out of the index
(`freeOneInstanceFromIdx_done`), and any other sample joins its ring, where it may push out the
oldest one (`pushSample_done`), or starts a new one.

`InsertShape` lists what can become of the store (`whcInsert_spec`). No pointer to a freed index
node is followed: samples are deleted after they were let go, or from a ring in the index.
-/

set_option autoImplicit false

namespace OpenSplice.Ddsi

open Library Library.Neighbour KeyedList List WhcStore WhcSample Ring WhcSettings SeqOk IntervalList

/-- The cache in order, as it is between two calls. No sample has a number above `last`. -/
structure WhcInv (last : ℤ) (whc : Whc) : Prop where
  ok : WhcOk last whc
  sized : Sized 0 whc
  maxseq : Greatest whc.seqs whc.maxseqNode
  depth : whc.idxdepth = max whc.hdepth whc.tldepth
  maxDropSeq_nonneg : 0 ≤ whc.maxDropSeq
  pruneSeq_le : ∀ n ∈ whc.idxHash, n.pruneSeq ≤ whc.maxDropSeq
  noStale : NoStale whc.maxDropSeq whc.toWhcAdmin whc.samples
  last_nonneg : 0 ≤ last

lemma whcInv_new (isTransientLocal : Bool) (hdepth tldepth sampleOverhead fragmentSize : ℕ) :
    WhcInv 0 (whcNew isTransientLocal hdepth tldepth sampleOverhead fragmentSize) := by
  have hseqs : (whcNew isTransientLocal hdepth tldepth sampleOverhead fragmentSize).seqs = ∅ :=
    Set.eq_empty_iff_forall_notMem.mpr fun x hx ↦ by simp [Whc.seqs, whcNew] at hx
  refine ⟨⟨⟨.nil, by simp [whcNew], by simp [whcNew], ?_, by simp [whcNew],
    by simp [hseqs]⟩, ?_⟩, rfl, ?_, ?_, le_refl _, by simp [whcNew],
    fun w hw ↦ absurd hw (by simp [Whc.samples, whcNew]), le_refl _⟩
  · rw [hseqs]
    refine ⟨pairwise_singleton _ _, fun x ↦ ?_, rfl, fun iv hiv ↦ .inr ?_⟩
    · simp only [whcNew, covers_cons, covers_nil, or_false, Set.mem_empty_iff_false, iff_false]
      omega
    · rw [mem_singleton.mp hiv]
      exact ⟨rfl, rfl, rfl⟩
  · exact ⟨.nil, by simp [whcNew], by simp [whcNew, Whc.samples], by simp [whcNew],
      by simp [whcNew], by simp [whcNew], by simp [whcNew]⟩
  · rw [hseqs]
    rfl
  · simp only [whcNew]
    split_ifs <;> omega

/-! ### The samples of an instance are let go -/

section Free

variable {last md : ℤ} {whc : Whc} {ndropped : ℕ}

lemma WhcOk.release (h : WhcOk last whc) {w : WhcSample} (hw : w ∈ whc.samples)
    (hidx : ∀ n ∈ whc.idxHash, w.idxnode ≠ some n.name) (hsized : Sized ndropped whc) :
    PruneDone last md ndropped whc (whc.modify w.seq released) := by
  have hsamples := @Whc.samples_modify whc w.seq released
  have hedit : StoreEdit md whc.store (whc.modify w.seq released).store := by
    have hstore : (whc.modify w.seq released).store = ⟨whc.toWhcAdmin,
        KeyedList.modify seq w.seq released whc.samples⟩ := by
      unfold Whc.store
      rw [hsamples]
      rfl
    rw [hstore]
    exact StoreEdit.release hw hidx
  refine ⟨⟨modify (fun _ ↦ rfl) h.seqOk, (hedit.ok h.storeOk).idx⟩, .single hedit, rfl, ?_⟩
  unfold Sized at *
  rw [hsamples, KeyedList.modify, length_map]
  exact hsized

lemma WhcOk.deleteReleased (h : WhcOk last whc) {w : WhcSample} (hw : w ∈ whc.samples)
    (hnone : w.idxnode = none) (hsized : Sized ndropped whc) (hle : w.seq ≤ md) :
    ∃ whc', whcDeleteOne whc w.seq = some whc' ∧ PruneDone last md ndropped whc whc' ∧
      whc'.samples = delete seq w.seq whc.samples ∧
      whc'.seqs = whc.seqs \ {w.seq} ∧ whc'.idxHash = whc.idxHash := by
  have hdel := @deleteOneSampleFromIdx_of_none whc.toWhcAdmin _ hnone
  obtain ⟨whc', hdelete, hdrop, hsize⟩ := h.deleteOne hw hdel
  have hout : ¬ InTl whc.toWhcAdmin w := by
    rintro ⟨n, -, hname, -⟩
    exact absurd (hnone.symm.trans hname) (by simp)
  have hedit : StoreEdit md whc.store whc'.store := by
    rw [hdrop.store]
    exact StoreEdit.drop hw hdel hle hout
  have hidx : whc'.idxHash = whc.idxHash := by
    have hadmin := congrArg (fun st ↦ st.admin.idxHash) hdrop.store
    exact hadmin.trans uncount_idxHash
  exact ⟨whc', hdelete, ⟨hdrop.ok, .single hedit, hdrop.maxseqNode,
    hdrop.sized hsize hsized⟩, congrArg samples hdrop.store, hdrop.seqs, hidx⟩

/-- What is left of the samples in `hist`, and of the others. -/
structure FreeDone (md : ℤ) (hist : List (Option ℤ)) (whc whc' : Whc) : Prop where
  idxHash : whc'.idxHash = whc.idxHash
  freed : ∀ w ∈ whc'.samples, some w.seq ∈ hist → w.idxnode = none ∧ md < w.seq
  others : ∀ w : WhcSample, some w.seq ∉ hist → (w ∈ whc'.samples ↔ w ∈ whc.samples)

/-- One place of the ring of an instance that is no longer in the index. -/
lemma freeSample_done {o : ℤ} (h : WhcOk last whc) (hsized : Sized ndropped whc) {w : WhcSample}
    (hw : w ∈ whc.samples) (hseq : w.seq = o)
    (hidx : ∀ n ∈ whc.idxHash, w.idxnode ≠ some n.name) :
    ∃ whc1, freeSample md whc o = some whc1 ∧
      PruneDone last md ndropped whc whc1 ∧ FreeDone md [some o] whc whc1 := by
  subst hseq
  have hrel := @WhcOk.release last md whc ndropped h w hw hidx hsized
  have hsamples := @Whc.samples_modify whc w.seq released
  have hmem : w.released ∈ (whc.modify w.seq released).samples := by
    rw [hsamples]
    exact mem_modify_of_eq _ hw rfl
  have hother : ∀ v, v.seq ≠ w.seq →
      (v ∈ (whc.modify w.seq released).samples ↔ v ∈ whc.samples) := by
    intro v hne
    rw [hsamples, mem_modify]
    constructor
    · rintro (⟨b, -, hbseq, rfl⟩ | ⟨hv, -⟩)
      · exact absurd hbseq hne
      · exact hv
    · exact fun hv ↦ .inr ⟨hv, hne⟩
  unfold freeSample
  by_cases hle : w.seq ≤ md
  · obtain ⟨whc1, hdelete, hdone, hsamples1, -, hidx1⟩ :=
      hrel.ok.deleteReleased hmem rfl hrel.sized hle
    rw [if_pos hle]
    refine ⟨whc1, hdelete, hrel.trans hdone, hidx1, fun v hv hvmem ↦ ?_, fun v hv ↦ ?_⟩
    · rw [hsamples1] at hv
      have hveq : v.seq = w.seq := by simpa using hvmem
      exact absurd hveq (mem_delete.mp hv).2
    · have hne : v.seq ≠ w.seq := by simpa using hv
      rw [hsamples1, mem_delete]
      exact ⟨fun hmem ↦ (hother v hne).mp hmem.1, fun hmem ↦ ⟨(hother v hne).mpr hmem, hne⟩⟩
  · rw [if_neg hle]
    refine ⟨_, rfl, hrel, rfl, fun v hv hvmem ↦ ?_, fun v hv ↦ ?_⟩
    · have hveq : v.seq = w.seq := by simpa using hvmem
      rw [hrel.ok.seqOk.samplesOrdered.eq_of_key hv hmem hveq]
      exact ⟨rfl, not_le.mp hle⟩
    · exact hother v (by simpa using hv)

/-- `free_one_instance_from_idx`, when the instance is no longer in the index. -/
lemma freeOneInstanceFromIdx_done (hist : List (Option ℤ)) {whc : Whc} (h : WhcOk last whc)
    (hsized : Sized ndropped whc) {name : ℕ} (hfree : ∀ n ∈ whc.idxHash, n.name ≠ name)
    (hhist : ∀ t, some t ∈ hist → ∃ w ∈ whc.samples, w.seq = t ∧ w.idxnode = some name)
    (hnodup : hist.Pairwise fun a b ↦ ∀ t, a = some t → b ≠ some t) :
    ∃ whc', freeOneInstanceFromIdx md hist whc = some whc' ∧
      PruneDone last md ndropped whc whc' ∧ FreeDone md hist whc whc' := by
  induction hist generalizing whc with
  | nil =>
    exact ⟨whc, rfl, h.pruneDone_self hsized, rfl, fun w _ hmem ↦ absurd hmem (by simp),
      fun w _ ↦ Iff.rfl⟩
  | cons a hist ih =>
    obtain ⟨hhead, htail⟩ := pairwise_cons.mp hnodup
    cases a with
    | none =>
      obtain ⟨whc', hrun, hdone, hfreed⟩ :=
        ih h hsized hfree (fun t ht ↦ hhist t (mem_cons_of_mem _ ht)) htail
      refine ⟨whc', hrun, hdone, hfreed.idxHash, fun w hw hmem ↦ ?_, fun w hmem ↦ ?_⟩
      · exact hfreed.freed w hw (by simpa using hmem)
      · exact hfreed.others w (by simpa using hmem)
    | some o =>
      obtain ⟨w, hw, hseq, hname⟩ := hhist o (mem_cons_self ..)
      obtain ⟨whc1, hone, hdone1, hfreed1⟩ := @freeSample_done last md _ _ _ h hsized _ hw hseq
        fun n hn heq ↦ hfree n hn (Option.mem_unique heq hname)
      have hstay : ∀ t, some t ∈ hist → t ≠ o := fun t ht heq ↦ hhead (some t) ht o rfl (heq ▸ rfl)
      obtain ⟨whc', hrun, hdone, hfreed⟩ := ih hdone1.ok hdone1.sized (hfreed1.idxHash ▸ hfree)
        (fun t ht ↦ by
          obtain ⟨v, hv, hvseq, hvname⟩ := hhist t (mem_cons_of_mem _ ht)
          have hne : some v.seq ∉ [some o] := by simpa [hvseq] using hstay t ht
          exact ⟨v, (hfreed1.others v hne).mpr hv, hvseq, hvname⟩) htail
      refine ⟨whc', ?_, hdone1.trans hdone, hfreed.idxHash.trans hfreed1.idxHash,
        fun v hv hmem ↦ ?_, fun v hmem ↦ ?_⟩
      · simp only [freeOneInstanceFromIdx, Option.bind_eq_bind, hone, Option.bind_some]
        exact hrun
      · rcases mem_cons.mp hmem with heq | hmem
        · have hnot : some v.seq ∉ hist := fun hin ↦ hstay v.seq hin (Option.some_inj.mp heq)
          exact hfreed1.freed v ((hfreed.others v hnot).mp hv) (by simp [heq])
        · exact hfreed.freed v hv hmem
      · have hnot : some v.seq ∉ hist := fun hin ↦ hmem (mem_cons_of_mem _ hin)
        have hne : some v.seq ∉ [some o] := fun hin ↦ hmem (by
          rw [mem_singleton.mp hin]
          exact mem_cons_self ..)
        rw [hfreed.others v hnot, hfreed1.others v hne]

lemma IdxOk.hist_pairwise {admin : WhcAdmin} {samples : List WhcSample} (h : IdxOk admin samples)
    (hord : KeyedList.Ordered seq samples) {n : WhcIdxnode} (hn : n ∈ admin.idxHash) :
    n.hist.Pairwise fun a b ↦ ∀ t, a = some t → b ≠ some t := by
  refine pairwise_iff_getElem.mpr fun i j hi hj hij t ha hb ↦ ?_
  have hholdsi : n.Holds i t := by rw [WhcIdxnode.Holds, getElem?_eq_getElem hi, ha]
  have hholdsj : n.Holds j t := by rw [WhcIdxnode.Holds, getElem?_eq_getElem hj, hb]
  obtain ⟨v, hv, hvseq, -, hvpos⟩ := (h.entry n hn i t).mp hholdsi
  obtain ⟨w, hw, hwseq, -, hwpos⟩ := (h.entry n hn j t).mp hholdsj
  have hvw := hord.eq_of_key hv hw (hvseq.trans hwseq.symm)
  rw [← hvpos, ← hwpos, hvw] at hij
  exact lt_irrefl _ hij

lemma WhcIdxnode.mem_hist_iff {n : WhcIdxnode} {t : ℤ} : some t ∈ n.hist ↔ ∃ i, n.Holds i t :=
  mem_iff_getElem?

lemma deleteOneInstanceFromIdx_done (h : WhcOk last whc) (hsized : Sized ndropped whc)
    {n : WhcIdxnode} (hn : n ∈ whc.idxHash) :
    ∃ whc', deleteOneInstanceFromIdx whc md n = some whc' ∧ PruneDone last md ndropped
        { whc with toWhcAdmin := whc.toWhcAdmin.freeIdxnode n.name } whc' ∧
      FreeDone md n.hist { whc with toWhcAdmin := whc.toWhcAdmin.freeIdxnode n.name } whc' := by
  refine freeOneInstanceFromIdx_done n.hist ⟨h.seqOk.of_eq rfl rfl rfl, h.idxOk.free n.name⟩ hsized
    (fun m hm ↦ (mem_freeIdxnode.mp hm).2) (fun t ht ↦ ?_)
    (h.idxOk.hist_pairwise h.seqOk.samplesOrdered hn)
  obtain ⟨i, hi⟩ := WhcIdxnode.mem_hist_iff.mp ht
  obtain ⟨w, hw, hseq, hname, -⟩ := (h.idxOk.entry n hn i t).mp hi
  exact ⟨w, hw, hseq, hname⟩

end Free

/-! ### What becomes of the store -/

def WhcStore.insertSeq (st : WhcStore) (md s : ℤ) (d : WhcSerdata) : WhcStore :=
  ⟨st.admin.count (newSample md s d), st.samples ++ [newSample md s d]⟩

def WhcStore.freeIdxnode (st : WhcStore) (name : ℕ) : WhcStore :=
  ⟨st.admin.freeIdxnode name, st.samples⟩

/-- The store with the sample `s` at the head of a ring. -/
def WhcStore.push (st : WhcStore) (n : WhcIdxnode) (s : ℤ) : WhcStore :=
  ⟨st.admin.setIdxnode (n.push st.admin.idxdepth s),
    KeyedList.modify WhcSample.seq s
      (WhcSample.joined n.name (Ring.next st.admin.idxdepth n.headidx))
      (releaseOld n.hist[Ring.next st.admin.idxdepth n.headidx]?.join st.samples)⟩

/-- The store with a new instance for the sample `s`. -/
def WhcStore.addIdxnode (st : WhcStore) (s : ℤ) (key : ℕ) : WhcStore :=
  ⟨st.admin.addIdxnode s key,
    KeyedList.modify WhcSample.seq s (WhcSample.joined st.admin.nextIdxnode 0) st.samples⟩

/-- The sample that was overwritten goes, unless it may have to be retransmitted. -/
inductive DropOld (md : ℤ) (oldn : Option ℤ) (st : WhcStore) : WhcStore → Prop
  | keep (hkeep : ∀ o, oldn = some o → ¬ (0 < st.admin.hdepth ∨ o ≤ md)) : DropOld md oldn st st
  | drop {w : WhcSample} (hw : w ∈ st.samples) (hold : oldn = some w.seq)
      (hdrop : 0 < st.admin.hdepth ∨ w.seq ≤ md) (hnone : w.idxnode = none) :
      DropOld md oldn st
        ⟨st.admin.uncount w, KeyedList.delete WhcSample.seq w.seq st.samples⟩

/-- What `whc_insert` makes of the store. -/
inductive InsertShape (md s : ℤ) (d : WhcSerdata) (st st' : WhcStore) : Prop
  | plain (hd : d.isEmpty = true ∨ st.admin.idxdepth = 0) (heq : st' = st.insertSeq md s d)
  | unregister {n : WhcIdxnode} (hd : d.isEmpty = false) (hdepth : st.admin.idxdepth ≠ 0)
      (hun : d.unregister = true) (hn : n ∈ st.admin.idxHash) (hkey : n.key = d.key)
      (hedits : StoreEdits md ((st.insertSeq md s d).freeIdxnode n.name) st')
      (hfreed : ∀ w ∈ st'.samples, some w.seq ∈ n.hist → w.idxnode = none ∧ md < w.seq)
      (hidx : st'.admin.idxHash = (st.admin.freeIdxnode n.name).idxHash)
  | unknown (hd : d.isEmpty = false) (hdepth : st.admin.idxdepth ≠ 0) (hun : d.unregister = true)
      (hkey : ∀ n ∈ st.admin.idxHash, n.key ≠ d.key)
      (hedits : StoreEdits md (st.insertSeq md s d) st')
      (hidx : st'.admin.idxHash = st.admin.idxHash)
  | push {n : WhcIdxnode} {st₁ : WhcStore} (hd : d.isEmpty = false)
      (hdepth : st.admin.idxdepth ≠ 0) (hun : d.unregister = false) (hn : n ∈ st.admin.idxHash)
      (hkey : n.key = d.key)
      (hold : DropOld md n.hist[Ring.next st.admin.idxdepth n.headidx]?.join
        ((st.insertSeq md s d).push n s) st₁) (hok : StoreOk st₁)
      (hedits : StoreEdits md st₁ st') (htl : st.admin.tldepth = 0 → st' = st₁)
  | fresh (hd : d.isEmpty = false) (hdepth : st.admin.idxdepth ≠ 0) (hun : d.unregister = false)
      (hkey : ∀ n ∈ st.admin.idxHash, n.key ≠ d.key)
      (heq : st' = (st.insertSeq md s d).addIdxnode s d.key)

section Count

variable {admin : WhcAdmin} {w : WhcSample}

@[simp] lemma count_settings : (admin.count w).toWhcSettings = admin.toWhcSettings := by
  unfold WhcAdmin.count
  split_ifs <;> rfl

@[simp] lemma count_idxHash : (admin.count w).idxHash = admin.idxHash := by
  unfold WhcAdmin.count
  split_ifs <;> rfl

@[simp] lemma count_nextIdxnode : (admin.count w).nextIdxnode = admin.nextIdxnode := by
  unfold WhcAdmin.count
  split_ifs <;> rfl

end Count

/-! ### The branches of an insertion -/

section Insert

variable {last md s : ℤ} {whc : Whc} {d : WhcSerdata} {w : WhcSample} {n : WhcIdxnode}

/-- The cache after a call that has inserted `s`, but for what the settings say. -/
structure Inserted (s : ℤ) (whc' : Whc) : Prop where
  ok : WhcOk s whc'
  sized : Sized 0 whc'
  maxseq : Greatest whc'.seqs whc'.maxseqNode

lemma WhcInv.insertSeq (h : WhcInv last whc) (hs : last < s) (md : ℤ) (d : WhcSerdata) :
    ∃ whc1, whcInsertSeq whc md s d = some whc1 ∧ Inserted s whc1 ∧
      whc1.store = whc.store.insertSeq md s d ∧ whc1.maxseqNode = some s ∧
      (∀ x ∈ whc1.seqs, x ≤ s) := by
  obtain ⟨whc1, hrun, hseqOk, hadmin, hsamples, hseqs, hmaxseq, hsize⟩ :=
    h.ok.seqOk.insertSeq h.maxseq md hs (h.last_nonneg.trans_lt hs) d
  have hstore : whc1.store = whc.store.insertSeq md s d := by
    unfold Whc.store WhcStore.insertSeq
    rw [hadmin, hsamples]
  have hidx : IdxOk whc1.toWhcAdmin whc1.samples := by
    rw [hadmin, hsamples]
    exact (h.ok.idxOk.concat rfl).of_eq count_idxHash
      (congrArg idxdepth count_settings) count_nextIdxnode
  refine ⟨whc1, hrun, ⟨⟨hseqOk, hidx⟩, ?_, ?_⟩, hstore, hmaxseq, fun x hx ↦ hseqOk.le_last hx⟩
  · have hsized := h.sized
    unfold Sized at *
    rw [hsize, hsamples, length_append, length_singleton]
    omega
  · rw [hmaxseq, hseqs]
    exact greatest_insert_last fun x hx ↦ (h.ok.seqOk.le_last hx).trans_lt hs

/-- The order of a cache that has inserted `s` is right when `s` is there. -/
lemma WhcOk.greatest (h : WhcOk s whc) (hs : s ∈ whc.seqs) : Greatest whc.seqs (some s) :=
  ⟨hs, fun _ hx ↦ h.seqOk.le_last hx⟩

lemma store_joinRing (n : WhcIdxnode) (s : ℤ) : (joinRing whc s n).store = whc.store.push n s := by
  have hsamples : (joinRing whc s n).samples = modify seq s
        (joined n.name (next whc.idxdepth n.headidx))
        (releaseOld n.hist[next whc.idxdepth n.headidx]?.join whc.samples) := by
    have hold : ∀ oldn, (whc.releaseOld oldn).samples = releaseOld oldn whc.samples := by
      intro oldn
      cases oldn with
      | none => rfl
      | some o => exact Whc.samples_modify o released
    rw [← hold, ← Whc.samples_modify]
    rfl
  unfold Whc.store push
  rw [hsamples]
  rfl

/-- The sample behind the transient-local history goes when a sample needs no acknowledgement. -/
lemma WhcOk.pruneBehindTl_done (h : WhcOk s whc) (hsized : Sized 0 whc) (hs : s ∈ whc.seqs)
    (hmax : whc.maxseqNode = some s) (hn : n ∈ whc.idxHash) (hhead : n.Holds n.headidx s) (md : ℤ) :
    ∃ whc', pruneBehindTl whc md s n.name = some whc' ∧ Inserted s whc' ∧
      StoreEdits md whc.store whc'.store ∧ (whc.tldepth = 0 → whc' = whc) ∧
      ∀ x' ∈ whc'.idxHash, ∃ x ∈ whc.idxHash, x'.pruneSeq = x.pruneSeq := by
  have hself : ∃ whc', some whc = some whc' ∧ Inserted s whc' ∧
      StoreEdits md whc.store whc'.store ∧ (whc.tldepth = 0 → whc' = whc) ∧
      ∀ x' ∈ whc'.idxHash, ∃ x ∈ whc.idxHash, x'.pruneSeq = x.pruneSeq :=
    ⟨whc, rfl, ⟨h, hsized, hmax ▸ h.greatest hs⟩, .refl, fun _ ↦ rfl, fun x hx ↦ ⟨x, hx, rfl⟩⟩
  unfold pruneBehindTl
  by_cases hcond : s ≤ md ∧ 0 < whc.tldepth ∧ whc.tldepth < whc.idxdepth
  · obtain ⟨hle, htl, hlt⟩ := hcond
    have hring := h.idxOk.ring n hn
    have hage := age_place hring.headidx_lt hlt
    have hfind : whc.findIdxnode n.name = some n := h.idxOk.findIdxnode hn
    rw [if_pos ⟨hle, htl, hlt⟩]
    simp only [Option.bind_eq_bind, hfind, Option.bind_some]
    cases hold : n.hist[place whc.idxdepth n.headidx whc.tldepth]?.join with
    | none => exact hself
    | some o =>
      have ho := WhcIdxnode.holds_iff_join.mpr hold
      have hos : o < s := hring.aged _ _ _ _ hhead ho (by rw [age_head, hage]; exact htl)
      obtain ⟨whc', hdelete, hdone, -, hnodes⟩ :=
        h.deleteBehind (m := md) hsized hn ho hage.ge htl (hos.le.trans hle)
      refine ⟨whc', hdelete, ⟨hdone.ok, hdone.sized, ?_⟩, hdone.edits, fun hzero ↦ ?_,
        fun x' hx' ↦ ?_⟩
      · rw [hdone.maxseqNode, hmax]
        -- the new sample is at the head, so it stays
        obtain ⟨w, hw, hwseq, hwname, hwpos⟩ := (h.idxOk.entry n hn _ s).mp hhead
        obtain ⟨u, hu, huseq, -⟩ := StoreEdits.inTl hdone.edits h.storeOk hw
          ⟨n, hn, hwname, by rw [hwpos, age_head]; exact htl⟩
        exact hdone.ok.greatest (Whc.mem_seqs_iff.mpr ⟨u, hu, huseq.trans hwseq⟩)
      · exact absurd hzero htl.ne'
      · obtain ⟨x, hx, -, heq⟩ := hnodes x' hx'
        exact ⟨x, hx, heq⟩
  · rw [if_neg hcond]
    exact hself

section

variable (h : Inserted s whc)
include h

lemma Inserted.deleteNewn_done (hw : w ∈ whc.samples) (hseq : w.seq = s)
    (hnone : w.idxnode = none) (hmax : whc.maxseqNode = some s) (md : ℤ) :
    ∃ whc', deleteNewn whc md s = some whc' ∧ Inserted s whc' ∧
      StoreEdits md whc.store whc'.store ∧ whc'.idxHash = whc.idxHash := by
  subst hseq
  unfold deleteNewn
  split_ifs with hle
  · obtain ⟨v, hv, hvseq, hfind⟩ := h.ok.seqOk.exists_findseq (Whc.seq_mem hw)
    obtain ⟨whc', hdelete, hdone, -, hseqs, hidx⟩ := h.ok.deleteReleased hw hnone h.sized hle
    simp only [Option.bind_eq_bind, hfind, Option.bind_some, hdelete]
    refine ⟨_, rfl, ⟨⟨hdone.ok.seqOk.of_eq rfl rfl rfl, hdone.ok.idxOk⟩, hdone.sized, ?_⟩,
      hdone.edits, hidx⟩
    have hgreatest := h.maxseq
    have hprev := h.ok.seqOk.prev v hv
    rw [hmax] at hgreatest
    rw [hvseq] at hprev
    have hremove := hgreatest.remove_last hprev
    rw [← hseqs] at hremove
    exact hremove
  · exact ⟨whc, rfl, h, .refl, rfl⟩

section

variable (hn : n ∈ whc.idxHash) (hw : w ∈ whc.samples) (hseq : w.seq = s) (hnone : w.idxnode = none)
include hn hw hseq hnone

lemma Inserted.unregister_done (hmax : whc.maxseqNode = some s) (md : ℤ) :
    ∃ whc', (deleteOneInstanceFromIdx whc md n).bind (fun whc ↦ deleteNewn whc md s) = some whc' ∧
      Inserted s whc' ∧ StoreEdits md (whc.store.freeIdxnode n.name) whc'.store ∧
      (∀ v ∈ whc'.samples, some v.seq ∈ n.hist → v.idxnode = none ∧ md < v.seq) ∧
      whc'.idxHash = (whc.toWhcAdmin.freeIdxnode n.name).idxHash := by
  obtain ⟨whc1, hrun, hdone, hfreed⟩ := @deleteOneInstanceFromIdx_done _ md _ _ h.ok h.sized _ hn
  have hnot : some w.seq ∉ n.hist := by
    intro hin
    obtain ⟨i, hi⟩ := WhcIdxnode.mem_hist_iff.mp hin
    obtain ⟨v, hv, hvseq, hvname, -⟩ := (h.ok.idxOk.entry n hn i _).mp hi
    rw [h.ok.seqOk.samplesOrdered.eq_of_key hv hw hvseq, hnone] at hvname
    simp at hvname
  have hw1 : w ∈ whc1.samples := (hfreed.others w hnot).mpr hw
  have hmax1 : whc1.maxseqNode = some s := hdone.maxseqNode.trans hmax
  have hins1 : Inserted s whc1 := by
    refine ⟨hdone.ok, hdone.sized, ?_⟩
    rw [hmax1]
    exact hdone.ok.greatest (Whc.mem_seqs_iff.mpr ⟨w, hw1, hseq⟩)
  obtain ⟨whc2, hrun2, hins2, hedits2, hidx2⟩ := hins1.deleteNewn_done hw1 hseq hnone hmax1 md
  refine ⟨whc2, by rw [hrun, Option.bind_some, hrun2], hins2, hdone.edits.trans hedits2,
    fun v hv hmem ↦ ?_, hidx2.trans hfreed.idxHash⟩
  obtain ⟨u, hu, huseq, -, -, -, huidx⟩ := StoreEdits.back hedits2 hv
  obtain ⟨hunone, hult⟩ := hfreed.freed u hu (huseq ▸ hmem)
  rw [hunone, or_self] at huidx
  exact ⟨huidx, huseq ▸ hult⟩

lemma Inserted.joinRing_done (hkey : n.key = w.serdata.key) :
    WhcOk s (joinRing whc s n) ∧ Sized 0 (joinRing whc s n) ∧
      (joinRing whc s n).seqs = whc.seqs ∧ (joinRing whc s n).maxseqNode = whc.maxseqNode := by
  subst hseq
  have hstore := @store_joinRing whc n w.seq
  have hsamples : (joinRing whc w.seq n).samples = _ := congrArg samples hstore
  have hadmin : (joinRing whc w.seq n).toWhcAdmin = _ := congrArg admin hstore
  have hold : ∀ oldn, SeqOk w.seq (whc.releaseOld oldn) ∧ (whc.releaseOld oldn).seqs = whc.seqs ∧
      (whc.releaseOld oldn).seqHash.length = whc.seqHash.length ∧
      (whc.releaseOld oldn).maxseqNode = whc.maxseqNode ∧
      (whc.releaseOld oldn).seqSize = whc.seqSize := by
    intro oldn
    cases oldn with
    | none => exact ⟨h.ok.seqOk, rfl, rfl, rfl, rfl⟩
    | some =>
      refine ⟨modify (fun _ ↦ rfl) h.ok.seqOk, Whc.seqs_modify fun _ ↦ rfl, ?_, rfl, rfl⟩
      exact length_map ..
  obtain ⟨hseqOk, hseqs, hlength, hmax, hsize⟩ := hold n.hist[next whc.idxdepth n.headidx]?.join
  refine ⟨⟨?_, ?_⟩, ?_, ?_, hmax⟩
  · exact (modify (s := w.seq) (f := joined n.name _) (fun _ ↦ rfl) hseqOk).of_eq rfl rfl rfl
  · rw [hsamples, hadmin]
    refine h.ok.idxOk.push h.ok.seqOk.samplesOrdered hn hw hnone hkey.symm (fun v hv ↦ ?_)
      fun t ↦ WhcIdxnode.holds_iff_join
    exact h.ok.seqOk.le_last (Whc.seq_mem hv)
  · have hsized := h.sized
    unfold Sized at *
    have hlen : (joinRing whc w.seq n).samples.length = whc.samples.length := by
      simp only [Whc.samples, length_map]
      rw [← hlength]
      exact length_map ..
    rw [hlen]
    exact hsize.trans hsized
  · rw [← hseqs]
    exact Whc.seqs_modify (s := w.seq) (f := joined n.name _) fun _ ↦ rfl

/-- The sample that a ring has overwritten is no longer in the index. -/
lemma Inserted.exists_old {o : ℤ} (ho : n.hist[Ring.next whc.idxdepth n.headidx]?.join = some o) :
    o ≠ s ∧ ∃ v ∈ (joinRing whc s n).samples, v.seq = o ∧ v.idxnode = none := by
  obtain ⟨u, hu, huseq, huname, -⟩ :=
    (h.ok.idxOk.entry n hn _ o).mp (WhcIdxnode.holds_iff_join.mpr ho)
  have hne : u.seq ≠ s := by
    intro heq
    rw [h.ok.seqOk.samplesOrdered.eq_of_key hu hw (heq.trans hseq.symm), hnone] at huname
    simp at huname
  have hsamples : (joinRing whc s n).samples = (whc.store.push n s).samples :=
    congrArg samples (store_joinRing n s)
  refine ⟨huseq ▸ hne, u.released, ?_, huseq, rfl⟩
  rw [hsamples]
  exact mem_modify_of_ne _ (mem_releaseOld.mpr (.inl ⟨u, hu, ho.trans (by rw [huseq]), rfl⟩)) hne

open DropOld

/-- A sample of an instance in the index joins its ring, and the overwritten one may go. -/
lemma Inserted.pushSample_done (hkey : n.key = w.serdata.key)
    (hmax : whc.maxseqNode = some s) (md : ℤ) :
    ∃ whc1, pushSample whc md s n = some whc1 ∧ WhcOk s whc1 ∧ Sized 0 whc1 ∧ s ∈ whc1.seqs ∧
      whc1.maxseqNode = some s ∧
      DropOld md n.hist[Ring.next whc.idxdepth n.headidx]?.join (whc.store.push n s) whc1.store ∧
      whc1.idxHash = (whc.toWhcAdmin.setIdxnode (n.push whc.idxdepth s)).idxHash := by
  obtain ⟨hok, hsized, hseqs, hmaxEq⟩ := h.joinRing_done hn hw hseq hnone hkey
  have hstore := @store_joinRing whc n s
  have hs : s ∈ (joinRing whc s n).seqs := by
    rw [hseqs]
    exact Whc.mem_seqs_iff.mpr ⟨w, hw, hseq⟩
  unfold pushSample
  cases hold : n.hist[next whc.idxdepth n.headidx]?.join with
  | none =>
    refine ⟨_, rfl, hok, hsized, hs, hmaxEq.trans hmax, ?_, rfl⟩
    rw [hstore]
    exact keep fun o ho ↦ absurd ho (by simp)
  | some o =>
    dsimp only
    split_ifs with hdrop
    · obtain ⟨hne, v, hv, rfl, hvnone⟩ := h.exists_old hn hw hseq hnone hold
      have hdel := @deleteOneSampleFromIdx_of_none (joinRing whc s n).toWhcAdmin _ hvnone
      obtain ⟨whc1, hdelete, hdropped, hsize⟩ := hok.deleteOne hv hdel
      have hshape : DropOld md (some v.seq) (joinRing whc s n).store whc1.store := by
        rw [hdropped.store]
        exact drop hv rfl hdrop hvnone
      refine ⟨whc1, hdelete, hdropped.ok, hdropped.sized hsize hsized, ?_,
        hdropped.maxseqNode.trans (hmaxEq.trans hmax), hstore ▸ hshape, ?_⟩
      · rw [hdropped.seqs]
        exact ⟨hs, fun heq ↦ hne (Set.mem_singleton_iff.mp heq).symm⟩
      · have hadmin := congrArg (fun st ↦ st.admin.idxHash) hdropped.store
        exact hadmin.trans uncount_idxHash
    · refine ⟨_, rfl, hok, hsized, hs, hmaxEq.trans hmax, ?_, rfl⟩
      rw [hstore]
      refine keep fun o' ho' ↦ ?_
      obtain rfl := Option.some_inj.mp ho'
      exact hdrop

end

lemma Inserted.addIdxnode_done (hw : w ∈ whc.samples) (hseq : w.seq = s)
    (hnone : w.idxnode = none) (hdepth : whc.idxdepth ≠ 0)
    (hkey : ∀ n ∈ whc.idxHash, n.key ≠ w.serdata.key) :
    Inserted s (addIdxnode whc s w.serdata.key) ∧
      (addIdxnode whc s w.serdata.key).store = whc.store.addIdxnode s w.serdata.key := by
  subst hseq
  have hstore : (addIdxnode whc w.seq w.serdata.key).store =
      whc.store.addIdxnode w.seq w.serdata.key := by
    have hsamples := @Whc.samples_modify whc w.seq (joined whc.nextIdxnode 0)
    unfold WhcStore.addIdxnode
    rw [show whc.store.samples = whc.samples from rfl,
      show whc.store.admin.nextIdxnode = whc.nextIdxnode from rfl, ← hsamples]
    rfl
  have hsamples : (addIdxnode whc w.seq w.serdata.key).samples = _ :=
    congrArg WhcStore.samples hstore
  have hseqs : (addIdxnode whc w.seq w.serdata.key).seqs = whc.seqs :=
    Whc.seqs_modify (s := w.seq) (f := joined whc.nextIdxnode 0) fun _ ↦ rfl
  refine ⟨⟨⟨?_, ?_⟩, ?_, ?_⟩, hstore⟩
  · exact (modify (s := w.seq) (f := joined whc.nextIdxnode 0) (fun _ ↦ rfl)
      h.ok.seqOk).of_eq rfl rfl rfl
  · rw [hsamples]
    exact h.ok.idxOk.addIdxnode h.ok.seqOk.samplesOrdered hw hnone (Nat.pos_of_ne_zero hdepth) hkey
  · have hsized := h.sized
    unfold Sized at *
    rw [hsamples, WhcStore.addIdxnode, KeyedList.modify, length_map]
    exact hsized
  · rw [hseqs]
    exact h.maxseq

end

lemma DropOld.settings {oldn : Option ℤ} {st st' : WhcStore} (h : DropOld md oldn st st') :
    st'.admin.toWhcSettings = st.admin.toWhcSettings := by
  cases h with
  | keep => rfl
  | drop => exact uncount_settings

lemma InsertShape.settings {st st' : WhcStore} (h : InsertShape md s d st st') :
    st'.admin.toWhcSettings = st.admin.toWhcSettings := by
  cases h with
  | unregister _ _ _ _ _ hedits
  | unknown _ _ _ _ hedits => exact (StoreEdits.settings hedits).trans count_settings
  | push _ _ _ _ _ hold _ hedits =>
    exact ((StoreEdits.settings hedits).trans hold.settings).trans count_settings
  | plain _ heq | fresh _ _ _ _ heq => rw [heq]; exact count_settings

/-- Without an index a sample is only put behind the others. -/
lemma InsertShape.eq_insertSeq {st st' : WhcStore} (h : InsertShape md s d st st')
    (hidx : st.admin.idxdepth = 0) : st' = st.insertSeq md s d := by
  cases h with
  | plain _ heq => exact heq
  | unregister _ hdepth
  | unknown _ hdepth
  | push _ hdepth
  | fresh _ hdepth => exact absurd hidx hdepth

end Insert

/-! ### What an insertion leaves -/

section Shape

variable {md s cur : ℤ} {d : WhcSerdata} {st st' : WhcStore} {w : WhcSample} {n : WhcIdxnode}
  {o : Option ℤ}

lemma WhcStore.mem_insertSeq :
    w ∈ (st.insertSeq md s d).samples ↔ w ∈ st.samples ∨ w = newSample md s d := by
  simp [insertSeq]

lemma WhcStore.mem_push (hw : w ∈ (st.push n s).samples) :
    ∃ v ∈ st.samples, v.seq = w.seq ∧ v.serdata = w.serdata ∧ v.unacked = w.unacked ∧
      ((w.seq = s ∧ w.idxnode = some n.name) ∨
        (w.seq ≠ s ∧ n.hist[Ring.next st.admin.idxdepth n.headidx]?.join = some w.seq ∧
          w.idxnode = none) ∨
        (w.seq ≠ s ∧ w = v)) := by
  rcases mem_modify.mp hw with ⟨u, hu, huseq, rfl⟩ | ⟨hw, hne⟩
  · rcases mem_releaseOld.mp hu with ⟨v, hv, -, rfl⟩ | ⟨hu, -⟩
    · exact ⟨v, hv, rfl, rfl, rfl, .inl ⟨huseq, rfl⟩⟩
    · exact ⟨u, hu, rfl, rfl, rfl, .inl ⟨huseq, rfl⟩⟩
  · rcases mem_releaseOld.mp hw with ⟨v, hv, hold, rfl⟩ | ⟨hw, -⟩
    · exact ⟨v, hv, rfl, rfl, rfl, .inr (.inl ⟨hne, hold, rfl⟩)⟩
    · exact ⟨w, hw, rfl, rfl, rfl, .inr (.inr ⟨hne, rfl⟩)⟩

lemma WhcStore.mem_addIdxnode {key : ℕ} (hw : w ∈ (st.addIdxnode s key).samples) :
    ∃ v ∈ st.samples, v.seq = w.seq ∧ v.serdata = w.serdata ∧ v.unacked = w.unacked ∧
      ((w.seq = s ∧ w.idxnode = some st.admin.nextIdxnode) ∨ (w.seq ≠ s ∧ w = v)) := by
  rcases mem_modify.mp hw with ⟨v, hv, hseq, rfl⟩ | ⟨hw, hne⟩
  · exact ⟨v, hv, rfl, rfl, rfl, .inl ⟨hseq, rfl⟩⟩
  · exact ⟨w, hw, rfl, rfl, rfl, .inr ⟨hne, rfl⟩⟩

lemma DropOld.back (h : DropOld md o st st') (hw : w ∈ st'.samples) : w ∈ st.samples := by
  cases h with
  | keep => exact hw
  | drop => exact (mem_delete.mp hw).1

lemma DropOld.idxHash (h : DropOld md o st st') : st'.admin.idxHash = st.admin.idxHash := by
  cases h with
  | keep => rfl
  | drop => exact uncount_idxHash

lemma InsertShape.back (h : InsertShape md s d st st') (hw : w ∈ st'.samples) :
    ∃ v, (v ∈ st.samples ∨ v = newSample md s d) ∧ v.seq = w.seq ∧ v.serdata = w.serdata ∧
      FlagKept md v w := by
  cases h with
  | plain _ heq =>
    rw [heq] at hw
    exact ⟨w, mem_insertSeq.mp hw, rfl, rfl, .of_eq rfl⟩
  | unregister _ _ _ _ _ hedits | unknown _ _ _ _ hedits =>
    obtain ⟨v, hv, hseq, hserdata, -, hunacked, -⟩ := StoreEdits.back hedits hw
    exact ⟨v, mem_insertSeq.mp hv, hseq, hserdata, hunacked⟩
  | push _ _ _ _ _ hold _ hedits =>
    obtain ⟨u, hu, huseq, huserdata, -, huunacked, -⟩ := StoreEdits.back hedits hw
    obtain ⟨v, hv, hseq, hserdata, hunacked, -⟩ := mem_push (hold.back hu)
    exact ⟨v, mem_insertSeq.mp hv, hseq.trans huseq, hserdata.trans huserdata,
      fun hw ↦ hunacked.trans (huunacked.set hw), fun hlt ↦ hunacked.trans (huunacked.above hlt)⟩
  | fresh _ _ _ _ heq =>
    rw [heq] at hw
    obtain ⟨v, hv, hseq, hserdata, hunacked, -⟩ := mem_addIdxnode hw
    exact ⟨v, mem_insertSeq.mp hv, hseq, hserdata, .of_eq hunacked⟩

lemma WhcStore.noStale_insertSeq (hstale : NoStale cur st.admin st.samples) :
    NoStale cur (st.insertSeq md s d).admin (st.insertSeq md s d).samples := by
  intro w hw hlt name hname
  rcases mem_insertSeq.mp hw with hw | rfl
  · obtain ⟨n, hn, hnname⟩ := hstale w hw hlt name hname
    exact ⟨n, count_idxHash.symm ▸ hn, hnname⟩
  · simp [newSample] at hname

lemma WhcStore.noStale_push (hn : n ∈ st.admin.idxHash) (hstale : NoStale cur st.admin st.samples) :
    NoStale cur (st.push n s).admin (st.push n s).samples := by
  have hself : n.push st.admin.idxdepth s ∈ (st.push n s).admin.idxHash :=
    mem_setIdxnode.mpr (.inl ⟨rfl, n, hn, rfl⟩)
  intro w hw hlt name hname
  obtain ⟨v, hv, -, -, -, ⟨-, hjoined⟩ | ⟨-, -, hnone⟩ | ⟨-, rfl⟩⟩ := mem_push hw
  · exact ⟨_, hself, Option.mem_unique hjoined hname⟩
  · exact absurd (hnone.symm.trans hname) (by simp)
  · obtain ⟨k, hk, hkname⟩ := hstale w hv hlt name hname
    by_cases heq : k.name = n.name
    · exact ⟨_, hself, heq.symm.trans hkname⟩
    · exact ⟨k, mem_setIdxnode.mpr (.inr ⟨hk, heq⟩), hkname⟩

lemma InsertShape.noStale (h : InsertShape md s d st st') (hok : StoreOk st)
    (hstale : NoStale cur st.admin st.samples) : NoStale cur st'.admin st'.samples := by
  have hstale1 : NoStale cur (st.insertSeq md s d).admin (st.insertSeq md s d).samples :=
    noStale_insertSeq hstale
  cases h with
  | plain _ heq =>
    rw [heq]
    exact hstale1
  | @unregister _ _ _ _ hn _ hedits hfreed hidx =>
    intro w hw hlt name hname
    obtain ⟨v, hv, hseq, -, -, -, hvidx⟩ := StoreEdits.back hedits hw
    rw [hname] at hvidx
    have hvname := (hvidx.resolve_left (by simp)).symm
    rcases mem_insertSeq.mp hv with hvold | rfl
    · obtain ⟨k, hk, rfl⟩ := hstale v hvold (hseq ▸ hlt) name hvname
      refine ⟨k, ?_, rfl⟩
      rw [hidx]
      refine mem_freeIdxnode.mpr ⟨hk, fun heq ↦ ?_⟩
      -- all samples of the instance were let go
      obtain rfl := hok.idx.eq_of_name hk hn heq
      have hmem := WhcIdxnode.mem_hist_iff.mpr ⟨_, hok.idx.holds hk hvold hvname⟩
      exact absurd (hname.symm.trans (hfreed w hw (hseq ▸ hmem)).1) (by simp)
    · simp [newSample] at hvname
  | unknown _ _ _ _ hedits hidx =>
    intro w hw hlt name hname
    obtain ⟨v, hv, hseq, -, -, -, hvidx⟩ := StoreEdits.back hedits hw
    rw [hname] at hvidx
    rw [hidx, ← count_idxHash (w := newSample md s d)]
    exact hstale1 v hv (hseq ▸ hlt) name (hvidx.resolve_left (by simp)).symm
  | @push _ st₁ _ _ _ hn _ hold hok1 hedits htl =>
    have hstale2 : NoStale cur st₁.admin st₁.samples := by
      intro w hw hlt name hname
      rw [hold.idxHash]
      exact noStale_push (count_idxHash.symm ▸ hn) hstale1 w (hold.back hw) hlt name hname
    by_cases hzero : st.admin.tldepth = 0
    · rw [htl hzero]
      exact hstale2
    · refine StoreEdits.noStale hedits hok1 ?_ hstale2
      have hsettings : st₁.admin.toWhcSettings = st.admin.toWhcSettings :=
        hold.settings.trans count_settings
      rw [hsettings]
      exact Nat.pos_of_ne_zero hzero
  | fresh _ _ _ _ heq =>
    rw [heq]
    intro w hw hlt name hname
    obtain ⟨v, hv, -, -, -, ⟨-, hjoined⟩ | ⟨-, rfl⟩⟩ := mem_addIdxnode hw
    · exact ⟨_, mem_append_right _ (mem_singleton.mpr rfl), Option.mem_unique hjoined hname⟩
    · obtain ⟨n, hn, hnname⟩ := hstale1 w hv hlt name hname
      exact ⟨n, mem_append_left _ hn, hnname⟩

end Shape

section Call

variable {last md s : ℤ} {whc : Whc} {d : WhcSerdata}

open InsertShape

lemma whcInsert_spec (h : WhcInv last whc) (hs : last < s) (md : ℤ) (d : WhcSerdata) :
    ∃ whc', whcInsert whc md s d = some whc' ∧ WhcInv s whc' ∧
      InsertShape md s d whc.store whc'.store := by
  obtain ⟨whc1, hrun1, hins1, hstore1, hmax1, -⟩ := h.insertSeq hs md d
  have hadmin1 : whc1.toWhcAdmin = whc.toWhcAdmin.count (newSample md s d) := congrArg admin hstore1
  have hsettings1 : whc1.toWhcSettings = whc.toWhcSettings := by rw [hadmin1, count_settings]
  have hdepth1 : whc1.idxdepth = whc.idxdepth := congrArg idxdepth hsettings1
  have hidx1 : whc1.idxHash = whc.idxHash := by rw [hadmin1, count_idxHash]
  have hmem1 : newSample md s d ∈ whc1.samples := by
    rw [show whc1.samples = _ from congrArg samples hstore1]
    exact mem_append_right _ (mem_singleton.mpr rfl)
  -- the settings and the marks are the last thing to look at, in each branch the same way
  have hfinish : ∀ whc', Inserted s whc' → InsertShape md s d whc.store whc'.store →
      (∀ n ∈ whc'.idxHash, n.pruneSeq ≤ whc.maxDropSeq) → WhcInv s whc' := by
    intro whc' hins hshape hmarks
    have hsettings : whc'.toWhcSettings = whc.toWhcSettings := hshape.settings
    refine ⟨hins.ok, hins.sized, hins.maxseq, ?_, ?_, ?_, ?_, h.last_nonneg.trans hs.le⟩
    · rw [hsettings]
      exact h.depth
    · rw [hsettings]
      exact h.maxDropSeq_nonneg
    · rw [hsettings]
      exact hmarks
    · rw [hsettings]
      exact hshape.noStale h.ok.storeOk h.noStale
  have hmarks1 : ∀ n ∈ whc1.idxHash, n.pruneSeq ≤ whc.maxDropSeq := by
    rw [hidx1]
    exact h.pruneSeq_le
  unfold whcInsert
  simp only [Option.bind_eq_bind, hrun1, Option.bind_some]
  split
  case isTrue hplain =>
    have hshape : InsertShape md s d whc.store whc1.store := plain (hdepth1 ▸ hplain) hstore1
    exact ⟨whc1, rfl, hfinish whc1 hins1 hshape hmarks1, hshape⟩
  case isFalse hplain =>
    obtain ⟨hd, hdepth⟩ := not_or.mp hplain
    replace hd : d.isEmpty = false := by simpa using hd
    have hdepth' : whc.store.admin.idxdepth ≠ 0 := hdepth1 ▸ hdepth
    cases hfind : whc1.findKey d.key with
    | some n =>
      obtain ⟨hn, hkey⟩ := findKey_eq_some hfind
      have hn' : n ∈ whc.store.admin.idxHash := hidx1 ▸ hn
      cases hun : d.unregister with
      | true =>
        obtain ⟨whc', hrun, hins, hedits, hfreed, hidx⟩ :=
          hins1.unregister_done hn hmem1 rfl rfl hmax1 md
        rw [hstore1] at hedits
        have hidx' : whc'.idxHash = (whc.toWhcAdmin.freeIdxnode n.name).idxHash := by
          rw [hidx, WhcAdmin.freeIdxnode, WhcAdmin.freeIdxnode, hidx1]
        have hshape := unregister hd hdepth' hun hn' hkey hedits hfreed hidx'
        refine ⟨whc', hrun, hfinish whc' hins hshape fun k hk ↦ hmarks1 k ?_, hshape⟩
        rw [hidx] at hk
        exact (mem_freeIdxnode.mp hk).1
      | false =>
        obtain ⟨whc2, hrun2, hok2, hsized2, hs2, hmax2, hold2, hidx2⟩ :=
          hins1.pushSample_done hn hmem1 rfl rfl hkey hmax1 md
        have hn2 : n.push whc1.idxdepth s ∈ whc2.idxHash := by
          rw [hidx2]
          exact mem_setIdxnode.mpr (.inl ⟨rfl, n, hn, rfl⟩)
        have hhead : (n.push whc1.idxdepth s).Holds (n.push whc1.idxdepth s).headidx s :=
          (hins1.ok.idxOk.ring n hn).push_holds.mpr (.inl ⟨rfl, rfl⟩)
        obtain ⟨whc', hrun, hins, hedits, htl, hmarks⟩ :=
          hok2.pruneBehindTl_done hsized2 hs2 hmax2 hn2 hhead md
        rw [hstore1, hdepth1] at hold2
        have htl' : whc.store.admin.tldepth = 0 → whc'.store = whc2.store := by
          intro hzero
          have hsettings2 : whc2.toWhcSettings = whc.toWhcSettings :=
            hold2.settings.trans count_settings
          rw [htl ((congrArg tldepth hsettings2).trans hzero)]
        have hshape := push hd hdepth' hun hn' hkey hold2 hok2.storeOk hedits htl'
        refine ⟨whc', ?_, hfinish whc' hins hshape fun k hk ↦ ?_, hshape⟩
        · simp only [Bool.false_eq_true, if_false, hrun2, Option.bind_some]
          exact hrun
        · obtain ⟨x, hx, heq⟩ := hmarks k hk
          rw [heq]
          rw [hidx2] at hx
          rcases mem_setIdxnode.mp hx with ⟨rfl, -⟩ | ⟨hx, -⟩
          · exact hmarks1 n hn
          · exact hmarks1 x hx
    | none =>
      have hnone := findKey_eq_none.mp hfind
      have hnone' : ∀ n ∈ whc.store.admin.idxHash, n.key ≠ d.key := hidx1 ▸ hnone
      cases hun : d.unregister with
      | true =>
        obtain ⟨whc', hrun, hins, hedits, hidx⟩ := hins1.deleteNewn_done hmem1 rfl rfl hmax1 md
        rw [hstore1] at hedits
        have hshape := unknown hd hdepth' hun hnone' hedits (hidx.trans hidx1)
        exact ⟨whc', hrun, hfinish whc' hins hshape (hidx ▸ hmarks1), hshape⟩
      | false =>
        obtain ⟨hins, hstore⟩ := hins1.addIdxnode_done hmem1 rfl rfl hdepth hnone
        rw [hstore1] at hstore
        have hshape := fresh hd hdepth' hun hnone' hstore
        refine ⟨_, rfl, hfinish _ hins hshape fun k hk ↦ ?_, hshape⟩
        rcases mem_append.mp hk with hk | hk
        · exact hmarks1 k hk
        · rw [mem_singleton.mp hk]
          exact h.maxDropSeq_nonneg

end Call

end OpenSplice.Ddsi
