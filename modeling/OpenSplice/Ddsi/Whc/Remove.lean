import OpenSplice.Ddsi.Whc.Edits

/-!
# Removing acknowledged samples

What `whc_remove_acked_messages` does. Its first loop goes over the samples between the old and the
new drop point and drops those outside the transient-local history; the others are no longer counted
(`removeAckedLoop_done`). The second loop goes over the ones that are left, and drops what their
instances still hold behind that history (`pruneAckedLoop_done`).

The first loop is the one place where the cache may follow a pointer to an index node that was
freed. It does so only if there was one behind the place where it starts (`noStale_drop`).
-/

set_option autoImplicit false

namespace OpenSplice.Ddsi

open Library Library.Neighbour KeyedList List Option StoreEdits Ring Whc WhcIdxnode

/-! ### Deleting one sample -/

/-- The cache in order, but for the counter and the largest number. -/
structure WhcOk (last : ℤ) (whc : Whc) : Prop where
  seqOk : SeqOk last whc
  idxOk : IdxOk whc.toWhcAdmin whc.samples

/-- `whc'` is the cache without the sample `w`, when the index has become that of `admin`. -/
structure Dropped (last : ℤ) (whc whc' : Whc) (w : WhcSample) (admin : WhcAdmin) : Prop where
  ok : WhcOk last whc'
  store : whc'.store = ⟨admin.uncount w, KeyedList.delete WhcSample.seq w.seq whc.samples⟩
  seqs : whc'.seqs = whc.seqs \ {w.seq}
  maxseqNode : whc'.maxseqNode = whc.maxseqNode
  length : whc'.samples.length + 1 = whc.samples.length

section Basics

variable {last : ℤ} {whc : Whc} {w : WhcSample} {admin : WhcAdmin} {samples : List WhcSample}

lemma Whc.mem_samples {w : WhcNode} (hw : w ∈ whc.seqHash) : w.toWhcSample ∈ whc.samples :=
  mem_map_of_mem hw

lemma Whc.mem_seqs_iff {x : ℤ} : x ∈ whc.seqs ↔ ∃ w ∈ whc.samples, w.seq = x := by
  simp [seqs, samples]

lemma Whc.seq_mem (hw : w ∈ whc.samples) : w.seq ∈ whc.seqs := mem_seqs_iff.mpr ⟨w, hw, rfl⟩

lemma Dropped.withSize {whc' : Whc} (h : Dropped last whc whc' w admin) (size : ℕ) :
    Dropped last whc { whc' with seqSize := size } w admin :=
  ⟨⟨h.ok.seqOk.of_eq rfl rfl rfl, h.ok.idxOk⟩, h.store, h.seqs, h.maxseqNode, h.length⟩

section

variable (h : WhcOk last whc)
include h

lemma WhcOk.storeOk : StoreOk whc.store := ⟨h.seqOk.samplesOrdered, h.idxOk⟩

variable {whcn : WhcNode}

lemma WhcOk.drop (hw : whcn ∈ whc.seqHash)
    {intv : WhcIntvnode} (hintv : intv ∈ whc.seq) (hlo : intv.min ≤ whcn.seq)
    (hhi : whcn.seq < intv.maxp1) {admin : WhcAdmin}
    (hdel : deleteOneSampleFromIdx whc.toWhcAdmin whcn.toWhcSample = some admin) :
    Dropped last whc (whc.drop intv whcn admin) whcn.toWhcSample admin where
  ok := by
    refine ⟨(h.seqOk.drop hw hintv hlo hhi admin).1, ?_⟩
    rw [samples_drop]
    exact (h.idxOk.drop h.seqOk.samplesOrdered (mem_samples hw) hdel).uncount
  store := by
    unfold store
    rw [samples_drop]
    rfl
  seqs := seqs_drop intv whcn admin
  maxseqNode := rfl
  length := by
    rw [samples_drop]
    exact h.seqOk.samplesOrdered.length_delete (mem_samples hw)

lemma WhcOk.deleteOneIntv (hw : whcn ∈ whc.seqHash)
    {I : Option ℤ} (hI : IntvAt whc.seq I (some whcn.seq))
    (hdel : deleteOneSampleFromIdx whc.toWhcAdmin whcn.toWhcSample = some admin) :
    ∃ whc' I', whcDeleteOneIntv whc I whcn.seq = some (whc', I', whcn.nextSeq) ∧
      Dropped last whc whc' whcn.toWhcSample admin ∧ IntvAt whc'.seq I' whcn.nextSeq ∧
      whc'.seqSize = whc.seqSize := by
  obtain ⟨intv, hintv, rfl, hlo, hhi⟩ := hI whcn.seq rfl
  refine ⟨_, _, ?_, h.drop hw hintv hlo hhi hdel, (h.seqOk.drop hw hintv hlo hhi admin).2, rfl⟩
  rw [h.seqOk.whcDeleteOneIntv_eq hw hintv, hdel, map_some]

lemma WhcOk.deleteOne (hw : w ∈ whc.samples)
    (hdel : deleteOneSampleFromIdx whc.toWhcAdmin w = some admin) :
    ∃ whc', whcDeleteOne whc w.seq = some whc' ∧ Dropped last whc whc' w admin ∧
      whc'.seqSize = whc.seqSize - 1 := by
  obtain ⟨whcn, hwhcn, rfl⟩ := mem_map.mp hw
  obtain ⟨intv, hintv, hlo, hhi, heq⟩ := h.seqOk.whcDeleteOne_eq hwhcn
  refine ⟨_, ?_, (h.drop hwhcn hintv hlo hhi hdel).withSize _, rfl⟩
  rw [heq, hdel, map_some]

end

/-- A sample that is not in the index is deleted without looking at it. -/
lemma deleteOneSampleFromIdx_of_none {admin : WhcAdmin} {w : WhcSample} (hw : w.idxnode = none) :
    deleteOneSampleFromIdx admin w = some admin := by
  unfold deleteOneSampleFromIdx
  rw [hw]

lemma deleteOneSampleFromIdx_of_mem (h : IdxOk admin samples)
    {n : WhcIdxnode} (hn : n ∈ admin.idxHash) (hw : w.idxnode = some n.name) :
    ∃ admin', deleteOneSampleFromIdx admin w = some admin' := by
  unfold deleteOneSampleFromIdx
  simp only [hw, h.findIdxnode hn, map_some]
  exact ⟨_, rfl⟩

/-- `whcn_in_tlidx` tells whether a sample is in the transient-local history, or follows a pointer
to a freed index node. -/
lemma whcnInTlidx_spec (h : IdxOk admin samples) (hw : w ∈ samples) :
    (whcnInTlidx admin w = some true ∧ InTl admin w) ∨
      (whcnInTlidx admin w = some false ∧ ¬ InTl admin w ∧
        ∃ admin', deleteOneSampleFromIdx admin w = some admin') ∨
      (whcnInTlidx admin w = none ∧ ∀ cur < w.seq, ¬ NoStale cur admin samples) := by
  unfold whcnInTlidx
  cases hidx : w.idxnode with
  | none =>
    refine .inr (.inl ⟨rfl, ?_, admin, deleteOneSampleFromIdx_of_none hidx⟩)
    rintro ⟨n, -, hname, -⟩
    exact absurd (hidx.symm.trans hname) (by simp)
  | some name =>
    cases hfind : admin.findIdxnode name with
    | none =>
      refine .inr (.inr ⟨by simp [hfind], fun cur hlt hstale ↦ ?_⟩)
      obtain ⟨n, hn, rfl⟩ := hstale w hw hlt name hidx
      rw [h.findIdxnode hn] at hfind
      simp at hfind
    | some n =>
      obtain ⟨hn, rfl⟩ := findIdxnode_eq_some hfind
      simp only [hfind, map_some, some_inj, decide_eq_true_eq, decide_eq_false_iff_not]
      by_cases hage : age admin.idxdepth n.headidx w.idxnodePos < admin.tldepth
      · exact .inl ⟨hage, n, hn, hidx, hage⟩
      · refine .inr (.inl ⟨hage, ?_, deleteOneSampleFromIdx_of_mem h hn hidx⟩)
        rintro ⟨m, hm, hname, hlt⟩
        rw [hidx, some_inj] at hname
        obtain rfl := h.eq_of_name hm hn hname.symm
        exact hage hlt

end Basics

/-! ### The first loop -/

def toCome (cur : ℤ) (whc : Whc) : ℕ := whc.samples.countP fun w ↦ cur < w.seq

/-- What the first loop leaves, having started behind `cur`. -/
structure RemoveDone (last m cur : ℤ) (whc whc' : Whc) (ndropped ndropped' : ℕ) : Prop where
  ok : WhcOk last whc'
  edits : StoreEdits m whc.store whc'.store
  maxseqNode : whc'.maxseqNode = whc.maxseqNode
  seqSize : whc'.seqSize = whc.seqSize
  length : whc'.samples.length + ndropped' = whc.samples.length + ndropped
  done : ∀ w ∈ whc'.samples, cur < w.seq → w.seq ≤ m →
    w.unacked = false ∧ InTl whc'.toWhcAdmin w
  noStale : ∀ c, cur ≤ c → NoStale c whc.toWhcAdmin whc.samples →
    NoStale c whc'.toWhcAdmin whc'.samples
  marks : ∀ n' ∈ whc'.idxHash, ∃ n ∈ whc.idxHash, n'.pruneSeq = n.pruneSeq

section FirstLoop

variable {last m cur s : ℤ} {whc whc₁ : Whc} {w : WhcSample} {ndropped : ℕ} (fuel : ℕ)

/-- The samples after the one that follows `cur` are one less than those after `cur`. -/
lemma SeqOk.toCome_eq (h : SeqOk last whc) (hs : Follows whc.seqs cur (some s)) :
    toCome cur whc = toCome s whc + 1 := by
  obtain ⟨hmem, hlt, hleast⟩ := hs
  obtain ⟨w, hw, rfl⟩ := mem_seqs_iff.mp hmem
  obtain ⟨pre, post, hsplit⟩ := append_of_mem hw
  have hord := h.samplesOrdered
  rw [hsplit] at hord
  obtain ⟨-, -, hbefore, hafter, -⟩ := ordered_append_cons.mp hord
  have hpre : ∀ v ∈ pre, v.seq ≤ cur := by
    intro v hv
    refine not_lt.mp fun hcur ↦ ?_
    have hle := hleast v.seq (mem_seqs_iff.mpr ⟨v, by simp [hsplit, hv], rfl⟩) hcur
    exact absurd (hbefore v hv) (not_lt.mpr hle)
  have hpreCur : pre.countP (fun v ↦ cur < v.seq) = 0 :=
    countP_eq_zero.mpr fun v hv ↦ by simpa using hpre v hv
  have hpreSeq : pre.countP (fun v ↦ w.seq < v.seq) = 0 :=
    countP_eq_zero.mpr fun v hv ↦ by simpa using (hbefore v hv).le
  have hpostCur : post.countP (fun v ↦ cur < v.seq) = post.length :=
    countP_eq_length.mpr fun v hv ↦ by simpa using hlt.trans (hafter v hv)
  have hpostSeq : post.countP (fun v ↦ w.seq < v.seq) = post.length :=
    countP_eq_length.mpr fun v hv ↦ by simpa using hafter v hv
  unfold toCome
  rw [hsplit, countP_append, countP_append, hpreCur, hpreSeq,
    countP_cons_of_pos (by simpa using hlt), countP_cons_of_neg (by simp), hpostCur,
    hpostSeq]
  omega

lemma Whc.store_ack (w : WhcSample) : (whc.ack w).store =
      ⟨whc.toWhcAdmin.uncount w,
        KeyedList.modify WhcSample.seq w.seq WhcSample.acked whc.samples⟩ := by
  rw [← samples_modify]
  rfl

lemma WhcOk.ack (h : WhcOk last whc) (w : WhcSample) : WhcOk last (whc.ack w) := by
  have hmodify := SeqOk.modify (s := w.seq) (f := WhcSample.acked) (fun _ ↦ rfl) h.seqOk
  refine ⟨hmodify.of_eq rfl rfl rfl, ?_⟩
  have hsamples : (whc.ack w).samples = _ := congrArg WhcStore.samples (Whc.store_ack w)
  rw [hsamples]
  exact (h.idxOk.ack w.seq).uncount

lemma Whc.seqs_ack (w : WhcSample) : (whc.ack w).seqs = whc.seqs :=
  seqs_modify (s := w.seq) (f := WhcSample.acked) fun _ ↦ rfl

/-- A sample is dropped, and no newer sample is left without its index node. -/
lemma noStale_drop {admin admin' : WhcAdmin} {samples : List WhcSample} (h : IdxOk admin samples)
    (hw : w ∈ samples) (hdel : deleteOneSampleFromIdx admin w = some admin') {c : ℤ}
    (hc : w.seq ≤ c) (hstale : NoStale c admin samples) :
    NoStale c admin' (delete WhcSample.seq w.seq samples) := by
  intro v hv hcv name hname
  obtain ⟨hv, -⟩ := mem_delete.mp hv
  obtain ⟨n, hn, rfl⟩ := hstale v hv hcv name hname
  have hlt := hc.trans_lt hcv
  rcases deleteOneSampleFromIdx_cases hdel with ⟨-, rfl⟩ | ⟨k, hk, hwname, ⟨-, rfl⟩ | ⟨hpos, rfl⟩⟩
  · exact ⟨n, hn, rfl⟩
  · obtain ⟨n', hn', hname', -⟩ := exists_mem_setIdxnode (P := fun _ ↦ True) h hk hn
      (k.clear w.idxnodePos) rfl (fun _ ↦ trivial) trivial
    exact ⟨n', hn', hname'⟩
  · refine ⟨n, mem_freeIdxnode.mpr ⟨hn, fun heq ↦ ?_⟩, rfl⟩
    -- another sample of that ring would be older than its head
    obtain rfl := h.eq_of_name hn hk heq
    have hring := h.ring n hn
    have hvholds := h.holds hn hv hname
    have hwholds := h.holds hn hw hwname
    have hvpos : v.idxnodePos ≠ n.headidx := by
      intro hvpos
      rw [hvpos, ← hpos] at hvholds
      exact hlt.ne' (hvholds.unique hwholds)
    have hage : age admin.idxdepth n.headidx w.idxnodePos <
        age admin.idxdepth n.headidx v.idxnodePos := by
      rw [hpos, age_head]
      exact Nat.pos_of_ne_zero
        fun hzero ↦ hvpos ((age_eq_zero (hring.lt_of_holds hvholds)).mp hzero)
    exact absurd (hring.aged _ _ _ _ hwholds hvholds hage) hlt.asymm

/-- What one round of the first loop does to the sample `s`. -/
structure RemoveStep (last m s : ℤ) (whc whc₁ : Whc) (ndropped ndropped₁ : ℕ) : Prop where
  ok : WhcOk last whc₁
  edit : StoreEdit m whc.store whc₁.store
  seqs : whc₁.seqs = whc.seqs ∨ whc₁.seqs = whc.seqs \ {s}
  maxseqNode : whc₁.maxseqNode = whc.maxseqNode
  seqSize : whc₁.seqSize = whc.seqSize
  length : whc₁.samples.length + ndropped₁ = whc.samples.length + ndropped
  done : ∀ w ∈ whc₁.samples, w.seq = s → w.unacked = false ∧ InTl whc₁.toWhcAdmin w
  toCome : toCome s whc₁ = toCome s whc
  noStale : ∀ c, s ≤ c → NoStale c whc.toWhcAdmin whc.samples →
    NoStale c whc₁.toWhcAdmin whc₁.samples
  marks : ∀ n' ∈ whc₁.idxHash, ∃ n ∈ whc.idxHash, n'.pruneSeq = n.pruneSeq

lemma SeqOk.intvAt_next (h : SeqOk last whc) {whcn : WhcNode} (hw : whcn ∈ whc.seqHash)
    {intv : WhcIntvnode} (hintv : intv ∈ whc.seq) (hlo : intv.min ≤ whcn.seq)
    (hhi : whcn.seq < intv.maxp1) :
    IntvAt whc.seq (if intv.last = some whcn.seq then
        (findSucc WhcIntvnode.min intv.min whc.seq).map WhcIntvnode.min
      else some intv.min) whcn.nextSeq := by
  obtain ⟨-, -, hlast⟩ := h.intv.filled_of_lt hintv (hlo.trans_lt hhi)
  obtain ⟨ipre, ipost, hsplit⟩ := append_of_mem hintv
  have hok := h.intv
  rw [hsplit] at hok ⊢
  split_ifs with hend
  · rw [hlast, some_inj] at hend
    exact hok.intvAt_succ hlo (by omega) (h.next whcn hw) fun iv hiv ↦ by simp [hiv]
  · rw [hlast, some_inj] at hend
    rintro s hs
    rw [hok.nextSeq_eq hlo (by omega) (h.next whcn hw), some_inj] at hs
    exact ⟨intv, by simp, rfl, by omega, by omega⟩

section

variable (h : WhcOk last whc)
include h

lemma WhcOk.removeStep_keep (hw : w ∈ whc.samples) (hle : w.seq ≤ m)
    (hin : InTl whc.toWhcAdmin w) (ndropped : ℕ) :
    RemoveStep last m w.seq whc (whc.ack w) ndropped ndropped := by
  have hstore := @Whc.store_ack whc w
  have hsamples : (whc.ack w).samples = _ := congrArg WhcStore.samples hstore
  have hadmin : (whc.ack w).toWhcAdmin = _ := congrArg WhcStore.admin hstore
  have hedit : StoreEdit m whc.store (whc.ack w).store := by
    rw [hstore]
    exact StoreEdit.ack hw hle
  have htl : 0 < whc.tldepth := by
    obtain ⟨n, -, -, hage⟩ := hin
    exact Nat.zero_lt_of_lt hage
  refine ⟨h.ack w, hedit, .inl (seqs_ack w), rfl, rfl, ?_, fun v hv hseq ↦ ?_, ?_, ?_,
    fun n' hn' ↦ ⟨n', ?_, rfl⟩⟩
  · rw [hsamples]
    simp [KeyedList.modify]
  · have hback := KeyedList.mem_modify.mp (hsamples ▸ hv)
    rcases hback with ⟨u, hu, huseq, rfl⟩ | ⟨-, hne⟩
    · obtain rfl := h.seqOk.samplesOrdered.eq_of_key hu hw huseq
      obtain ⟨x, hx, hxseq, hxin⟩ := hedit.stays h.storeOk hu (.inr hin)
      have hxeq := (h.ack u).seqOk.samplesOrdered.eq_of_key hx hv hxseq
      exact ⟨rfl, hxeq ▸ hxin hin⟩
    · exact absurd hseq hne
  · unfold toCome
    rw [hsamples, KeyedList.modify, countP_map]
    refine congrArg (fun p ↦ countP p whc.samples) (funext fun v ↦ ?_)
    simp only [Function.comp_apply]
    split_ifs <;> rfl
  · exact fun c _ hstale ↦ hedit.noStale h.storeOk htl hstale
  · rw [hadmin, uncount_idxHash] at hn'
    exact hn'

lemma WhcOk.removeStep_drop (hw : w ∈ whc.samples) (hle : w.seq ≤ m)
    (hout : ¬ InTl whc.toWhcAdmin w) {admin : WhcAdmin}
    (hdel : deleteOneSampleFromIdx whc.toWhcAdmin w = some admin)
    (hdrop : Dropped last whc whc₁ w admin) (hsize : whc₁.seqSize = whc.seqSize) (ndropped : ℕ) :
    RemoveStep last m w.seq whc whc₁ ndropped (ndropped + 1) := by
  have hsamples : whc₁.samples = _ := congrArg WhcStore.samples hdrop.store
  have hadmin : whc₁.toWhcAdmin = _ := congrArg WhcStore.admin hdrop.store
  have hedit : StoreEdit m whc.store whc₁.store := by
    rw [hdrop.store]
    exact StoreEdit.drop hw hdel hle hout
  refine ⟨hdrop.ok, hedit, .inr hdrop.seqs, hdrop.maxseqNode, hsize, ?_, fun v hv hseq ↦ ?_,
    ?_, ?_, fun n' hn' ↦ ?_⟩
  · have := hdrop.length
    omega
  · rw [hsamples] at hv
    exact absurd hseq (mem_delete.mp hv).2
  · unfold toCome
    rw [hsamples, delete, countP_filter]
    refine congrArg (fun p ↦ countP p whc.samples) (funext fun v ↦ ?_)
    rw [Bool.eq_iff_iff, Bool.and_eq_true, decide_eq_true_eq, decide_eq_true_eq]
    exact ⟨And.left, fun hlt ↦ ⟨hlt, hlt.ne'⟩⟩
  · intro c hc hstale
    rw [hsamples, hadmin]
    intro v hv hlt name hname
    rw [uncount_idxHash]
    exact noStale_drop h.idxOk hw hdel hc hstale v hv hlt name hname
  · rw [hadmin, uncount_idxHash] at hn'
    obtain ⟨n, hn, -, heq⟩ := deleteOneSampleFromIdx_nodes hdel hn'
    exact ⟨n, hn, heq⟩

lemma removeAckedLoop_round {I : Option ℤ}
    (hs : Follows whc.seqs cur (some s)) (hI : IntvAt whc.seq I (some s)) (hle : s ≤ m) :
    (∃ whc₁ I1 next1 ndropped₁, removeAckedLoop m (fuel + 1) whc ndropped I (some s) =
          removeAckedLoop m fuel whc₁ ndropped₁ I1 next1 ∧
        RemoveStep last m s whc whc₁ ndropped ndropped₁ ∧ Follows whc₁.seqs s next1 ∧
        IntvAt whc₁.seq I1 next1) ∨
      (removeAckedLoop m (fuel + 1) whc ndropped I (some s) = none ∧
        ¬ NoStale cur whc.toWhcAdmin whc.samples) := by
  obtain ⟨whcn, hw, rfl, hfind⟩ := h.seqOk.exists_findseq hs.1
  obtain ⟨intv, hintv, rfl, hlo, hhi⟩ := hI whcn.seq rfl
  have hmem := mem_samples hw
  have hfollows := h.seqOk.next whcn hw
  rw [removeAckedLoop, if_neg (not_lt.mpr hle), hfind]
  simp only [bind_eq_bind, bind_some]
  rcases whcnInTlidx_spec h.idxOk hmem with ⟨htl, hin⟩ | ⟨htl, hout, admin, hdel⟩ | ⟨htl, hstale⟩
  · left
    rw [htl]
    simp only [bind_some, if_true, lookup_of_mem h.seqOk.intv.ordered hintv]
    refine ⟨whc.ack whcn.toWhcSample, _, _, _, rfl, h.removeStep_keep hmem hle hin ndropped, ?_,
      h.seqOk.intvAt_next hw hintv hlo hhi⟩
    rw [seqs_ack]
    exact hfollows
  · left
    obtain ⟨whc₁, I1, hdelete, hdrop, hI1, hsize⟩ := h.deleteOneIntv hw hI hdel
    rw [htl, hdelete]
    refine ⟨whc₁, I1, whcn.nextSeq, ndropped + 1, rfl,
      h.removeStep_drop hmem hle hout hdel hdrop hsize ndropped, ?_, hI1⟩
    rw [hdrop.seqs]
    exact hfollows.remove_self
  · right
    rw [htl, bind_none]
    exact ⟨rfl, hstale cur hs.2.1⟩

lemma WhcOk.removeDone_self (ndropped : ℕ) (hnone : ∀ x ∈ whc.seqs, cur < x → m < x) :
    RemoveDone last m cur whc whc ndropped ndropped :=
  ⟨h, .refl, rfl, rfl, rfl, fun w hw hcur hle ↦
    absurd (hnone w.seq (seq_mem hw) hcur) (not_lt.mpr hle), fun _ _ ↦ id,
    fun n hn ↦ ⟨n, hn, rfl⟩⟩

end

/-- What is acknowledged and in the transient-local history stays so as long as it is there. -/
lemma StoreEdits.done {st st' : WhcStore} (h : StoreEdits m st st') (hok : StoreOk st)
    (hok' : StoreOk st') (hw : w ∈ st'.samples)
    (hdone : ∀ v ∈ st.samples, v.seq = w.seq → v.unacked = false ∧ InTl st.admin v) :
    w.unacked = false ∧ InTl st'.admin w := by
  obtain ⟨v, hv, hvseq, -, -, hflag, -⟩ := back h hw
  obtain ⟨hun, hin⟩ := hdone v hv hvseq
  obtain ⟨u, hu, huseq, huin⟩ := inTl h hok hv hin
  exact ⟨hflag.cleared hun, hok'.ordered.eq_of_key hu hw (huseq.trans hvseq) ▸ huin⟩

lemma RemoveStep.trans {whc' : Whc} {ndropped₁ ndropped' : ℕ}
    (hstep : RemoveStep last m s whc whc₁ ndropped ndropped₁) (hs : Follows whc.seqs cur (some s))
    (hdone : RemoveDone last m s whc₁ whc' ndropped₁ ndropped') :
    RemoveDone last m cur whc whc' ndropped ndropped' := by
  -- the sample of this round was either dropped, or it is in the transient-local history
  have hround : ∀ w ∈ whc'.samples, cur < w.seq →
      (w.unacked = false ∧ InTl whc'.toWhcAdmin w) ∨ s < w.seq := by
    intro w hw hcur
    obtain ⟨v, hv, hvseq, -⟩ := back hdone.edits hw
    have hsw : s ≤ w.seq := by
      refine hs.2.2 w.seq ?_ hcur
      have hmem : w.seq ∈ whc₁.seqs := mem_seqs_iff.mpr ⟨v, hv, hvseq⟩
      rcases hstep.seqs with heq | heq
      · exact heq ▸ hmem
      · rw [heq] at hmem
        exact hmem.1
    rcases hsw.eq_or_lt with rfl | hlt
    · exact .inl (StoreEdits.done hdone.edits hstep.ok.storeOk hdone.ok.storeOk hw hstep.done)
    · exact .inr hlt
  refine ⟨hdone.ok, hdone.edits.head hstep.edit, hdone.maxseqNode.trans hstep.maxseqNode,
    hdone.seqSize.trans hstep.seqSize, hdone.length.trans hstep.length, fun w hw hcur hle ↦ ?_,
    fun c hc hstale w hw hlt name hname ↦ ?_, fun n' hn' ↦ ?_⟩
  · rcases hround w hw hcur with hkept | hlt
    · exact hkept
    · exact hdone.done w hw hlt hle
  · rcases hround w hw (hc.trans_lt hlt) with ⟨-, n, hn, hnname, -⟩ | hsw
    · exact ⟨n, hn, Option.mem_unique hnname hname⟩
    · have hstep := hstep.noStale (max s c) (le_max_left _ _) (hstale.mono (le_max_right _ _))
      exact hdone.noStale _ (le_max_left _ _) hstep w hw (max_lt hsw hlt) name hname
  · obtain ⟨n1, hn1, heq1⟩ := hdone.marks n' hn'
    obtain ⟨n, hn, heq⟩ := hstep.marks n1 hn1
    exact ⟨n, hn, heq1.trans heq⟩

/-- The first loop of `whc_remove_acked_messages`. It ends, unless it follows a pointer to a freed
index node. -/
lemma removeAckedLoop_done {whc : Whc} {cur : ℤ} {I next : Option ℤ}
    (h : WhcOk last whc) (hnext : Follows whc.seqs cur next) (hI : IntvAt whc.seq I next)
    (hfuel : toCome cur whc ≤ fuel) :
    (∃ whc' ndropped', removeAckedLoop m fuel whc ndropped I next = some (whc', ndropped') ∧
        RemoveDone last m cur whc whc' ndropped ndropped') ∨
      (removeAckedLoop m fuel whc ndropped I next = none ∧
        ¬ NoStale cur whc.toWhcAdmin whc.samples) := by
  induction fuel using Nat.strong_induction_on generalizing whc cur ndropped I next with
  | _ fuel ih =>
  cases next with
  | none =>
    exact .inl ⟨whc, ndropped, by cases fuel <;> rfl,
      h.removeDone_self ndropped fun x hx hcur ↦ absurd hcur (not_lt.mpr (hnext x hx))⟩
  | some s =>
    have hcount := h.seqOk.toCome_eq hnext
    cases fuel with
    | zero => omega
    | succ fuel =>
      by_cases hlt : m < s
      · exact .inl ⟨whc, ndropped, by simp [removeAckedLoop, hlt],
          h.removeDone_self ndropped fun x hx hcur ↦ hlt.trans_le (hnext.2.2 x hx hcur)⟩
      · rcases removeAckedLoop_round fuel h hnext hI (not_lt.mp hlt) with
          ⟨whc₁, I1, next1, ndropped₁, heq, hstep, hnext1, hI1⟩ | hfail
        · rw [heq]
          rcases ih fuel fuel.lt_succ_self hstep.ok hnext1 hI1 (by rw [hstep.toCome]; omega) with
            ⟨whc', ndropped', hrun, hdone⟩ | ⟨hrun, hclean⟩
          · exact .inl ⟨whc', ndropped', hrun, hstep.trans hnext hdone⟩
          · exact .inr ⟨hrun, fun hstale ↦
              hclean (hstep.noStale s le_rfl (hstale.mono hnext.2.1.le))⟩
        · exact .inr hfail

end FirstLoop

/-! ### The second loop -/

/-- The counter, when `ndropped` samples were dropped without counting them. -/
def Sized (ndropped : ℕ) (whc : Whc) : Prop := whc.seqSize = whc.samples.length + ndropped

def Pruned (admin : WhcAdmin) (n : WhcIdxnode) : Prop :=
  ∀ i s, n.Holds i s → Ring.age admin.idxdepth n.headidx i < admin.tldepth

/-- What holds through the pruning of one ring and of all of them. -/
structure PruneDone (last m : ℤ) (ndropped : ℕ) (whc whc' : Whc) : Prop where
  ok : WhcOk last whc'
  edits : StoreEdits m whc.store whc'.store
  maxseqNode : whc'.maxseqNode = whc.maxseqNode
  sized : Sized ndropped whc'

section SecondLoop

variable {last m cur s : ℤ} {whc whc₁ whc' : Whc} {ndropped : ℕ} {n : WhcIdxnode} {admin : WhcAdmin}
  (fuel : ℕ)

lemma Dropped.sized {w : WhcSample}
    (h : Dropped last whc whc' w admin) (hsize : whc'.seqSize = whc.seqSize - 1)
    (hsized : Sized ndropped whc) : Sized ndropped whc' := by
  have hlength := h.length
  unfold Sized at *
  omega

lemma WhcOk.pruneDone_self (h : WhcOk last whc) (hsized : Sized ndropped whc) :
    PruneDone last m ndropped whc whc :=
  ⟨h, .refl, rfl, hsized⟩

lemma PruneDone.trans (h1 : PruneDone last m ndropped whc whc₁)
    (h : PruneDone last m ndropped whc₁ whc') : PruneDone last m ndropped whc whc' :=
  ⟨h.ok, h1.edits.trans h.edits, h.maxseqNode.trans h1.maxseqNode, h.sized⟩

/-- The sample at a place behind the transient-local history is deleted. -/
lemma WhcOk.deleteBehind (h : WhcOk last whc) (hsized : Sized ndropped whc) (hn : n ∈ whc.idxHash)
    {pos : ℕ} (hs : n.Holds pos s)
    (hage : whc.tldepth ≤ age whc.idxdepth n.headidx pos) (htl : 0 < whc.tldepth)
    (hle : s ≤ m) :
    ∃ whc', whcDeleteOne whc s = some whc' ∧ PruneDone last m ndropped whc whc' ∧
      n.clear pos ∈ whc'.idxHash ∧
      ∀ x' ∈ whc'.idxHash, ∃ x ∈ whc.idxHash, NodeSub x' x ∧ x'.pruneSeq = x.pruneSeq := by
  obtain ⟨w, hw, rfl, hname, rfl⟩ := (h.idxOk.entry n hn pos s).mp hs
  obtain ⟨admin, hdel⟩ := deleteOneSampleFromIdx_of_mem h.idxOk hn hname
  obtain ⟨whc', hdelete, hdrop, hsize⟩ := h.deleteOne hw hdel
  have hout : ¬ InTl whc.toWhcAdmin w := by
    rintro ⟨k, hk, hkname, hlt⟩
    rw [hname, some_inj] at hkname
    obtain rfl := h.idxOk.eq_of_name hk hn hkname.symm
    omega
  have hedit : StoreEdit m whc.store whc'.store := by
    rw [hdrop.store]
    exact StoreEdit.drop hw hdel hle hout
  have hidx : whc'.idxHash = admin.idxHash := by
    have hadmin := congrArg (fun st ↦ st.admin.idxHash) hdrop.store
    exact hadmin.trans uncount_idxHash
  refine ⟨whc', hdelete, ⟨hdrop.ok, .single hedit, hdrop.maxseqNode,
    hdrop.sized hsize hsized⟩, ?_, fun x' hx' ↦ ?_⟩
  · rw [hidx]
    rcases deleteOneSampleFromIdx_cases hdel with ⟨hnone, -⟩ | ⟨k, hk, hkname, hcase⟩
    · exact absurd (hnone.symm.trans hname) (by simp)
    · rw [hname, some_inj] at hkname
      obtain rfl := h.idxOk.eq_of_name hk hn hkname.symm
      rcases hcase with ⟨-, rfl⟩ | ⟨hpos, -⟩
      · exact mem_setIdxnode.mpr (.inl ⟨rfl, k, hk, rfl⟩)
      · rw [hpos, age_head] at hage
        omega
  · rw [hidx] at hx'
    exact deleteOneSampleFromIdx_nodes hdel hx'

lemma pruneLoop_done (cnt : ℕ) {k : ℕ} {whc : Whc} (h : WhcOk last whc)
    (hsized : Sized ndropped whc) (hn : n ∈ whc.idxHash) (htl : 0 < whc.tldepth)
    (hcnt : k + cnt ≤ whc.idxdepth - whc.tldepth)
    (hold : ∀ i s, n.Holds i s → whc.tldepth ≤ age whc.idxdepth n.headidx i → s ≤ m) :
    ∃ whc', pruneLoop n.name cnt ((next whc.idxdepth)^[k] n.headidx) whc = some whc' ∧
      PruneDone last m ndropped whc whc' ∧
      (∃ n' ∈ whc'.idxHash, NodeSub n' n ∧ ∀ j, k < j → j ≤ k + cnt →
        ∀ s, ¬ n'.Holds ((next whc.idxdepth)^[j] n.headidx) s) ∧
      ∀ x' ∈ whc'.idxHash, ∃ x ∈ whc.idxHash, NodeSub x' x ∧ x'.pruneSeq = x.pruneSeq := by
  induction cnt generalizing k whc n with
  | zero =>
    exact ⟨whc, rfl, h.pruneDone_self hsized, ⟨n, hn, NodeSub.refl n, fun j hj hj' ↦ by omega⟩,
      fun x hx ↦ ⟨x, hx, NodeSub.refl x, rfl⟩⟩
  | succ _ ih =>
    have hhead := (h.idxOk.ring n hn).headidx_lt
    have hage : age whc.idxdepth n.headidx ((next whc.idxdepth)^[k + 1] n.headidx) =
        whc.idxdepth - (k + 1) := age_iterate_next hhead (by omega)
    have hfind : whc.findIdxnode n.name = some n := h.idxOk.findIdxnode hn
    rw [pruneLoop, hfind, ← Function.iterate_succ_apply' (next whc.idxdepth)]
    simp only [bind_eq_bind, bind_some]
    cases hjoin : n.hist[(next whc.idxdepth)^[k + 1] n.headidx]?.join with
    | none =>
      obtain ⟨whc', hrun, hdone, ⟨n', hn', hsub, hclear⟩, hnodes⟩ :=
        ih (k := k + 1) h hsized hn htl (by omega) hold
      refine ⟨whc', hrun, hdone, ⟨n', hn', hsub, fun j hj hj' s hs ↦ ?_⟩, hnodes⟩
      rcases (show j = k + 1 ∨ k + 1 < j by omega) with rfl | hlt
      · have hns := holds_iff_join.mp (hsub.holds _ _ hs)
        rw [hjoin] at hns
        simp at hns
      · exact hclear j hlt (by omega) s hs
    | some t =>
      have ht := holds_iff_join.mpr hjoin
      obtain ⟨whc₁, hdelete, hdone1, hn1, hnodes1⟩ := h.deleteBehind hsized hn ht
        (by rw [hage]; omega) htl (hold _ t ht (by rw [hage]; omega))
      have hsettings : whc₁.toWhcSettings = whc.toWhcSettings := settings hdone1.edits
      obtain ⟨whc', hrun, hdone, ⟨n', hn', hsub, hclear⟩, hnodes⟩ :=
        ih (k := k + 1) hdone1.ok hdone1.sized hn1 (by rw [hsettings]; exact htl)
          (by rw [hsettings]; omega) fun i s hs ↦ by
            rw [hsettings]
            exact hold i s (clear_holds.mp hs).2
      simp only [hdelete, bind_some]
      rw [hsettings] at hrun hclear
      refine ⟨whc', hrun, hdone1.trans hdone, ⟨n', hn', ?_, fun j hj hj' s hs ↦ ?_⟩,
        fun x' hx' ↦ ?_⟩
      · exact ⟨hsub.name, hsub.key, hsub.headidx, fun i s hs ↦
          (clear_holds.mp (hsub.holds i s hs)).2⟩
      · rcases (show j = k + 1 ∨ k + 1 < j by omega) with rfl | hlt
        · exact (clear_holds.mp (hsub.holds _ s hs)).1 rfl
        · exact hclear j hlt (by omega) s hs
      · obtain ⟨x1, hx1, hsub1, hprune1⟩ := hnodes x' hx'
        obtain ⟨x, hx, hsub, hprune⟩ := hnodes1 x1 hx1
        exact ⟨x, hx, hsub1.trans hsub, hprune1.trans hprune⟩

/-- A ring with all places behind the transient-local history cleared. -/
lemma RingOk.pruned (h : RingOk admin.idxdepth n)
    (hclear : ∀ j, 0 < j → j ≤ admin.idxdepth - admin.tldepth →
      ∀ s, ¬ n.Holds ((next admin.idxdepth)^[j] n.headidx) s) : Pruned admin n := by
  intro i s hs
  have hi := h.lt_of_holds hs
  have hlt := age_lt h.headidx_lt hi
  by_contra hge
  have hplace := iterate_next_eq h.headidx_lt hi
  rw [← hplace] at hs
  exact hclear _ (by omega) (by omega) s hs

/-- The rings of a store that are marked as pruned with drop point `m` are. -/
def Marked (m : ℤ) (whc : Whc) : Prop :=
  ∀ n ∈ whc.idxHash, n.pruneSeq = m → Pruned whc.toWhcAdmin n

lemma pruneAckedLoop_round (h : WhcOk last whc) (hsized : Sized ndropped whc)
    (hs : s ∈ whc.seqs) (hle : s ≤ m) (hin : ∀ w ∈ whc.samples, w.seq = s → InTl whc.toWhcAdmin w)
    (hmark : Marked m whc) :
    ∃ whc₁ next1, pruneAckedLoop m (fuel + 1) whc (some s) = pruneAckedLoop m fuel whc₁ next1 ∧
      PruneDone last m ndropped whc whc₁ ∧ Follows whc₁.seqs s next1 ∧ Marked m whc₁ ∧
      ∀ w ∈ whc₁.samples, w.seq = s → ∀ n ∈ whc₁.idxHash, w.idxnode = some n.name →
        Pruned whc₁.toWhcAdmin n := by
  obtain ⟨whcn, hw, rfl, hfind⟩ := h.seqOk.exists_findseq hs
  have hmem := mem_samples hw
  obtain ⟨n, hn, hname, hage⟩ := hin whcn.toWhcSample hmem rfl
  have htl : 0 < whc.tldepth := Nat.zero_lt_of_lt hage
  have hfindn : whc.findIdxnode n.name = some n := h.idxOk.findIdxnode hn
  rw [pruneAckedLoop, if_neg (not_lt.mpr hle), hfind]
  simp only [bind_eq_bind, bind_some, hname, hfindn]
  by_cases hpruned : n.pruneSeq = m
  · rw [if_pos hpruned]
    refine ⟨whc, whcn.nextSeq, rfl, h.pruneDone_self hsized, h.seqOk.next whcn hw, hmark,
      fun w hw' hseq k hk hkname ↦ ?_⟩
    rw [h.seqOk.samplesOrdered.eq_of_key hw' hmem hseq, hname, some_inj] at hkname
    rw [← h.idxOk.eq_of_name hn hk hkname]
    exact hmark n hn hpruned
  · -- the ring is marked first, and then pruned
    rw [if_neg hpruned]
    set whc0 : Whc := { whc with
      toWhcAdmin := whc.toWhcAdmin.setIdxnode { n with pruneSeq := m } } with hwhc0
    have hedit : StoreEdit m whc.store whc0.store := StoreEdit.prune hn
    have hok0 : WhcOk last whc0 := ⟨h.seqOk.of_eq rfl rfl rfl, h.idxOk.setPruneSeq hn m⟩
    have hn0 : { n with pruneSeq := m } ∈ whc0.idxHash :=
      mem_setIdxnode.mpr (.inl ⟨rfl, n, hn, rfl⟩)
    have hold : ∀ i t, n.Holds i t → whc.tldepth ≤ age whc.idxdepth n.headidx i → t ≤ m := by
      intro i t ht hge
      have hlt := (h.idxOk.ring n hn).aged _ _ _ _ (h.idxOk.holds hn hmem hname) ht
        (hage.trans_le hge)
      omega
    obtain ⟨whc₁, hrun, hdone, ⟨n1, hn1, hsub, hclear⟩, hnodes⟩ :=
      pruneLoop_done (m := m) (whc.idxdepth - whc.tldepth) (k := 0) hok0
        (show Sized ndropped whc0 from hsized) hn0 htl (Nat.zero_add _).le hold
    have hdone' : PruneDone last m ndropped whc whc₁ :=
      ⟨hdone.ok, hdone.edits.head hedit, hdone.maxseqNode, hdone.sized⟩
    have hsettings : whc₁.toWhcSettings = whc.toWhcSettings := settings hdone'.edits
    have hpruned1 : Pruned whc₁.toWhcAdmin n1 := by
      refine (hdone.ok.idxOk.ring n1 hn1).pruned fun j hj hj' t ht ↦ ?_
      rw [hsettings, hsub.headidx] at ht
      rw [hsettings] at hj'
      exact hclear j hj (hj'.trans (Nat.zero_add _).ge) t ht
    -- the sample is still there
    obtain ⟨u, hu, huseq, -⟩ := inTl hdone'.edits h.storeOk hmem ⟨n, hn, hname, hage⟩
    obtain ⟨v, hv, hvseq, hvfind⟩ := hdone.ok.seqOk.exists_findseq (mem_seqs_iff.mpr ⟨u, hu, huseq⟩)
    refine ⟨whc₁, v.nextSeq, ?_, hdone', ?_, fun k hk hkm ↦ ?_, fun w hw' hseq k hk hkname ↦ ?_⟩
    · rw [show pruneLoop n.name (whc.idxdepth - whc.tldepth) n.headidx whc0 = some whc₁ from hrun,
        bind_some, hvfind, bind_some]
    · rw [← hvseq]
      exact hdone.ok.seqOk.next v hv
    · obtain ⟨x, hx, hxsub, hxprune⟩ := hnodes k hk
      rcases mem_setIdxnode.mp hx with ⟨rfl, -⟩ | ⟨hx, -⟩
      · rwa [hdone.ok.idxOk.eq_of_name hk hn1 (hxsub.name.trans hsub.name.symm)]
      · intro i t ht
        rw [hsettings, hxsub.headidx]
        exact hmark x hx (hxprune.symm.trans hkm) i t (hxsub.holds i t ht)
    · obtain ⟨b, hb, hbseq, -, -, -, hbidx⟩ := back hdone'.edits hw'
      rw [h.seqOk.samplesOrdered.eq_of_key hb hmem (hbseq.trans hseq), hname, hkname] at hbidx
      have hknameEq : k.name = n.name := by simpa using hbidx
      rwa [hdone.ok.idxOk.eq_of_name hk hn1 (hknameEq.trans hsub.name.symm)]

lemma toCome_le_of_edits (h : StoreEdits m whc.store whc₁.store) (s : ℤ) :
    toCome s whc₁ ≤ toCome s whc := by
  have hcount := (seqs_sublist h).countP_le (p := fun x ↦ decide (s < x))
  rw [countP_map, countP_map] at hcount
  exact hcount

lemma pruneAckedLoop_done {whc : Whc} {cur : ℤ} {next : Option ℤ}
    (h : WhcOk last whc) (hsized : Sized ndropped whc) (hnext : Follows whc.seqs cur next)
    (hfuel : toCome cur whc ≤ fuel)
    (hin : ∀ w ∈ whc.samples, cur < w.seq → w.seq ≤ m → InTl whc.toWhcAdmin w)
    (hmark : cur < m → Marked m whc) :
    ∃ whc', pruneAckedLoop m fuel whc next = some whc' ∧ PruneDone last m ndropped whc whc' ∧
      ∀ w ∈ whc'.samples, cur < w.seq → w.seq ≤ m → ∀ n ∈ whc'.idxHash,
        w.idxnode = some n.name → Pruned whc'.toWhcAdmin n := by
  induction fuel using Nat.strong_induction_on generalizing whc cur next with
  | _ fuel ih =>
  cases next with
  | none =>
    refine ⟨whc, by cases fuel <;> rfl, h.pruneDone_self hsized, fun w hw hcur ↦ ?_⟩
    exact absurd (hnext w.seq (seq_mem hw)) (not_le.mpr hcur)
  | some s =>
    have hcount := h.seqOk.toCome_eq hnext
    cases fuel with
    | zero => omega
    | succ fuel =>
      by_cases hlt : m < s
      · refine ⟨whc, by simp [pruneAckedLoop, hlt], h.pruneDone_self hsized, fun w hw hcur hle ↦ ?_⟩
        have hsle := hnext.2.2 w.seq (seq_mem hw) hcur
        omega
      · have hle := not_lt.mp hlt
        have hcurs := hnext.2.1
        obtain ⟨whc₁, next1, heq, hdone1, hnext1, hmark1, hpruned1⟩ :=
          pruneAckedLoop_round fuel h hsized hnext.1 hle
            (fun w hw hseq ↦ hin w hw (hseq ▸ hcurs) (hseq ▸ hle)) (hmark (hcurs.trans_le hle))
        have hin1 : ∀ w ∈ whc₁.samples, s < w.seq → w.seq ≤ m → InTl whc₁.toWhcAdmin w := by
          intro w hw _ hwm
          obtain ⟨v, hv, hvseq, -⟩ := back hdone1.edits hw
          obtain ⟨u, hu, huseq, huin⟩ := inTl hdone1.edits h.storeOk hv
            (hin v hv (by rw [hvseq]; omega) (by rw [hvseq]; exact hwm))
          rwa [← hdone1.ok.seqOk.samplesOrdered.eq_of_key hu hw (huseq.trans hvseq)]
        have hle1 := toCome_le_of_edits hdone1.edits s
        obtain ⟨whc', hrun, hdone, hpruned⟩ :=
          ih fuel fuel.lt_succ_self hdone1.ok hdone1.sized hnext1 (by omega) hin1 fun _ ↦ hmark1
        refine ⟨whc', heq.trans hrun, hdone1.trans hdone, fun w hw hcur hwm n hn hname ↦ ?_⟩
        obtain ⟨v, hv, hvseq, -, -, -, hvidx⟩ := back hdone.edits hw
        obtain ⟨u, hu, huseq, -⟩ := back hdone1.edits hv
        have hsw : s ≤ w.seq := hnext.2.2 w.seq (mem_seqs_iff.mpr ⟨u, hu, huseq.trans hvseq⟩) hcur
        rcases hsw.eq_or_lt with heqs | hlts
        · -- the ring was pruned in this round, and nothing came back
          obtain ⟨x, hx, hsub, -⟩ := nodes hdone.edits hn
          have hsettings : whc'.toWhcSettings = whc₁.toWhcSettings := settings hdone.edits
          have hvname : v.idxnode = some x.name := by
            rw [hname, hsub.name] at hvidx
            exact (hvidx.resolve_left (by simp)).symm
          intro i t ht
          rw [hsettings, hsub.headidx]
          exact hpruned1 v hv (hvseq.trans heqs.symm) x hx hvname i t (hsub.holds i t ht)
        · exact hpruned w hw hlts hwm n hn hname

end SecondLoop

section Call

variable {last m : ℤ} {whc whc₁ whc2 : Whc} {ndropped : ℕ}

/-- `whc_findmax_procedurally` finds the sample with the largest number. -/
lemma SeqOk.findmax (h : SeqOk last whc) (hsize : whc.seqSize = whc.samples.length) :
    Greatest whc.seqs (whcFindmaxProcedurally whc) := by
  unfold whcFindmaxProcedurally
  split_ifs with hzero
  · have hnil : whc.samples = [] := length_eq_zero_iff.mp (hsize.symm.trans hzero)
    refine Set.eq_empty_iff_forall_notMem.mpr fun x hx ↦ ?_
    obtain ⟨w, hw, -⟩ := mem_seqs_iff.mp hx
    rw [hnil] at hw
    simp at hw
  · obtain ⟨o, hlast, hmin⟩ := map_eq_some_iff.mp h.intv.openLast
    obtain ⟨ipre, hsplit⟩ := getLast?_eq_some_iff.mp hlast
    have ho : o ∈ whc.seq := mem_of_getLast? hlast
    have hok := h.intv
    rw [hsplit] at hok
    rw [← hmin, lookup_of_mem h.intv.ordered ho]
    dsimp only
    -- an interval is the last one with samples, and its last number is the greatest
    have hgreatest : ∀ (l r : List WhcIntvnode) (iv : WhcIntvnode), whc.seq = l ++ iv :: r →
        iv.Filled → (∀ b ∈ r, ¬ b.min < b.maxp1) → Greatest whc.seqs iv.last := by
      intro l r iv heq hfill hr
      rw [hfill.2.2]
      have hiv : iv ∈ whc.seq := by simp [heq]
      refine ⟨h.intv.mem_of_bounds hiv (by have := hfill.1; omega) (by omega), fun x hx ↦ ?_⟩
      obtain ⟨c, hc, hlo, hhi⟩ := (h.intv.covers x).mpr hx
      have hsep := h.intv.separated
      rw [heq] at hc hsep
      obtain ⟨-, -, hcross⟩ := IntervalList.separated_append.mp hsep
      rcases mem_append.mp hc with hl | hmid
      · have := hcross c hl iv (mem_cons_self ..)
        have := hfill.1
        omega
      · rcases mem_cons.mp hmid with rfl | hr'
        · omega
        · exact absurd (hlo.trans_lt hhi) (hr c hr')
    rcases h.intv.filled o ho with hfill | ⟨-, hvacant⟩
    · rw [if_pos (by rw [hfill.2.1]; rfl)]
      exact hgreatest ipre [] o hsplit hfill (by simp)
    · rw [if_neg (by rw [hvacant.2]; simp), hsplit, filter_lt_split hok.ordered]
      cases hpre : ipre.getLast? with
      | none =>
        -- no interval has samples, but there are samples
        rw [getLast?_eq_none_iff] at hpre
        have hpos : whc.samples ≠ [] := fun hnil ↦ hzero (hsize.trans (by rw [hnil]; rfl))
        obtain ⟨w, hw⟩ := exists_mem_of_ne_nil _ hpos
        obtain ⟨c, hc, hlo, hhi⟩ := (h.intv.covers w.seq).mpr (seq_mem hw)
        rw [hsplit, hpre, nil_append, mem_singleton] at hc
        subst hc
        exact absurd hvacant.1 (hlo.trans_lt hhi).ne
      | some iv =>
        obtain ⟨l, rfl⟩ := getLast?_eq_some_iff.mp hpre
        refine hgreatest l [o] iv (by rw [hsplit]; simp) (hok.filled_of_before (by simp)) ?_
        simp only [mem_singleton, forall_eq]
        exact not_lt.mpr hvacant.1.ge

def WhcStore.setMaxDrop (st : WhcStore) (m : ℤ) : WhcStore :=
  ⟨{ st.admin with maxDropSeq := m }, st.samples⟩

/-- What `whc_remove_acked_messages` leaves. -/
structure Removed (last m : ℤ) (whc whc' : Whc) : Prop where
  ok : WhcOk last whc'
  sized : Sized 0 whc'
  maxseq : Greatest whc'.seqs whc'.maxseqNode
  edits : ∃ st, StoreEdits m whc.store st ∧ whc'.store = st.setMaxDrop m
  done : ∀ w ∈ whc'.samples, whc.maxDropSeq < w.seq → w.seq ≤ m →
    w.unacked = false ∧ InTl whc'.toWhcAdmin w
  pruned : ∀ w ∈ whc'.samples, whc.maxDropSeq < w.seq → w.seq ≤ m →
    ∀ n ∈ whc'.idxHash, w.idxnode = some n.name → Pruned whc'.toWhcAdmin n
  noStale : ∀ c, whc.maxDropSeq ≤ c → NoStale c whc.toWhcAdmin whc.samples →
    NoStale c whc'.toWhcAdmin whc'.samples

lemma toCome_le_length (cur : ℤ) (whc : Whc) : toCome cur whc ≤ whc.seqHash.length := by
  refine (countP_le_length ..).trans ?_
  rw [Whc.samples, length_map]

def Whc.finishRemove (whc : Whc) (ndropped : ℕ) (m : ℤ) : Whc :=
  { whc with
    seqSize := whc.seqSize - ndropped
    maxseqNode := whcFindmaxProcedurally { whc with seqSize := whc.seqSize - ndropped }
    maxDropSeq := m }

lemma RemoveDone.removed (h1 : RemoveDone last m whc.maxDropSeq whc whc₁ 0 ndropped)
    (h2 : PruneDone last m ndropped whc₁ whc2)
    (hpruned : ∀ w ∈ whc2.samples, whc.maxDropSeq < w.seq → w.seq ≤ m →
      ∀ n ∈ whc2.idxHash, w.idxnode = some n.name → Pruned whc2.toWhcAdmin n)
    (hstale : ∀ c, NoStale c whc₁.toWhcAdmin whc₁.samples →
      NoStale c whc2.toWhcAdmin whc2.samples) :
    Removed last m whc (whc2.finishRemove ndropped m) := by
  have hsize : whc2.seqSize - ndropped = whc2.samples.length := by
    have := h2.sized
    unfold Sized at this
    omega
  refine ⟨⟨h2.ok.seqOk.of_eq rfl rfl rfl, h2.ok.idxOk.of_eq rfl rfl rfl⟩, hsize, ?_,
    ⟨whc2.store, h1.edits.trans h2.edits, rfl⟩, fun w hw hcur hle ↦ ?_, hpruned,
    fun c hc hclean ↦ hstale c (h1.noStale c hc hclean)⟩
  swap
  -- what the first loop has kept is still there after the second one
  · exact StoreEdits.done h2.edits h1.ok.storeOk h2.ok.storeOk hw fun v hv hvseq ↦
      h1.done v hv (hvseq ▸ hcur) (hvseq ▸ hle)
  have hseq : SeqOk last { whc2 with seqSize := whc2.seqSize - ndropped } :=
    h2.ok.seqOk.of_eq rfl rfl rfl
  exact hseq.findmax hsize

/-- `whc_remove_acked_messages`, where it does anything at all. It returns, unless it follows a
pointer to a freed index node. -/
lemma whcRemoveAckedMessages_spec (h : WhcOk last whc) (hsized : Sized 0 whc)
    (hkeep : ¬ (whc.isTransientLocal ∧ whc.tldepth = 0))
    (hmark : whc.maxDropSeq < m → 0 < whc.tldepth → ∀ n ∈ whc.idxHash, n.pruneSeq < m) :
    (∃ whc', whcRemoveAckedMessages whc m = some whc' ∧ Removed last m whc whc') ∨
      (whcRemoveAckedMessages whc m = none ∧
        ¬ NoStale whc.maxDropSeq whc.toWhcAdmin whc.samples) := by
  obtain ⟨hnext, hI⟩ := h.seqOk.findNextseqIntv_spec whc.maxDropSeq
  unfold whcRemoveAckedMessages
  rw [if_neg hkeep]
  simp only [bind_eq_bind]
  rcases removeAckedLoop_done (m := m) whc.seqHash.length h hnext hI
      (toCome_le_length _ _) with ⟨whc₁, ndropped, hrun, h1⟩ | ⟨hrun, hclean⟩
  · left
    rw [hrun, bind_some]
    have hsettings : whc₁.toWhcSettings = whc.toWhcSettings := settings h1.edits
    have hsized1 : Sized ndropped whc₁ := by
      have hlength := h1.length
      have hsame := h1.seqSize
      unfold Sized at *
      omega
    split_ifs with hprune
    · obtain ⟨hnext1, -⟩ := h1.ok.seqOk.findNextseqIntv_spec whc.maxDropSeq
      have hmarked : whc.maxDropSeq < m → Marked m whc₁ := by
        intro hlt n' hn' hnm
        obtain ⟨n, hn, heq⟩ := h1.marks n' hn'
        exact absurd (hmark hlt hprune.1 n hn) (by rw [← heq, hnm]; exact lt_irrefl m)
      obtain ⟨whc2, hrun2, h2, hpruned⟩ := pruneAckedLoop_done whc₁.seqHash.length h1.ok hsized1
        hnext1 (toCome_le_length _ _) (fun w hw hcur hle ↦ (h1.done w hw hcur hle).2) hmarked
      refine ⟨whc2.finishRemove ndropped m, ?_, h1.removed h2 hpruned fun c hstale ↦ ?_⟩
      · rw [hrun2]
        rfl
      · refine noStale h2.edits h1.ok.storeOk ?_ hstale
        exact (congrArg WhcSettings.tldepth hsettings) ▸ hprune.1
    · refine ⟨whc₁.finishRemove ndropped m, rfl,
        h1.removed (h1.ok.pruneDone_self hsized1) (fun w hw hcur hle n hn hname i s hs ↦ ?_)
          fun _ ↦ id⟩
      -- a ring whose depth is that of the transient-local history has nothing behind it
      have hring := h1.ok.idxOk.ring n hn
      refine (age_lt hring.headidx_lt (hring.lt_of_holds hs)).trans_le ?_
      obtain ⟨-, k, -, -, hage⟩ := h1.done w hw hcur hle
      rw [hsettings] at hage ⊢
      omega
  · right
    rw [hrun, bind_none]
    exact ⟨rfl, hclean⟩

end Call

end OpenSplice.Ddsi
