import OpenSplice.Ddsi.Whc.Insert

/-!
# Runs of a cache

The calls a writer makes on its history cache, and the states they lead to. A call is allowed when
what it asserts on entry holds, and the numbers of the inserted samples go up. In each state of such
a run the cache is in order (`WhcReach.inv`). What this says of the representation, field by field,
is `WhcRep`.

Writers insert samples with numbers above every drop point they have passed before. In such runs no
call follows a pointer to freed memory (`WhcReach.tidy`).
-/

set_option autoImplicit false

namespace OpenSplice.Ddsi

open Library Library.Neighbour List Option WhcSettings Whc IntervalList

/-! ### Calls and runs -/

inductive WhcCall where
  | insert (maxDropSeq seq : ℤ) (serdata : WhcSerdata)
  | removeAcked (maxDropSeq : ℤ)
  | downgrade
  deriving DecidableEq

def whcCall (whc : Whc) : WhcCall → Option Whc
  | .insert maxDropSeq seq serdata => whcInsert whc maxDropSeq seq serdata
  | .removeAcked maxDropSeq => whcRemoveAckedMessages whc maxDropSeq
  | .downgrade => whcDowngradeToVolatile whc

/-- What a run has done so far: the largest number it has inserted, the largest drop point it has
given, and the samples it has inserted, the last one first. -/
structure WhcLog where
  last : ℤ := 0
  drop : ℤ := 0
  written : List (ℤ × WhcSerdata) := []
  deriving DecidableEq

def WhcLog.call (log : WhcLog) : WhcCall → WhcLog
  | .insert maxDropSeq seq serdata => ⟨seq, max log.drop maxDropSeq, (seq, serdata) :: log.written⟩
  | .removeAcked maxDropSeq => { log with drop := max log.drop maxDropSeq }
  | .downgrade => log

def WhcCall.Allowed (log : WhcLog) (whc : Whc) : WhcCall → Prop
  | .insert maxDropSeq seq _ => whc.maxDropSeq ≤ maxDropSeq ∧ log.last < seq
  | .removeAcked maxDropSeq => whc.maxDropSeq ≤ maxDropSeq
  | .downgrade =>
    whc.isTransientLocal = false ∧ (0 < whc.tldepth → whc.hdepth = 0 ∨ whc.tldepth ≤ whc.hdepth)

instance (log : WhcLog) (whc : Whc) : (c : WhcCall) → Decidable (c.Allowed log whc)
  | .insert .. => inferInstanceAs (Decidable (_ ∧ _))
  | .removeAcked m => inferInstanceAs (Decidable (whc.maxDropSeq ≤ m))
  | .downgrade => inferInstanceAs (Decidable (_ ∧ (_ → _)))

def WhcCall.Above (log : WhcLog) (whc : Whc) (c : WhcCall) : Prop :=
  c.Allowed log whc ∧ ∀ maxDropSeq seq serdata, c = .insert maxDropSeq seq serdata →
    whc.maxDropSeq < seq

/-- The states of the runs from `start` whose calls meet a condition. -/
inductive WhcReach (P : WhcLog → Whc → WhcCall → Prop) (start : Whc) : WhcLog → Whc → Prop
  | start : WhcReach P start {} start
  | call {log : WhcLog} {whc whc' : Whc} {c : WhcCall} (hreach : WhcReach P start log whc)
      (hcall : P log whc c) (hrun : whcCall whc c = some whc') :
      WhcReach P start (log.call c) whc'

section Downgrade

variable {last : ℤ} {whc : Whc} {w' : WhcSample}

variable {whc' whc1 : Whc}

def Loosened (w w' : WhcSample) : Prop := w' = w ∨ w' = w.released

lemma Loosened.trans {u v w : WhcSample} (huv : Loosened u v) (hvw : Loosened v w) :
    Loosened u w := by
  rcases huv with rfl | rfl
  · exact hvw
  · rcases hvw with rfl | rfl <;> exact .inr rfl

/-- The cache `whc'` is `whc`, with some samples let go. -/
structure LooseDone (last : ℤ) (whc whc' : Whc) : Prop where
  seqOk : SeqOk last whc'
  admin : whc'.toWhcAdmin = whc.toWhcAdmin
  seqs : whc'.seqs = whc.seqs
  maxseqNode : whc'.maxseqNode = whc.maxseqNode
  seqSize : whc'.seqSize = whc.seqSize
  samples : List.Forall₂ Loosened whc.samples whc'.samples

lemma forall₂_loosened_refl (l : List WhcSample) : List.Forall₂ Loosened l l :=
  forall₂_same.mpr fun _ _ ↦ .inl rfl

lemma LooseDone.trans {whc2 : Whc} (h1 : LooseDone last whc whc1)
    (h2 : LooseDone last whc1 whc2) : LooseDone last whc whc2 := by
  refine ⟨h2.seqOk, h2.admin.trans h1.admin, h2.seqs.trans h1.seqs,
    h2.maxseqNode.trans h1.maxseqNode, h2.seqSize.trans h1.seqSize, ?_⟩
  have htrans : ∀ {l1 l2 l3 : List WhcSample}, List.Forall₂ Loosened l1 l2 →
      List.Forall₂ Loosened l2 l3 → List.Forall₂ Loosened l1 l3 := by
    intro l1 l2 l3 h12
    induction h12 generalizing l3 with
    | nil => exact id
    | cons hab _ ih =>
      rintro (_ | ⟨hbc, h23⟩)
      exact List.Forall₂.cons (hab.trans hbc) (ih h23)
  exact htrans h1.samples h2.samples

lemma forall₂_loosened_back {l l' : List WhcSample} (h : List.Forall₂ Loosened l l')
    (hw' : w' ∈ l') : ∃ w ∈ l, Loosened w w' := by
  obtain ⟨i, hi, rfl⟩ := getElem_of_mem hw'
  have hlen := h.length_eq
  exact ⟨l[i], getElem_mem _, (forall₂_iff_get.mp h).2 i (by omega) hi⟩

lemma LooseDone.back (h : LooseDone last whc whc') (hw' : w' ∈ whc'.samples) :
    ∃ w ∈ whc.samples, Loosened w w' :=
  forall₂_loosened_back h.samples hw'

lemma Loosened.seq_eq {w : WhcSample} (h : Loosened w w') : w'.seq = w.seq := by
  rcases h with rfl | rfl <;> rfl

lemma SeqOk.looseDone (h : SeqOk last whc) (s : ℤ) :
    LooseDone last whc (whc.modify s WhcSample.released) := by
  refine ⟨SeqOk.modify (fun _ ↦ rfl) h, rfl, seqs_modify fun _ ↦ rfl, rfl, rfl, ?_⟩
  rw [samples_modify, KeyedList.modify, forall₂_map_right_iff]
  refine forall₂_same.mpr fun w _ ↦ ?_
  split_ifs
  · exact .inr rfl
  · exact .inl rfl

/-- `free_one_instance_from_idx` with drop point `0` deletes nothing. -/
lemma freeOneInstanceFromIdx_zero (hist : List (Option ℤ)) {whc : Whc} (h : SeqOk last whc)
    (hpos : ∀ t, some t ∈ hist → 0 < t) :
    ∃ whc', freeOneInstanceFromIdx 0 hist whc = some whc' ∧ LooseDone last whc whc' ∧
      ∀ w ∈ whc'.samples, some w.seq ∈ hist → w.idxnode = none := by
  induction hist generalizing whc with
  | nil =>
    exact ⟨whc, rfl, ⟨h, rfl, rfl, rfl, rfl, forall₂_loosened_refl _⟩,
      fun w _ hmem ↦ absurd hmem (by simp)⟩
  | cons a _ ih =>
    cases a with
    | none =>
      obtain ⟨whc', hrun, hdone, hfreed⟩ := ih h fun t ht ↦ hpos t (mem_cons_of_mem _ ht)
      exact ⟨whc', hrun, hdone, fun w hw hmem ↦ hfreed w hw (by simpa using hmem)⟩
    | some o =>
      have ho := hpos o (mem_cons_self ..)
      have hone := h.looseDone o
      obtain ⟨whc', hrun, hdone, hfreed⟩ := ih hone.seqOk fun t ht ↦ hpos t (mem_cons_of_mem _ ht)
      refine ⟨whc', ?_, hone.trans hdone, fun w hw hmem ↦ ?_⟩
      · simp only [freeOneInstanceFromIdx, freeSample, if_neg (not_le.mpr ho),
          bind_eq_bind, bind_some]
        exact hrun
      · rcases mem_cons.mp hmem with heq | hmem
        · obtain ⟨v, hv, hvw⟩ := hdone.back hw
          rw [samples_modify] at hv
          rcases KeyedList.mem_modify.mp hv with ⟨b, -, -, rfl⟩ | ⟨-, hne⟩
          · rcases hvw with rfl | rfl <;> rfl
          · exact absurd (hvw.seq_eq.symm.trans (some_inj.mp heq)) hne
        · exact hfreed w hw hmem

lemma freeIndex_done (idxHash : List WhcIdxnode) {whc : Whc} (h : SeqOk last whc)
    (hpos : ∀ n ∈ idxHash, ∀ t, some t ∈ n.hist → 0 < t) :
    ∃ whc', freeIndex idxHash whc = some whc' ∧ LooseDone last whc whc' ∧
      ∀ w ∈ whc'.samples, ∀ n ∈ idxHash, some w.seq ∈ n.hist → w.idxnode = none := by
  induction idxHash generalizing whc with
  | nil =>
    exact ⟨whc, rfl, ⟨h, rfl, rfl, rfl, rfl, forall₂_loosened_refl _⟩,
      fun w _ n hn ↦ absurd hn (by simp)⟩
  | cons n _ ih =>
    obtain ⟨whc1, hrun1, hdone1, hfreed1⟩ :=
      freeOneInstanceFromIdx_zero n.hist h (hpos n (mem_cons_self ..))
    obtain ⟨whc', hrun, hdone, hfreed⟩ := ih hdone1.seqOk fun m hm ↦ hpos m (mem_cons_of_mem _ hm)
    refine ⟨whc', ?_, hdone1.trans hdone, fun w hw m hm hmem ↦ ?_⟩
    · simp only [freeIndex, hrun1, bind_eq_bind, bind_some]
      exact hrun
    · rcases mem_cons.mp hm with rfl | hm
      · obtain ⟨v, hv, hvw⟩ := hdone.back hw
        have hvnone := hfreed1 v hv (hvw.seq_eq ▸ hmem)
        rcases hvw with rfl | rfl
        · exact hvnone
        · rfl
      · exact hfreed w hw m hm hmem

def WhcSettings.volatile (settings : WhcSettings) : WhcSettings :=
  { settings with tldepth := 0, idxdepth := settings.hdepth }

/-- The cache without its transient-local history. -/
structure Volatile (last : ℤ) (whc whc' : Whc) : Prop where
  ok : WhcOk last whc'
  sized : Sized 0 whc'
  samples : List.Forall₂ Loosened whc.samples whc'.samples
  settings : whc'.toWhcSettings = whc.toWhcSettings.volatile
  unackedBytes : whc'.unackedBytes = whc.unackedBytes
  idxHash : ∀ n ∈ whc'.idxHash, n ∈ whc.idxHash
  noStale : ∀ c, NoStale c whc.toWhcAdmin whc.samples → NoStale c whc'.toWhcAdmin whc'.samples

lemma LooseDone.sized (h : LooseDone last whc whc') (hsized : Sized 0 whc) : Sized 0 whc' := by
  have hlen := h.samples.length_eq
  have hsize := h.seqSize
  unfold Sized at *
  omega

lemma WhcInv.freeIndex_volatile (h : WhcInv last whc) (hzero : whc.hdepth = 0) :
    ∃ whc1, freeIndex whc.idxHash { whc with tldepth := 0 } = some whc1 ∧
      Volatile last whc { whc1 with idxdepth := 0, idxHash := [] } := by
  have hpos : ∀ n ∈ whc.idxHash, ∀ t, some t ∈ n.hist → 0 < t := by
    intro n hn t ht
    obtain ⟨i, hi⟩ := WhcIdxnode.mem_hist_iff.mp ht
    obtain ⟨w, hw, rfl, -⟩ := (h.ok.idxOk.entry n hn i t).mp hi
    exact h.ok.seqOk.pos w.seq (seq_mem hw)
  have hseqOk : SeqOk last { whc with tldepth := 0 } := h.ok.seqOk.of_eq rfl rfl rfl
  obtain ⟨whc1, hrun, hdone, hfreed⟩ := freeIndex_done whc.idxHash hseqOk hpos
  have hadmin : whc1.toWhcAdmin = { whc.toWhcAdmin with tldepth := 0 } := hdone.admin
  refine ⟨whc1, hrun, ⟨hdone.seqOk.of_eq rfl rfl rfl, ?_⟩, hdone.sized h.sized, hdone.samples, ?_,
    show whc1.unackedBytes = whc.unackedBytes by rw [hadmin], fun n hn ↦ absurd hn (by simp),
    fun c hstale w hw hlt name hname ↦ ?_⟩
  · refine ⟨.nil, by simp, fun w hw name hname ↦ ?_, by simp, by simp, by simp, by simp⟩
    obtain ⟨v, hv, hvw⟩ := hdone.back hw
    have hnext : whc1.nextIdxnode = whc.nextIdxnode := by rw [hadmin]
    rcases hvw with rfl | rfl
    · exact hnext ▸ h.ok.idxOk.known w hv name hname
    · simp [WhcSample.released] at hname
  · unfold volatile
    simp only [hadmin, hzero]
  · obtain ⟨v, hv, hvw⟩ := hdone.back hw
    rcases hvw with rfl | rfl
    · obtain ⟨n, hn, rfl⟩ := hstale w hv hlt name hname
      have hmem := WhcIdxnode.mem_hist_iff.mpr ⟨_, h.ok.idxOk.holds hn hv hname⟩
      exact absurd (hname.symm.trans (hfreed w hw n hn hmem)) (by simp)
    · simp [WhcSample.released] at hname

lemma WhcInv.dropTlHistory_done (h : WhcInv last whc)
    (hdepth : 0 < whc.tldepth → whc.hdepth = 0 ∨ whc.tldepth ≤ whc.hdepth) :
    ∃ whc1, dropTlHistory whc = some whc1 ∧ Volatile last whc whc1 := by
  have hmax := h.depth
  unfold dropTlHistory
  split
  · split
    case isTrue hzero =>
      obtain ⟨whc1, hrun, hvol⟩ := h.freeIndex_volatile hzero
      exact ⟨_, by rw [hrun, map_some], hvol⟩
    · have hidx : whc.idxdepth = whc.hdepth := by omega
      refine ⟨_, rfl, ⟨h.ok.seqOk.of_eq rfl rfl rfl, h.ok.idxOk.of_eq rfl rfl rfl⟩, h.sized,
        forall₂_loosened_refl _, ?_, rfl, fun n hn ↦ hn, fun _ ↦ id⟩
      simp only [volatile, hidx]
  · have hzero : whc.tldepth = 0 := by omega
    have hidx : whc.idxdepth = whc.hdepth := by omega
    refine ⟨whc, rfl, h.ok, h.sized, forall₂_loosened_refl _, ?_, rfl, fun n hn ↦ hn, fun _ ↦ id⟩
    rw [volatile, ← hzero]
    exact congrArg ({ whc.toWhcSettings with idxdepth := · }) hidx

/-- The cache as `whc_downgrade_to_volatile` hands it on to `whc_remove_acked_messages`. -/
lemma Volatile.removed (h : Volatile last whc whc1) (htl : whc.isTransientLocal = false) :
    (∃ whc', whcRemoveAckedMessages { whc1 with maxDropSeq := 0 } whc1.maxDropSeq = some whc' ∧
        Removed last whc.maxDropSeq { whc1 with maxDropSeq := 0 } whc') ∨
      (whcRemoveAckedMessages { whc1 with maxDropSeq := 0 } whc1.maxDropSeq = none ∧
        ¬ NoStale 0 whc.toWhcAdmin whc.samples) := by
  have hmax : whc1.maxDropSeq = whc.maxDropSeq := by rw [h.settings, volatile]
  have hflag : whc1.isTransientLocal = whc.isTransientLocal := by rw [h.settings, volatile]
  have hzero : whc1.tldepth = 0 := by rw [h.settings, volatile]
  have hok : WhcOk last { whc1 with maxDropSeq := 0 } :=
    ⟨h.ok.seqOk.of_eq rfl rfl rfl, h.ok.idxOk.of_eq rfl rfl rfl⟩
  rw [hmax]
  refine (whcRemoveAckedMessages_spec hok h.sized (fun hc ↦ ?_) fun _ hpos ↦ ?_).imp_right
    fun ⟨hrun, hstale⟩ ↦ ⟨hrun, fun hclean ↦ hstale (h.noStale 0 hclean)⟩
  · exact absurd (hflag.symm.trans hc.1) (by rw [htl]; simp)
  · exact absurd hzero (Nat.pos_iff_ne_zero.mp hpos)

end Downgrade

section Calls

variable {last m : ℤ} {whc whc' : Whc}

section

variable (h : Removed last m whc whc')

include h

namespace Removed

lemma settings : whc'.toWhcSettings = { whc.toWhcSettings with maxDropSeq := m } := by
  obtain ⟨st, hedits, hstore⟩ := h.edits
  have hadmin : whc'.toWhcAdmin = (st.setMaxDrop m).admin := congrArg WhcStore.admin hstore
  have hsettings : st.admin.toWhcSettings = whc.toWhcSettings := StoreEdits.settings hedits
  rw [hadmin, ← hsettings, WhcStore.setMaxDrop]

lemma maxDropSeq : whc'.maxDropSeq = m := by
  rw [h.settings]

lemma tldepth : whc'.tldepth = whc.tldepth := by
  rw [h.settings]

lemma isTransientLocal : whc'.isTransientLocal = whc.isTransientLocal := by
  rw [h.settings]

lemma back {w : WhcSample} (hw : w ∈ whc'.samples) :
    ∃ v ∈ whc.samples, v.seq = w.seq ∧ v.serdata = w.serdata ∧ FlagKept m v w := by
  obtain ⟨st, hedits, hstore⟩ := h.edits
  have hsamples : whc'.samples = st.samples := congrArg WhcStore.samples hstore
  obtain ⟨v, hv, hseq, hserdata, -, hunacked, -⟩ := StoreEdits.back hedits (hsamples ▸ hw)
  exact ⟨v, hv, hseq, hserdata, hunacked⟩

lemma inv (hdepth : whc.idxdepth = max whc.hdepth whc.tldepth) (hm : 0 ≤ m)
    (hprune : ∀ n ∈ whc.idxHash, n.pruneSeq ≤ m)
    (hstale : NoStale m whc.toWhcAdmin whc.samples) (hle : whc.maxDropSeq ≤ m) (hlast : 0 ≤ last) :
    WhcInv last whc' := by
  refine ⟨h.ok, h.sized, h.maxseq, ?_, ?_, ?_, ?_, hlast⟩
  · rw [h.settings]
    exact hdepth
  · rw [h.maxDropSeq]
    exact hm
  · rw [h.maxDropSeq]
    obtain ⟨st, hedits, hstore⟩ := h.edits
    have hidx : whc'.idxHash = st.admin.idxHash := congrArg (fun st ↦ st.admin.idxHash) hstore
    rw [hidx]
    exact StoreEdits.pruneSeq_le hedits hprune
  · rw [h.maxDropSeq]
    exact h.noStale m hle hstale

end Removed

end

/-- `whc_remove_acked_messages` between two calls, where it does anything. -/
lemma WhcInv.removed (h : WhcInv last whc) (hkeep : ¬ (whc.isTransientLocal ∧ whc.tldepth = 0)) :
    ∃ whc', whcRemoveAckedMessages whc m = some whc' ∧ Removed last m whc whc' := by
  have hmark : whc.maxDropSeq < m → 0 < whc.tldepth → ∀ n ∈ whc.idxHash, n.pruneSeq < m :=
    fun hlt _ n hn ↦ (h.pruneSeq_le n hn).trans_lt hlt
  exact (whcRemoveAckedMessages_spec h.ok h.sized hkeep hmark).resolve_right fun hstale ↦
    hstale.2 h.noStale

lemma WhcInv.removeAcked (h : WhcInv last whc) (hm : whc.maxDropSeq ≤ m)
    (hkeep : ¬ (whc.isTransientLocal ∧ whc.tldepth = 0)) :
    ∃ whc', whcRemoveAckedMessages whc m = some whc' ∧ Removed last m whc whc' ∧
      WhcInv last whc' := by
  obtain ⟨whc', hrun, hdone⟩ := h.removed hkeep
  exact ⟨whc', hrun, hdone, hdone.inv h.depth (h.maxDropSeq_nonneg.trans hm)
    (fun n hn ↦ (h.pruneSeq_le n hn).trans hm) (h.noStale.mono hm) hm h.last_nonneg⟩

lemma WhcInv.downgrade (h : WhcInv last whc)
    (hdepth : 0 < whc.tldepth → whc.hdepth = 0 ∨ whc.tldepth ≤ whc.hdepth)
    (htl : whc.isTransientLocal = false) :
    (∃ whc1 whc', whcDowngradeToVolatile whc = some whc' ∧ Volatile last whc whc1 ∧
        Removed last whc.maxDropSeq { whc1 with maxDropSeq := 0 } whc' ∧ WhcInv last whc') ∨
      (whcDowngradeToVolatile whc = none ∧ ¬ NoStale 0 whc.toWhcAdmin whc.samples) := by
  obtain ⟨whc1, hrun1, hvol⟩ := h.dropTlHistory_done hdepth
  unfold whcDowngradeToVolatile
  rw [hrun1, bind_eq_bind, bind_some]
  rcases hvol.removed htl with ⟨whc', hrun, hdone⟩ | hfail
  · refine .inl ⟨whc1, whc', hrun, hvol, hdone, hdone.inv ?_ h.maxDropSeq_nonneg
      (fun n hn ↦ h.pruneSeq_le n (hvol.idxHash n hn)) (hvol.noStale _ h.noStale)
      h.maxDropSeq_nonneg h.last_nonneg⟩
    have hsettings := hvol.settings
    have hidx : whc1.idxdepth = whc.hdepth := by rw [hsettings, volatile]
    have hh : whc1.hdepth = whc.hdepth := by rw [hsettings, volatile]
    have hzero : whc1.tldepth = 0 := by rw [hsettings, volatile]
    exact hidx.trans (by rw [hh, hzero, Nat.max_zero])
  · exact .inr hfail

/-- What a call that comes to an end does to a cache. -/
inductive CallShape (last : ℤ) (whc : Whc) : WhcCall → Whc → Prop
  | insert {md s : ℤ} {d : WhcSerdata} {whc' : Whc} :
      InsertShape md s d whc.store whc'.store → CallShape last whc (.insert md s d) whc'
  | kept {m : ℤ} : CallShape last whc (.removeAcked m) whc
  | removed {m : ℤ} {whc' : Whc} : ¬ (whc.isTransientLocal = true ∧ whc.tldepth = 0) →
      Removed last m whc whc' → CallShape last whc (.removeAcked m) whc'
  | downgraded {whc1 whc' : Whc} : Volatile last whc whc1 →
      Removed last whc.maxDropSeq { whc1 with maxDropSeq := 0 } whc' →
      CallShape last whc .downgrade whc'

/-- A call leaves the cache in order. Only a downgrade may fail to return. -/
lemma whcCall_inv {log : WhcLog} {c : WhcCall} (h : WhcInv log.last whc)
    (hallowed : c.Allowed log whc) :
    (∃ whc', whcCall whc c = some whc' ∧ WhcInv (log.call c).last whc' ∧
        CallShape log.last whc c whc') ∨
      (whcCall whc c = none ∧ c = .downgrade ∧ ¬ NoStale 0 whc.toWhcAdmin whc.samples) := by
  cases c with
  | insert md _ d =>
    obtain ⟨whc', hrun, hinv, hshape⟩ := whcInsert_spec h hallowed.2 md d
    exact .inl ⟨whc', hrun, hinv, .insert hshape⟩
  | removeAcked =>
    by_cases hkeep : whc.isTransientLocal ∧ whc.tldepth = 0
    · exact .inl ⟨whc, by simp [whcCall, whcRemoveAckedMessages, hkeep], h, .kept⟩
    · obtain ⟨whc', hrun, hdone, hinv⟩ := h.removeAcked hallowed hkeep
      exact .inl ⟨whc', hrun, hinv, .removed hkeep hdone⟩
  | downgrade =>
    rcases h.downgrade hallowed.2 hallowed.1 with
      ⟨_, whc', hrun, hvol, hdone, hinv⟩ | ⟨hrun, hstale⟩
    · exact .inl ⟨whc', hrun, hinv, .downgraded hvol hdone⟩
    · exact .inr ⟨hrun, rfl, hstale⟩

end Calls

section Runs

variable {log : WhcLog} {last : ℤ} {whc start : Whc} {P : WhcLog → Whc → WhcCall → Prop}

variable {whc' : Whc} {m : ℤ}

lemma WhcReach.inv (hP : ∀ log whc c, P log whc c → c.Allowed log whc) (hstart : WhcInv 0 start)
    (hreach : WhcReach P start log whc) : WhcInv log.last whc := by
  induction hreach with
  | start => exact hstart
  | call _ hcall hrun ih =>
    rcases whcCall_inv ih (hP _ _ _ hcall) with ⟨whc', hrun', hinv, -⟩ | ⟨hrun', -⟩
    · rw [hrun, some_inj] at hrun'
      exact hrun' ▸ hinv
    · exact absurd (hrun.symm.trans hrun') (by simp)

lemma WhcInv.callShape {c : WhcCall} (h : WhcInv log.last whc) (hallowed : c.Allowed log whc)
    (hrun : whcCall whc c = some whc') : CallShape log.last whc c whc' := by
  rcases whcCall_inv h hallowed with ⟨whc1, hrun1, -, hshape⟩ | ⟨hnone, -⟩
  · obtain rfl := Option.mem_unique hrun1 hrun
    exact hshape
  · exact absurd (hrun.symm.trans hnone) (by simp)

/-- No sample points to a freed index node, and samples below the drop point are there only for a
transient-local history. -/
structure Tidy (whc : Whc) : Prop where
  noStale : NoStale 0 whc.toWhcAdmin whc.samples
  above : whc.isTransientLocal = false → whc.tldepth = 0 → ∀ x ∈ whc.seqs, whc.maxDropSeq < x

/-- What was acknowledged stays only in a transient-local history. -/
lemma Removed.above (h : Removed last m whc whc') (hzero : whc.tldepth = 0)
    {w : WhcSample} (hw : w ∈ whc'.samples) (hlt : whc.maxDropSeq < w.seq) : m < w.seq := by
  refine not_le.mp fun hle ↦ ?_
  obtain ⟨-, n, -, -, hage⟩ := h.done w hw hlt hle
  rw [h.tldepth, hzero] at hage
  exact absurd hage (Nat.not_lt_zero _)

lemma Tidy.insert {md s : ℤ} {d : WhcSerdata} (h : Tidy whc) (hinv : WhcInv last whc)
    (hs : whc.maxDropSeq < s) (hshape : InsertShape md s d whc.store whc'.store) : Tidy whc' := by
  have hsettings : whc'.toWhcSettings = whc.toWhcSettings := hshape.settings
  refine ⟨hshape.noStale hinv.ok.storeOk h.noStale, fun htl hzero x hx ↦ ?_⟩
  rw [hsettings] at htl hzero ⊢
  obtain ⟨w, hw, rfl⟩ := mem_seqs_iff.mp hx
  obtain ⟨v, hv | rfl, hseq, -⟩ := hshape.back hw
  · exact hseq ▸ h.above htl hzero v.seq (seq_mem hv)
  · exact hseq ▸ hs

lemma Tidy.removed (h : Tidy whc) (hinv : WhcInv last whc)
    (hkeep : ¬ (whc.isTransientLocal ∧ whc.tldepth = 0)) (hdone : Removed last m whc whc') :
    Tidy whc' := by
  have hmem : ∀ w ∈ whc'.samples, w.seq ∈ whc.seqs := by
    intro w hw
    obtain ⟨v, hv, hseq, -⟩ := hdone.back hw
    exact mem_seqs_iff.mpr ⟨v, hv, hseq⟩
  refine ⟨?_, fun htl hzero x hx ↦ ?_⟩
  · by_cases hzero : whc.tldepth = 0
    · have htl : whc.isTransientLocal = false := by simpa [hzero] using hkeep
      intro w hw _ name hname
      refine hdone.noStale _ le_rfl (h.noStale.mono hinv.maxDropSeq_nonneg) w hw ?_ name hname
      exact h.above htl hzero w.seq (hmem w hw)
    · obtain ⟨st, hedits, hstore⟩ := hdone.edits
      have hstale := StoreEdits.noStale hedits hinv.ok.storeOk (Nat.pos_of_ne_zero hzero) h.noStale
      have hsamples : whc'.samples = st.samples := congrArg WhcStore.samples hstore
      have hidx : whc'.idxHash = st.admin.idxHash := congrArg (fun st ↦ st.admin.idxHash) hstore
      intro w hw hpos name hname
      rw [hidx]
      exact hstale w (hsamples ▸ hw) hpos name hname
  · obtain ⟨w, hw, rfl⟩ := mem_seqs_iff.mp hx
    rw [hdone.isTransientLocal] at htl
    rw [hdone.tldepth] at hzero
    rw [hdone.maxDropSeq]
    exact hdone.above hzero hw (h.above htl hzero w.seq (hmem w hw))

/-- In runs that insert samples above the drop point, every state is tidy. -/
lemma WhcReach.tidy (hstart : WhcInv 0 start) (htidy : Tidy start)
    (hreach : WhcReach WhcCall.Above start log whc) : Tidy whc := by
  induction hreach with
  | start => exact htidy
  | @call _ _ _ _ hreach hcall hrun ih =>
    have hinv := hreach.inv (fun _ _ _ hc ↦ hc.1) hstart
    cases hinv.callShape hcall.1 hrun with
    | insert hshape => exact ih.insert hinv (hcall.2 _ _ _ rfl) hshape
    | kept => exact ih
    | removed hkeep hdone => exact ih.removed hinv hkeep hdone
    | downgraded hvol hdone =>
      refine ⟨hdone.noStale 0 le_rfl (hvol.noStale 0 ih.noStale), fun _ hzero x hx ↦ ?_⟩
      obtain ⟨w, hw, rfl⟩ := mem_seqs_iff.mp hx
      rw [hdone.tldepth] at hzero
      rw [hdone.maxDropSeq]
      exact hdone.above hzero hw (hdone.ok.seqOk.pos w.seq hx)

end Runs

/-! ### The representation -/

/-- What the cache looks like between two calls: its intervals, the list of its samples, its
counters and its index. -/
structure WhcRep (whc : Whc) : Prop where
  nonempty : ∀ iv ∈ whc.seq, iv.min ≠ whc.openIntv → iv.min < iv.maxp1
  apart : whc.seq.Pairwise fun a b ↦ a.maxp1 < b.min
  run : ∀ iv ∈ whc.seq, ∀ x, iv.min ≤ x → x < iv.maxp1 → x ∈ whc.seqs
  maximal : ∀ iv ∈ whc.seq, iv.min - 1 ∉ whc.seqs ∧ iv.maxp1 ∉ whc.seqs
  ends : ∀ iv ∈ whc.seq, iv.min < iv.maxp1 →
    iv.first = some iv.min ∧ iv.last = some (iv.maxp1 - 1)
  covers : ∀ x, (∃ iv ∈ whc.seq, iv.min ≤ x ∧ x < iv.maxp1) ↔ x ∈ whc.seqs
  openIntv : ∃ iv ∈ whc.seq, iv.min = whc.openIntv ∧ ∀ iv' ∈ whc.seq, iv'.min ≤ iv.min
  distinct : (whc.seqHash.map fun w ↦ w.seq).Nodup
  nextSeq : ∀ w ∈ whc.seqHash, Follows whc.seqs w.seq w.nextSeq
  prevSeq : ∀ w ∈ whc.seqHash, Precedes whc.seqs w.seq w.prevSeq
  seqSize : whc.seqSize = whc.seqHash.length
  maxseqNode : Greatest whc.seqs whc.maxseqNode
  head : ∀ n ∈ whc.idxHash, n.hist.length = whc.idxdepth ∧ n.headidx < whc.idxdepth ∧
    ∃ s, n.Holds n.headidx s
  aged : ∀ n ∈ whc.idxHash, ∀ i j s t, n.Holds i s → n.Holds j t →
    Ring.age whc.idxdepth n.headidx i < Ring.age whc.idxdepth n.headidx j → t < s
  entry : ∀ n ∈ whc.idxHash, ∀ i s, n.Holds i s →
    ∃ w ∈ whc.seqHash, w.seq = s ∧ w.serdata.key = n.key ∧ w.idxnode = some n.name ∧
      w.idxnodePos = i
  instances : ∀ m ∈ whc.idxHash, ∀ n ∈ whc.idxHash, m.key = n.key → m = n

section Rep

variable {last : ℤ} {whc : Whc}

variable {intvs : List WhcIntvnode} {openIntv : ℤ} {S : Set ℤ}

lemma IntvOk.maximal (h : IntvOk intvs openIntv S) {iv : WhcIntvnode}
    (hiv : iv ∈ intvs) : iv.min - 1 ∉ S ∧ iv.maxp1 ∉ S := by
  have hle := h.min_le_maxp1 hiv
  obtain ⟨ipre, ipost, rfl⟩ := append_of_mem hiv
  obtain ⟨-, hright, hcross⟩ := separated_append.mp h.separated
  -- an interval that covers a number next to this one would touch it
  have houtside : ∀ x, iv.min - 1 = x ∨ iv.maxp1 = x → x ∉ S := by
    intro x _ hmem
    obtain ⟨c, hc, hlo, hhi⟩ := (h.covers x).mpr hmem
    rcases KeyedList.mem_middle.mp hc with hc | rfl | hc
    · have := hcross c hc iv (mem_cons_self ..)
      omega
    · omega
    · have := (pairwise_cons.mp hright).1 c hc
      omega
  exact ⟨houtside _ (.inl rfl), houtside _ (.inr rfl)⟩

lemma IntvOk.exists_open (h : IntvOk intvs openIntv S) :
    ∃ iv ∈ intvs, iv.min = openIntv ∧ ∀ iv' ∈ intvs, iv'.min ≤ iv.min := by
  obtain ⟨iv, hlast, hmin⟩ := map_eq_some_iff.mp h.openLast
  obtain ⟨ipre, rfl⟩ := getLast?_eq_some_iff.mp hlast
  refine ⟨iv, by simp, hmin, fun iv' hiv' ↦ ?_⟩
  obtain ⟨-, -, hcross⟩ := separated_append.mp h.separated
  rcases mem_append.mp hiv' with hpre | hself
  · have := hcross iv' hpre iv (mem_singleton.mpr rfl)
    have := h.min_le_maxp1 hiv'
    omega
  · rw [mem_singleton.mp hself]

lemma WhcInv.rep (h : WhcInv last whc) : WhcRep whc where
  nonempty iv hiv hopen := by
    rcases h.ok.seqOk.intv.filled iv hiv with hfill | ⟨heq, -⟩
    · exact hfill.1
    · exact absurd heq hopen
  apart := h.ok.seqOk.intv.separated
  run iv hiv x hlo hhi := h.ok.seqOk.intv.mem_of_bounds hiv hlo hhi
  maximal iv hiv := h.ok.seqOk.intv.maximal hiv
  ends iv hiv hlt := (h.ok.seqOk.intv.filled_of_lt hiv hlt).2
  covers := h.ok.seqOk.intv.covers
  openIntv := h.ok.seqOk.intv.exists_open
  distinct := by
    rw [nodup_iff_pairwise_ne, pairwise_map]
    exact h.ok.seqOk.ordered.imp fun hlt ↦ hlt.ne
  nextSeq := h.ok.seqOk.next
  prevSeq := h.ok.seqOk.prev
  seqSize := by
    have hsized := h.sized
    unfold Sized Whc.samples at hsized
    rw [hsized, length_map]
    rfl
  maxseqNode := h.maxseq
  head n hn :=
    ⟨(h.ok.idxOk.ring n hn).length, (h.ok.idxOk.ring n hn).headidx_lt, (h.ok.idxOk.ring n hn).head⟩
  aged n hn := (h.ok.idxOk.ring n hn).aged
  entry n hn i s hs := by
    obtain ⟨w, hw, hseq, hname, hpos⟩ := (h.ok.idxOk.entry n hn i s).mp hs
    have hkey := h.ok.idxOk.key n hn w hw hname
    obtain ⟨whcn, hwhcn, rfl⟩ := mem_map.mp hw
    exact ⟨whcn, hwhcn, hseq, hkey, hname, hpos⟩
  instances := h.ok.idxOk.keys

lemma tidy_new (isTransientLocal : Bool) (hdepth tldepth sampleOverhead fragmentSize : ℕ) :
    Tidy (whcNew isTransientLocal hdepth tldepth sampleOverhead fragmentSize) :=
  ⟨fun w hw ↦ absurd hw (by simp [Whc.samples, whcNew]),
    fun _ _ x hx ↦ absurd hx (by simp [Whc.seqs, whcNew])⟩

/-- In every run of insertions, removals and downgrades the representation of the cache is in order.
Insertions and removals always return. A downgrade does so as well, if no sample was ever inserted
with a number below the drop point. -/
theorem whc_representation (isTransientLocal : Bool)
    (hdepth tldepth sampleOverhead fragmentSize : ℕ) :
    (∀ log whc, WhcReach WhcCall.Allowed
        (whcNew isTransientLocal hdepth tldepth sampleOverhead fragmentSize) log whc →
      WhcRep whc ∧ ∀ c : WhcCall, c.Allowed log whc → c ≠ .downgrade → (whcCall whc c).isSome) ∧
    ∀ log whc, WhcReach WhcCall.Above
        (whcNew isTransientLocal hdepth tldepth sampleOverhead fragmentSize) log whc →
      ∀ c : WhcCall, c.Allowed log whc → (whcCall whc c).isSome := by
  have hstart := whcInv_new isTransientLocal hdepth tldepth sampleOverhead fragmentSize
  refine ⟨fun log whc hreach ↦ ?_, fun log whc hreach c hc ↦ ?_⟩
  · have hinv := hreach.inv (fun _ _ _ hc ↦ hc) hstart
    refine ⟨hinv.rep, fun c hc hne ↦ ?_⟩
    rcases whcCall_inv hinv hc with ⟨whc', hrun, -⟩ | ⟨-, heq, -⟩
    · rw [hrun]
      rfl
    · exact absurd heq hne
  · have hinv := hreach.inv (fun _ _ _ hc ↦ hc.1) hstart
    rcases whcCall_inv hinv hc with ⟨whc', hrun, -⟩ | ⟨-, -, hstale⟩
    · rw [hrun]
      rfl
    · exact absurd (hreach.tidy hstart (tidy_new ..)).noStale hstale

/-- A volatile cache after two samples were written and the first one was acknowledged, and a
downgrade of an empty one. -/
theorem whc_representation_acked :
    (∃ log whc, WhcReach WhcCall.Allowed (whcNew false 2 0 0 1) log whc ∧ log.drop = 1 ∧
      whc.seqHash.map (fun w ↦ w.seq) = [2] ∧ WhcRep whc) ∧
    (whcCall (whcNew false 1 0 0 1) .downgrade).isSome := by
  have hreach : WhcReach WhcCall.Allowed (whcNew false 2 0 0 1) _ _ :=
    .call (.call (.call .start (c := .insert 0 1 ⟨0, [7], false, false⟩) (by decide) rfl)
      (c := .insert 0 2 ⟨3, [8], false, false⟩) (by decide) rfl)
        (c := .removeAcked 1) (by decide) rfl
  exact ⟨⟨_, _, hreach, rfl, rfl, ((whc_representation false 2 0 0 1).1 _ _ hreach).1⟩,
    (whc_representation false 1 0 0 1).2 _ _ .start .downgrade (by decide)⟩

/-- A sample that was inserted below the drop point stays when the next one of its instance is
removed, and the instance is freed: the downgrade then follows the link of the sample to its
instance. -/
theorem whc_downgrade_stale :
    ∃ log whc, WhcReach WhcCall.Allowed (whcNew false 2 0 0 1) log whc ∧
      WhcCall.downgrade.Allowed log whc ∧ whcCall whc .downgrade = none := by
  have hreach : WhcReach WhcCall.Allowed (whcNew false 2 0 0 1) _ _ :=
    .call (.call (.call (.call .start (c := .removeAcked 5) (by decide) rfl)
      (c := .insert 5 3 ⟨0, [7], false, false⟩) (by decide) rfl)
      (c := .insert 5 6 ⟨0, [8], false, false⟩) (by decide) rfl)
      (c := .removeAcked 6) (by decide) rfl
  exact ⟨_, _, hreach, by decide, by decide⟩

end Rep

end OpenSplice.Ddsi
