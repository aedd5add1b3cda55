import OpenSplice.Ddsi.Whc.Runs

/-!
# The bytes that are not acknowledged

`unacked_bytes` is kept up to date sample by sample. `Counted` says that it is the size of the
samples whose `unacked` flag is set; every edit of the store keeps it so (`StoreEdit.counted`), and
with it every call (`Booked.call`).

A sample below the drop point of the cache is not flagged, and one above all drop points that were
given is (`Booked`). But `whc_remove_acked_messages` returns at once for a transient-local cache
that keeps everything, and leaves both the flags and the count as they are.
-/

set_option autoImplicit false

namespace OpenSplice.Ddsi

open Library KeyedList List WhcSample WhcStore

/-! ### The count -/

/-- What a sample adds to `unacked_bytes`. -/
def WhcSample.unackedBytes (settings : WhcSettings) (w : WhcSample) : ℤ :=
  if w.unacked then whcnSize settings w.serdata else 0

def WhcStore.flaggedBytes (st : WhcStore) : ℤ :=
  (st.samples.map (WhcSample.unackedBytes st.admin.toWhcSettings)).sum

def Whc.bytesAbove (whc : Whc) (m : ℤ) : ℤ :=
  ((whc.samples.filter fun w ↦ m < w.seq).map
    fun w ↦ (whcnSize whc.toWhcSettings w.serdata : ℤ)).sum

/-- `unacked_bytes` is the size of the samples that are flagged. -/
def Counted (st : WhcStore) : Prop := st.admin.unackedBytes = st.flaggedBytes

section Counted

variable {md : ℤ} {st st' : WhcStore} {w : WhcSample} (admin : WhcAdmin)

lemma uncount_unackedBytes :
    (admin.uncount w).unackedBytes = admin.unackedBytes - w.unackedBytes admin.toWhcSettings := by
  unfold WhcAdmin.uncount unackedBytes
  split_ifs
  · rfl
  · exact (sub_zero _).symm

lemma count_unackedBytes :
    (admin.count w).unackedBytes = admin.unackedBytes + w.unackedBytes admin.toWhcSettings := by
  unfold WhcAdmin.count unackedBytes
  split_ifs
  · rfl
  · exact (add_zero _).symm

/-- A change that leaves the flag and the data of a sample as they are. -/
lemma map_unackedBytes_modify {settings : WhcSettings} {g : WhcSample → WhcSample}
    (hflag : ∀ w, (g w).unacked = w.unacked) (hdata : ∀ w, (g w).serdata = w.serdata) (k : ℤ)
    (samples : List WhcSample) :
    (modify seq k g samples).map (unackedBytes settings) = samples.map (unackedBytes settings) := by
  refine map_modify (fun w ↦ ?_) k samples
  unfold unackedBytes
  rw [hflag, hdata]

section

variable (h : Counted st)
include h

/-- A sample goes, with an index that has the same settings and the same count. -/
lemma Counted.drop (hord : KeyedList.Ordered seq st.samples)
    (hw : w ∈ st.samples) {admin : WhcAdmin}
    (hsettings : admin.toWhcSettings = st.admin.toWhcSettings)
    (hbytes : admin.unackedBytes = st.admin.unackedBytes) :
    Counted ⟨admin.uncount w, delete seq w.seq st.samples⟩ := by
  unfold Counted flaggedBytes at *
  rw [uncount_unackedBytes, hbytes, h, hord.sum_map hw, uncount_settings, hsettings,
    add_sub_cancel_left]

lemma Counted.insertSeq (s : ℤ) (d : WhcSerdata) : Counted (st.insertSeq md s d) := by
  unfold Counted WhcStore.flaggedBytes WhcStore.insertSeq at *
  rw [count_unackedBytes, h, count_settings, map_append, sum_append, map_singleton, sum_singleton]

lemma Counted.push (n : WhcIdxnode) (s : ℤ) : Counted (st.push n s) := by
  have hold : ∀ o, (releaseOld o st.samples).map (unackedBytes st.admin.toWhcSettings) =
      st.samples.map (unackedBytes st.admin.toWhcSettings) := by
    intro o
    cases o with
    | none => rfl
    | some o =>
      exact map_unackedBytes_modify (g := released) (fun _ ↦ rfl) (fun _ ↦ rfl) o st.samples
  have hmap : (st.push n s).flaggedBytes = st.flaggedBytes := by
    unfold WhcStore.flaggedBytes WhcStore.push
    rw [map_unackedBytes_modify (g := joined _ _) (fun _ ↦ rfl) fun _ ↦ rfl]
    exact congrArg sum (hold _)
  unfold Counted
  rw [hmap]
  exact h

lemma Counted.addIdxnode (s : ℤ) (key : ℕ) : Counted (st.addIdxnode s key) := by
  unfold Counted WhcStore.flaggedBytes WhcStore.addIdxnode at *
  rw [map_unackedBytes_modify (g := joined _ _) (fun _ ↦ rfl) fun _ ↦ rfl]
  exact h

end

lemma StoreEdit.counted (h : StoreEdit md st st') (hok : StoreOk st) (hcount : Counted st) :
    Counted st' := by
  cases h with
  | drop hw hdel =>
    refine hcount.drop hok.ordered hw (deleteOneSampleFromIdx_settings hdel) ?_
    rcases deleteOneSampleFromIdx_cases hdel with ⟨-, rfl⟩ | ⟨n, -, -, ⟨-, rfl⟩ | ⟨-, rfl⟩⟩ <;> rfl
  | @ack w hw =>
    have hzero : w.acked.unackedBytes st.admin.toWhcSettings = 0 := if_neg (by simp [acked])
    unfold Counted flaggedBytes at *
    rw [uncount_unackedBytes, hcount, uncount_settings, hok.ordered.sum_map hw,
      hok.ordered.sum_map_modify hw, hzero, add_sub_cancel_left, zero_add]
  | prune => exact hcount
  | release =>
    unfold Counted flaggedBytes at *
    rw [map_unackedBytes_modify (g := released) (fun _ ↦ rfl) fun _ ↦ rfl]
    exact hcount

lemma StoreEdits.counted (h : StoreEdits md st st') (hok : StoreOk st) (hcount : Counted st) :
    Counted st' := by
  induction h with
  | refl => exact hcount
  | tail hsteps hstep ih => exact hstep.counted (StoreEdits.ok hsteps hok) ih

lemma InsertShape.counted {s : ℤ} {d : WhcSerdata} (h : InsertShape md s d st st')
    (hok : StoreOk (st.insertSeq md s d)) (hcount : Counted st) : Counted st' := by
  have hcount1 : Counted (st.insertSeq md s d) := hcount.insertSeq s d
  cases h with
  | plain _ heq =>
    rw [heq]
    exact hcount1
  | unregister _ _ _ _ _ hedits =>
    exact StoreEdits.counted hedits ⟨hok.ordered, hok.idx.free _⟩ hcount1
  | unknown _ _ _ _ hedits => exact StoreEdits.counted hedits hok hcount1
  | @push n _ _ _ _ _ _ hold hok1 hedits =>
    refine StoreEdits.counted hedits hok1 ?_
    have hcount2 := hcount1.push n s
    have hord2 : KeyedList.Ordered seq ((st.insertSeq md s d).push n s).samples := by
      refine KeyedList.Ordered.modify ?_ s fun _ ↦ rfl
      unfold releaseOld
      split
      · exact hok.ordered
      · exact hok.ordered.modify _ fun _ ↦ rfl
    cases hold with
    | keep => exact hcount2
    | drop hw => exact hcount2.drop hord2 hw rfl rfl
  | fresh _ _ _ _ heq =>
    rw [heq]
    exact hcount1.addIdxnode s d.key

end Counted

/-! ### Runs -/

/-- The count is right, and so are the flags: none is set below the drop point of the cache, and all
are above the drop points that were given. -/
structure Booked (log : WhcLog) (whc : Whc) : Prop where
  counted : Counted whc.store
  low : ∀ w ∈ whc.samples, w.seq ≤ whc.maxDropSeq → w.unacked = false
  high : ∀ w ∈ whc.samples, log.drop < w.seq → w.unacked = true
  drop : whc.maxDropSeq ≤ log.drop

section Runs

variable {log : WhcLog} {last m md s : ℤ} {d : WhcSerdata} {whc whc' : Whc}

lemma Booked.insert (h : Booked log whc) (hinv : WhcInv last whc) (hs : last < s)
    (hmd : whc.maxDropSeq ≤ md) (hshape : InsertShape md s d whc.store whc'.store) :
    Booked (log.call (.insert md s d)) whc' := by
  have hsettings : whc'.toWhcSettings = whc.toWhcSettings := hshape.settings
  obtain ⟨whc1, -, hins, hstore, -⟩ := hinv.insertSeq hs md d
  refine ⟨hshape.counted (hstore ▸ hins.ok.storeOk) h.counted, fun w hw hle ↦ ?_,
    fun w hw hlt ↦ ?_, ?_⟩
  · rw [hsettings] at hle
    obtain ⟨v, hv, hseq, -, hflag⟩ := hshape.back hw
    refine hflag.cleared ?_
    rcases hv with hv | rfl
    · exact h.low v hv (hseq ▸ hle)
    · exact decide_eq_false (not_lt.mpr ((hseq ▸ hle).trans hmd))
  · obtain ⟨hdrop, hmdw⟩ := max_lt_iff.mp hlt
    obtain ⟨v, hv | rfl, hseq, -, hflag⟩ := hshape.back hw
    · exact (hflag.above hmdw).symm.trans (h.high v hv (hseq ▸ hdrop))
    · exact (hflag.above hmdw).symm.trans (decide_eq_true (hmdw.trans_eq hseq.symm))
  · rw [hsettings]
    exact h.drop.trans (le_max_left _ _)

/-- What is left of the flags when the first loop has gone over everything behind a drop point. -/
lemma Removed.booked (h : Removed last m whc whc') (hok : StoreOk whc.store)
    (hcount : Counted whc.store)
    (hlow : ∀ w ∈ whc.samples, w.seq ≤ whc.maxDropSeq → w.unacked = false)
    (hhigh : ∀ w ∈ whc.samples, log.drop < w.seq → w.unacked) (hm : m ≤ log.drop) :
    Booked log whc' := by
  obtain ⟨st, hedits, hstore⟩ := h.edits
  refine ⟨?_, fun w hw hle ↦ ?_, fun w hw hlt ↦ ?_, h.maxDropSeq.trans_le hm⟩
  · have hcounted : Counted st := StoreEdits.counted hedits hok hcount
    rw [hstore]
    exact hcounted
  · rw [h.maxDropSeq] at hle
    by_cases hlt : whc.maxDropSeq < w.seq
    · exact (h.done w hw hlt hle).1
    · obtain ⟨v, hv, hseq, -, hflag⟩ := h.back hw
      exact hflag.cleared (hlow v hv (hseq ▸ not_lt.mp hlt))
  · obtain ⟨v, hv, hseq, -, hflag⟩ := h.back hw
    exact (hflag.above (hm.trans_lt hlt)).symm.trans (hhigh v hv (hseq ▸ hlt))

lemma Volatile.counted (h : Volatile last whc whc') (hcount : Counted whc.store) :
    Counted whc'.store := by
  have hsize : whc'.samples.map (WhcSample.unackedBytes whc'.toWhcSettings) =
      whc.samples.map (WhcSample.unackedBytes whc.toWhcSettings) := by
    rw [h.settings, ← forall₂_eq_eq_eq, forall₂_map_left_iff, forall₂_map_right_iff]
    refine h.samples.flip.imp fun w' w hloose ↦ ?_
    rcases hloose with rfl | rfl <;> rfl
  exact h.unackedBytes.trans (hcount.trans (congrArg sum hsize.symm))

lemma Booked.call {c : WhcCall} (h : Booked log whc) (hinv : WhcInv log.last whc)
    (hallowed : c.Allowed log whc) (hrun : whcCall whc c = some whc') :
    Booked (log.call c) whc' := by
  cases hinv.callShape hallowed hrun with
  | insert hshape => exact h.insert hinv hallowed.2 hallowed.1 hshape
  | kept =>
    exact ⟨h.counted, h.low, fun w hw hlt ↦ h.high w hw ((le_max_left _ _).trans_lt hlt),
      h.drop.trans (le_max_left _ _)⟩
  | removed _ hdone =>
    exact hdone.booked hinv.ok.storeOk h.counted h.low
      (fun w hw hlt ↦ h.high w hw ((le_max_left _ _).trans_lt hlt)) (le_max_right _ _)
  | @downgraded whc1 _ hvol hdone =>
    have hok : StoreOk { whc1 with maxDropSeq := 0 }.store :=
      ⟨hvol.ok.seqOk.samplesOrdered, hvol.ok.idxOk.of_eq rfl rfl rfl⟩
    refine hdone.booked hok (hvol.counted h.counted) (fun w hw hle ↦ ?_) (fun w hw hlt ↦ ?_) h.drop
    · exact absurd (hvol.ok.seqOk.pos w.seq (Whc.seq_mem hw)) (not_lt.mpr hle)
    · obtain ⟨v, hv, hloose⟩ := forall₂_loosened_back hvol.samples hw
      have hvflag := h.high v hv (hloose.seq_eq ▸ hlt)
      rcases hloose with rfl | rfl <;> exact hvflag

lemma booked_new (isTransientLocal : Bool) (hdepth tldepth sampleOverhead fragmentSize : ℕ) :
    Booked {} (whcNew isTransientLocal hdepth tldepth sampleOverhead fragmentSize) :=
  ⟨rfl, fun w hw ↦ absurd hw (by simp [Whc.samples, whcNew]),
    fun w hw ↦ absurd hw (by simp [Whc.samples, whcNew]), le_refl _⟩

lemma WhcReach.booked {start : Whc} (hstart : WhcInv 0 start) (hbooked : Booked {} start)
    (hreach : WhcReach WhcCall.Allowed start log whc) : Booked log whc := by
  induction hreach with
  | start => exact hbooked
  | call hreach hcall hrun ih => exact ih.call (hreach.inv (fun _ _ _ hc ↦ hc) hstart) hcall hrun

lemma Counted.eq_bytesAbove (h : Counted whc.store)
    (hlow : ∀ w ∈ whc.samples, w.seq ≤ m → w.unacked = false)
    (hhigh : ∀ w ∈ whc.samples, m < w.seq → w.unacked) :
    whc.unackedBytes = whc.bytesAbove m := by
  have hsum : ∀ samples : List WhcSample, (∀ w ∈ samples, w.seq ≤ m → w.unacked = false) →
      (∀ w ∈ samples, m < w.seq → w.unacked) →
      (samples.map (unackedBytes whc.toWhcSettings)).sum = ((samples.filter fun w ↦ m < w.seq).map
          fun w ↦ (whcnSize whc.toWhcSettings w.serdata : ℤ)).sum := by
    intro samples hlow hhigh
    induction samples with
    | nil => rfl
    | cons w _ ih =>
      rw [map_cons, sum_cons, ih (fun v hv ↦ hlow v (mem_cons_of_mem _ hv))
        fun v hv ↦ hhigh v (mem_cons_of_mem _ hv), unackedBytes]
      by_cases hlt : m < w.seq
      · rw [hhigh w (mem_cons_self ..) hlt, filter_cons_of_pos (by simpa using hlt)]
        rfl
      · rw [hlow w (mem_cons_self ..) (not_lt.mp hlt), filter_cons_of_neg (by simpa using hlt)]
        exact zero_add _
  exact h.trans (hsum whc.samples hlow hhigh)

/-- In every run `unacked_bytes` is the size of the samples that are flagged, and
`whc_remove_acked_messages` leaves no flag at or below its drop point, unless the cache is a
transient-local one that keeps everything and such a flag was there. If no larger drop point was
given before, `unacked_bytes` is then the size of the samples above the drop point. -/
theorem whc_unackedBytes_exact (isTransientLocal : Bool)
    (hdepth tldepth sampleOverhead fragmentSize : ℕ) (log : WhcLog) (whc : Whc)
    (hreach : WhcReach WhcCall.Allowed
      (whcNew isTransientLocal hdepth tldepth sampleOverhead fragmentSize) log whc) :
    whc.unackedBytes = whc.store.flaggedBytes ∧
    ∀ m, whc.maxDropSeq ≤ m → ∃ whc', whcRemoveAckedMessages whc m = some whc' ∧
      whc'.unackedBytes = whc'.store.flaggedBytes ∧
      ((∀ w ∈ whc'.samples, w.seq ≤ m → w.unacked = false) ∧
          (log.drop ≤ m → whc'.unackedBytes = whc'.bytesAbove m) ↔
        ¬ (whc.isTransientLocal = true ∧ whc.tldepth = 0) ∨
          ∀ w ∈ whc.samples, w.seq ≤ m → w.unacked = false) := by
  have hstart := whcInv_new isTransientLocal hdepth tldepth sampleOverhead fragmentSize
  have hinv := hreach.inv (fun _ _ _ hc ↦ hc) hstart
  have hbooked := hreach.booked hstart (booked_new ..)
  refine ⟨hbooked.counted, fun m hm ↦ ?_⟩
  by_cases hkeep : whc.isTransientLocal ∧ whc.tldepth = 0
  · refine ⟨whc, by simp [whcRemoveAckedMessages, hkeep], hbooked.counted, ?_⟩
    refine ⟨fun h ↦ .inr h.1, fun h ↦ ?_⟩
    have hlow := h.resolve_left (not_not.mpr hkeep)
    exact ⟨hlow, fun hdrop ↦ hbooked.counted.eq_bytesAbove hlow
      fun w hw hlt ↦ hbooked.high w hw (hdrop.trans_lt hlt)⟩
  · obtain ⟨whc', hrun, hdone, -⟩ := hinv.removeAcked hm hkeep
    have hbooked' : Booked (log.call (.removeAcked m)) whc' := hbooked.call hinv hm hrun
    have hlow : ∀ w ∈ whc'.samples, w.seq ≤ m → w.unacked = false := by
      have hlow := hbooked'.low
      rw [hdone.maxDropSeq] at hlow
      exact hlow
    refine ⟨whc', hrun, hbooked'.counted, iff_of_true ⟨hlow, fun hdrop ↦ ?_⟩ (.inl hkeep)⟩
    exact hbooked'.counted.eq_bytesAbove hlow
      fun w hw hlt ↦ hbooked'.high w hw ((max_eq_right hdrop).trans_lt hlt)

/-- A cache with a history of two samples, of which the first one is acknowledged. -/
theorem whc_unackedBytes_exact_acked :
    ∃ log whc, WhcReach WhcCall.Allowed (whcNew false 2 0 8 64) log whc ∧ whc.unackedBytes = 19 ∧
      ∃ whc', whcRemoveAckedMessages whc 1 = some whc' ∧ whc'.unackedBytes = whc'.bytesAbove 1 := by
  have hreach : WhcReach WhcCall.Allowed (whcNew false 2 0 8 64) _ _ :=
    .call (.call .start (c := .insert 0 1 ⟨0, [7], false, false⟩) (by decide) rfl)
      (c := .insert 0 2 ⟨0, [8, 9], false, false⟩) (by decide) rfl
  refine ⟨_, _, hreach, by decide, ?_⟩
  obtain ⟨whc', hrun, -, hiff⟩ := (whc_unackedBytes_exact false 2 0 8 64 _ _ hreach).2 1 (by decide)
  exact ⟨whc', hrun, (hiff.mpr (.inl (by decide))).2 (by decide)⟩

/-- A transient-local cache that keeps everything still counts a sample that everyone has
acknowledged. -/
theorem whc_unackedBytes_keep_all :
    ∃ whc whc', whcCall (whcNew true 0 0 8 64) (.insert 0 1 ⟨0, [7], false, false⟩) = some whc ∧
      whcRemoveAckedMessages whc 1 = some whc' ∧
      (∃ w ∈ whc'.samples, w.seq ≤ 1 ∧ w.unacked = true) ∧ whc'.unackedBytes = 9 ∧
      whc'.bytesAbove 1 = 0 :=
  ⟨_, _, rfl, rfl, by decide, by decide, by decide⟩

end Runs

end OpenSplice.Ddsi
