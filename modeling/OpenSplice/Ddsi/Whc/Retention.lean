import OpenSplice.Ddsi.Whc.Runs

/-!
# What a cache retains

Which samples are still in a cache, told from those written and the drop points alone. `live` lists
the samples of an instance since it was last unregistered. A sample is pushed out of its ring when
it is no longer among the last `idxdepth` of these (`PushedOut`).

`HistOk` relates the store to what was written. The place of a sample in its ring is its place in
`live`, what is among the last `tldepth` of an instance is there, and so is what is above the drop
points, unless it was pushed out. `WhcReach.retained` has it for runs in which the drop points do
not go back and the samples are above them.
-/

set_option autoImplicit false

namespace OpenSplice.Ddsi

open Library KeyedList List Option WhcStore Ring StoreEdits WhcSettings Whc WhcIdxnode

/-! ### What was written -/

def live (key : ℕ) : List (ℤ × WhcSerdata) → List ℤ
  | [] => []
  | (s, d) :: written =>
    if d.isEmpty ∨ d.key ≠ key then live key written
    else if d.unregister then [] else s :: live key written

/-- At some time the sample was no longer among the last `depth` of its instance. -/
def PushedOut (depth : ℕ) : List (ℤ × WhcSerdata) → ℤ → Prop
  | [], _ => False
  | p :: written, s =>
    s ∈ (live p.2.key (p :: written)).drop depth ∨ PushedOut depth written s

instance (depth : ℕ) : (written : List (ℤ × WhcSerdata)) → (s : ℤ) →
    Decidable (PushedOut depth written s)
  | [], _ => inferInstanceAs (Decidable False)
  | _ :: written, s =>
    have := instDecidablePushedOut depth written s
    inferInstanceAs (Decidable (_ ∨ _))

def Ascending (written : List (ℤ × WhcSerdata)) : Prop := written.Pairwise fun p q ↦ q.1 < p.1

section Live

variable {key depth : ℕ} {written : List (ℤ × WhcSerdata)} {s t : ℤ} {d : WhcSerdata} {l : List ℤ}

lemma live_other (h : d.isEmpty ∨ d.key ≠ key) :
    live key ((s, d) :: written) = live key written := if_pos h

lemma live_unregister (hd : d.isEmpty = false) (hun : d.unregister) :
    live d.key ((s, d) :: written) = [] := by
  simp [live, hd, hun]

lemma live_write (hd : d.isEmpty = false) (hun : d.unregister = false) :
    live d.key ((s, d) :: written) = s :: live d.key written := by
  simp [live, hd, hun]

lemma mem_of_mem_live (h : s ∈ live key written) : ∃ d, (s, d) ∈ written ∧ d.key = key := by
  induction written with
  | nil => simp [live] at h
  | cons p written ih =>
    obtain ⟨t, d⟩ := p
    have hrest : s ∈ live key written → ∃ d', (s, d') ∈ (t, d) :: written ∧ d'.key = key := by
      intro hs
      obtain ⟨d', hmem, hkey⟩ := ih hs
      exact ⟨d', mem_cons_of_mem _ hmem, hkey⟩
    unfold live at h
    split_ifs at h with hother hun
    · exact hrest h
    · simp at h
    · rcases mem_cons.mp h with rfl | hs
      · exact ⟨d, mem_cons_self .., not_not.mp (not_or.mp hother).2⟩
      · exact hrest hs

section

variable (h : Ascending written)
include h

lemma live_pairwise : (live key written).Pairwise fun a b ↦ b < a := by
  induction written with
  | nil => exact .nil
  | cons _ _ ih =>
    obtain ⟨hlt, hrest⟩ := pairwise_cons.mp h
    unfold live
    split_ifs
    · exact ih hrest
    · exact .nil
    · refine pairwise_cons.mpr ⟨fun a ha ↦ ?_, ih hrest⟩
      obtain ⟨d', hmem, -⟩ := mem_of_mem_live ha
      exact hlt _ hmem

lemma live_nodup : (live key written).Nodup := (live_pairwise h).imp fun hlt ↦ hlt.ne'

lemma Ascending.serdata_eq {d' : WhcSerdata} (hd : (s, d) ∈ written)
    (hd' : (s, d') ∈ written) : d = d' := by
  induction written with
  | nil => simp at hd
  | cons _ _ ih =>
    obtain ⟨hlt, hrest⟩ := pairwise_cons.mp h
    rcases mem_cons.mp hd with rfl | hmem
    · rcases mem_cons.mp hd' with heq | hmem'
      · exact (Prod.mk.inj heq).2.symm
      · exact absurd (hlt _ hmem') (lt_irrefl _)
    · rcases mem_cons.mp hd' with rfl | hmem'
      · exact absurd (hlt _ hmem) (lt_irrefl _)
      · exact ih hrest hmem hmem'

lemma Ascending.key_eq (hd : (s, d) ∈ written) (hs : s ∈ live key written) : d.key = key := by
  obtain ⟨d', hmem, hkey⟩ := mem_of_mem_live hs
  rw [h.serdata_eq hd hmem]
  exact hkey

end

/-- What is behind the last samples of an instance was pushed out. -/
lemma pushedOut_of_mem_drop (h : s ∈ (live key written).drop depth) :
    PushedOut depth written s := by
  induction written with
  | nil => simp [live] at h
  | cons p _ ih =>
    obtain ⟨t, d⟩ := p
    by_cases hother : d.isEmpty ∨ d.key ≠ key
    · rw [live_other hother] at h
      exact .inr (ih h)
    · obtain rfl : d.key = key := not_not.mp (not_or.mp hother).2
      exact .inl h

lemma mem_of_pushedOut (h : PushedOut depth written s) : ∃ d, (s, d) ∈ written := by
  induction written with
  | nil => exact h.elim
  | cons _ _ ih =>
    rcases h with hdrop | hrest
    · obtain ⟨d, hmem, -⟩ := mem_of_mem_live (mem_of_mem_drop hdrop)
      exact ⟨d, hmem⟩
    · obtain ⟨d, hmem⟩ := ih hrest
      exact ⟨d, mem_cons_of_mem _ hmem⟩

/-- An element of a list that is found at a place is among the first ones up to there only if the
place is. -/
lemma mem_take_iff_of_getElem? (hl : l.Nodup) {i j : ℕ} (hi : l[i]? = some s) :
    s ∈ l.take j ↔ i < j := by
  obtain ⟨hlt, rfl⟩ := List.getElem?_eq_some_iff.mp hi
  rw [mem_take_iff_idxOf_lt (getElem_mem hlt), hl.idxOf_getElem]

lemma mem_drop_iff_of_getElem? (hl : l.Nodup) {i j : ℕ} (hi : l[i]? = some s) :
    s ∈ l.drop j ↔ j ≤ i := by
  rw [← not_lt, ← mem_take_iff_of_getElem? hl hi]
  refine ⟨fun hdrop htake ↦ disjoint_take_drop hl le_rfl htake hdrop, fun htake ↦ ?_⟩
  have hmem := mem_of_getElem? hi
  rw [← take_append_drop j l] at hmem
  exact (mem_append.mp hmem).resolve_left htake

end Live

/-! ### The store and what was written -/

/-- The store holds what it should of the samples that were written, where `drop` is the largest
drop point that was given. -/
structure HistOk (written : List (ℤ × WhcSerdata)) (drop : ℤ) (st : WhcStore) : Prop where
  sub : ∀ w ∈ st.samples, (w.seq, w.serdata) ∈ written
  ring : ∀ n ∈ st.admin.idxHash, ∀ i s, n.Holds i s →
    (live n.key written)[Ring.age st.admin.idxdepth n.headidx i]? = some s
  indexed : ∀ w ∈ st.samples, w.seq ∈ (live w.serdata.key written).take st.admin.idxdepth →
    ∃ n ∈ st.admin.idxHash, w.idxnode = some n.name
  kept : ∀ key, ∀ s ∈ (live key written).take st.admin.tldepth, ∃ w ∈ st.samples, w.seq = s
  lower : ∀ p ∈ written, drop < p.1 →
    st.admin.hdepth = 0 ∨ ¬ PushedOut st.admin.idxdepth written p.1 → ∃ w ∈ st.samples, w.seq = p.1
  notPushed : 0 < st.admin.hdepth → ∀ w ∈ st.samples, ¬ PushedOut st.admin.idxdepth written w.seq

/-- What the store holds at or below the drop point of the cache is in the transient-local history
of its instance, or it was before a newer sample came. -/
def LowOk (written : List (ℤ × WhcSerdata)) (st : WhcStore) : Prop :=
  ∀ w ∈ st.samples, w.seq ≤ st.admin.maxDropSeq → 0 < st.admin.tldepth ∧
    w.seq ∈ (live w.serdata.key written).take st.admin.idxdepth ∧
    (w.seq ∈ (live w.serdata.key written).take st.admin.tldepth ∨
      ∃ t ∈ (live w.serdata.key written).head?, st.admin.maxDropSeq < t)

section HistOk

variable {written : List (ℤ × WhcSerdata)} {drop md : ℤ} {st st' : WhcStore} {w : WhcSample}

section

variable (h : HistOk written drop st)
include h

lemma HistOk.key_eq (hasc : Ascending written) (hw : w ∈ st.samples)
    {key : ℕ} (hs : w.seq ∈ live key written) : w.serdata.key = key :=
  hasc.key_eq (h.sub w hw) hs

variable (hok : StoreOk st)
include hok

/-- The place of a sample in its ring is its place among the samples of its instance. -/
lemma HistOk.place (hw : w ∈ st.samples)
    {n : WhcIdxnode} (hn : n ∈ st.admin.idxHash) (hname : w.idxnode = some n.name) :
    (live w.serdata.key written)[age st.admin.idxdepth n.headidx w.idxnodePos]? = some w.seq := by
  rw [hok.idx.key n hn w hw hname]
  exact h.ring n hn _ _ (hok.idx.holds hn hw hname)

/-- A sample is in the transient-local history if it is among the last of its instance. -/
lemma HistOk.inTl (hasc : Ascending written)
    (hdepth : st.admin.tldepth ≤ st.admin.idxdepth) (hw : w ∈ st.samples)
    (hlast : w.seq ∈ (live w.serdata.key written).take st.admin.tldepth) : InTl st.admin w := by
  obtain ⟨n, hn, hname⟩ := h.indexed w hw (take_subset_take_left _ hdepth hlast)
  exact ⟨n, hn, hname,
    (mem_take_iff_of_getElem? (live_nodup hasc) (h.place hok hw hn hname)).mp hlast⟩

/-- Edits keep what is written, as long as they do not free the instance of a sample that stays. -/
lemma HistOk.edits (hasc : Ascending written)
    (hdepth : st.admin.tldepth ≤ st.admin.idxdepth) (hmd : md ≤ drop)
    (hedits : StoreEdits md st st')
    (hnodes : ∀ v ∈ st.samples, (∃ w ∈ st'.samples, w.seq = v.seq) → ∀ n ∈ st.admin.idxHash,
      v.idxnode = some n.name → ∃ n' ∈ st'.admin.idxHash, n'.name = n.name) :
    HistOk written drop st' := by
  have hsettings := settings hedits
  have hback : ∀ w ∈ st'.samples, ∃ v ∈ st.samples, v.seq = w.seq ∧ v.serdata = w.serdata := by
    intro w hw
    obtain ⟨v, hv, hseq, hserdata, -⟩ := back hedits hw
    exact ⟨v, hv, hseq, hserdata⟩
  refine ⟨fun w hw ↦ ?_, fun n' hn' i s hs ↦ ?_, fun w hw hlast ↦ ?_, fun key s hs ↦ ?_,
    fun p hp hlt hpush ↦ ?_, fun hpos w hw ↦ ?_⟩
  · obtain ⟨v, hv, hseq, hserdata⟩ := hback w hw
    rw [← hseq, ← hserdata]
    exact h.sub v hv
  · obtain ⟨n, hn, hsub, -⟩ := nodes hedits hn'
    rw [hsettings, hsub.key, hsub.headidx]
    exact h.ring n hn i s (hsub.holds i s hs)
  · obtain ⟨v, hv, hseq, hserdata⟩ := hback w hw
    rw [hsettings, ← hseq, ← hserdata] at hlast
    obtain ⟨n, hn, hname⟩ := h.indexed v hv hlast
    obtain ⟨n', hn', hname'⟩ := hnodes v hv ⟨w, hw, hseq.symm⟩ n hn hname
    obtain ⟨u, hu, huseq, hunode⟩ := back_node hedits hok hw
    obtain rfl := hok.ordered.eq_of_key hu hv (huseq.trans hseq.symm)
    exact ⟨n', hn', hunode n' hn' (hname'.symm ▸ hname)⟩
  · rw [hsettings] at hs
    obtain ⟨v, hv, rfl⟩ := h.kept key s hs
    have hkey := h.key_eq hasc hv (mem_of_mem_take hs)
    obtain ⟨w, hw, hseq, -⟩ :=
      StoreEdits.inTl hedits hok hv (h.inTl hok hasc hdepth hv (hkey.symm ▸ hs))
    exact ⟨w, hw, hseq⟩
  · rw [hsettings] at hpush
    obtain ⟨v, hv, hseq⟩ := h.lower p hp hlt hpush
    obtain ⟨w, hw, hwseq⟩ := above hedits hok hv (hmd.trans_lt (hseq ▸ hlt))
    exact ⟨w, hw, hwseq.trans hseq⟩
  · obtain ⟨v, hv, hseq, -⟩ := hback w hw
    rw [hsettings] at hpos ⊢
    rw [← hseq]
    exact h.notPushed hpos v hv

end

lemma LowOk.edits (h : LowOk written st) (hedits : StoreEdits md st st') : LowOk written st' := by
  intro w hw hle
  obtain ⟨v, hv, hseq, hserdata, -⟩ := back hedits hw
  rw [settings hedits] at hle ⊢
  rw [← hseq] at hle
  rw [← hseq, ← hserdata]
  exact h v hv hle

end HistOk

section Insert

variable {written : List (ℤ × WhcSerdata)} {drop md s : ℤ} {d : WhcSerdata} {st st' : WhcStore}
  {n : WhcIdxnode} {st₁ : WhcStore} {oldn : Option ℤ} {name : ℕ}

section

variable (h : HistOk written drop st) (hok : StoreOk st)
include h hok

/-- A message that is not a sample of an instance: it is empty, or it unregisters the instance,
which is then no longer in the index. -/
lemma HistOk.quiet (hnew : ∀ p ∈ written, p.1 < s) (hmd : drop ≤ md)
    (hd : d.isEmpty ∨ d.unregister) {admin : WhcAdmin}
    (hsettings : admin.toWhcSettings = st.admin.toWhcSettings)
    (hidx : ∀ n, n ∈ admin.idxHash ↔ n ∈ st.admin.idxHash ∧ (d.isEmpty ∨ d.key ≠ n.key)) :
    HistOk ((s, d) :: written) md ⟨admin, st.samples ++ [newSample md s d]⟩ := by
  have hlive : ∀ key t, t ∈ live key ((s, d) :: written) →
      (d.isEmpty ∨ d.key ≠ key) ∧ live key ((s, d) :: written) = live key written := by
    intro key t ht
    by_cases hother : d.isEmpty ∨ d.key ≠ key
    · exact ⟨hother, live_other hother⟩
    · obtain ⟨hempty, hkey⟩ := not_or.mp hother
      rw [← not_not.mp hkey, live_unregister (by simpa using hempty) (hd.resolve_left hempty)] at ht
      simp at ht
  have hnot : ∀ e, (s, e) ∉ written := fun e he ↦ lt_irrefl s (hnew _ he)
  refine ⟨fun w hw ↦ ?_, fun n hn i t ht ↦ ?_, fun w hw hlast ↦ ?_, fun key t ht ↦ ?_,
    fun p hp hlt hpush ↦ ?_, fun hpos w hw hpush ↦ ?_⟩
  · rcases mem_append.mp hw with hw | hw
    · exact mem_cons_of_mem _ (h.sub w hw)
    · rw [mem_singleton.mp hw]
      exact mem_cons_self ..
  · obtain ⟨hn, hother⟩ := (hidx n).mp hn
    rw [hsettings, live_other hother]
    exact h.ring n hn i t ht
  · obtain ⟨hother, heq⟩ := hlive _ _ (mem_of_mem_take hlast)
    rw [hsettings, heq] at hlast
    rcases mem_append.mp hw with hw | hw
    · obtain ⟨n, hn, hname⟩ := h.indexed w hw hlast
      exact ⟨n, (hidx n).mpr ⟨hn, hok.idx.key n hn w hw hname ▸ hother⟩, hname⟩
    · rw [mem_singleton.mp hw] at hlast
      obtain ⟨e, he, -⟩ := mem_of_mem_live (mem_of_mem_take hlast)
      exact absurd he (hnot e)
  · obtain ⟨-, heq⟩ := hlive _ _ (mem_of_mem_take ht)
    rw [hsettings, heq] at ht
    obtain ⟨w, hw, hseq⟩ := h.kept key t ht
    exact ⟨w, mem_append_left _ hw, hseq⟩
  · rcases mem_cons.mp hp with rfl | hp
    · exact ⟨newSample md s d, mem_append_right _ (mem_singleton.mpr rfl), rfl⟩
    · rw [hsettings] at hpush
      obtain ⟨w, hw, hseq⟩ := h.lower p hp (hmd.trans_lt hlt) (hpush.imp_right (mt Or.inr))
      exact ⟨w, mem_append_left _ hw, hseq⟩
  · rw [hsettings] at hpos hpush
    have hpush' : PushedOut st.admin.idxdepth written w.seq := by
      rcases hpush with hdrop | hrest
      · obtain ⟨-, heq⟩ := hlive _ _ (mem_of_mem_drop hdrop)
        exact pushedOut_of_mem_drop (heq ▸ hdrop)
      · exact hrest
    rcases mem_append.mp hw with hw | hw
    · exact h.notPushed hpos w hw hpush'
    · rw [mem_singleton.mp hw] at hpush'
      obtain ⟨e, he⟩ := mem_of_pushedOut hpush'
      exact hnot e he

lemma HistOk.flat (hmd : drop ≤ md)
    (hzero : st.admin.idxdepth = 0) (hh : st.admin.hdepth = 0) (htl : st.admin.tldepth = 0) :
    HistOk ((s, d) :: written) md (st.insertSeq md s d) := by
  have hsettings : (st.insertSeq md s d).admin.toWhcSettings = st.admin.toWhcSettings :=
    count_settings
  refine ⟨fun w hw ↦ ?_, fun n hn ↦ ?_, fun w hw hlast ↦ ?_, fun key t ht ↦ ?_,
    fun p hp hlt hpush ↦ ?_, fun hpos ↦ ?_⟩
  · rcases mem_insertSeq.mp hw with hw | rfl
    · exact mem_cons_of_mem _ (h.sub w hw)
    · exact mem_cons_self ..
  · have hring := hok.idx.ring n (count_idxHash ▸ hn)
    exact absurd hring.headidx_lt (by rw [hzero]; exact Nat.not_lt_zero _)
  · rw [hsettings, hzero] at hlast
    simp at hlast
  · rw [hsettings, htl] at ht
    simp at ht
  · rcases mem_cons.mp hp with rfl | hp
    · exact ⟨newSample md s d, mem_insertSeq.mpr (.inr rfl), rfl⟩
    · obtain ⟨w, hw, hseq⟩ := h.lower p hp (hmd.trans_lt hlt) (.inl hh)
      exact ⟨w, mem_insertSeq.mpr (.inl hw), hseq⟩
  · rw [hsettings, hh] at hpos
    exact absurd hpos (lt_irrefl 0)

/-- The sample that a ring overwrites next is the last one of its instance that is in the index. -/
lemma HistOk.old (hn : n ∈ st.admin.idxHash)
    {o : ℤ} (ho : n.hist[next st.admin.idxdepth n.headidx]?.join = some o) :
    (live n.key written)[st.admin.idxdepth - 1]? = some o := by
  have hring := h.ring n hn _ _ (holds_iff_join.mpr ho)
  rw [age_next_self (hok.idx.ring n hn).headidx_lt] at hring
  exact hring

lemma HistOk.old_of_last
    (hasc : Ascending written) (hn : n ∈ st.admin.idxHash) {v : WhcSample} (hv : v ∈ st.samples)
    (hkey : v.serdata.key = n.key)
    (hlast : (live n.key written)[st.admin.idxdepth - 1]? = some v.seq) :
    n.hist[next st.admin.idxdepth n.headidx]?.join = some v.seq := by
  have hring := hok.idx.ring n hn
  have hdepth := Nat.zero_lt_of_lt hring.headidx_lt
  have hmem : v.seq ∈ (live v.serdata.key written).take st.admin.idxdepth := by
    rw [hkey]
    exact (mem_take_iff_of_getElem? (live_nodup hasc) hlast).mpr (by omega)
  obtain ⟨m, hm, hname⟩ := h.indexed v hv hmem
  obtain rfl := hok.idx.keys m hm n hn ((hok.idx.key m hm v hv hname).symm.trans hkey)
  have hholds := hok.idx.holds hm hv hname
  have hplace := h.place hok hv hm hname
  rw [hkey] at hplace
  -- the place of the sample in the ring is the one that is overwritten
  have hage : age st.admin.idxdepth m.headidx v.idxnodePos =
      age st.admin.idxdepth m.headidx (next st.admin.idxdepth m.headidx) := by
    rw [age_next_self hring.headidx_lt]
    obtain ⟨hi, hieq⟩ := List.getElem?_eq_some_iff.mp hplace
    obtain ⟨hj, hjeq⟩ := List.getElem?_eq_some_iff.mp hlast
    exact (List.Nodup.getElem_inj_iff (live_nodup hasc)).mp (hieq.trans hjeq.symm)
  have hpos := age_injective m.headidx (hring.lt_of_holds hholds) (next_lt hring.headidx_lt) hage
  exact holds_iff_join.mp (hpos ▸ hholds)

end

/-- The store has become `st₁` when the sample `s` was written, where `name` is the index node of
its instance and `oldn` the sample that it has overwritten there. -/
structure Written (name : ℕ) (oldn : Option ℤ) (md s : ℤ) (d : WhcSerdata) (st st₁ : WhcStore) :
    Prop where
  settings : st₁.admin.toWhcSettings = st.admin.toWhcSettings
  new : ∃ w ∈ st₁.samples, w.seq = s
  back : ∀ w ∈ st₁.samples, (w.seq = s ∧ w.serdata = d ∧ w.idxnode = some name) ∨
    ∃ v ∈ st.samples, v.seq = w.seq ∧ v.serdata = w.serdata ∧
      (oldn = some w.seq ∨ w.idxnode = v.idxnode)
  stays : ∀ v ∈ st.samples, ¬ (oldn = some v.seq ∧ (0 < st.admin.hdepth ∨ v.seq ≤ md)) →
    ∃ w ∈ st₁.samples, w.seq = v.seq
  gone : ∀ w ∈ st₁.samples, oldn = some w.seq → ¬ (0 < st.admin.hdepth ∨ w.seq ≤ md)
  node : ∃ n ∈ st₁.admin.idxHash, n.name = name
  nodes : ∀ n ∈ st.admin.idxHash, ∃ n' ∈ st₁.admin.idxHash, n'.name = n.name

/-- The place of a sample among those of its instance, when a new one is written. -/
lemma mem_take_cons_of_ne {l : List ℤ} {t : ℤ} (hne : t ≠ s) {k : ℕ}
    (h : t ∈ (s :: l).take k) : t ∈ l.take (k - 1) := by
  cases k with
  | zero => simp at h
  | succ => exact (mem_cons.mp h).resolve_left hne

lemma HistOk.write (h : HistOk written drop st) (hasc : Ascending written)
    (hnew : ∀ p ∈ written, p.1 < s) (hmd : drop ≤ md) (hd : d.isEmpty = false)
    (hun : d.unregister = false) (hpos : 0 < st.admin.idxdepth)
    (hdepth : st.admin.tldepth ≤ st.admin.idxdepth)
    (hwrite : Written name oldn md s d st st₁)
    (hring : ∀ n ∈ st₁.admin.idxHash, ∀ i t, n.Holds i t →
      (live n.key ((s, d) :: written))[age st.admin.idxdepth n.headidx i]? = some t)
    (hold : ∀ o, oldn = some o → (live d.key written)[st.admin.idxdepth - 1]? = some o)
    (hlast : ∀ v ∈ st.samples, v.serdata.key = d.key →
      (live d.key written)[st.admin.idxdepth - 1]? = some v.seq → oldn = some v.seq) :
    HistOk ((s, d) :: written) md st₁ := by
  have hsettings := hwrite.settings
  have hnodup : (live d.key written).Nodup := live_nodup hasc
  have hself : live d.key ((s, d) :: written) = s :: live d.key written := live_write hd hun
  have hother : ∀ key, d.key ≠ key → live key ((s, d) :: written) = live key written :=
    fun key hkey ↦ live_other (.inr hkey)
  have hnot : ∀ key, s ∉ live key written := by
    intro key hs
    obtain ⟨e, he, -⟩ := mem_of_mem_live hs
    exact lt_irrefl s (hnew _ he)
  have hneOf : ∀ v ∈ st.samples, v.seq ≠ s := fun v hv heq ↦
    lt_irrefl s (heq ▸ hnew _ (h.sub v hv))
  -- one of the last samples was so before, and it is not the one that is overwritten
  have hbefore : ∀ key t k, k ≤ st.admin.idxdepth → t ≠ s →
      t ∈ (live key ((s, d) :: written)).take k → t ∈ (live key written).take k ∧
        oldn ≠ some t := by
    intro key t k hk hts ht
    by_cases hkey : d.key = key
    · subst hkey
      rw [hself] at ht
      have hmem := mem_take_cons_of_ne hts ht
      refine ⟨take_subset_take_left _ (Nat.sub_le _ _) hmem, fun ho ↦ ?_⟩
      have hlt := (mem_take_iff_of_getElem? hnodup (hold _ ho)).mp hmem
      omega
    · rw [hother _ hkey] at ht
      refine ⟨ht, fun ho ↦ hkey ?_⟩
      obtain ⟨e, he, hekey⟩ := mem_of_mem_live (mem_of_getElem? (hold _ ho))
      rw [← hekey]
      exact hasc.key_eq he (mem_of_mem_take ht)
  refine ⟨fun w hw ↦ ?_, fun n hn i t ht ↦ ?_, fun w hw hin ↦ ?_, fun key t ht ↦ ?_,
    fun p hp hlt hpush ↦ ?_, fun hh w hw hpush ↦ ?_⟩
  · rcases hwrite.back w hw with ⟨rfl, rfl, -⟩ | ⟨v, hv, hseq, hserdata, -⟩
    · exact mem_cons_self ..
    · rw [← hseq, ← hserdata]
      exact mem_cons_of_mem _ (h.sub v hv)
  · rw [hsettings]
    exact hring n hn i t ht
  · rcases hwrite.back w hw with ⟨-, -, hname⟩ | ⟨v, hv, hseq, hserdata, hidx⟩
    · obtain ⟨n, hn, rfl⟩ := hwrite.node
      exact ⟨n, hn, hname⟩
    · rw [hsettings, ← hseq, ← hserdata] at hin
      have hin' := hbefore _ _ _ le_rfl (hneOf v hv) hin
      obtain ⟨n, hn, hname⟩ := h.indexed v hv hin'.1
      obtain ⟨n', hn', hname'⟩ := hwrite.nodes n hn
      exact ⟨n', hn', (hidx.resolve_left (hseq ▸ hin'.2)).trans (hname'.symm ▸ hname)⟩
  · rw [hsettings] at ht
    by_cases hts : t = s
    · obtain ⟨w, hw, hseq⟩ := hwrite.new
      exact ⟨w, hw, hseq.trans hts.symm⟩
    · have ht' := hbefore key t _ hdepth hts ht
      obtain ⟨v, hv, rfl⟩ := h.kept key t ht'.1
      exact hwrite.stays v hv fun hc ↦ ht'.2 hc.1
  · rcases mem_cons.mp hp with rfl | hp
    · exact hwrite.new
    · rw [hsettings] at hpush
      obtain ⟨v, hv, hseq⟩ := h.lower p hp (hmd.trans_lt hlt) (hpush.imp_right (mt Or.inr))
      rw [← hseq] at hlt hpush ⊢
      refine hwrite.stays v hv fun ⟨ho, hdrop⟩ ↦ ?_
      rcases hpush with hzero | hpush
      · rcases hdrop with hh | hle
        · omega
        · exact absurd hle (not_le.mpr hlt)
      · refine hpush (.inl ?_)
        rw [hself, ← Nat.sub_add_cancel hpos, drop_succ_cons]
        exact (mem_drop_iff_of_getElem? hnodup (hold _ ho)).mpr le_rfl
  · rw [hsettings] at hh hpush
    rcases hwrite.back w hw with ⟨hws, -⟩ | ⟨v, hv, hseq, -⟩
    · rcases hpush with hdrop | hrest
      · rw [hself, ← Nat.sub_add_cancel hpos, drop_succ_cons, hws] at hdrop
        exact hnot _ (mem_of_mem_drop hdrop)
      · obtain ⟨e, he⟩ := mem_of_pushedOut hrest
        exact lt_irrefl s (hws ▸ hnew _ he)
    · rcases hpush with hdrop | hrest
      · rw [hself, ← Nat.sub_add_cancel hpos, drop_succ_cons] at hdrop
        obtain ⟨i, hi⟩ := mem_iff_getElem?.mp (mem_of_mem_drop hdrop)
        have hle := (mem_drop_iff_of_getElem? hnodup hi).mp hdrop
        rw [← hseq] at hi
        have hkey := h.key_eq hasc hv (mem_of_getElem? hi)
        rcases hle.eq_or_lt with heq | hlt
        · have ho := hlast v hv hkey (heq ▸ hi)
          exact hwrite.gone w hw (hseq ▸ ho) (.inl hh)
        · have hmem : v.seq ∈ (live d.key written).drop st.admin.idxdepth :=
            (mem_drop_iff_of_getElem? hnodup hi).mpr (by omega)
          exact h.notPushed hh v hv (pushedOut_of_mem_drop hmem)
      · exact h.notPushed hh v hv (hseq.symm ▸ hrest)

lemma LowOk.write (h : LowOk written st) (hasc : Ascending written) (hd : d.isEmpty = false)
    (hun : d.unregister = false) (hs : st.admin.maxDropSeq < s) (hmd : st.admin.maxDropSeq ≤ md)
    (hwrite : Written name oldn md s d st st₁)
    (hlast : ∀ v ∈ st.samples, v.serdata.key = d.key →
      (live d.key written)[st.admin.idxdepth - 1]? = some v.seq → oldn = some v.seq) :
    LowOk ((s, d) :: written) st₁ := by
  intro w hw hle
  rw [hwrite.settings] at hle ⊢
  rcases hwrite.back w hw with ⟨hws, -⟩ | ⟨v, hv, hseq, hserdata, -⟩
  · exact absurd hle (not_le.mpr (hws ▸ hs))
  · obtain ⟨htl, hin, hor⟩ := h v hv (hseq ▸ hle)
    rw [← hserdata, ← hseq]
    by_cases hkey : d.key = v.serdata.key
    · rw [← hkey] at hin ⊢
      rw [live_write hd hun]
      refine ⟨htl, ?_, .inr ⟨s, rfl, hs⟩⟩
      obtain ⟨i, hi⟩ := mem_iff_getElem?.mp (mem_of_mem_take hin)
      have hlt := (mem_take_iff_of_getElem? (live_nodup hasc) hi).mp hin
      -- the last one of the ring is overwritten, and it has been acknowledged
      have hne : i ≠ st.admin.idxdepth - 1 := by
        rintro rfl
        exact hwrite.gone w hw (hseq ▸ hlast v hv hkey.symm hi) (.inr (hle.trans hmd))
      obtain ⟨k, hk⟩ : ∃ k, st.admin.idxdepth = k + 1 := ⟨st.admin.idxdepth - 1, by omega⟩
      rw [hk, take_succ_cons]
      exact mem_cons_of_mem _ ((mem_take_iff_of_getElem? (live_nodup hasc) hi).mpr (by omega))
    · rw [live_other (.inr hkey)]
      exact ⟨htl, hin, hor⟩

/-- What is at or below the drop point when a message is written that is not a sample. -/
lemma LowOk.quiet (h : LowOk written st) (hs : st.admin.maxDropSeq < s)
    (hsettings : st'.admin.toWhcSettings = st.admin.toWhcSettings)
    (hback : ∀ w ∈ st'.samples, ∃ v, (v ∈ st.samples ∨ v = newSample md s d) ∧ v.seq = w.seq ∧
      v.serdata = w.serdata)
    (hgone : ∀ v ∈ st.samples, d.isEmpty = false → d.key = v.serdata.key →
      v.seq ∈ (live d.key written).take st.admin.idxdepth → v.seq ≤ st.admin.maxDropSeq →
      ∀ w ∈ st'.samples, w.seq ≠ v.seq) :
    LowOk ((s, d) :: written) st' := by
  intro w hw hle
  rw [hsettings] at hle ⊢
  obtain ⟨v, hv | rfl, hseq, hserdata⟩ := hback w hw
  · obtain ⟨htl, hin, hor⟩ := h v hv (hseq ▸ hle)
    by_cases hother : d.isEmpty ∨ d.key ≠ v.serdata.key
    · rw [← hserdata, ← hseq, live_other hother]
      exact ⟨htl, hin, hor⟩
    · obtain ⟨hempty, hkey⟩ := not_or.mp hother
      replace hkey := not_not.mp hkey
      exact absurd hseq.symm
        (hgone v hv (by simpa using hempty) hkey (hkey ▸ hin) (hseq ▸ hle) w hw)
  · exact absurd hle (not_le.mpr (hseq ▸ hs))

section

variable (h : HistOk written drop st)
include h

lemma written_push (hnew : ∀ p ∈ written, p.1 < s) (hok : StoreOk st) (hn : n ∈ st.admin.idxHash)
    (hold : DropOld md n.hist[next st.admin.idxdepth n.headidx]?.join
      ((st.insertSeq md s d).push n s) st₁) :
    Written n.name n.hist[next st.admin.idxdepth n.headidx]?.join md s d st st₁ := by
  have hdepth : (st.insertSeq md s d).admin.idxdepth = st.admin.idxdepth :=
    congrArg idxdepth count_settings
  have hh : ((st.insertSeq md s d).push n s).admin.hdepth = st.admin.hdepth :=
    congrArg WhcSettings.hdepth count_settings
  have hsettings : st₁.admin.toWhcSettings = st.admin.toWhcSettings :=
    hold.settings.trans count_settings
  have hlt : ∀ v ∈ st.samples, v.seq < s := fun v hv ↦ hnew _ (h.sub v hv)
  -- the overwritten sample is an old one
  have hoNe : n.hist[next st.admin.idxdepth n.headidx]?.join ≠ some s := by
    intro ho
    obtain ⟨v, hv, hseq, -⟩ := (hok.idx.entry n hn _ s).mp (holds_iff_join.mpr ho)
    exact (hlt v hv).ne hseq
  have hstays : ∀ w ∈ ((st.insertSeq md s d).push n s).samples,
      ¬ (n.hist[next st.admin.idxdepth n.headidx]?.join = some w.seq ∧
        (0 < st.admin.hdepth ∨ w.seq ≤ md)) → w ∈ st₁.samples := by
    intro w hw hkeep
    cases hold with
    | keep => exact hw
    | drop _ ho hdrop =>
      refine mem_delete.mpr ⟨hw, fun heq ↦ hkeep ⟨heq ▸ ho, ?_⟩⟩
      rw [hh, ← heq] at hdrop
      exact hdrop
  have hpush : ∀ v ∈ (st.insertSeq md s d).samples,
      ∃ w ∈ ((st.insertSeq md s d).push n s).samples, w.seq = v.seq := by
    intro v hv
    have hrel : ∃ u ∈ releaseOld n.hist[next (st.insertSeq md s d).admin.idxdepth n.headidx]?.join
        (st.insertSeq md s d).samples, u.seq = v.seq := by
      by_cases ho : n.hist[next (st.insertSeq md s d).admin.idxdepth n.headidx]?.join = some v.seq
      · exact ⟨v.released, mem_releaseOld.mpr (.inl ⟨v, hv, ho, rfl⟩), rfl⟩
      · exact ⟨v, mem_releaseOld.mpr (.inr ⟨hv, ho⟩), rfl⟩
    obtain ⟨u, hu, huseq⟩ := hrel
    by_cases hus : u.seq = s
    · exact ⟨_, mem_modify_of_eq _ hu hus, huseq⟩
    · exact ⟨u, mem_modify_of_ne _ hu hus, huseq⟩
  refine ⟨hsettings, ?_, fun w hw ↦ ?_, fun v hv hkeep ↦ ?_, fun w hw ho hdrop ↦ ?_, ?_,
    fun m hm ↦ ?_⟩
  · obtain ⟨w, hw, hseq⟩ := hpush _ (mem_insertSeq.mpr (.inr rfl))
    exact ⟨w, hstays w hw fun hc ↦ hoNe (hc.1.trans (congrArg some hseq)), hseq⟩
  · obtain ⟨v, hv, hseq, hserdata, -, hcase⟩ := mem_push (hold.back hw)
    rw [hdepth] at hcase
    rcases mem_insertSeq.mp hv with hv | rfl
    · have hne : w.seq ≠ s := hseq ▸ (hlt v hv).ne
      refine .inr ⟨v, hv, hseq, hserdata, ?_⟩
      rcases hcase with ⟨heq, -⟩ | ⟨-, ho, -⟩ | ⟨-, rfl⟩
      · exact absurd heq hne
      · exact .inl ho
      · exact .inr rfl
    · rcases hcase with ⟨-, hname⟩ | ⟨hne, -⟩ | ⟨hne, -⟩
      · exact .inl ⟨hseq.symm, hserdata.symm, hname⟩
      · exact absurd hseq.symm hne
      · exact absurd hseq.symm hne
  · obtain ⟨w, hw, hseq⟩ := hpush v (mem_insertSeq.mpr (.inl hv))
    exact ⟨w, hstays w hw (hseq ▸ hkeep), hseq⟩
  · cases hold with
    | keep hkeep => exact hkeep _ ho (hh ▸ hdrop)
    | drop _ hou => exact (mem_delete.mp hw).2 (mem_unique ho hou)
  · rw [hold.idxHash]
    exact ⟨_, mem_setIdxnode.mpr (.inl ⟨rfl, n, count_idxHash.symm ▸ hn, rfl⟩), rfl⟩
  · rw [hold.idxHash]
    by_cases hmn : m.name = n.name
    · exact ⟨_, mem_setIdxnode.mpr (.inl ⟨rfl, n, count_idxHash.symm ▸ hn, rfl⟩), hmn.symm⟩
    · exact ⟨m, mem_setIdxnode.mpr (.inr ⟨count_idxHash.symm ▸ hm, hmn⟩), rfl⟩

lemma written_fresh (hnew : ∀ p ∈ written, p.1 < s) :
    Written st.admin.nextIdxnode none md s d st ((st.insertSeq md s d).addIdxnode s d.key) := by
  have hname : (st.insertSeq md s d).admin.nextIdxnode = st.admin.nextIdxnode := count_nextIdxnode
  refine ⟨count_settings, ?_, fun w hw ↦ ?_, fun v hv _ ↦ ?_, fun w hw ho ↦ absurd ho (by simp), ?_,
    fun m hm ↦ ?_⟩
  · exact ⟨_, mem_modify_of_eq _ (mem_insertSeq.mpr (.inr rfl)) rfl, rfl⟩
  · obtain ⟨v, hv, hseq, hserdata, -, hcase⟩ := mem_addIdxnode hw
    rw [hname] at hcase
    rcases mem_insertSeq.mp hv with hv | rfl
    · have hne : w.seq ≠ s := hseq ▸ (hnew _ (h.sub v hv)).ne
      rcases hcase with ⟨heq, -⟩ | ⟨-, rfl⟩
      · exact absurd heq hne
      · exact .inr ⟨w, hv, rfl, rfl, .inr rfl⟩
    · rcases hcase with ⟨-, hidx⟩ | ⟨hne, -⟩
      · exact .inl ⟨hseq.symm, hserdata.symm, hidx⟩
      · exact absurd hseq.symm hne
  · exact ⟨v, mem_modify_of_ne _ (mem_insertSeq.mpr (.inl hv)) (hnew _ (h.sub v hv)).ne, rfl⟩
  · exact ⟨_, mem_append_right _ (mem_singleton.mpr rfl), hname⟩
  · exact ⟨m, mem_append_left _ (count_idxHash.symm ▸ hm), rfl⟩

variable {m : WhcIdxnode} {i : ℕ} {t : ℤ}

lemma HistOk.ring_push (hok : StoreOk st) (hn : n ∈ st.admin.idxHash)
    (hkey : n.key = d.key) (hd : d.isEmpty = false) (hun : d.unregister = false)
    (hm : m ∈ ((st.insertSeq md s d).push n s).admin.idxHash)
    (ht : m.Holds i t) :
    (live m.key ((s, d) :: written))[age st.admin.idxdepth m.headidx i]? = some t := by
  have hsame : (st.insertSeq md s d).admin.idxdepth = st.admin.idxdepth :=
    congrArg idxdepth count_settings
  rw [WhcStore.push, hsame] at hm
  rcases mem_setIdxnode.mp hm with ⟨rfl, -⟩ | ⟨hm, hname⟩
  · have hring := hok.idx.ring n hn
    have hlive : live (n.push st.admin.idxdepth s).key ((s, d) :: written) =
        s :: live n.key written := by
      rw [hkey, ← live_write hd hun, ← hkey]
      rfl
    rw [hlive]
    rcases hring.push_holds.mp ht with ⟨rfl, rfl⟩ | ⟨hne, hold⟩
    · have hhead : (n.push st.admin.idxdepth t).headidx = next st.admin.idxdepth n.headidx := rfl
      rw [hhead, age_head]
      rfl
    · have hage := age_next_head (hring.lt_of_holds hold) hne
      have hhead : (n.push st.admin.idxdepth s).headidx = next st.admin.idxdepth n.headidx := rfl
      rw [hhead, hage, getElem?_cons_succ]
      exact h.ring n hn i t hold
  · replace hm : m ∈ st.admin.idxHash := count_idxHash ▸ hm
    have hne : d.key ≠ m.key := by
      intro heq
      obtain rfl := hok.idx.keys m hm n hn (heq.symm.trans hkey.symm)
      exact hname rfl
    rw [live_other (.inr hne)]
    exact h.ring m hm i t ht

/-- The places in the rings after a sample has got a ring of its own. -/
lemma HistOk.ring_fresh (hkey : ∀ n ∈ st.admin.idxHash, n.key ≠ d.key)
    (hd : d.isEmpty = false) (hun : d.unregister = false)
    (hm : m ∈ ((st.insertSeq md s d).addIdxnode s d.key).admin.idxHash)
    (ht : m.Holds i t) :
    (live m.key ((s, d) :: written))[age st.admin.idxdepth m.headidx i]? = some t := by
  rcases mem_append.mp hm with hm | hm
  · replace hm : m ∈ st.admin.idxHash := count_idxHash ▸ hm
    rw [live_other (.inr (hkey m hm).symm)]
    exact h.ring m hm i t ht
  · rw [mem_singleton.mp hm] at ht ⊢
    obtain ⟨rfl, rfl⟩ := newIdxnode_holds.mp ht
    have hlive : live (newIdxnode (st.insertSeq md t d).admin.nextIdxnode d.key
        (st.insertSeq md t d).admin.idxdepth t).key ((t, d) :: written) =
        t :: live d.key written := live_write hd hun
    have hhead : (newIdxnode (st.insertSeq md t d).admin.nextIdxnode d.key
        (st.insertSeq md t d).admin.idxdepth t).headidx = 0 := rfl
    rw [hlive, hhead, age_head]
    rfl

end

lemma mem_idxHash_freed (hok : StoreOk st) (hn : n ∈ st.admin.idxHash) (hkey : n.key = d.key)
    (hd : d.isEmpty = false) (m : WhcIdxnode) :
    m ∈ ((st.admin.count (newSample md s d)).freeIdxnode n.name).idxHash ↔
      m ∈ st.admin.idxHash ∧ (d.isEmpty ∨ d.key ≠ m.key) := by
  rw [mem_freeIdxnode, count_idxHash]
  refine and_congr_right fun hm ↦ ?_
  simp only [hd, Bool.false_eq_true, false_or, ← hkey, ne_eq]
  refine not_congr ⟨fun heq ↦ ?_, fun heq ↦ ?_⟩
  · rw [hok.idx.eq_of_name hm hn heq]
  · rw [hok.idx.keys n hn m hm heq]

/-- A store that was in order with what was written is so after an insertion. -/
lemma InsertShape.histOk (hshape : InsertShape md s d st st') (h : HistOk written drop st)
    (hlow : LowOk written st) (hok : StoreOk st) (hok1 : StoreOk (st.insertSeq md s d))
    (hasc : Ascending written) (hnew : ∀ p ∈ written, p.1 < s) (hmd : drop ≤ md)
    (hs : st.admin.maxDropSeq < s) (hle : st.admin.maxDropSeq ≤ md)
    (hmax : st.admin.idxdepth = max st.admin.hdepth st.admin.tldepth) :
    HistOk ((s, d) :: written) md st' ∧ LowOk ((s, d) :: written) st' := by
  have hdepth : st.admin.tldepth ≤ st.admin.idxdepth := hmax ▸ le_max_right _ _
  have hasc' : Ascending ((s, d) :: written) := pairwise_cons.mpr ⟨hnew, hasc⟩
  have hsettings := hshape.settings
  have hback : ∀ w ∈ st'.samples, ∃ v, (v ∈ st.samples ∨ v = newSample md s d) ∧
      v.seq = w.seq ∧ v.serdata = w.serdata := by
    intro w hw
    obtain ⟨v, hv, hseq, hserdata, -⟩ := hshape.back hw
    exact ⟨v, hv, hseq, hserdata⟩
  -- an unregister leaves no acknowledged sample of its instance, for they were all in the index
  have hnode : ∀ v ∈ st.samples, d.key = v.serdata.key →
      v.seq ∈ (live d.key written).take st.admin.idxdepth →
      ∃ n ∈ st.admin.idxHash, v.idxnode = some n.name ∧ n.key = d.key := by
    intro v hv hkey hin
    obtain ⟨n, hn, hname⟩ := h.indexed v hv (hkey ▸ hin)
    exact ⟨n, hn, hname, (hok.idx.key n hn v hv hname).symm.trans hkey.symm⟩
  cases hshape with
  | plain hd heq =>
    by_cases hempty : d.isEmpty
    · refine ⟨?_, hlow.quiet hs hsettings hback fun v hv hne ↦
        absurd (hempty.symm.trans hne) (by simp)⟩
      rw [heq]
      refine h.quiet hok hnew hmd (.inl hempty) count_settings fun n ↦ ?_
      simp [hempty]
    · have hzero := hd.resolve_left hempty
      have hh : st.admin.hdepth = 0 := by omega
      have htl : st.admin.tldepth = 0 := by omega
      refine ⟨heq ▸ h.flat hok hmd hzero hh htl, fun w hw hle' ↦ ?_⟩
      rw [hsettings] at hle'
      obtain ⟨v, hv | rfl, hseq, -⟩ := hback w hw
      · obtain ⟨hpos, -⟩ := hlow v hv (hseq ▸ hle')
        omega
      · exact absurd hle' (not_le.mpr (hseq ▸ hs))
  | @unregister n hd _ hun hn hkey hedits hfreed hidx =>
    have hsame : ((st.admin.count (newSample md s d)).freeIdxnode n.name).toWhcSettings =
        st.admin.toWhcSettings := count_settings
    have hquiet : HistOk ((s, d) :: written) md ((st.insertSeq md s d).freeIdxnode n.name) :=
      h.quiet hok hnew hmd (.inr hun) hsame (mem_idxHash_freed hok hn hkey hd)
    have hok2 : StoreOk ((st.insertSeq md s d).freeIdxnode n.name) :=
      ⟨hok1.ordered, hok1.idx.free n.name⟩
    refine ⟨hquiet.edits hok2 hasc' (hsame ▸ hdepth) le_rfl hedits fun v _ _ m hm _ ↦ ⟨m, ?_, rfl⟩,
      hlow.quiet hs hsettings hback fun v hv _ hvkey hin hv' w hw hseq ↦ ?_⟩
    · rw [hidx]
      obtain ⟨hm, hname⟩ := mem_freeIdxnode.mp hm
      exact mem_freeIdxnode.mpr ⟨count_idxHash ▸ hm, hname⟩
    · obtain ⟨m, hm, hname, hmkey⟩ := hnode v hv hvkey hin
      obtain rfl := hok.idx.keys m hm n hn (hmkey.trans hkey.symm)
      have hmem := mem_hist_iff.mpr ⟨_, hok.idx.holds hm hv hname⟩
      have hlt := (hfreed w hw (hseq ▸ hmem)).2
      omega
  | unknown _ _ hun hkey hedits hidx =>
    have hfree : ∀ m, m ∈ (st.admin.count (newSample md s d)).idxHash ↔
        m ∈ st.admin.idxHash ∧ (d.isEmpty ∨ d.key ≠ m.key) := by
      intro m
      rw [count_idxHash]
      exact ⟨fun hm ↦ ⟨hm, .inr (hkey m hm).symm⟩, And.left⟩
    refine ⟨(h.quiet hok hnew hmd (.inr hun) count_settings hfree).edits hok1 hasc' ?_ le_rfl hedits
      fun v _ _ m hm _ ↦ ⟨m, ?_, rfl⟩,
      hlow.quiet hs hsettings hback fun v hv _ hvkey hin _ w _ _ ↦ ?_⟩
    · rw [count_settings]
      exact hdepth
    · rw [hidx]
      exact count_idxHash ▸ hm
    · obtain ⟨m, hm, -, hmkey⟩ := hnode v hv hvkey hin
      exact hkey m hm hmkey
  | @push n st₁ hd hpos hun hn hkey hold hok2 hedits htl =>
    have hwrite := written_push h hnew hok hn hold
    have hlast : ∀ v ∈ st.samples, v.serdata.key = d.key →
        (live d.key written)[st.admin.idxdepth - 1]? = some v.seq →
        n.hist[next st.admin.idxdepth n.headidx]?.join = some v.seq :=
      fun v hv hvkey hvlast ↦ h.old_of_last hok hasc hn hv (hvkey.trans hkey.symm) (hkey ▸ hvlast)
    have hhist1 : HistOk ((s, d) :: written) md st₁ :=
      h.write hasc hnew hmd hd hun (Nat.pos_of_ne_zero hpos) hdepth hwrite
        (fun m hm i t ht ↦ h.ring_push hok hn hkey hd hun (m := m) (hold.idxHash ▸ hm) ht)
        (fun o ho ↦ hkey ▸ h.old hok hn ho) hlast
    have hlow1 : LowOk ((s, d) :: written) st₁ := hlow.write hasc hd hun hs hle hwrite hlast
    by_cases hzero : st.admin.tldepth = 0
    · rw [htl hzero]
      exact ⟨hhist1, hlow1⟩
    · refine ⟨hhist1.edits hok2 hasc' ?_ le_rfl hedits fun v _ _ m hm _ ↦ ?_, hlow1.edits hedits⟩
      · rw [hwrite.settings]
        exact hdepth
      · refine heads hedits hok2 ?_ hm
        rw [hwrite.settings]
        exact Nat.pos_of_ne_zero hzero
  | fresh hd hpos hun hkey heq =>
    have hwrite := @written_fresh written drop md s d st h hnew
    have hlast : ∀ v ∈ st.samples, v.serdata.key = d.key →
        (live d.key written)[st.admin.idxdepth - 1]? = some v.seq →
        (none : Option ℤ) = some v.seq := by
      intro v hv hvkey hvlast
      have hin := (mem_take_iff_of_getElem? (j := st.admin.idxdepth) (live_nodup hasc) hvlast).mpr
        (by omega)
      obtain ⟨m, hm, -, hmkey⟩ := hnode v hv hvkey.symm hin
      exact absurd hmkey (hkey m hm)
    rw [heq]
    exact ⟨h.write hasc hnew hmd hd hun (Nat.pos_of_ne_zero hpos) hdepth hwrite
      (fun m hm i t ht ↦ h.ring_fresh hkey hd hun hm ht) (fun o ho ↦ absurd ho (by simp)) hlast,
      hlow.write hasc hd hun hs hle hwrite hlast⟩

end Insert

section Remove

variable {written : List (ℤ × WhcSerdata)} {last drop m : ℤ} {whc whc' : Whc}

lemma RingOk.le_head {depth : ℕ} {n : WhcIdxnode} (h : RingOk depth n) {t : ℤ}
    (ht : n.Holds n.headidx t) {i : ℕ} {s : ℤ} (hs : n.Holds i s) : s ≤ t := by
  by_cases hi : i = n.headidx
  · rw [hi] at hs
    exact (hs.unique ht).le
  · refine (h.aged _ _ _ _ ht hs ?_).le
    rw [age_head]
    exact Nat.pos_of_ne_zero fun hzero ↦ hi ((age_eq_zero (h.lt_of_holds hs)).mp hzero)

lemma HistOk.mono {st : WhcStore} (h : HistOk written drop st) (hm : drop ≤ m) :
    HistOk written m st :=
  ⟨h.sub, h.ring, h.indexed, h.kept, fun p hp hlt ↦ h.lower p hp (hm.trans_lt hlt), h.notPushed⟩

lemma Removed.histOk (hdone : Removed last m whc whc') (h : HistOk written drop whc.store)
    (hinv : WhcInv last whc) (htidy : Tidy whc)
    (hkeep : ¬ (whc.isTransientLocal ∧ whc.tldepth = 0)) (hasc : Ascending written)
    (hm : drop ≤ m) : HistOk written m whc'.store := by
  obtain ⟨st, hedits, hstore⟩ := hdone.edits
  have hdepth : whc.tldepth ≤ whc.idxdepth := hinv.depth ▸ le_max_right _ _
  have hst : HistOk written m st := by
    refine (h.mono hm).edits hinv.ok.storeOk hasc hdepth le_rfl hedits
      fun v hv ⟨w, hw, hseq⟩ n hn hname ↦ ?_
    by_cases hzero : whc.tldepth = 0
    · -- the sample is still there, so it is above the drop point, and so is the head of its ring
      have hw' : w ∈ whc'.samples := by
        rw [show whc'.samples = st.samples from congrArg WhcStore.samples hstore]
        exact hw
      have hlt : m < v.seq := by
        rw [← hseq]
        refine hdone.above hzero hw' (htidy.above ?_ hzero _ ?_)
        · simpa [hzero] using hkeep
        · exact mem_seqs_iff.mpr ⟨v, hv, hseq.symm⟩
      obtain ⟨t, ht⟩ := (hinv.ok.idxOk.ring n hn).head
      have hvt := (hinv.ok.idxOk.ring n hn).le_head ht (hinv.ok.idxOk.holds hn hv hname)
      obtain ⟨n', hn', hname', -⟩ := node_above hedits hinv.ok.storeOk hn ht (hlt.trans_le hvt)
      exact ⟨n', hn', hname'⟩
    · exact heads hedits hinv.ok.storeOk (Nat.pos_of_ne_zero hzero) hn
  rw [hstore]
  exact ⟨hst.sub, hst.ring, hst.indexed, hst.kept, hst.lower, hst.notPushed⟩

lemma Removed.lowOk (hdone : Removed last m whc whc') (h : LowOk written whc.store)
    (hhist : HistOk written m whc'.store) (hinv : WhcInv last whc) (hasc : Ascending written) :
    LowOk written whc'.store := by
  have hdepth : whc'.tldepth ≤ whc'.idxdepth := by
    rw [hdone.settings]
    exact hinv.depth ▸ le_max_right _ _
  have hok := hdone.ok.storeOk
  have hmax : whc'.store.admin.maxDropSeq = m := hdone.maxDropSeq
  -- what is at a place of the transient-local history is among the last of its instance
  have hintl : ∀ w ∈ whc'.samples, InTl whc'.toWhcAdmin w →
      w.seq ∈ (live w.serdata.key written).take whc'.tldepth := by
    rintro w hw ⟨n, hn, hname, hage⟩
    exact (mem_take_iff_of_getElem? (live_nodup hasc) (hhist.place hok hw hn hname)).mpr hage
  intro w hw hle
  rw [hmax] at hle ⊢
  by_cases hlt : whc.maxDropSeq < w.seq
  · obtain ⟨-, hin⟩ := hdone.done w hw hlt hle
    have hmem := hintl w hw hin
    obtain ⟨n, -, -, hage⟩ := hin
    exact ⟨Nat.zero_lt_of_lt hage, take_subset_take_left _ hdepth hmem, .inl hmem⟩
  · obtain ⟨v, hv, hseq, hserdata, -⟩ := hdone.back hw
    obtain ⟨htl, hin, hor⟩ := h v hv (hseq ▸ not_lt.mp hlt)
    have hidx : whc'.idxdepth = whc.idxdepth := by rw [hdone.settings]
    have htl' : whc'.tldepth = whc.tldepth := hdone.tldepth
    rw [hseq, hserdata] at hin hor
    refine ⟨htl'.symm ▸ htl,
      (congrArg (w.seq ∈ (live w.serdata.key written).take ·) hidx).mpr hin, ?_⟩
    rcases hor with hlast | ⟨t, ht, htlt⟩
    · exact .inl ((congrArg (w.seq ∈ (live w.serdata.key written).take ·) htl').mpr hlast)
    · by_cases htm : m < t
      · exact .inr ⟨t, ht, htm⟩
      · -- the newest sample was acknowledged just now, so its instance was pruned
        left
        have htake : t ∈ (live w.serdata.key written).take whc'.tldepth := by
          obtain ⟨rest, hrest⟩ := head?_eq_some_iff.mp ht
          obtain ⟨k, hk⟩ : ∃ k, whc'.tldepth = k + 1 := ⟨whc'.tldepth - 1, by
            have : 0 < whc.tldepth := htl
            omega⟩
          rw [hrest, hk, take_succ_cons]
          exact mem_cons_self ..
        obtain ⟨u, hu, rfl⟩ := hhist.kept _ t htake
        have hukey := hhist.key_eq hasc hu (mem_of_mem_take htake)
        obtain ⟨n, hn, hname, -⟩ := hhist.inTl hok hasc hdepth hu (hukey.symm ▸ htake)
        have hprune := hdone.pruned u hu htlt (not_lt.mp htm) n hn hname
        obtain ⟨k, hk, hkname⟩ := hhist.indexed w hw
          ((congrArg (w.seq ∈ (live w.serdata.key written).take ·) hidx).mpr hin)
        obtain rfl : k = n := by
          refine hdone.ok.idxOk.keys k hk n hn ?_
          rw [← hdone.ok.idxOk.key k hk w hw hkname, ← hdone.ok.idxOk.key n hn u hu hname, hukey]
        exact hintl w hw ⟨k, hk, hkname, hprune _ _ (hdone.ok.idxOk.holds hk hw hkname)⟩

end Remove

/-! ### The runs of a writer -/

/-- The calls of a writer that stays what it is: the drop points do not go back, those that come
with an insertion included, and a sample is inserted with a number above those given before. -/
def WhcCall.InOrder (log : WhcLog) (whc : Whc) (c : WhcCall) : Prop :=
  c.Allowed log whc ∧
    match c with
    | .insert maxDropSeq seq _ => log.drop ≤ maxDropSeq ∧ log.drop < seq
    | .removeAcked maxDropSeq => log.drop ≤ maxDropSeq
    | .downgrade => False

instance (log : WhcLog) (whc : Whc) : (c : WhcCall) → Decidable (c.InOrder log whc)
  | .insert .. => inferInstanceAs (Decidable (_ ∧ _ ∧ _))
  | .removeAcked m => inferInstanceAs (Decidable (_ ∧ log.drop ≤ m))
  | .downgrade => inferInstanceAs (Decidable (_ ∧ False))

/-- The cache is in order with the log of its run. -/
structure Retained (log : WhcLog) (whc : Whc) : Prop where
  hist : HistOk log.written log.drop whc.store
  low : LowOk log.written whc.store
  asc : Ascending log.written
  last : ∀ p ∈ log.written, p.1 ≤ log.last
  drop : whc.maxDropSeq ≤ log.drop
  tidy : Tidy whc
  all : whc.isTransientLocal = true → whc.tldepth = 0 → whc.hdepth = 0 →
    ∀ p ∈ log.written, p.1 ∈ whc.seqs

section Runs

variable {log : WhcLog} {m md s : ℤ} {d : WhcSerdata} {whc whc' start : Whc}

lemma Retained.insert (h : Retained log whc) (hinv : WhcInv log.last whc)
    (hcall : (WhcCall.insert md s d).InOrder log whc)
    (hshape : InsertShape md s d whc.store whc'.store) :
    Retained (log.call (.insert md s d)) whc' := by
  obtain ⟨⟨hmd, hs⟩, hdrop, hsdrop⟩ := hcall
  have hnew : ∀ p ∈ log.written, p.1 < s := fun p hp ↦ (h.last p hp).trans_lt hs
  have hsettings : whc'.toWhcSettings = whc.toWhcSettings := hshape.settings
  obtain ⟨whc₁, -, hins, hstore, -⟩ := hinv.insertSeq hs md d
  have hmaxs := h.drop.trans_lt hsdrop
  obtain ⟨hhist, hlow⟩ :=
    hshape.histOk h.hist h.low hinv.ok.storeOk (hstore ▸ hins.ok.storeOk) h.asc
    hnew hdrop hmaxs hmd hinv.depth
  refine ⟨hhist.mono (le_max_right _ _), hlow, pairwise_cons.mpr ⟨hnew, h.asc⟩, fun p hp ↦ ?_,
    ?_, h.tidy.insert hinv hmaxs hshape, fun htl hzero hh p hp ↦ ?_⟩
  · rcases mem_cons.mp hp with rfl | hp
    · exact le_rfl
    · exact (hnew p hp).le
  · rw [hsettings]
    exact h.drop.trans (le_max_left _ _)
  · rw [hsettings] at htl hzero hh
    have hplain : whc'.store = whc.store.insertSeq md s d := by
      have hidx : whc.store.admin.idxdepth = 0 := by
        have hmax : whc.store.admin.idxdepth = max whc.hdepth whc.tldepth := hinv.depth
        omega
      exact hshape.eq_insertSeq hidx
    have hsamples : whc'.samples = (whc.store.insertSeq md s d).samples :=
      congrArg WhcStore.samples hplain
    rw [mem_seqs_iff, hsamples]
    rcases mem_cons.mp hp with rfl | hp
    · exact ⟨_, mem_insertSeq.mpr (.inr rfl), rfl⟩
    · obtain ⟨w, hw, hseq⟩ := mem_seqs_iff.mp (h.all htl hzero hh p hp)
      exact ⟨w, mem_insertSeq.mpr (.inl hw), hseq⟩

lemma Retained.removed (h : Retained log whc) (hinv : WhcInv log.last whc) (hm : log.drop ≤ m)
    (hkeep : ¬ (whc.isTransientLocal ∧ whc.tldepth = 0))
    (hdone : Removed log.last m whc whc') : Retained (log.call (.removeAcked m)) whc' := by
  have hmax : (log.call (.removeAcked m)).drop = m := max_eq_right hm
  have hhist := hdone.histOk h.hist hinv h.tidy hkeep h.asc hm
  refine ⟨hmax.symm ▸ hhist, hdone.lowOk h.low hhist hinv h.asc, h.asc, h.last, ?_,
    h.tidy.removed hinv hkeep hdone, fun htl hzero ↦ ?_⟩
  · rw [hmax]
    exact hdone.maxDropSeq.le
  · rw [hdone.isTransientLocal] at htl
    rw [hdone.tldepth] at hzero
    exact absurd ⟨htl, hzero⟩ hkeep

lemma retained_new (isTransientLocal : Bool) (hdepth tldepth sampleOverhead fragmentSize : ℕ) :
    Retained {} (whcNew isTransientLocal hdepth tldepth sampleOverhead fragmentSize) := by
  have hnone : (whcNew isTransientLocal hdepth tldepth sampleOverhead fragmentSize).samples = [] :=
    rfl
  refine ⟨⟨fun w hw ↦ ?_, fun n hn ↦ ?_, fun w hw ↦ ?_, fun key t ht ↦ ?_, fun p hp ↦ ?_,
    fun _ w hw ↦ ?_⟩, fun w hw ↦ ?_, .nil, fun p hp ↦ ?_, le_rfl, tidy_new ..,
    fun _ _ _ p hp ↦ ?_⟩
  · simp [store, hnone] at hw
  · simp [store, whcNew] at hn
  · simp [store, hnone] at hw
  · simp [live] at ht
  · simp at hp
  · simp [store, hnone] at hw
  · simp [store, hnone] at hw
  · simp at hp
  · simp at hp

lemma WhcReach.retained (hstart : WhcInv 0 start) (hret : Retained {} start)
    (hreach : WhcReach WhcCall.InOrder start log whc) : Retained log whc := by
  induction hreach with
  | start => exact hret
  | @call _ _ _ _ hreach hcall hrun ih =>
    have hinv := hreach.inv (fun _ _ _ hc ↦ hc.1) hstart
    cases hinv.callShape hcall.1 hrun with
    | insert hshape => exact ih.insert hinv hcall hshape
    | kept =>
      exact { ih with
        hist := ih.hist.mono (le_max_left _ _)
        drop := ih.drop.trans (le_max_left _ _) }
    | removed hkeep hdone => exact ih.removed hinv hcall.2 hkeep hdone
    | downgraded => exact hcall.2.elim

/-- The settings of a cache that is not downgraded stay those it was made with. -/
lemma WhcReach.settings (hstart : WhcInv 0 start)
    (hreach : WhcReach WhcCall.InOrder start log whc) :
    whc.isTransientLocal = start.isTransientLocal ∧ whc.hdepth = start.hdepth ∧
      whc.tldepth = start.tldepth := by
  induction hreach with
  | start => exact ⟨rfl, rfl, rfl⟩
  | @call _ whc whc' _ hreach hcall hrun ih =>
    have hinv := hreach.inv (fun _ _ _ hc ↦ hc.1) hstart
    cases hinv.callShape hcall.1 hrun with
    | insert hshape =>
      have hsettings : whc'.toWhcSettings = whc.toWhcSettings := hshape.settings
      rw [hsettings]
      exact ih
    | kept => exact ih
    | removed _ hdone =>
      rw [hdone.settings]
      exact ih
    | downgraded => exact hcall.2.elim

end Runs

/-- The sample is among the last `tldepth` of its instance. -/
def InHistory (tldepth : ℕ) (written : List (ℤ × WhcSerdata)) (p : ℤ × WhcSerdata) : Prop :=
  p.1 ∈ (live p.2.key written).take tldepth

def Unacked (hdepth tldepth : ℕ) (m : ℤ) (written : List (ℤ × WhcSerdata)) (p : ℤ × WhcSerdata) :
    Prop :=
  m < p.1 ∧ (hdepth = 0 ∨ ¬ PushedOut (max hdepth tldepth) written p.1)

/-- The sample is acknowledged, and it is behind the transient-local history but within the longer
history of the writer, where the newest sample of its instance is not acknowledged. -/
def Lingering (hdepth tldepth : ℕ) (m : ℤ) (written : List (ℤ × WhcSerdata)) (p : ℤ × WhcSerdata) :
    Prop :=
  0 < tldepth ∧ tldepth < hdepth ∧ p.1 ≤ m ∧ p.1 ∈ (live p.2.key written).take hdepth ∧
    ∃ t ∈ (live p.2.key written).head?, m < t

/-- What a cache holds right after `whc_remove_acked_messages`, when it is not a transient-local one
that keeps everything: what is in the transient-local history and what is not acknowledged, and else
only samples that were in that history before a newer one came that is not acknowledged yet. -/
theorem whc_retention (isTransientLocal : Bool) (hdepth tldepth sampleOverhead fragmentSize : ℕ)
    (hcfg : ¬ (isTransientLocal = true ∧ tldepth = 0 ∧ 0 < hdepth)) (log : WhcLog) (whc : Whc)
    (hreach : WhcReach WhcCall.InOrder
      (whcNew isTransientLocal hdepth tldepth sampleOverhead fragmentSize) log whc)
    (m : ℤ) (hm : log.drop ≤ m) :
    ∃ whc', whcRemoveAckedMessages whc m = some whc' ∧
      (∀ x ∈ whc'.seqs, ∃ d, (x, d) ∈ log.written) ∧
      ∀ p ∈ log.written,
        (isTransientLocal = true ∧ tldepth = 0 → p.1 ∈ whc'.seqs) ∧
        (¬ (isTransientLocal = true ∧ tldepth = 0) →
          (InHistory tldepth log.written p ∨ Unacked hdepth tldepth m log.written p →
            p.1 ∈ whc'.seqs) ∧
          (p.1 ∈ whc'.seqs → InHistory tldepth log.written p ∨
            Unacked hdepth tldepth m log.written p ∨
            Lingering hdepth tldepth m log.written p)) := by
  have hstart := whcInv_new isTransientLocal hdepth tldepth sampleOverhead fragmentSize
  have hinv := hreach.inv (fun _ _ _ hc ↦ hc.1) hstart
  have hret := hreach.retained hstart (retained_new ..)
  obtain ⟨htl, hh, ht⟩ : whc.isTransientLocal = isTransientLocal ∧ whc.hdepth = hdepth ∧
    whc.tldepth = tldepth := hreach.settings hstart
  have hseqs : ∀ {whc' : Whc} {log' : WhcLog}, Retained log' whc' →
      ∀ x ∈ whc'.seqs, ∃ d, (x, d) ∈ log'.written := by
    intro whc' log' hret' x hx
    obtain ⟨w, hw, rfl⟩ := mem_seqs_iff.mp hx
    exact ⟨w.serdata, hret'.hist.sub w hw⟩
  by_cases hkeep : whc.isTransientLocal ∧ whc.tldepth = 0
  · refine ⟨whc, by simp [whcRemoveAckedMessages, hkeep], hseqs hret, fun p hp ↦ ⟨fun hc ↦ ?_,
      fun hc ↦ absurd hkeep (htl.symm ▸ ht.symm ▸ hc)⟩⟩
    refine hret.all hkeep.1 hkeep.2 ?_ p hp
    have hzero : ¬ 0 < hdepth := fun hpos ↦ hcfg ⟨hc.1, hc.2, hpos⟩
    omega
  · obtain ⟨whc', hrun, hdone, -⟩ := hinv.removeAcked (hret.drop.trans hm) hkeep
    have hret' := hret.removed hinv hm hkeep hdone
    have hdrop' : (log.call (.removeAcked m)).drop = m := max_eq_right hm
    have hidx' : whc'.store.admin.idxdepth = max hdepth tldepth := by
      rw [← hh, ← ht]
      exact (congrArg idxdepth hdone.settings).trans hinv.depth
    have hh' : whc'.store.admin.hdepth = hdepth :=
      (congrArg WhcSettings.hdepth hdone.settings).trans hh
    have ht' : whc'.store.admin.tldepth = tldepth := hdone.tldepth.trans ht
    have hmax' : whc'.store.admin.maxDropSeq = m := hdone.maxDropSeq
    have hseqs' : ∀ x ∈ whc'.seqs, ∃ d, (x, d) ∈ (log.call (.removeAcked m)).written := hseqs hret'
    refine ⟨whc', hrun, hseqs', fun p hp ↦ ⟨fun hc ↦ absurd (htl.symm ▸ ht.symm ▸ hc) hkeep,
      fun _ ↦ ⟨fun hor ↦ ?_, fun hmem ↦ ?_⟩⟩⟩
    · rw [mem_seqs_iff]
      rcases hor with hin | ⟨hlt, hpush⟩
      · exact hret'.hist.kept _ _ (ht'.symm ▸ hin)
      · exact hret'.hist.lower p hp (hdrop'.symm ▸ hlt) (hh'.symm ▸ hidx'.symm ▸ hpush)
    · obtain ⟨w, hw, hseq⟩ := mem_seqs_iff.mp hmem
      have hserdata : w.serdata = p.2 :=
        hret.asc.serdata_eq (hret'.hist.sub w hw) (show (w.seq, p.2) ∈ log.written from hseq ▸ hp)
      by_cases hlt : m < p.1
      · refine .inr (.inl ⟨hlt, ?_⟩)
        rcases Nat.eq_zero_or_pos hdepth with hzero | hpos
        · exact .inl hzero
        · have hnot := hret'.hist.notPushed (hh'.symm ▸ hpos) w hw
          rw [hidx', hseq] at hnot
          exact .inr hnot
      · obtain ⟨hpos, hin, hor⟩ := hret'.low w hw (by rw [hmax', hseq]; exact not_lt.mp hlt)
        rw [ht'] at hpos
        rw [hmax', ht', hserdata, hseq] at hor
        rw [hidx', hserdata, hseq] at hin
        rcases hor with hhist | hhead
        · exact .inl hhist
        · by_cases hle : hdepth ≤ tldepth
          · rw [max_eq_right hle] at hin
            exact .inl hin
          · rw [max_eq_left (not_le.mp hle).le] at hin
            exact .inr (.inr ⟨hpos, not_le.mp hle, not_lt.mp hlt, hin, hhead⟩)

/-- A writer with a history of two samples and a transient-local one of one sample, after two
samples of an instance of which the first was acknowledged. -/
theorem whc_retention_newest :
    ∃ log whc whc', WhcReach WhcCall.InOrder (whcNew false 2 1 0 1) log whc ∧
      whc.seqHash.map (fun w ↦ w.seq) = [1, 2] ∧ whcRemoveAckedMessages whc 1 = some whc' ∧
      2 ∈ whc'.seqs := by
  have hreach : WhcReach WhcCall.InOrder (whcNew false 2 1 0 1) _ _ :=
    .call (.call .start (c := .insert 0 1 ⟨0, [7], false, false⟩) (by decide) rfl)
      (c := .insert 0 2 ⟨0, [8], false, false⟩) (by decide) rfl
  obtain ⟨whc', hrun, -, hret⟩ := whc_retention false 2 1 0 1 (by decide) _ _ hreach 1 (by decide)
  refine ⟨_, _, whc', hreach, rfl, hrun, ?_⟩
  exact ((hret (2, ⟨0, [8], false, false⟩) (by decide)).2 (by simp)).1
    (.inl (by unfold InHistory; decide))

/-- The first sample of an instance lingers behind the transient-local history when it was
acknowledged before the second one was written. -/
theorem whc_retention_lingering :
    ∃ whc₁ whc₂ whc₃ whc₄,
      whcCall (whcNew false 2 1 0 1) (.insert 0 1 ⟨0, [7], false, false⟩) = some whc₁ ∧
      whcRemoveAckedMessages whc₁ 1 = some whc₂ ∧
      whcCall whc₂ (.insert 1 2 ⟨0, [8], false, false⟩) = some whc₃ ∧
      whcRemoveAckedMessages whc₃ 1 = some whc₄ ∧
      whc₄.seqHash.map (fun w ↦ w.seq) = [1, 2] ∧
      ¬ InHistory 1 [(2, ⟨0, [8], false, false⟩), (1, ⟨0, [7], false, false⟩)]
        (1, ⟨0, [7], false, false⟩) ∧
      ¬ Unacked 2 1 1 [(2, ⟨0, [8], false, false⟩), (1, ⟨0, [7], false, false⟩)]
        (1, ⟨0, [7], false, false⟩) :=
  ⟨_, _, _, _, rfl, rfl, rfl, rfl, rfl, by unfold InHistory; decide, by unfold Unacked; decide⟩

end OpenSplice.Ddsi
