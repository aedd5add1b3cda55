import OpenSplice.Ddsi.DataFrag.Model
import OpenSplice.Ddsi.Defrag.Union

/-!
# The number of samples in the defragmenter

A defragmenter holds at most `max_samples` incomplete samples. `nn_defrag_rsample` makes room before
it looks for the sample of a fragment, unless that is the one with the highest sequence number. A
fragment of any other sample that is known already needs no room, and yet costs a sample if the
defragmenter is full: the latest one or the oldest one by the drop mode, and perhaps its own
(`defrag_keeps_iff`).
-/

set_option autoImplicit false

namespace OpenSplice.Ddsi

open Library Utilities KeyedList List Option RsampleDefrag

/-- The loop of `nn_defrag_notegap`, for at most `fuel` rounds. -/
def notegapLoop (maxp1 : ℤ) : ℕ → Defrag → Option RsampleDefrag → Defrag
  | fuel + 1, defrag, some s =>
    if s.seq < maxp1 then
      notegapLoop maxp1 fuel (defragRsampleDrop defrag s.seq)
        (findSucc RsampleDefrag.seq s.seq defrag.sampletree)
    else defrag
  | _, defrag, _ => defrag

/-- `nn_defrag_notegap`. -/
def nnDefragNotegap (defrag : Defrag) (min maxp1 : ℤ) : Defrag :=
  let out := notegapLoop maxp1 defrag.sampletree.length defrag
    (lookupSuccEq RsampleDefrag.seq min defrag.sampletree)
  { out with maxSample := lastKey RsampleDefrag.seq out.sampletree }

/-- A defragmenter after fragments and gaps. The fragments have a sequence number and some bytes. -/
inductive DefragReach (dropMode : DefragDropMode) (maxSamples : ℕ) : Defrag → Prop
  | new : DefragReach dropMode maxSamples (nnDefragNew dropMode maxSamples)
  | rsample {defrag defrag' : Defrag} {rdata : Rdata} {info : RsampleInfo}
      {out : Option (RsampleReorder (List Rdata))} (h : DefragReach dropMode maxSamples defrag)
      (hseq : 0 < info.seq) (hlt : rdata.min < rdata.maxp1)
      (hstep : nnDefragRsample defrag rdata info = some (defrag', out)) :
      DefragReach dropMode maxSamples defrag'
  | notegap {defrag : Defrag} (h : DefragReach dropMode maxSamples defrag) (min maxp1 : ℤ) :
      DefragReach dropMode maxSamples (nnDefragNotegap defrag min maxp1)

/-! ### The invariant -/

def RsampleDefrag.frags (sample : RsampleDefrag) : List Rdata := sample.ivs.flatMap DefragIv.frags

/-- A record between two calls: it holds a fragment. -/
structure RecordOk (sample : RsampleDefrag) : Prop where
  tree : ∃ B, FragTreeOk B sample
  nonempty : NonemptyIvs sample.ivs
  frags : sample.frags ≠ []
  pos : 0 < sample.seq

/-- The records are in order, counted, and no more than there may be. -/
structure Stored (defrag : Defrag) : Prop where
  ordered : Ordered RsampleDefrag.seq defrag.sampletree
  count : defrag.nSamples = defrag.sampletree.length
  bounded : defrag.nSamples ≤ defrag.maxSamples
  room : 0 < defrag.maxSamples
  records : ∀ s ∈ defrag.sampletree, RecordOk s

/-- Besides, `max_sample` is the last of them. -/
structure DefragState (defrag : Defrag) : Prop extends Stored defrag where
  max : defrag.maxSample = lastKey RsampleDefrag.seq defrag.sampletree

/-- The record has got the fragment, unless it has all its bytes in one interval. -/
def Gains (f : Rdata) (s s' : RsampleDefrag) : Prop :=
  s'.frags.Perm (f :: s.frags) ∨
    (s'.ivs = s.ivs ∧ ∃ a ∈ s.ivs, a.min ≤ f.min ∧ f.maxp1 ≤ a.maxp1)

/-- No fragment is discarded: the other records are the same, and that of the fragment, which may be
complete and returned, has got it. -/
def AllKept (defrag : Defrag) (s : RsampleDefrag) (f : Rdata) (defrag' : Defrag)
    (out : Option (RsampleReorder (List Rdata))) : Prop :=
  (∀ t ∈ defrag.sampletree, t.seq ≠ s.seq → t ∈ defrag'.sampletree) ∧
    ∃ s', s'.seq = s.seq ∧ Gains f s s' ∧
      (s' ∈ defrag'.sampletree ∧ out = none ∨
        out.isSome = true ∧ out = rsampleConvertDefragToReorder s')

/-- There is room, or the fragment is of the latest sample, or it is the only one of the oldest
sample, which is dropped and made anew. -/
def Spares (defrag : Defrag) (s : RsampleDefrag) (f : Rdata) (info : RsampleInfo) : Prop :=
  defrag.nSamples < defrag.maxSamples ∨ defrag.maxSample = some info.seq ∨
    (defrag.dropMode = .dropOldest ∧ defrag.sampletree.head? = some s ∧
      s.ivs = (defragRsampleNew f info).ivs)

section Step

variable {defrag defrag' : Defrag} {s s' t : RsampleDefrag} {f : Rdata} {info : RsampleInfo}
  {l : List RsampleDefrag}

lemma FragStep.perm {l l' : List DefragIv} {grown : Option DefragIv} (h : FragStep f l l' grown) :
    (l'.flatMap DefragIv.frags).Perm (f :: l.flatMap DefragIv.frags) ∨
      (l' = l ∧ ∃ a ∈ l, a.min ≤ f.min ∧ f.maxp1 ≤ a.maxp1) := by
  cases h with
  | contained hmin hend => exact .inr ⟨rfl, _, mem_append_right _ mem_cons_self, hmin, hend⟩
  | _ =>
    refine .inl (perm_iff_count.mpr fun x ↦ ?_)
    simp only [flatMap_append, flatMap_cons, count_append, count_cons, count_nil, cons_append]
    omega

lemma Gains.frags_ne_nil (h : Gains f s s') (hs : s.frags ≠ []) : s'.frags ≠ [] := by
  rcases h with hperm | ⟨hivs, -⟩
  · intro hnil
    simpa [hnil] using hperm.length_eq
  · rwa [frags, hivs]

lemma RecordOk.add (h : RecordOk s) (hlt : f.min < f.maxp1) (info : RsampleInfo) :
    ∃ s' done, defragAddFragment s f info = some (s', done) ∧ RecordOk s' ∧ s'.seq = s.seq ∧
      Gains f s s' ∧ (done → isComplete s') := by
  obtain ⟨B, htree⟩ := h.tree
  have hlist : FragListOk (max B f.maxp1) _ := { htree.list with
    bounded := fun a ha ↦
      ⟨(htree.list.bounded a ha).1.trans (le_max_left ..), .inl (h.nonempty.proper a ha)⟩ }
  have hf : WfFrag (max B f.maxp1) f := ⟨le_max_right _ _, .inl hlt⟩
  rcases (defragAddFragment_step ⟨hlist, htree.last⟩ hf :
      (defragAddFragment s f info = none ∧ _) ∨ _) with ⟨-, hbeyond⟩ | ⟨s', grown, hadd, hstep⟩
  · omega
  · refine ⟨s', _, hadd, ⟨⟨_, hstep.treeOk ⟨hlist, htree.last⟩ hf⟩,
      hstep.step.nonempty hlist h.nonempty hlt, ?_, hstep.seq ▸ h.pos⟩, hstep.seq, hstep.step.perm,
      fun hdone ↦ (Bool.and_eq_true_iff.mp hdone).2⟩
    exact Gains.frags_ne_nil hstep.step.perm h.frags

lemma frags_defragRsampleNew (f : Rdata) (info : RsampleInfo) :
    (defragRsampleNew f info).frags = [f] := by
  rw [frags, defragRsampleNew_ivs]
  split_ifs <;> rfl

lemma recordOk_new (hlt : f.min < f.maxp1) (hseq : 0 < info.seq) :
    RecordOk (defragRsampleNew f info) where
  tree := ⟨f.maxp1, defragRsampleNew_treeOk ⟨le_refl _, .inl hlt⟩ info⟩
  nonempty := by
    rw [defragRsampleNew_ivs]
    split_ifs <;> simp [NonemptyIvs, hlt]
  frags := by simp [frags_defragRsampleNew]
  pos := hseq

/-! ### The last record -/

lemma Stored.drop (h : Stored defrag) (hs : s ∈ defrag.sampletree) :
    Stored (defragRsampleDrop defrag s.seq) := by
  have hlen := h.ordered.length_delete hs
  have hcount := h.count
  have hbounded := h.bounded
  exact ⟨h.ordered.delete _, by simp only [defragRsampleDrop]; omega,
    by simp only [defragRsampleDrop]; omega, h.room, fun t ht ↦ h.records t (mem_delete.mp ht).1⟩

lemma exists_last (hl : Ordered seq l) (hs : s ∈ l) :
    ∃ last ∈ l, lastKey seq l = some last.seq ∧ ∀ t ∈ l, t.seq ≤ last.seq := by
  obtain ⟨init, last, rfl⟩ := (eq_nil_or_concat' l).resolve_left (ne_nil_of_mem hs)
  refine ⟨last, by simp, lastKey_concat init last, fun t ht ↦ ?_⟩
  rcases mem_append.mp ht with ht | ht
  · exact ((ordered_append_cons.mp hl).2.2.1 t ht).le
  · rw [mem_singleton.mp ht]

lemma lastKey_delete (hl : Ordered seq l) (hs : s ∈ l) (hne : lastKey seq l ≠ some s.seq) :
    lastKey seq (delete seq s.seq l) = lastKey seq l := by
  obtain ⟨pre, post, rfl⟩ := append_of_mem hs
  obtain ⟨init, last, rfl⟩ := (eq_nil_or_concat' post).resolve_left fun h ↦
    hne ((lastKey_eq_iff hl).mpr h)
  rw [delete_split hl, ← append_assoc, lastKey_concat, lastKey_split, lastKey_concat]
  rfl

lemma lastKey_insert (habsent : ∀ t ∈ l, t.seq ≠ s.seq) (hl : Ordered seq l) (hs : 0 < s.seq) :
    lastKey seq (KeyedList.insert seq s l) = if (lastKey seq l).getD 0 < s.seq then some s.seq
      else lastKey seq l := by
  rcases eq_nil_or_concat' l with rfl | ⟨init, last, rfl⟩
  · simp [KeyedList.insert, lastKey, hs]
  rw [lastKey_concat, getD_some]
  split_ifs with hlast
  · have hle : ∀ t ∈ init ++ [last], t.seq ≤ s.seq := fun t ht ↦ by
      rcases mem_append.mp ht with ht | ht
      · exact (((ordered_append_cons.mp hl).2.2.1 t ht).trans hlast).le
      · exact (mem_singleton.mp ht ▸ hlast).le
    have hinsert := insert_append_of_le hle []
    rw [append_nil] at hinsert
    rw [hinsert]
    exact lastKey_concat _ s
  · have hlt := lt_of_le_of_ne (not_lt.mp hlast) (habsent last (by simp)).symm
    rw [insert_append_of_lt hlt init [], lastKey_concat]

lemma lastKey_update {k : ℤ} (hs : s.seq = k) (l : List RsampleDefrag) :
    lastKey seq (update seq k s l) = lastKey seq l := by
  rw [lastKey, lastKey, update, getLast?_map, Option.map_map]
  congr 1
  funext t
  dsimp
  split_ifs with ht
  · rw [hs, ht]
  · rfl

lemma length_insert (s : RsampleDefrag) (l : List RsampleDefrag) :
    (KeyedList.insert seq s l).length = l.length + 1 := by
  induction l with
  | nil => rfl
  | cons _ _ ih =>
    rw [KeyedList.insert]
    split_ifs <;> simp [ih]

/-! ### Adding a fragment -/

/-- What becomes of a fragment that there is room for: it is added to its record, or it gets a new
one. -/
structure Placed (defrag : Defrag) (f : Rdata) (info : RsampleInfo) (defrag' : Defrag)
    (out : Option (RsampleReorder (List Rdata))) : Prop where
  ok : DefragState defrag'
  mem : ∀ t ∈ defrag'.sampletree, t.seq = info.seq ∨ t ∈ defrag.sampletree
  place : (∃ s ∈ defrag.sampletree, s.seq = info.seq ∧ AllKept defrag s f defrag' out) ∨
    (∀ t ∈ defrag.sampletree, t.seq ≠ info.seq) ∧ out = none ∧
      ∀ t, t ∈ defrag'.sampletree ↔ t = defragRsampleNew f info ∨ t ∈ defrag.sampletree

section

variable (h : DefragState defrag)
include h

lemma DefragState.addTo (hs : s ∈ defrag.sampletree) (hlt : f.min < f.maxp1) (info : RsampleInfo) :
    ∃ defrag' out, defragAddTo defrag s f info = some (defrag', out) ∧ DefragState defrag' ∧
      AllKept defrag s f defrag' out ∧
      ∀ t ∈ defrag'.sampletree, t.seq = s.seq ∨ t ∈ defrag.sampletree := by
  obtain ⟨s', done, hadd, hok, hseq, hgains, hdone⟩ := (h.records s hs).add hlt info
  rw [defragAddTo, hadd, bind_some, defragFinish]
  have hdrop := h.drop hs
  cases done with
  | true =>
    obtain ⟨root, hroot, -⟩ := isComplete_eq_true.mp (hdone rfl)
    obtain ⟨r, hr⟩ : ∃ r, rsampleConvertDefragToReorder s' = some r := by
      simp [rsampleConvertDefragToReorder, hroot]
    rw [if_pos rfl, hr, hseq]
    refine ⟨_, _, rfl, ⟨⟨hdrop.ordered, hdrop.count, hdrop.bounded, hdrop.room, hdrop.records⟩, ?_⟩,
      ⟨fun t ht hne ↦ mem_delete.mpr ⟨ht, hne⟩, s', hseq, hgains, .inr ⟨rfl, hr.symm⟩⟩,
      fun t ht ↦ .inr (mem_delete.mp ht).1⟩
    split_ifs with hmax
    · rfl
    · rw [lastKey_delete h.ordered hs (h.max ▸ hmax), h.max]
  | false =>
    refine ⟨_, _, rfl, ⟨⟨h.ordered.update rfl, ?_, h.bounded, h.room, fun t ht ↦ ?_⟩, ?_⟩,
      ⟨fun t ht hne ↦ mem_update.mpr (.inr ⟨ht, hseq ▸ hne⟩), s', hseq, hgains,
        .inl ⟨mem_update.mpr (.inl ⟨rfl, s, hs, hseq.symm⟩), rfl⟩⟩, fun t ht ↦ ?_⟩
    · simpa [update] using h.count
    · rcases mem_update.mp ht with ⟨rfl, -⟩ | ⟨ht, -⟩
      · exact hok
      · exact h.records t ht
    · exact h.max.trans (lastKey_update rfl _).symm
    · rcases mem_update.mp ht with ⟨rfl, -⟩ | ⟨ht, -⟩
      · exact .inl hseq
      · exact .inr ht

lemma DefragState.addNew (habsent : ∀ t ∈ defrag.sampletree, t.seq ≠ info.seq)
    (hroom : defrag.nSamples < defrag.maxSamples) (hlt : f.min < f.maxp1) (hseq : 0 < info.seq) :
    DefragState (defragAddNew defrag
      (if defrag.maxSample.getD 0 < info.seq then some info.seq else defrag.maxSample) f info) where
  ordered := h.ordered.insert habsent
  count := (congrArg (· + 1) h.count).trans (length_insert _ _).symm
  bounded := hroom
  room := h.room
  records := fun t ht ↦ by
    rcases mem_insert.mp ht with rfl | ht
    · exact recordOk_new hlt hseq
    · exact h.records t ht
  max := by
    simp only [defragAddNew, h.max]
    exact (lastKey_insert (s := defragRsampleNew f info) habsent h.ordered hseq).symm

lemma DefragState.placed (hroom : defrag.nSamples < defrag.maxSamples)
    (hlt : f.min < f.maxp1) (hseq : 0 < info.seq) :
    ∃ defrag' out, (if defrag.maxSample.getD 0 < info.seq then
          some (defragAddNew defrag (some info.seq) f info, none)
        else match lookup seq info.seq defrag.sampletree with
          | none => some (defragAddNew defrag defrag.maxSample f info, none)
          | some sample => defragAddTo defrag sample f info) = some (defrag', out) ∧
      Placed defrag f info defrag' out := by
  have hnew : (∀ t ∈ defrag.sampletree, t.seq ≠ info.seq) → Placed defrag f info
      (defragAddNew defrag (if defrag.maxSample.getD 0 < info.seq then some info.seq
        else defrag.maxSample) f info) none := fun habsent ↦
    ⟨h.addNew habsent hroom hlt hseq,
      fun t ht ↦ (mem_insert.mp ht).imp_left fun heq ↦ congrArg seq heq,
      .inr ⟨habsent, rfl, fun t ↦ mem_insert⟩⟩
  split_ifs with hlast
  · rw [if_pos hlast] at hnew
    refine ⟨_, _, rfl, hnew fun t ht heq ↦ ?_⟩
    obtain ⟨last, -, hkey, hle⟩ := exists_last h.ordered ht
    rw [h.max, hkey, getD_some, ← heq] at hlast
    exact absurd (hle t ht) (not_le.mpr hlast)
  · rw [if_neg hlast] at hnew
    split
    · rename_i hlookup
      exact ⟨_, _, rfl, hnew (lookup_eq_none.mp hlookup)⟩
    · rename_i s hlookup
      obtain ⟨hs, hkey⟩ := lookup_eq_some hlookup
      obtain ⟨defrag', out, hadd, hok, hkept, hmem⟩ := h.addTo hs hlt info
      exact ⟨defrag', out, hadd, hok, hkey ▸ hmem, .inl ⟨s, hs, hkey, hkept⟩⟩

end

/-! ### Making room -/

/-- `defrag_rsample_drop` of any record keeps the order, the count and the maximum. -/
lemma defragDropForRoom_spec (hord : Ordered seq defrag.sampletree)
    (hcount : defrag.nSamples = defrag.sampletree.length)
    (hmax : defrag.maxSample = lastKey seq defrag.sampletree)
    (hs : s ∈ defrag.sampletree) :
    ∃ defrag', defragDropForRoom defrag s.seq (defrag.maxSample.getD 0) =
        (defrag', defrag'.maxSample.getD 0) ∧
      defrag'.sampletree = delete seq s.seq defrag.sampletree ∧
      defrag'.nSamples = defrag'.sampletree.length ∧
      defrag'.maxSample = lastKey seq defrag'.sampletree ∧
      defrag'.dropMode = defrag.dropMode ∧ defrag'.maxSamples = defrag.maxSamples := by
  have hlen := hord.length_delete hs
  unfold defragDropForRoom
  split_ifs with hlast
  · exact ⟨_, rfl, rfl, by simp only [defragRsampleDrop]; omega, rfl, rfl, rfl⟩
  · exact ⟨_, rfl, rfl, by simp only [defragRsampleDrop]; omega,
      hmax.trans (lastKey_delete hord hs (hmax ▸ hlast)).symm, rfl, rfl⟩

section

variable (h : DefragState defrag)
include h

lemma DefragState.dropForRoom (hs : s ∈ defrag.sampletree) :
    ∃ defrag', defragDropForRoom defrag s.seq (defrag.maxSample.getD 0) =
        (defrag', defrag'.maxSample.getD 0) ∧ DefragState defrag' ∧
      defrag'.nSamples < defrag'.maxSamples ∧
      defrag'.sampletree = delete seq s.seq defrag.sampletree := by
  obtain ⟨defrag', hdrop, htree, hcount, hmax, -, hlimit⟩ :=
    defragDropForRoom_spec h.ordered h.count h.max hs
  have hroom : defrag'.nSamples < defrag'.maxSamples := by
    have hlen := h.ordered.length_delete hs
    have hbounded := h.bounded
    have hcount' := h.count
    rw [hcount, htree]
    omega
  exact ⟨defrag', hdrop, ⟨⟨htree ▸ h.ordered.delete _, hcount, hroom.le, hlimit ▸ h.room,
    fun t ht ↦ h.records t (mem_delete.mp (htree ▸ ht)).1⟩, hmax⟩, hroom, htree⟩

/-- The choice of `defrag_limit_samples`: a sample that is discarded is not a known one. -/
lemma DefragState.sampleToDrop
    (hfull : ¬ defrag.nSamples < defrag.maxSamples) (hne : defrag.maxSample ≠ some info.seq) :
    (sampleToDrop defrag info.seq = some none ∧ ∀ t ∈ defrag.sampletree, t.seq ≠ info.seq) ∨
    ∃ s ∈ defrag.sampletree, sampleToDrop defrag info.seq = some (some s.seq) ∧
      (defrag.dropMode = .dropOldest ∧ defrag.sampletree.head? = some s ∨
        defrag.dropMode = .dropLatest ∧ s.seq ≠ info.seq) := by
  obtain ⟨a, l, htree⟩ : ∃ a l, defrag.sampletree = a :: l := by
    refine exists_cons_of_ne_nil fun hnil ↦ hfull ?_
    rw [h.count, hnil]
    exact h.room
  have ha : a ∈ defrag.sampletree := htree ▸ mem_cons_self
  cases hmode : defrag.dropMode with
  | dropLatest =>
    obtain ⟨last, hmem, hlast, hle⟩ := exists_last h.ordered ha
    rw [← h.max] at hlast
    by_cases hnew : last.seq < info.seq
    · refine .inl ⟨by simp [Ddsi.sampleToDrop, hmode, hlast, hnew], fun t ht heq ↦ ?_⟩
      have := hle t ht
      omega
    · refine .inr ⟨last, hmem, by simp [Ddsi.sampleToDrop, hmode, hlast, hnew], .inr ⟨rfl, ?_⟩⟩
      rwa [hlast, Ne, some.injEq] at hne
  | dropOldest =>
    by_cases hnew : info.seq < a.seq
    · refine .inl ⟨by simp [Ddsi.sampleToDrop, hmode, htree, hnew], fun t ht heq ↦ ?_⟩
      rcases mem_cons.mp (htree ▸ ht) with rfl | ht
      · omega
      · have := (pairwise_cons.mp (htree ▸ h.ordered)).1 t ht
        omega
    · exact .inr ⟨a, ha, by simp [Ddsi.sampleToDrop, hmode, htree, hnew],
        .inl ⟨rfl, by simp [htree]⟩⟩

/-- A record that was dropped to make room is lost, unless it is made anew with the fragment. -/
lemma allKept_iff_of_dropped {a : RsampleDefrag} {out : Option (RsampleReorder (List Rdata))}
    (ha : a ∈ defrag.sampletree) (hs : s ∈ defrag.sampletree) (hsame : s.seq = info.seq)
    (htree : defrag'.sampletree = delete seq a.seq defrag.sampletree)
    {defrag'' : Defrag} (hplaced : Placed defrag' f info defrag'' out) :
    AllKept defrag s f defrag'' out ↔ a = s ∧ s.ivs = (defragRsampleNew f info).ivs := by
  by_cases hkey : a.seq = info.seq
  · obtain rfl := h.ordered.eq_of_key ha hs (hkey.trans hsame.symm)
    obtain ⟨t, ht, hseq, -⟩ | ⟨-, rfl, hmem⟩ := hplaced.place
    · exact absurd (hseq.trans hsame.symm) (mem_delete.mp (htree ▸ ht)).2
    rw [eq_self, true_and]
    constructor
    · rintro ⟨-, s', hseq, hgains, ⟨hs', -⟩ | ⟨hsome, -⟩⟩
      · rcases (hmem s').mp hs' with rfl | hs'
        · rcases hgains with hperm | ⟨hivs, -⟩
          · have := hperm.length_eq
            have := length_pos_iff.mpr (h.records _ ha).frags
            simp only [frags_defragRsampleNew, length_cons, length_nil] at *
            omega
          · exact hivs.symm
        · exact absurd hseq (mem_delete.mp (htree ▸ hs')).2
      · simp at hsome
    · intro hivs
      refine ⟨fun t ht hne ↦ (hmem t).mpr (.inr (htree ▸ mem_delete.mpr ⟨ht, hne⟩)),
        defragRsampleNew f info, hsame.symm, .inr ⟨hivs.symm, ?_⟩,
        .inl ⟨(hmem _).mpr (.inl rfl), rfl⟩⟩
      rw [hivs, defragRsampleNew_ivs]
      split_ifs <;> simp
  · constructor
    · rintro ⟨hother, -⟩
      rcases hplaced.mem a (hother a ha (hsame ▸ hkey)) with hseq | hmem
      · exact absurd hseq hkey
      · exact absurd rfl (mem_delete.mp (htree ▸ hmem)).2
    · rintro ⟨rfl, -⟩
      exact absurd hsame hkey

lemma DefragState.rsample (hlt : f.min < f.maxp1) (hseq : 0 < info.seq) :
    ∃ defrag' out, nnDefragRsample defrag f info = some (defrag', out) ∧ DefragState defrag' ∧
      (nnRdataIsFragment f info → ∀ s ∈ defrag.sampletree, s.seq = info.seq →
        (AllKept defrag s f defrag' out ↔ Spares defrag s f info)) := by
  unfold nnDefragRsample Spares
  cases hfrag : nnRdataIsFragment f info with
  | false => exact ⟨defrag, _, rfl, h, by simp⟩
  | true =>
    simp only [Bool.not_true, Bool.false_eq_true, if_false, forall_const]
    have hlatest : info.seq = defrag.maxSample.getD 0 ↔ defrag.maxSample = some info.seq := by
      cases defrag.maxSample <;> simp [eq_comm, hseq.ne']
    by_cases hmax : defrag.maxSample = some info.seq
    · rw [if_pos (hlatest.mpr hmax), hmax, bind_some]
      obtain ⟨last, hmem, hlast, -⟩ : ∃ last ∈ defrag.sampletree, last.seq = info.seq ∧ True := by
        rw [h.max] at hmax
        obtain ⟨last, hlast, hkey⟩ := map_eq_some_iff.mp hmax
        exact ⟨last, mem_of_getLast? hlast, hkey, trivial⟩
      obtain ⟨defrag', out, hadd, hok, hkept, -⟩ := h.addTo hmem hlt info
      rw [← hlast, lookup_of_mem h.ordered hmem, bind_some]
      refine ⟨defrag', out, hadd, hok, fun s hs hsame ↦ ?_⟩
      obtain rfl := h.ordered.eq_of_key hs hmem hsame
      exact iff_of_true hkept (.inr (.inl rfl))
    rw [if_neg (hlatest.not.mpr hmax)]
    by_cases hroom : defrag.nSamples < defrag.maxSamples
    · rw [defragLimitSamples, if_pos hroom]
      obtain ⟨defrag', out, hplace, hplaced⟩ := h.placed hroom hlt hseq
      refine ⟨defrag', out, hplace, hplaced.ok, fun s hs hsame ↦ iff_of_true ?_ (.inl hroom)⟩
      rcases hplaced.place with ⟨t, ht, hkey, hkept⟩ | ⟨habsent, -⟩
      · obtain rfl := h.ordered.eq_of_key hs ht (hsame.trans hkey.symm)
        exact hkept
      · exact absurd hsame (habsent s hs)
    · rw [defragLimitSamples, if_neg hroom]
      rcases h.sampleToDrop hroom hmax with ⟨hnone, habsent⟩ | ⟨a, ha, hdrop, hwhich⟩
      · rw [hnone]
        exact ⟨defrag, none, rfl, h, fun s hs hsame ↦ absurd hsame (habsent s hs)⟩
      · obtain ⟨defrag', heq, hok, hroom', htree⟩ := h.dropForRoom ha
        obtain ⟨defrag'', out, hplace, hplaced⟩ := hok.placed hroom' hlt hseq
        rw [hdrop]
        dsimp only
        rw [heq]
        refine ⟨defrag'', out, hplace, hplaced.ok, fun s hs hsame ↦ ?_⟩
        rw [allKept_iff_of_dropped h ha hs hsame htree hplaced]
        constructor
        · rintro ⟨rfl, hivs⟩
          rcases hwhich with ⟨hmode, hhead⟩ | ⟨-, hne⟩
          · exact .inr (.inr ⟨hmode, hhead, hivs⟩)
          · exact absurd hsame hne
        · rintro (hroom' | hmax' | ⟨hmode, hhead, hivs⟩)
          · exact absurd hroom' hroom
          · exact absurd hmax' hmax
          · rcases hwhich with ⟨-, hhead'⟩ | ⟨hmode', -⟩
            · exact ⟨some.inj (hhead'.symm.trans hhead), hivs⟩
            · simp [hmode] at hmode'

end

lemma Stored.notegapLoop {cur : Option RsampleDefrag} (h : Stored defrag)
    (hcur : ∀ s ∈ cur, s ∈ defrag.sampletree) (maxp1 : ℤ) (fuel : ℕ) :
    Stored (notegapLoop maxp1 fuel defrag cur) := by
  fun_induction Ddsi.notegapLoop maxp1 fuel defrag cur with
  | case1 fuel defrag s hlt ih =>
    refine ih (h.drop (hcur s rfl)) fun t ht ↦ mem_delete.mpr ⟨mem_of_find?_eq_some ht, ?_⟩
    have := find?_some ht
    simp only [decide_eq_true_eq] at this
    omega
  | case2 | case3 => exact h

end Step

lemma DefragReach.ok {dropMode : DefragDropMode} {maxSamples : ℕ} {defrag : Defrag}
    (h : DefragReach dropMode maxSamples defrag) (hmax : 0 < maxSamples) : DefragState defrag := by
  induction h with
  | new => exact ⟨⟨.nil, rfl, Nat.zero_le _, hmax, by simp [nnDefragNew]⟩, rfl⟩
  | rsample _ hseq hlt hstep ih =>
    obtain ⟨_, _, heq, hok, -⟩ := ih.rsample hlt hseq
    obtain ⟨rfl, -⟩ := Prod.mk.inj (some.inj (hstep.symm.trans heq))
    exact hok
  | @notegap defrag _ min maxp1 ih =>
    have hcur : ∀ s ∈ lookupSuccEq seq min defrag.sampletree, s ∈ defrag.sampletree :=
      fun s hs ↦ mem_of_find?_eq_some hs
    have hout := ih.notegapLoop hcur maxp1 defrag.sampletree.length
    exact ⟨⟨hout.ordered, hout.count, hout.bounded, hout.room, hout.records⟩, rfl⟩

/-- In every state of a defragmenter that was given fragments with a sequence number, the samples
are counted, no more than there may be, and the latest one is known; and a fragment of a known
sample discards nothing if and only if there is room or it is of the latest sample, or the sample
that is dropped and made anew consists of it. -/
theorem defrag_keeps_iff (dropMode : DefragDropMode) (maxSamples : ℕ) (defrag : Defrag) (f : Rdata)
    (info : RsampleInfo) (hmax : 0 < maxSamples) (h : DefragReach dropMode maxSamples defrag)
    (hlt : f.min < f.maxp1) (hseq : 0 < info.seq) :
    DefragState defrag ∧ ∃ defrag' out, nnDefragRsample defrag f info = some (defrag', out) ∧
      DefragState defrag' ∧
      (nnRdataIsFragment f info = true → ∀ s ∈ defrag.sampletree, s.seq = info.seq →
        (AllKept defrag s f defrag' out ↔ Spares defrag s f info)) :=
  ⟨h.ok hmax, (h.ok hmax).rsample hlt hseq⟩

/-- The second fragment of a sample. -/
theorem defrag_keeps_second :
    ∃ defrag defrag' out,
      nnDefragRsample (nnDefragNew .dropLatest 2) ⟨0, 4, []⟩ ⟨1, 12, 4⟩ = some (defrag, none) ∧
      nnDefragRsample defrag ⟨4, 8, []⟩ ⟨1, 12, 4⟩ = some (defrag', out) ∧
      ∀ s ∈ defrag.sampletree, s.seq = 1 → AllKept defrag s ⟨4, 8, []⟩ defrag' out := by
  obtain ⟨-, defrag', out, hstep, -, hkept⟩ := defrag_keeps_iff .dropLatest 2 _ ⟨4, 8, []⟩
    ⟨1, 12, 4⟩ (by decide)
    (@DefragReach.rsample _ _ _ _ ⟨0, 4, []⟩ ⟨1, 12, 4⟩ _ .new (by decide) (by decide) rfl)
    (by decide) (by decide)
  exact ⟨_, defrag', out, rfl, hstep, fun s hs hseq ↦ (hkept rfl s hs hseq).mpr (.inl (by decide))⟩

/-- A defragmenter for two samples, with one fragment of three each of samples 1 and 2: the second
fragment of sample 1 discards sample 2. And a fragment with an unknown sequence number leaves
a defragmenter with one sample and no latest one. -/
theorem defrag_discards_known_sample :
    (∃ d d' d'',
      nnDefragRsample (nnDefragNew .dropLatest 2) ⟨0, 4, []⟩ ⟨1, 12, 4⟩ = some (d, none) ∧
      nnDefragRsample d ⟨0, 4, []⟩ ⟨2, 12, 4⟩ = some (d', none) ∧
      nnDefragRsample d' ⟨4, 8, []⟩ ⟨1, 12, 4⟩ = some (d'', none) ∧
      d'.sampletree.map RsampleDefrag.seq = [1, 2] ∧
      d''.sampletree.map RsampleDefrag.seq = [1]) ∧
    ∃ d, nnDefragRsample (nnDefragNew .dropLatest 2) ⟨0, 4, []⟩ ⟨nnSequenceNumberUnknown, 12, 4⟩ =
      some (d, none) ∧ d.sampletree.length = 1 ∧ d.maxSample = none :=
  ⟨⟨_, _, _, rfl, rfl, rfl, by decide, by decide⟩, _, rfl, by decide, by decide⟩

end OpenSplice.Ddsi
