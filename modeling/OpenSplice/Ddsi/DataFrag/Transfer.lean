import OpenSplice.Ddsi.DataFrag.RoundTrip
import OpenSplice.Ddsi.Defrag.Reassembly
import OpenSplice.Ddsi.Defrag.Capacity

/-!
# The transfer of a fragmented sample

The fragments of one sample, each any number of times and in any order, through the defragmenter.
They start and end at multiples of the fragment size or at the end of the sample, so the defect of
`defrag_try_merge_with_succ` does not show (`keepsEnds_fragRdata`). `FragRecord` says what a record
is that was given the fragments `js`: `FragRecord.step` adds a fragment, and `defragment` gives back
the bytes of the sample when no fragment is missing. The defragmenter may hold other samples
(`DefragAt`).
-/

set_option autoImplicit false

namespace OpenSplice.Ddsi

open Library Utilities KeyedList List Nat Option

variable {mem : List UInt8} {l : List DefragIv} {f : Rdata}

def CarriesBytes (mem : List UInt8) (f : Rdata) : Prop :=
  f.payload.take (f.maxp1 - f.min) = (mem.drop f.min).take (f.maxp1 - f.min)

lemma CarriesBytes.take_drop (h : CarriesBytes mem f) {off : ℕ} (hmin : f.min ≤ off) :
    (f.payload.drop (off - f.min)).take (f.maxp1 - off) = (mem.drop off).take (f.maxp1 - off) := by
  have hdrop := congrArg (drop (off - f.min)) h
  rw [drop_take, drop_take, drop_drop] at hdrop
  rw [show f.maxp1 - f.min - (off - f.min) = f.maxp1 - off by omega,
    show f.min + (off - f.min) = off by omega] at hdrop
  exact hdrop

lemma defragmentLoop_eq_take {sz off : ℕ} {fs : List Rdata} (h : Contiguous off fs)
    (hsz : ∀ f ∈ fs, f.maxp1 ≤ sz) (hbytes : ∀ f ∈ fs, CarriesBytes mem f) :
    defragmentLoop sz off (mem.take off) fs = some (mem.take (max off (chainEnd fs))) := by
  induction fs generalizing off with
  | nil => simp [defragmentLoop]
  | cons f _ ih =>
    obtain ⟨hmin, hcont⟩ := h
    obtain ⟨hf, hsz⟩ := forall_mem_cons.mp hsz
    obtain ⟨hfbytes, hbytes⟩ := forall_mem_cons.mp hbytes
    rw [defragmentLoop, if_neg (by omega), chainEnd_cons]
    by_cases hadd : off < f.maxp1
    · have hcopy : mem.take off ++ (f.payload.drop (off - f.min)).take (f.maxp1 - off) =
          mem.take f.maxp1 := by
        rw [hfbytes.take_drop hmin, ← take_add]
        congr 1
        omega
      rw [if_pos hadd, hcopy, ih (hcont.mono (by omega)) hsz hbytes]
      congr 2
      omega
    · rw [if_neg hadd, ih (hcont.mono (by omega)) hsz hbytes]
      congr 2
      omega

/-! ### The record of a sample -/

def EndsAligned (unit size : ℕ) (l : List DefragIv) : Prop :=
  ∀ a ∈ l, a.maxp1 = size ∨ unit ∣ a.maxp1

lemma FragStep.endsAligned {l' : List DefragIv} {grown : Option DefragIv}
    {unit size : ℕ} (hstep : FragStep f l l' grown) (h : EndsAligned unit size l)
    (hf : f.maxp1 = size ∨ unit ∣ f.maxp1) : EndsAligned unit size l' := by
  unfold EndsAligned at h ⊢
  cases hstep <;>
    simp only [forall_mem_append, forall_mem_cons] at h ⊢ <;> tauto

lemma countP_le_one {p : DefragIv → Bool} (h : l.Pairwise fun a b ↦ a.maxp1 < b.maxp1)
    (hp : ∀ a ∈ l, ∀ b ∈ l, p a → p b → a.maxp1 = b.maxp1) : l.countP p ≤ 1 := by
  induction l with
  | nil => simp
  | cons a l ih =>
    obtain ⟨hlt, h⟩ := pairwise_cons.mp h
    by_cases ha : p a
    · have hnone : l.countP p = 0 := by
        refine countP_eq_zero.mpr fun b hb hpb ↦ ?_
        have := hlt b hb
        have := hp a mem_cons_self b (mem_cons_of_mem _ hb) ha hpb
        omega
      rw [countP_cons_of_pos ha, hnone]
    · rw [countP_cons_of_neg ha]
      exact ih h fun b hb c hc ↦ hp b (mem_cons_of_mem _ hb) c (mem_cons_of_mem _ hc)

section Record

variable {config : FragConfig} {serdata : Serdata} {j : ℕ} {js : List ℕ}

/-- All fragments of the sample are among `js`. -/
def allSeen (config : FragConfig) (serdata : Serdata) (js : List ℕ) : Bool :=
  (List.range (nfrags config serdata)).all fun j ↦ decide (j ∈ js)

/-- A record of a sample that was given the fragments `js`, some of which may be missing. -/
structure FragRecord (config : FragConfig) (serdata : Serdata) (info : RsampleInfo) (js : List ℕ)
    (sample : RsampleDefrag) : Prop where
  bounded : ∀ j ∈ js, j < nfrags config serdata
  inv : RecordInv serdata.size (js.map (fragRdata config serdata)) sample
  history : RecordHistory serdata.size (js.map fun j ↦ (fragRdata config serdata j, info)) sample
  sampleinfo : sample.sampleinfo = info
  ends : EndsAligned config.fragmentSize serdata.size sample.ivs
  seq : sample.seq = info.seq

lemma endsAligned_fragRdata (config : FragConfig) (serdata : Serdata) (j : ℕ) :
    (fragRdata config serdata j).maxp1 = serdata.size ∨
      config.fragmentSize ∣ (fragRdata config serdata j).maxp1 := by
  rcases le_total serdata.size ((j + 1) * config.fragmentSize) with hle | hle
  · exact .inl (min_eq_right hle)
  · right
    rw [fragRdata, min_eq_left hle]
    exact dvd_mul_left _ _

section

variable (h : Fragmentable config serdata)
include h

lemma fragRdata_lt (hj : j < nfrags config serdata) :
    (fragRdata config serdata j).min < (fragRdata config serdata j).maxp1 ∧
      (fragRdata config serdata j).maxp1 ≤ serdata.size := by
  rw [lt_nfrags_iff h] at hj
  have := h.unit
  simp only [fragRdata, add_mul, one_mul]
  omega

lemma keepsEnds_fragRdata {sample : RsampleDefrag}
    (hends : EndsAligned config.fragmentSize serdata.size sample.ivs)
    (hsep : IntervalList.Separated DefragIv.min DefragIv.maxp1 sample.ivs)
    (hproper : Proper sample.ivs) :
    keepsEnds sample (fragRdata config serdata j) := by
  have hsorted : sample.ivs.Pairwise fun a b ↦ a.maxp1 < b.maxp1 := by
    refine hsep.imp_of_mem fun {a b} _ hb hab ↦ ?_
    have := hproper b hb
    omega
  have hat : ∀ a ∈ sample.ivs, endsInside (fragRdata config serdata j) a →
      a.maxp1 = j * config.fragmentSize := by
    intro a ha hinside
    obtain ⟨hmin, hmax⟩ := endsInside_iff.mp hinside
    simp only [fragRdata] at hmin hmax
    rcases hends a ha with hsize | ⟨k, hk⟩
    · omega
    · have hle : j ≤ k := by
        by_contra hlt
        have : config.fragmentSize * k < config.fragmentSize * j :=
          mul_lt_mul_of_pos_left (by omega) h.unit.1
        rw [mul_comm j] at hmin
        omega
      have hlt : k < j + 1 := by
        by_contra hge
        have : (j + 1) * config.fragmentSize ≤ k * config.fragmentSize :=
          mul_le_mul_right _ (by omega)
        rw [hk, mul_comm] at hmax
        omega
      rw [hk, show k = j by omega, mul_comm]
  rw [keepsEnds, decide_eq_true_iff]
  exact countP_le_one hsorted fun a ha b hb hpa hpb ↦ by rw [hat a ha hpa, hat b hb hpb]

omit h in
/-- The payload of a fragment, and what pads it, is a piece of the sample. -/
lemma carriesBytes_fragRdata : CarriesBytes serdata.mem (fragRdata config serdata j) := by
  have hlen : (fragRdata config serdata j).maxp1 - (fragRdata config serdata j).min ≤
      align4u (fragLen config serdata j) := by
    simp only [fragRdata, fragLen, align4u, add_mul, one_mul]
    split_ifs <;> omega
  show ((serdata.mem.drop (j * config.fragmentSize)).take (align4u (fragLen config serdata j))).take
    _ = _
  rw [take_take, min_eq_left hlen]
  rfl

lemma coversSize_iff_allSeen : CoversSize (js.map (fragRdata config serdata)) serdata.size ↔
      allSeen config serdata js := by
  have hpos := h.unit.1
  simp [allSeen]
  constructor
  · intro hall j hj
    obtain ⟨f, hf, hmin, hmax⟩ := hall (j * config.fragmentSize) ((lt_nfrags_iff h).mp hj)
    obtain ⟨k, hk, rfl⟩ := mem_map.mp hf
    simp only [fragRdata, lt_min_iff] at hmin hmax
    have hkj : k ≤ j := Nat.le_of_mul_le_mul_right hmin hpos
    have hjk : j < k + 1 := Nat.lt_of_mul_lt_mul_right hmax.1
    rw [show j = k by omega]
    exact hk
  · intro hall x hx
    have hdiv : x / config.fragmentSize * config.fragmentSize ≤ x := Nat.div_mul_le_self _ _
    have hlt : x < (x / config.fragmentSize + 1) * config.fragmentSize :=
      Nat.lt_mul_of_div_lt (Nat.lt_succ_self _) hpos
    have hj := hall (x / config.fragmentSize) ((lt_nfrags_iff h).mpr (by omega))
    exact ⟨_, mem_map_of_mem hj, hdiv, lt_min hlt hx⟩

lemma wfFrag_fragRdata (hj : j < nfrags config serdata) :
    WfFrag serdata.size (fragRdata config serdata j) :=
  ⟨(fragRdata_lt h hj).2, .inl (fragRdata_lt h hj).1⟩

lemma nnRdataIsFragment_fragRdata {info : RsampleInfo} (hinfo : info.size = serdata.size) :
    nnRdataIsFragment (fragRdata config serdata j) info := by
  have hneeded := h.needed
  have hpos := h.unit.1
  rw [nnRdataIsFragment_eq_true, hinfo]
  rintro ⟨hmin, hend⟩
  simp only [fragRdata, mul_eq_zero] at hmin hend
  obtain rfl : j = 0 := by omega
  omega

end

variable {info : RsampleInfo} {sample : RsampleDefrag}

def reassemble (rsample : RsampleReorder (List Rdata)) : Option (List UInt8) :=
  match rsample.sc with
  | [⟨fragchain, some info⟩] => defragment fragchain info.size
  | _ => none

variable (h : Fragmentable config serdata) (hinfo : info.size = serdata.size)
include h hinfo

lemma fragRecord_new (hj : j < nfrags config serdata) :
    FragRecord config serdata info [j] (defragRsampleNew (fragRdata config serdata j) info) where
  bounded := by simpa using hj
  inv := recordInv_new (fragRdata_lt h hj).1 (fragRdata_lt h hj).2
    (nnRdataIsFragment_fragRdata h hinfo)
  history := recordHistory_new (wfFrag_fragRdata h hj) info
  sampleinfo := rfl
  ends := by
    have hends := endsAligned_fragRdata config serdata j
    rw [defragRsampleNew_ivs]
    split_ifs <;> simpa [EndsAligned] using hends
  seq := rfl

lemma RecordHistory.reassemble_eq (hjs : ∀ j ∈ js, j < nfrags config serdata)
    (hsample : RecordHistory serdata.size (js.map fun j ↦ (fragRdata config serdata j, info))
      sample)
    (hsampleinfo : sample.sampleinfo = info) (hcomplete : isComplete sample) :
    ∃ rsample, rsampleConvertDefragToReorder sample = some rsample ∧
      reassemble rsample = some (serdata.mem.take serdata.size) := by
  obtain ⟨root, hroot, hmin, hend⟩ := isComplete_eq_true.mp hcomplete
  have hmem : root ∈ sample.ivs := Avl.root_mem hroot
  have hchain := hsample.list.chains root hmem
  have hcont := hmin ▸ hchain.contiguous
  have hfrags : ∀ f ∈ root.frags, f.maxp1 ≤ serdata.size ∧ CarriesBytes serdata.mem f := by
    intro f hf
    have hf := hsample.list.sound root hmem f hf
    rw [List.map_map, List.mem_map] at hf
    obtain ⟨j, hj, rfl⟩ := hf
    exact ⟨(fragRdata_lt h (hjs j hj)).2, carriesBytes_fragRdata⟩
  have hchainEnd : chainEnd root.frags = serdata.size := by
    refine le_antisymm (chainEnd_le_iff.mpr fun f hf ↦ (hfrags f hf).1) (le_trans ?_ hchain.reach)
    rw [← hinfo, ← hsampleinfo]
    exact hend
  have hpart : ∀ z ∈ js.map (fun j ↦ (fragRdata config serdata j, info)), IsPart z := by
    intro z hz
    obtain ⟨j, hj, rfl⟩ := mem_map.mp hz
    exact ⟨hinfo ▸ (fragRdata_lt h (hjs j hj)).2, nnRdataIsFragment_fragRdata h hinfo⟩
  refine ⟨_, by rw [rsampleConvertDefragToReorder, hroot, map_some], ?_⟩
  have hloop := defragmentLoop_eq_take hcont (fun f hf ↦ (hfrags f hf).1) fun f hf ↦ (hfrags f hf).2
  rw [take_zero, zero_max, hchainEnd] at hloop
  show defragment root.frags sample.sampleinfo.size = _
  rw [defragment_eq_loop fun g ↦ hsample.root_frags_ne_singleton hmem hmin hend hpart,
    hsampleinfo, hinfo]
  exact hloop

/-- A fragment is added to a record: the sample is complete exactly if no fragment is missing any
more. -/
lemma FragRecord.step (hsample : FragRecord config serdata info js sample)
    (hj : j < nfrags config serdata) :
    ∃ sample', defragAddFragment sample (fragRdata config serdata j) info =
        some (sample', allSeen config serdata (js ++ [j])) ∧ sample'.seq = info.seq ∧
      if allSeen config serdata (js ++ [j]) then
        ∃ rsample, rsampleConvertDefragToReorder sample' = some rsample ∧
          reassemble rsample = some (serdata.mem.take serdata.size)
      else FragRecord config serdata info (js ++ [j]) sample' := by
  obtain ⟨hlt, hle⟩ := fragRdata_lt h hj
  have hwf := wfFrag_fragRdata h hj
  have hjs' : ∀ k ∈ js ++ [j], k < nfrags config serdata :=
    forall_mem_append.mpr ⟨hsample.bounded, by simpa using hj⟩
  rcases defragAddFragment_step hsample.inv.tree hwf with
    ⟨-, hwild⟩ | ⟨sample', grown, hadd, hstep⟩
  · omega
  have hkeeps := keepsEnds_fragRdata (j := j) h hsample.ends hsample.inv.tree.list.separated
    hsample.inv.nonempty.proper
  rw [keepsEnds, decide_eq_true_iff] at hkeeps
  obtain ⟨-, hrecorded⟩ := (hstep.step.recorded_or_lost hsample.inv.tree.list
    hsample.inv.nonempty.proper).resolve_right fun htwo ↦ by omega
  obtain ⟨htree, hnonempty, hcovers, hdone⟩ := hsample.inv.step hwf hlt hstep hrecorded
  have hsampleinfo : sample'.sampleinfo = info := by rw [hstep.info, hsample.sampleinfo, ite_self]
  have hhistory := hsample.history.step (fun z hz ↦ ?_) hwf hstep
  swap
  · obtain ⟨k, hk, rfl⟩ := mem_map.mp hz
    exact wfFrag_fragRdata h (hsample.bounded k hk)
  have hmap : js.map (fragRdata config serdata) ++ [fragRdata config serdata j] =
      (js ++ [j]).map (fragRdata config serdata) := by simp
  have hmap' : js.map (fun j ↦ (fragRdata config serdata j, info)) ++
      [(fragRdata config serdata j, info)] =
      (js ++ [j]).map fun j ↦ (fragRdata config serdata j, info) := by simp
  rw [hmap] at hcovers hdone
  rw [hmap'] at hhistory
  rw [hsampleinfo, hinfo] at hdone
  have hwithin : WithinSize ((js ++ [j]).map (fragRdata config serdata)) serdata.size := by
    intro f hf
    obtain ⟨k, hk, rfl⟩ := mem_map.mp hf
    exact (fragRdata_lt h (hjs' k hk)).2
  have hcomplete : (grown.isSome && isComplete sample') = allSeen config serdata (js ++ [j]) := by
    rw [Bool.eq_iff_iff, hdone hwithin, coversSize_iff_allSeen h]
  refine ⟨sample', by rw [hadd, hcomplete], hstep.seq.trans hsample.seq, ?_⟩
  split_ifs with hall
  · rw [hall] at hcomplete
    exact RecordHistory.reassemble_eq h hinfo hjs' hhistory hsampleinfo
      (Bool.and_eq_true_iff.mp hcomplete).2
  · refine ⟨hjs', ⟨htree, hnonempty, hcovers, fun _ hcov ↦ hall ?_⟩, hhistory, hsampleinfo,
      hstep.step.endsAligned hsample.ends (endsAligned_fragRdata config serdata j),
      hstep.seq.trans hsample.seq⟩
    rw [hsampleinfo, hinfo] at hcov
    exact (coversSize_iff_allSeen h).mp hcov

end Record

/-! ### The defragmenter around a sample -/

/-- A defragmenter with the record `mine` for the sequence number `q`, if any, between records with
smaller and with larger numbers. There is room for a record of `q`, and when it is there it is not
the one to go: none is dropped, or the newest, or there is an older one, or it is the newest itself,
for which the code does not look at the limit. -/
structure DefragAt (q : ℤ) (pre post : List RsampleDefrag) (mine : Option RsampleDefrag)
    (defrag : Defrag) : Prop where
  tree : defrag.sampletree = pre ++ (mine.toList ++ post)
  ordered : KeyedList.Ordered RsampleDefrag.seq (pre ++ post)
  before : ∀ a ∈ pre, a.seq < q
  after : ∀ b ∈ post, q < b.seq
  seq : ∀ s ∈ mine, s.seq = q
  count : defrag.nSamples = defrag.sampletree.length
  max : defrag.maxSample = KeyedList.lastKey RsampleDefrag.seq defrag.sampletree
  room : pre.length + post.length < defrag.maxSamples
  stays : defrag.dropMode = .dropLatest ∨ pre.length + post.length + 1 < defrag.maxSamples ∨
    pre ≠ [] ∨ post = []

section DefragAt

variable {q : ℤ} {pre post : List RsampleDefrag} {sample : RsampleDefrag} {defrag : Defrag}
  {f : Rdata} {info : RsampleInfo}

namespace DefragAt

lemma ordered_some (h : DefragAt q pre post (some sample) defrag) :
    KeyedList.Ordered RsampleDefrag.seq (pre ++ sample :: post) := by
  have hseq := h.seq sample rfl
  obtain ⟨hpre, hpost, hcross⟩ := pairwise_append.mp h.ordered
  exact ordered_append_cons.mpr ⟨hpre, hpost, hseq ▸ h.before, hseq ▸ h.after, hcross⟩

lemma lookup_none (h : DefragAt q pre post none defrag) :
    lookup RsampleDefrag.seq q defrag.sampletree = none := by
  rw [lookup_eq_none, h.tree]
  intro a ha
  rcases mem_append.mp ha with ha | ha
  · exact (h.before a ha).ne
  · exact (h.after a (by simpa using ha)).ne'

lemma lookup_some (h : DefragAt q pre post (some sample) defrag) :
    lookup RsampleDefrag.seq q defrag.sampletree = some sample := by
  rw [h.tree, ← h.seq sample rfl]
  exact lookup_split h.ordered_some

/-- The largest number is above `q` if there are records behind it. -/
lemma maxSample_post {mine : Option RsampleDefrag} (h : DefragAt q pre post mine defrag)
    {init : List RsampleDefrag} {last : RsampleDefrag} (hpost : post = init ++ [last]) :
    defrag.maxSample = some last.seq ∧ q < last.seq := by
  refine ⟨?_, h.after last (by simp [hpost])⟩
  rw [h.max, h.tree, hpost, ← append_assoc, ← append_assoc, lastKey_concat]

lemma add_new (h : DefragAt q pre post none defrag) (hq : 0 < q) (hseq : info.seq = q)
    (hfrag : nnRdataIsFragment f info) :
    ∃ defrag', nnDefragRsample defrag f info = some (defrag', none) ∧
      DefragAt q pre post (some (defragRsampleNew f info)) defrag' := by
  have htree : defrag.sampletree = pre ++ post := h.tree
  have hroom : defrag.nSamples < defrag.maxSamples := by
    have := h.room
    rw [h.count, htree, length_append]
    exact this
  have hnew : ∀ {max : Option ℤ}, max = (lastKey RsampleDefrag.seq post).or (some q) →
      DefragAt q pre post (some (defragRsampleNew f info)) (defragAddNew defrag max f info) := by
    intro max hmax
    have hnewseq : (defragRsampleNew f info).seq = q := hseq
    have hinsert : insert RsampleDefrag.seq (defragRsampleNew f info) defrag.sampletree =
        pre ++ defragRsampleNew f info :: post := by
      rw [htree]
      exact insert_split (hnewseq ▸ h.before) (hnewseq ▸ h.after)
    refine ⟨hinsert, h.ordered, h.before, h.after, by simpa using hnewseq, ?_, ?_, h.room, h.stays⟩
    · show defrag.nSamples + 1 = (insert _ _ _).length
      rw [hinsert, h.count, htree, length_append, length_append, length_cons]
      omega
    · show max = lastKey _ (insert _ _ _)
      rw [hinsert, lastKey_split, hnewseq, hmax]
  simp only [nnDefragRsample, hfrag, Bool.not_true, Bool.false_eq_true, if_false]
  have hlimit : ∀ maxSeq, defragLimitSamples defrag info.seq maxSeq = some (defrag, maxSeq, true) :=
    fun maxSeq ↦ if_pos hroom
  rcases eq_nil_or_concat' post with hpost | ⟨init, last, hpost⟩
  · have hmax : defrag.maxSample.getD 0 < q := by
      rw [h.max, htree, hpost, append_nil]
      rcases eq_nil_or_concat' pre with hpre | ⟨init, last, hpre⟩
      · rw [hpre]
        exact hq
      · rw [hpre, lastKey_concat]
        exact h.before last (by simp [hpre])
    rw [if_neg (by omega), hlimit]
    simp only [hseq, if_pos hmax]
    exact ⟨_, rfl, hnew (by rw [hpost]; rfl)⟩
  · obtain ⟨hmax, hlt⟩ := h.maxSample_post hpost
    rw [hmax, getD_some, if_neg (by omega), hlimit]
    simp only [hseq, if_neg (not_lt.mpr hlt.le), h.lookup_none]
    exact ⟨_, rfl, hnew (by rw [hmax, hpost, lastKey_concat]; rfl)⟩

end DefragAt

lemma defragLimitSamples_drop {k maxSeq maxSeq' : ℤ} {defrag' : Defrag}
    (hfull : ¬ defrag.nSamples < defrag.maxSamples) (hdrop : sampleToDrop defrag q = some (some k))
    (hroom : defragDropForRoom defrag k maxSeq = (defrag', maxSeq')) :
    defragLimitSamples defrag q maxSeq = some (defrag', maxSeq', true) := by
  simp only [defragLimitSamples, if_neg hfull, hdrop, hroom]

section

variable (h : DefragAt q pre post (some sample) defrag)

variable {sample' : RsampleDefrag}

include h

namespace DefragAt

lemma ordered_tree : KeyedList.Ordered RsampleDefrag.seq defrag.sampletree :=
  h.tree ▸ h.ordered_some

/-- A full defragmenter that drops the newest record, which is not that of `q`. -/
lemma limit_dropLatest (hmode : defrag.dropMode = .dropLatest)
    (hfull : ¬ defrag.nSamples < defrag.maxSamples)
    {init : List RsampleDefrag} {last : RsampleDefrag} (hpost : post = init ++ [last]) :
    ∃ defrag' maxSeq, defragLimitSamples defrag q last.seq = some (defrag', maxSeq, true) ∧
      ¬ maxSeq < q ∧ DefragAt q pre init (some sample) defrag' := by
  obtain ⟨hmax, hlt⟩ := h.maxSample_post hpost
  have hord := h.ordered_tree
  have htree : defrag.sampletree = (pre ++ sample :: init) ++ [last] := by
    rw [h.tree, hpost]
    simp
  have hdrop : sampleToDrop defrag q = some (some last.seq) := by
    simp [sampleToDrop, hmode, hmax, not_lt.mpr hlt.le]
  obtain ⟨defrag', hroom, htree', hcount, hmax', hmode', hlimit⟩ :=
    defragDropForRoom_spec hord h.count h.max (s := last) (by simp [htree])
  rw [htree] at hord
  rw [htree, delete_split hord, append_nil] at htree'
  rw [hmax, getD_some] at hroom
  have hinit : ∀ b ∈ init, q < b.seq := fun b hb ↦ h.after b (by simp [hpost, hb])
  refine ⟨_, _, defragLimitSamples_drop hfull hdrop hroom, ?_, htree', ?_, h.before, hinit, h.seq,
    hcount, hmax', ?_, .inl (hmode'.trans hmode)⟩
  · rw [hmax', htree', lastKey_split, h.seq sample rfl]
    rcases eq_nil_or_concat' init with rfl | ⟨init', last', rfl⟩
    · simp [lastKey]
    · rw [lastKey_concat]
      exact not_lt.mpr (hinit last' (by simp)).le
  · exact h.ordered.sublist (by simp [hpost])
  · have hroom := h.room
    rw [hpost, length_append] at hroom
    omega

/-- A full defragmenter that drops the oldest record, which is not that of `q`. -/
lemma limit_dropOldest (hmode : defrag.dropMode = .dropOldest)
    (hfull : ¬ defrag.nSamples < defrag.maxSamples)
    {first : RsampleDefrag} {rest : List RsampleDefrag} (hpre : pre = first :: rest) :
    ∃ defrag', defragLimitSamples defrag q (defrag.maxSample.getD 0) =
        some (defrag', defrag.maxSample.getD 0, true) ∧
      DefragAt q rest post (some sample) defrag' := by
  have hord := h.ordered_tree
  have htree : defrag.sampletree = [] ++ first :: (rest ++ sample :: post) := by
    rw [h.tree, hpre]
    rfl
  have hfirst : first.seq < q := h.before first (by simp [hpre])
  have hdrop : sampleToDrop defrag q = some (some first.seq) := by
    simp [sampleToDrop, hmode, htree, not_lt.mpr hfirst.le]
  obtain ⟨defrag', hroom, htree', hcount, hmax, -, hlimit⟩ :=
    defragDropForRoom_spec hord h.count h.max (s := first) (by simp [htree])
  rw [htree] at hord
  rw [htree, delete_split hord, nil_append] at htree'
  have hsame : defrag'.maxSample = defrag.maxSample := by
    rw [hmax, htree', h.max, htree]
    simp [lastKey, getLast?_cons]
  rw [hsame] at hroom
  have hbound := h.room
  rw [hpre, length_cons] at hbound
  refine ⟨_, defragLimitSamples_drop hfull hdrop hroom, htree', ?_, ?_, h.after, h.seq, hcount,
    hmax, by omega, .inr (.inl (by omega))⟩
  · have hordered := h.ordered
    rw [hpre] at hordered
    exact hordered.tail
  · exact fun a ha ↦ h.before a (by simp [hpre, ha])

/-- A fragment of a sample with a record is added to it, if need be after another record was
dropped. -/
lemma add_to (hseq : info.seq = q) (hfrag : nnRdataIsFragment f info) :
    ∃ pre' post' defrag', DefragAt q pre' post' (some sample) defrag' ∧
      nnDefragRsample defrag f info = defragAddTo defrag' sample f info := by
  have hsampleseq := h.seq sample rfl
  have htree : defrag.sampletree = pre ++ sample :: post := h.tree
  have hcount : defrag.nSamples = pre.length + post.length + 1 := by
    rw [h.count, htree, length_append, length_cons]
    omega
  simp only [nnDefragRsample, hfrag, Bool.not_true, Bool.false_eq_true, if_false, hseq]
  rcases eq_nil_or_concat' post with hpost | ⟨init, last, hpost⟩
  · -- the newest sample
    have hmax : defrag.maxSample = some q := by rw [h.max, htree, hpost, lastKey_concat, hsampleseq]
    refine ⟨pre, post, defrag, h, ?_⟩
    rw [hmax, getD_some, if_pos rfl, bind_some, h.lookup_some, bind_some]
  obtain ⟨hmax, hlt⟩ := h.maxSample_post hpost
  rw [hmax, getD_some, if_neg (by omega)]
  by_cases hroom : defrag.nSamples < defrag.maxSamples
  · have hlimit : defragLimitSamples defrag q last.seq = some (defrag, last.seq, true) :=
      if_pos hroom
    refine ⟨pre, post, defrag, h, ?_⟩
    simp [hlimit, if_neg (not_lt.mpr hlt.le), h.lookup_some]
  cases hmode : defrag.dropMode with
  | dropLatest =>
    obtain ⟨defrag', maxSeq, hlimit, hge, h'⟩ := h.limit_dropLatest hmode hroom hpost
    refine ⟨pre, init, defrag', h', ?_⟩
    simp [hlimit, if_neg hge, h'.lookup_some]
  | dropOldest =>
    have hne : pre ≠ [] := by
      rcases h.stays with hlatest | hspace | hne | hnil
      · simp [hmode] at hlatest
      · omega
      · exact hne
      · simp [hnil] at hpost
    obtain ⟨first, rest, hpre⟩ := exists_cons_of_ne_nil hne
    obtain ⟨defrag', hlimit, h'⟩ := h.limit_dropOldest hmode hroom hpre
    rw [hmax, getD_some] at hlimit
    refine ⟨rest, post, defrag', h', ?_⟩
    simp [hlimit, if_neg (not_lt.mpr hlt.le), h'.lookup_some]

lemma finish_false (hseq : sample'.seq = q) :
    ∃ defrag', defragFinish defrag sample' false = some (defrag', none) ∧
      DefragAt q pre post (some sample') defrag' := by
  have hord := h.ordered_some
  have hsampleseq := h.seq sample rfl
  have hupdate : update RsampleDefrag.seq sample'.seq sample' defrag.sampletree =
      pre ++ sample' :: post := by
    rw [h.tree, hseq, ← hsampleseq]
    exact update_split hord
  refine ⟨_, rfl, hupdate, h.ordered, h.before, h.after, by simpa using hseq, ?_, ?_, h.room,
    h.stays⟩
  · show defrag.nSamples = (update _ _ _ _).length
    rw [hupdate, h.count, h.tree]
    simp
  · exact h.max.trans (lastKey_update rfl _).symm

lemma finish_true (hseq : sample'.seq = q) {rsample : RsampleReorder (List Rdata)}
    (hrsample : rsampleConvertDefragToReorder sample' = some rsample) :
    ∃ defrag', defragFinish defrag sample' true = some (defrag', some rsample) ∧
      DefragAt q pre post none defrag' := by
  have hord := h.ordered_some
  have hsampleseq := h.seq sample rfl
  have htree : defrag.sampletree = pre ++ sample :: post := h.tree
  have hdelete : delete RsampleDefrag.seq sample'.seq defrag.sampletree = pre ++ post := by
    rw [htree, hseq, ← hsampleseq]
    exact delete_split hord
  have hmax : (if defrag.maxSample = some sample'.seq then
      lastKey RsampleDefrag.seq (pre ++ post) else defrag.maxSample) =
      lastKey RsampleDefrag.seq (pre ++ post) := by
    split_ifs with hlast
    · rfl
    · rw [hseq, ← hsampleseq] at hdelete hlast
      rw [← hdelete, lastKey_delete h.ordered_tree (by simp [htree]) (h.max ▸ hlast), h.max]
  refine ⟨{ defrag with
    sampletree := pre ++ post
    nSamples := defrag.nSamples - 1
    maxSample := lastKey RsampleDefrag.seq (pre ++ post) }, ?_, rfl, h.ordered, h.before,
    h.after, by simp, ?_, rfl, h.room, h.stays⟩
  · simp [defragFinish, hrsample, hdelete, hmax]
  · show defrag.nSamples - 1 = (pre ++ post).length
    rw [h.count, htree]
    simp only [length_append, length_cons]
    omega

end DefragAt

end

end DefragAt

/-! ### A run -/

def defragRun (defrag : Defrag) :
    List (Rdata × RsampleInfo) → Option (List (Option (RsampleReorder (List Rdata))))
  | [] => some []
  | z :: rest =>
    (nnDefragRsample defrag z.1 z.2).bind fun out ↦ (defragRun out.1 rest).map (out.2 :: ·)

/-- Which fragments of a sequence complete the sample: those with which all fragments have arrived
since it was last completed. `js` are the ones that have. -/
def completions (config : FragConfig) (serdata : Serdata) (js : List ℕ) : List ℕ → List Bool
  | [] => []
  | j :: rest =>
    if allSeen config serdata (js ++ [j]) then true :: completions config serdata [] rest
    else false :: completions config serdata (js ++ [j]) rest

section Run

variable {config : FragConfig} {serdata : Serdata} {info : RsampleInfo} {q : ℤ}

def MineIs (config : FragConfig) (serdata : Serdata) (info : RsampleInfo) (js : List ℕ) :
    Option RsampleDefrag → Prop
  | none => js = []
  | some sample => FragRecord config serdata info js sample

section

variable (h : Fragmentable config serdata)
include h

lemma allSeen_singleton (j : ℕ) : allSeen config serdata [j] = false := by
  have hneeded := h.needed
  have hzero : 0 < nfrags config serdata := (lt_nfrags_iff h).mpr (by omega)
  have hone : 1 < nfrags config serdata := (lt_nfrags_iff h).mpr (by omega)
  by_contra hall
  simp only [Bool.not_eq_false, allSeen, List.all_eq_true, mem_range, mem_singleton,
    decide_eq_true_eq] at hall
  have := hall 0 hzero
  have := hall 1 hone
  omega

lemma DefragAt.run (hinfo : info.size = serdata.size)
    (hpos : 0 < info.seq) {rest : List ℕ} (hrest : ∀ j ∈ rest, j < nfrags config serdata) :
    ∀ {js : List ℕ} {mine : Option RsampleDefrag} {pre post : List RsampleDefrag}
      {defrag : Defrag}, DefragAt info.seq pre post mine defrag →
      MineIs config serdata info js mine →
      ∃ outs, defragRun defrag (rest.map fun j ↦ (fragRdata config serdata j, info)) = some outs ∧
        outs.map (·.map reassemble) = (completions config serdata js rest).map fun done ↦
          if done then some (some (serdata.mem.take serdata.size)) else none := by
  induction rest with
  | nil => exact fun _ _ ↦ ⟨[], rfl, rfl⟩
  | cons j _ ih =>
    intro js mine pre post defrag hat hmine
    obtain ⟨hj, hrest⟩ := forall_mem_cons.mp hrest
    have hfrag := nnRdataIsFragment_fragRdata (j := j) h hinfo
    cases mine with
    | none =>
      obtain rfl : js = [] := hmine
      obtain ⟨defrag', hstep, hat'⟩ := hat.add_new hpos rfl hfrag
      obtain ⟨outs, hrun, houts⟩ := ih hrest hat' (fragRecord_new h hinfo hj)
      refine ⟨none :: outs, by simp [defragRun, hstep, hrun], ?_⟩
      rw [completions, nil_append, allSeen_singleton h]
      simpa using houts
    | some =>
      obtain ⟨pre', post', defrag1, hat1, hstep⟩ := hat.add_to rfl hfrag
      obtain ⟨sample', hadd, hseq, hresult⟩ := FragRecord.step h hinfo hmine hj
      rw [defragAddTo, hadd, bind_some] at hstep
      rw [completions]
      cases hall : allSeen config serdata (js ++ [j]) with
      | true =>
        rw [hall, if_pos rfl] at hresult
        obtain ⟨rsample, hrsample, hbytes⟩ := hresult
        obtain ⟨defrag', hfinish, hat'⟩ := hat1.finish_true hseq hrsample
        obtain ⟨outs, hrun, houts⟩ := ih hrest hat' rfl
        refine ⟨some rsample :: outs, ?_, by simp [houts, hbytes]⟩
        simp [defragRun, hstep, hall, hfinish, hrun]
      | false =>
        rw [hall, if_neg (by simp)] at hresult
        obtain ⟨defrag', hfinish, hat'⟩ := hat1.finish_false hseq
        obtain ⟨outs, hrun, houts⟩ := ih hrest hat' hresult
        refine ⟨none :: outs, ?_, by simp [houts]⟩
        simp [defragRun, hstep, hall, hfinish, hrun]

/-- The submessages of the fragments `js`, as the receiver gets them. -/
lemma filterMap_receive_create (src : FragSource) (hq : 0 < q)
    {js : List ℕ} (hjs : ∀ j ∈ js, j < nfrags config serdata) :
    (js.filterMap (createFragmentMessage config src q serdata)).filterMap (receiveDataFrag config) =
      js.map fun j ↦ (fragRdata config serdata j, ⟨q, serdata.size, config.fragmentSize⟩) := by
  rw [filterMap_filterMap, ← filterMap_eq_map]
  exact filterMap_congr fun j hj ↦ receive_createFragmentMessage h src hq (hjs j hj)

end

end Run

/-- The records of a defragmenter are in order, and it knows their number and the last one. -/
structure DefragOk (defrag : Defrag) : Prop where
  ordered : KeyedList.Ordered RsampleDefrag.seq defrag.sampletree
  count : defrag.nSamples = defrag.sampletree.length
  max : defrag.maxSample = KeyedList.lastKey RsampleDefrag.seq defrag.sampletree

/-- There is room for a sample with the number `q`, and its record is not the one to be dropped when
the defragmenter is full with it. -/
def hasRoomFor (defrag : Defrag) (q : ℤ) : Prop :=
  defrag.sampletree.length < defrag.maxSamples ∧
    (defrag.dropMode = .dropLatest ∨ defrag.sampletree.length + 1 < defrag.maxSamples ∨
      (∃ a ∈ defrag.sampletree, a.seq < q) ∨ ∀ a ∈ defrag.sampletree, a.seq < q)

lemma DefragOk.defragAt {defrag : Defrag} {q : ℤ} (h : DefragOk defrag)
    (habsent : lookup RsampleDefrag.seq q defrag.sampletree = none)
    (hroom : hasRoomFor defrag q) : ∃ pre post, DefragAt q pre post none defrag := by
  obtain ⟨pre, post, htree, hpre, hpost⟩ := h.ordered.exists_split q
  have hlen : defrag.sampletree.length = pre.length + post.length := by rw [htree, length_append]
  have hbefore : ∀ a ∈ pre, a.seq < q := fun a ha ↦
    lt_of_le_of_ne (hpre a ha) (lookup_eq_none.mp habsent a (by simp [htree, ha]))
  obtain ⟨hspace, hstays⟩ := hroom
  rw [hlen] at hspace hstays
  refine ⟨pre, post, htree, htree ▸ h.ordered, hbefore, hpost, by simp, h.count, h.max, hspace, ?_⟩
  refine hstays.imp_right (Or.imp_right ?_)
  rintro (⟨a, ha, haq⟩ | hall)
  · left
    rintro rfl
    have := hpost a (by simpa [htree] using ha)
    omega
  · right
    refine eq_nil_iff_forall_not_mem.mpr fun b hb ↦ ?_
    have := hall b (by simp [htree, hb])
    have := hpost b hb
    omega

/-- The fragments of a sample are sent, and arrive in any order and any number of times at a
defragmenter that has no record of the sample and has room for one. Whenever all of them have
arrived since the sample was last handed over, it is handed over with the fragment that was missing,
and only then, and `defragment` gives its bytes. -/
theorem transfer_returns_sample (config : FragConfig) (src : FragSource) (seq : ℤ)
    (serdata : Serdata) (defrag : Defrag) (js : List ℕ) (h : Fragmentable config serdata)
    (hseq : 0 < seq) (hjs : ∀ j ∈ js, j < nfrags config serdata) (hdefrag : DefragOk defrag)
    (habsent : KeyedList.lookup RsampleDefrag.seq seq defrag.sampletree = none)
    (hroom : hasRoomFor defrag seq) :
    ∃ outs, defragRun defrag
        ((js.filterMap (createFragmentMessage config src seq serdata)).filterMap
          (receiveDataFrag config)) = some outs ∧
      outs.map (·.map reassemble) = (completions config serdata [] js).map fun done ↦
        if done then some (some (serdata.mem.take serdata.size)) else none := by
  obtain ⟨pre, post, hat⟩ := hdefrag.defragAt habsent hroom
  rw [filterMap_receive_create h src hseq hjs]
  exact DefragAt.run h rfl hseq hjs hat rfl

def tenBytes : Serdata where
  mem := [0, 1, 2, 3, 4, 5, 6, 7, 8, 9, 0, 0, 0]
  size := 10
  isKey := false
  pars := [⟨pidStatusinfo, [0, 0, 0, 1]⟩]

lemma fragmentable_tenBytes : Fragmentable ⟨false, false, 4, 100⟩ tenBytes where
  unit := by decide
  needed := by decide
  size := by decide
  offsets := by decide
  mem := by decide
  header := by decide
  pars := by
    simp only [tenBytes, forall_mem_singleton]
    exact ⟨by decide, by decide, by decide⟩
  fits := by decide

/-- The fragments arrive as 2, 0, 2, 1. -/
theorem transfer_returns_sample_tenBytes :
    ∃ outs, defragRun (nnDefragNew .dropLatest 1)
        (([2, 0, 2, 1].filterMap (createFragmentMessage ⟨false, false, 4, 100⟩ ⟨true, 0, 0x103⟩ 1
          tenBytes)).filterMap (receiveDataFrag ⟨false, false, 4, 100⟩)) = some outs ∧
      outs.map (·.map reassemble) =
        [none, none, none, some (some [0, 1, 2, 3, 4, 5, 6, 7, 8, 9])] :=
  transfer_returns_sample ⟨false, false, 4, 100⟩ ⟨true, 0, 0x103⟩ 1 tenBytes
    (nnDefragNew .dropLatest 1) [2, 0, 2, 1] fragmentable_tenBytes (by decide) (by decide)
    ⟨.nil, rfl, rfl⟩ rfl ⟨by decide, .inl rfl⟩

/-- Every fragment arrives twice, the second time after the sample was handed over: the defragmenter
does not remember the sample, and hands it over again. -/
theorem transfer_returns_sample_again :
    (defragRun (nnDefragNew .dropLatest 1)
      (([0, 1, 2, 0, 1, 2].filterMap
        (createFragmentMessage ⟨false, false, 4, 100⟩ ⟨true, 0, 0x103⟩ 1 tenBytes)).filterMap
          (receiveDataFrag ⟨false, false, 4, 100⟩))).map (·.map (·.map reassemble)) =
      some [none, none, some (some [0, 1, 2, 3, 4, 5, 6, 7, 8, 9]),
        none, none, some (some [0, 1, 2, 3, 4, 5, 6, 7, 8, 9])] := by
  decide

end OpenSplice.Ddsi
