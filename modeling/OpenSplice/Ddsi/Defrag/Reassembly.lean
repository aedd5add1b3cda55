import OpenSplice.Ddsi.Defrag.Chain

/-!
# Reassembling a sample

The DataFrag submessages of one sequence number, from the network to `defragment`. What
`valid_DataFrag` lets through is a proper fragment of its own sample, or one whose start has wrapped
around the offsets of all samples (`receiveDataFrag_wf`). The defragmenter collects them in a
record, or hands over a submessage that holds a whole sample.

The assertions of `defragment` are about the sample size that the record holds, which is that of the
first fragment to start the sample (`sizeRespected`).
-/

set_option autoImplicit false

namespace OpenSplice.Ddsi

open Library Utilities KeyedList Option Prod List RsampleDefrag

variable {msg : DataFrag} {payload : List UInt8} {info : RsampleInfo}

variable {size B : ℕ} {config : FragConfig}

/-! ### Accepted fragments -/

lemma length_nnPlistQuickscanLoop_le {le : Bool} {fuel : ℕ} {buf pl : List UInt8}
    (h : nnPlistQuickscanLoop le fuel buf = some pl) : pl.length ≤ buf.length := by
  induction fuel generalizing buf with
  | zero => simp [nnPlistQuickscanLoop] at h
  | succ _ ih =>
    match buf with
    | [] | [_] | [_, _] | [_, _, _] => simp [nnPlistQuickscanLoop] at h
    | a :: b :: c :: d :: rest =>
      rw [nnPlistQuickscanLoop] at h
      split_ifs at h
      · rw [← some.inj h]
        simp
        omega
      · have := ih h
        simp only [length_drop, length_cons] at this ⊢
        omega

/-- What `valid_DataFrag` guarantees. -/
structure Accepted (msg : DataFrag) (size : ℕ) (info : RsampleInfo) (payload : List UInt8) :
    Prop where
  info : info = ⟨msg.writerSN, msg.sampleSize.toNat, msg.fragmentSize.toNat⟩
  seq : msg.writerSN ≠ 0
  start : 0 < msg.fragmentStartingNum.toNat
  count : 0 < msg.fragmentsInSubmessage.toNat
  unit : 0 < msg.fragmentSize.toNat
  within : (msg.fragmentStartingNum.toNat + msg.fragmentsInSubmessage.toNat - 2) *
    msg.fragmentSize.toNat % 2 ^ 32 < msg.sampleSize.toNat
  short : (msg.fragmentsInSubmessage.toNat - 1) * msg.fragmentSize.toNat < payload.length
  size : payload.length ≤ size

lemma lt_of_validPayloadSize {payloadsz : ℕ} (hn : 0 < msg.fragmentsInSubmessage.toNat)
    (hfs : 0 < msg.fragmentSize.toNat) (h : validPayloadSize msg payloadsz) :
    (msg.fragmentsInSubmessage.toNat - 1) * msg.fragmentSize.toNat < payloadsz := by
  simp only [validPayloadSize] at h
  split_ifs at h with hall hshort
  · refine lt_of_lt_of_le ?_ hall
    exact Nat.mul_lt_mul_of_pos_right (by omega) hfs
  · exact Nat.lt_of_not_le hshort

lemma length_dataFragPayload_le (h : dataFragPayload msg size = some payload) :
    payload.length ≤ size := by
  have hoctets : ∀ off, (msg.octets off size).length ≤ size := fun off ↦ by
    simp only [DataFrag.octets, length_drop, length_take]
    omega
  simp only [dataFragPayload] at h
  split_ifs at h
  · exact (length_nnPlistQuickscanLoop_le h).trans (hoctets _)
  · rw [← some.inj h]
    exact hoctets _

lemma accepted_of_validDataFrag (h : validDataFrag config msg size = some (info, payload)) :
    Accepted msg size info payload := by
  simp only [validDataFrag] at h
  split_ifs at h with hfields
  simp only [rejectsFields, not_or, not_lt, not_le] at hfields
  obtain ⟨-, -, -, ⟨hfs, hstart, hn⟩, -, hwithin, hseq, -, -⟩ := hfields
  split at h
  · simp at h
  rename_i payload' hpayload
  split_ifs at h with hsize
  obtain ⟨rfl, rfl⟩ := mk.inj (some.inj h)
  refine ⟨rfl, fun hzero ↦ hseq ⟨hzero.le, ?_⟩, by omega, by omega, by omega, hwithin,
    lt_of_validPayloadSize (by omega) (by omega) (by simpa using hsize),
    length_dataFragPayload_le hpayload⟩
  rw [hzero]
  decide

/-- The largest offset of a sample: `config.max_sample_size` is a 31-bit number. -/
def maxOffset : ℕ := 2 ^ 31 - 1

/-- The offsets of an accepted fragment. The offset of its last part does not wrap around, so if the
offset of its first part does, it is less than a message below `2 ^ 32`. -/
lemma Accepted.wfFrag (h : Accepted msg size info payload) (hsize : size ≤ 36 + 2 ^ 30)
    (hmax : msg.sampleSize.toNat ≤ maxOffset) : WfFrag maxOffset (dataFragRdata msg payload) := by
  obtain ⟨-, -, hstart, hn, hfs, hwithin, hshort, hle⟩ := h
  have hlast : (msg.fragmentStartingNum.toNat + msg.fragmentsInSubmessage.toNat - 2) *
      msg.fragmentSize.toNat = (msg.fragmentStartingNum.toNat - 1) * msg.fragmentSize.toNat +
        (msg.fragmentsInSubmessage.toNat - 1) * msg.fragmentSize.toNat := by
    rw [← Nat.add_mul]
    congr 1
    omega
  have hall : msg.fragmentSize.toNat * msg.fragmentsInSubmessage.toNat =
      (msg.fragmentsInSubmessage.toNat - 1) * msg.fragmentSize.toNat + msg.fragmentSize.toNat := by
    rw [← Nat.succ_mul, mul_comm]
    congr 1
    omega
  simp only [WfFrag, dataFragRdata, hall, maxOffset] at hmax ⊢
  split_ifs <;> omega

/-- A fragment that gets to the defragmenter is one of its own sample, if its start has not wrapped
around. -/
lemma receiveDataFrag_wf {f : Rdata} (hconfig : config.maxSampleSize ≤ maxOffset)
    (hlen : msg.rest.length ≤ 2 ^ 30) (h : receiveDataFrag config msg = some (f, info)) :
    WfFrag maxOffset f ∧ f.maxp1 ≤ info.size ∧ info.seq = msg.writerSN ∧ info.seq ≠ 0 := by
  obtain ⟨size, hsize, h⟩ := bind_eq_some_iff.mp h
  obtain ⟨⟨info', payload⟩, hvalid, h⟩ := bind_eq_some_iff.mp h
  dsimp only at h
  split_ifs at h with hmax
  obtain ⟨rfl, rfl⟩ := mk.inj (some.inj h)
  have haccepted := accepted_of_validDataFrag hvalid
  obtain rfl := haccepted.info
  have hsizele : size ≤ 36 + 2 ^ 30 := by
    simp only [submsgSize, sizeofDataFrag] at hsize
    split_ifs at hsize <;> grind
  refine ⟨haccepted.wfFrag hsizele (by dsimp only at hmax; omega), ?_, rfl, haccepted.seq⟩
  simp only [dataFragRdata]
  split_ifs <;> omega

/-! ### The defragmenter with one sequence number -/

/-- A defragmenter that has seen nothing but the sequence number `q`: it has no record, or the one
that was given `hist`. An unknown sequence number is never the largest one; if there is room for one
record only, the record is then made anew for every fragment. -/
def Holding (B : ℕ) (q : ℤ) (hist : List (Rdata × RsampleInfo)) (defrag : Defrag) : Prop :=
  (defrag.sampletree = [] ∧ defrag.nSamples = 0 ∧ defrag.maxSample = none ∧ hist = []) ∨
  ∃ sample, defrag.sampletree = [sample] ∧ sample.seq = q ∧ defrag.nSamples = 1 ∧
    defrag.maxSample = (if 0 < q then some q else none) ∧
    (RecordHistory B hist sample ∨ (q < 0 ∧ defrag.maxSamples ≤ 1))

section Step

variable {B : ℕ} {hist : List (Rdata × RsampleInfo)} {defrag defrag' : Defrag} {f : Rdata}
  {info : RsampleInfo} {out : Option (RsampleReorder (List Rdata))}

lemma Holding.add {sample : RsampleDefrag} (htree : defrag.sampletree = [sample])
    (hseq : sample.seq = info.seq) (hn : defrag.nSamples = 1)
    (hmax : defrag.maxSample = if 0 < info.seq then some info.seq else none)
    (hsample : RecordHistory B hist sample) (hhist : ∀ z ∈ hist, WfFrag B z.1) (hf : WfFrag B f)
    (h : defragAddTo defrag sample f info = some (defrag', out)) :
    (out = none ∧ Holding B info.seq (hist ++ [(f, info)]) defrag') ∨
    ∃ sample', RecordHistory B (hist ++ [(f, info)]) sample' ∧ isComplete sample' ∧
      out = rsampleConvertDefragToReorder sample' ∧ Holding B info.seq [] defrag' := by
  rcases (defragAddFragment_step hsample.tree hf :
      (defragAddFragment sample f info = none ∧ _) ∨ _) with
    ⟨hadd, -⟩ | ⟨sample', grown, hadd, hstep⟩
  · simp [defragAddTo, hadd] at h
  have hsample' := hsample.step hhist hf hstep
  have hseq' : sample'.seq = info.seq := hstep.seq.trans hseq
  rw [defragAddTo, hadd, bind_some] at h
  cases hdone : (grown.isSome && isComplete sample') with
  | true =>
    right
    simp only [hdone, defragFinish, if_pos] at h
    obtain ⟨result, hresult, h⟩ := map_eq_some_iff.mp h
    obtain ⟨rfl, rfl⟩ := mk.inj h
    refine ⟨sample', hsample', (Bool.and_eq_true_iff.mp hdone).2, hresult.symm, .inl ?_⟩
    have hempty : delete seq sample'.seq defrag.sampletree = [] := by
      simp [delete, htree, hseq, hseq']
    split_ifs <;> simp_all [lastKey]
  | false =>
    left
    simp only [hdone, defragFinish, Bool.false_eq_true, if_false] at h
    obtain ⟨rfl, rfl⟩ := mk.inj (some.inj h)
    refine ⟨rfl, .inr ⟨sample', ?_, hseq', hn, hmax, .inl hsample'⟩⟩
    simp [update, htree, hseq, hseq']

/-- A fragment of the sequence number is remembered, or it completes the sample. -/
lemma Holding.step (h : Holding B info.seq hist defrag) (hseq : info.seq ≠ 0)
    (hhist : ∀ z ∈ hist, WfFrag B z.1) (hf : WfFrag B f) (hfrag : nnRdataIsFragment f info)
    (hstep : nnDefragRsample defrag f info = some (defrag', out)) :
    (out = none ∧ Holding B info.seq (hist ++ [(f, info)]) defrag') ∨
    ∃ sample', RecordHistory B (hist ++ [(f, info)]) sample' ∧ isComplete sample' ∧
      out = rsampleConvertDefragToReorder sample' ∧ Holding B info.seq [] defrag' := by
  have hnew : ∀ {d : Defrag} {max : Option ℤ}, d.sampletree = [] → d.nSamples = 0 →
      max = (if 0 < info.seq then some info.seq else none) →
      Holding B info.seq [(f, info)] (defragAddNew d max f info) := fun htree hn hmax ↦
    .inr ⟨defragRsampleNew f info, by simp [defragAddNew, htree, KeyedList.insert], rfl,
      by simp [defragAddNew, hn], hmax, .inl (recordHistory_new hf info)⟩
  simp only [nnDefragRsample, hfrag, Bool.not_true, Bool.false_eq_true, if_false] at hstep
  rcases h with ⟨htree, hn, hmax, rfl⟩ | ⟨sample, htree, hsampleseq, hn, hmax, hsample⟩
  · -- the first fragment, or the first one after the sample was completed
    rw [hmax, getD_none, if_neg hseq] at hstep
    have hlimit : defragLimitSamples defrag info.seq 0 = none ∨
        defragLimitSamples defrag info.seq 0 = some (defrag, 0, true) := by
      unfold defragLimitSamples
      split_ifs with hroom
      · exact .inr rfl
      · left
        cases hmode : defrag.dropMode <;> simp [sampleToDrop, hmode, hmax, htree]
    rcases hlimit with hlimit | hlimit
    · simp [hlimit] at hstep
    simp only [hlimit, Bool.not_true, Bool.false_eq_true, if_false, htree] at hstep
    left
    split_ifs at hstep with hpos
    · obtain ⟨rfl, rfl⟩ := mk.inj (some.inj hstep)
      exact ⟨rfl, hnew htree hn (if_pos hpos).symm⟩
    · obtain ⟨rfl, rfl⟩ := mk.inj (some.inj hstep)
      exact ⟨rfl, hnew htree hn (by rw [hmax, if_neg hpos])⟩
  have hlookup : lookup seq info.seq defrag.sampletree = some sample := by
    simp [KeyedList.lookup, htree, hsampleseq]
  by_cases hpos : 0 < info.seq
  · have hhistory : RecordHistory B hist sample := hsample.resolve_right fun h ↦ by omega
    simp only [hmax, if_pos hpos, getD_some, if_true, bind_some, hlookup] at hstep
    exact Holding.add htree hsampleseq hn hmax hhistory hhist hf hstep
  · rw [hmax, if_neg hpos, getD_none, if_neg hseq] at hstep
    unfold defragLimitSamples at hstep
    by_cases hroom : defrag.nSamples < defrag.maxSamples
    · have hhistory : RecordHistory B hist sample := hsample.resolve_right fun h ↦ by omega
      simp only [if_pos hroom, Bool.not_true, Bool.false_eq_true, if_false, if_neg hpos,
        hlookup] at hstep
      exact Holding.add htree hsampleseq hn hmax hhistory hhist hf hstep
    · -- the record itself is dropped to make room for it
      left
      cases hmode : defrag.dropMode with
      | dropLatest => simp [if_neg hroom, sampleToDrop, hmode, hmax, if_neg hpos] at hstep
      | dropOldest =>
        have hdrop : sampleToDrop defrag info.seq = some (some info.seq) := by
          simp [sampleToDrop, hmode, htree, hsampleseq]
        have hroomed : defragDropForRoom defrag info.seq 0 =
            (defragRsampleDrop defrag info.seq, 0) := by
          simp [defragDropForRoom, hmax, if_neg hpos]
        have hdropped : (defragRsampleDrop defrag info.seq).sampletree = [] := by
          simp [defragRsampleDrop, delete, htree, hsampleseq]
        simp only [if_neg hroom, hdrop, hroomed, Bool.not_true, Bool.false_eq_true, if_false,
          if_neg hpos, hdropped] at hstep
        obtain ⟨rfl, rfl⟩ := mk.inj (some.inj hstep)
        refine ⟨rfl, .inr ⟨defragRsampleNew f info, ?_, rfl, ?_, ?_, .inr ⟨by omega, ?_⟩⟩⟩
        · simp [defragAddNew, hdropped, KeyedList.insert]
        · simp [defragAddNew, defragRsampleDrop, hn]
        · exact hmax
        · show defrag.maxSamples ≤ 1
          omega

end Step

/-! ### The assertions of `defragment` -/

/-- The assertions of `defragment` hold for every sample of the chain. -/
def assertionsHold (rsample : RsampleReorder (List Rdata)) : Bool :=
  rsample.sc.all fun e ↦ e.sampleinfo.all fun info ↦ (defragment e.fragchain info.size).isSome

/-- No fragment starts within the sample and ends beyond it, by the sample size of the first
fragment that starts the sample. -/
def sizeRespected (hist : List (Rdata × RsampleInfo)) : Bool :=
  (firstAtZero hist).all fun y ↦
    hist.all fun z ↦ !decide (z.1.min ≤ y.2.size) || decide (z.1.maxp1 ≤ y.2.size)

lemma RecordHistory.assertionsHold_iff {hist : List (Rdata × RsampleInfo)}
    {sample : RsampleDefrag} {rsample : RsampleReorder (List Rdata)}
    (h : RecordHistory B hist sample) (hcomplete : isComplete sample)
    (hout : rsampleConvertDefragToReorder sample = some rsample)
    (hwf : ∀ z ∈ hist, WfFrag B z.1) (hpart : ∀ z ∈ hist, IsPart z) :
    assertionsHold rsample ↔ sizeRespected hist := by
  obtain ⟨root, hroot, hmin, hend⟩ := isComplete_eq_true.mp hcomplete
  rw [rsampleConvertDefragToReorder, hroot, map_some, some.injEq] at hout
  subst hout
  have hmem : root ∈ sample.ivs := Avl.root_mem hroot
  have hiff := h.defragment_isSome_iff hmem hmin hend hpart
  simp only [assertionsHold, all_cons, all_nil, all_some, Bool.and_true]
  unfold sizeRespected
  cases hfirst : firstAtZero hist with
  | none =>
    have hempty : root.frags = [] := by
      by_contra hne
      obtain ⟨f, hf, hzero⟩ :=
        (h.list.frags_ne_nil_iff h.tree.list (by simpa using hwf) hmem hmin).mp hne
      obtain ⟨z, hz, rfl⟩ := mem_map.mp hf
      simpa [hzero] using find?_eq_none.mp hfirst z hz
    simp [hempty, defragment, defragmentLoop]
  | some y =>
    rw [hiff, (h.info y hfirst).1]
    simp only [all_some, List.all_eq_true, Bool.or_eq_true, Bool.not_eq_true',
      decide_eq_false_iff_not, decide_eq_true_eq, imp_iff_not_or]

/-- The defragmenter is given the fragments of a run, and `hist` are those since the last sample it
completed. Whenever it hands over a sample, the assertions of `defragment` hold exactly if these
fragments respect the size of the sample. They always hold for a sample in one submessage. -/
def AssertsExactly (defrag : Defrag) (hist : List (Rdata × RsampleInfo)) :
    List (Rdata × RsampleInfo) → Prop
  | [] => True
  | z :: rest =>
    ∀ defrag' out, nnDefragRsample defrag z.1 z.2 = some (defrag', out) →
      if nnRdataIsFragment z.1 z.2 then
        match out with
        | none => AssertsExactly defrag' (hist ++ [z]) rest
        | some rsample =>
          (assertionsHold rsample = true ↔ sizeRespected (hist ++ [z]) = true) ∧
            AssertsExactly defrag' [] rest
      else
        (∀ rsample ∈ out, assertionsHold rsample = true) ∧ AssertsExactly defrag' hist rest

lemma Holding.assertsExactly {q : ℤ} (hq : q ≠ 0) {rest : List (Rdata × RsampleInfo)}
    (hrest : ∀ z ∈ rest, WfFrag B z.1 ∧ z.1.maxp1 ≤ z.2.size ∧ z.2.seq = q) :
    ∀ {defrag : Defrag} {hist : List (Rdata × RsampleInfo)}, Holding B q hist defrag →
      (∀ z ∈ hist, WfFrag B z.1) → (∀ z ∈ hist, IsPart z) → AssertsExactly defrag hist rest := by
  induction rest with
  | nil => intros; trivial
  | cons z _ ih =>
    intro defrag hist h hwf hpart defrag' out hstep
    obtain ⟨⟨hf, hsize, rfl⟩, hrest⟩ := forall_mem_cons.mp hrest
    split_ifs with hfrag
    · have hwf' : ∀ y ∈ hist ++ [z], WfFrag B y.1 := forall_mem_append.mpr ⟨hwf, by simpa using hf⟩
      have hpart' : ∀ y ∈ hist ++ [z], IsPart y :=
        forall_mem_append.mpr ⟨hpart, by simpa using ⟨hsize, hfrag⟩⟩
      rcases h.step hq hwf hf hfrag hstep with ⟨rfl, h'⟩ | ⟨sample', hsample', hdone, hout, h'⟩
      · exact ih hrest h' hwf' hpart'
      · cases out with
        | none =>
          obtain ⟨iv, hiv, -⟩ := isComplete_eq_true.mp hdone
          simp [rsampleConvertDefragToReorder, hiv] at hout
        | some =>
          exact ⟨hsample'.assertionsHold_iff hdone hout.symm hwf' hpart',
            ih hrest h' (by simp) (by simp)⟩
    · simp only [nnDefragRsample, hfrag, Bool.not_false, if_true] at hstep
      obtain ⟨rfl, rfl⟩ := mk.inj (some.inj hstep)
      refine ⟨fun rsample hr ↦ ?_, ih hrest h hwf hpart⟩
      rw [← some.inj hr]
      simp [assertionsHold, reorderRsampleNew, defragment]

/-- For every sequence of DataFrag submessages of one sequence number, and every sample the
defragmenter completes from those that are accepted, the assertions of `defragment` hold at every
iteration if and only if the fragments collected for the sample respect the sample size of the first
of them that starts the sample. -/
theorem defragment_asserts_exactly (config : FragConfig) (dropMode : DefragDropMode)
    (maxSamples : ℕ) (q : ℤ) (msgs : List DataFrag) (hconfig : config.maxSampleSize ≤ maxOffset)
    (hmsgs : ∀ msg ∈ msgs, msg.writerSN = q ∧ msg.rest.length ≤ 2 ^ 30) :
    AssertsExactly (nnDefragNew dropMode maxSamples) []
      (msgs.filterMap (receiveDataFrag config)) := by
  have hreceived : ∀ z ∈ msgs.filterMap (receiveDataFrag config),
      WfFrag maxOffset z.1 ∧ z.1.maxp1 ≤ z.2.size ∧ z.2.seq = q ∧ z.2.seq ≠ 0 := by
    intro z hz
    obtain ⟨msg, hmsg, hreceive⟩ := mem_filterMap.mp hz
    obtain ⟨hseq, hlen⟩ := hmsgs msg hmsg
    obtain ⟨hwf, hsize, hinfo, hne⟩ := receiveDataFrag_wf hconfig hlen hreceive
    exact ⟨hwf, hsize, hinfo.trans hseq, hne⟩
  by_cases hnone : msgs.filterMap (receiveDataFrag config) = []
  · rw [hnone]
    trivial
  · obtain ⟨z, hz⟩ := exists_mem_of_ne_nil _ hnone
    obtain ⟨-, -, hseq, hne⟩ := hreceived z hz
    exact Holding.assertsExactly (hseq ▸ hne) (fun z hz ↦ ⟨(hreceived z hz).1, (hreceived z hz).2.1,
      (hreceived z hz).2.2.1⟩) (.inl ⟨rfl, rfl, rfl, rfl⟩) (by simp) (by simp)

def plainDataFrag (start : UInt32) (count unit : UInt16) (sampleSize : UInt32)
    (payload : List UInt8) : DataFrag where
  submessageId := 0x16
  flags := smflagEndianness
  octetsToNextHeader := UInt16.ofNat (32 + payload.length)
  extraFlags := 0
  octetsToInlineQos := 28
  readerId := 0
  writerId := 0x103
  writerSN := 1
  fragmentStartingNum := start
  fragmentsInSubmessage := count
  fragmentSize := unit
  sampleSize := sampleSize
  rest := payload

/-- Two fragments of twelve bytes that agree on the sample size. -/
theorem defragment_asserts_exactly_two :
    AssertsExactly (nnDefragNew .dropLatest 1) []
      ([plainDataFrag 2 2 4 12 [4, 5, 6, 7, 8, 9, 10, 11],
        plainDataFrag 1 1 4 12 [0, 1, 2, 3]].filterMap (receiveDataFrag ⟨false, false, 4, 100⟩)) :=
  defragment_asserts_exactly ⟨false, false, 4, 100⟩ .dropLatest 1 1 _ (by decide) (by decide)

/-- The bytes from 4 to 12 of a sample of twelve bytes, and then the first four bytes of what is
said to be a sample of six: the sample is complete, its size is six, and the second fragment is
copied beyond the end of the buffer. -/
theorem defragment_overruns_buffer :
    ∃ first second defrag defrag' rsample,
      receiveDataFrag ⟨false, false, 4, 100⟩
        (plainDataFrag 2 2 4 12 [4, 5, 6, 7, 8, 9, 10, 11]) = some first ∧
      receiveDataFrag ⟨false, false, 4, 100⟩ (plainDataFrag 1 1 4 6 [0, 1, 2, 3]) = some second ∧
      nnDefragRsample (nnDefragNew .dropLatest 1) first.1 first.2 = some (defrag, none) ∧
      nnDefragRsample defrag second.1 second.2 = some (defrag', some rsample) ∧
      rsample.sc.map (fun e ↦
          (e.fragchain.map fun f ↦ (f.min, f.maxp1), e.sampleinfo.map (·.size))) =
        [([(0, 4), (4, 12)], some 6)] ∧
      assertionsHold rsample = false :=
  ⟨_, _, _, _, _, rfl, rfl, rfl, rfl, by decide, by decide⟩

end OpenSplice.Ddsi
