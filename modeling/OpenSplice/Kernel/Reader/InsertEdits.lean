import OpenSplice.Kernel.Reader.AccessEdits

/-!
# Insertion as edits

A message becomes a sample of an instance by edits: the message is inserted into the history and
others are pushed out, it is held back, or it becomes pending (`Edits.instanceInsert`). Pending
samples are flushed (`Edits.flushLoop`), and a sample that has been held back is exposed
(`Edits.checkMinimumSeparation`).
-/

set_option autoImplicit false

namespace OpenSplice.Kernel

open Sample List View Bool

namespace InstanceState

variable {s : Sample} {history : List Sample}

variable {older newer : List Sample}

/-! ### What a view does not see -/

variable (qos : ReaderQos) (claims : ℤ)

@[simp]
lemma view_makeSampleAvailable (st : InstanceState) :
    (makeSampleAvailable qos st).view claims = st.view claims := by
  rw [makeSampleAvailable]
  split_ifs <;> rfl

/-- The instances have the same counters and the same pending samples. -/
structure SameAccounts (inst inst' : Instance) : Prop where
  pending : inst'.pending = inst.pending
  resourceSampleCount : inst'.resourceSampleCount = inst.resourceSampleCount
  historySampleCount : inst'.historySampleCount = inst.historySampleCount
  lastConsumed : inst'.lastConsumed = inst.lastConsumed

namespace SameAccounts

lemma refl (inst : Instance) : SameAccounts inst inst := ⟨rfl, rfl, rfl, rfl⟩

lemma trans {inst inst' inst'' : Instance} (h : SameAccounts inst inst')
    (h' : SameAccounts inst' inst'') : SameAccounts inst inst'' where
  pending := h'.pending.trans h.pending
  resourceSampleCount := h'.resourceSampleCount.trans h.resourceSampleCount
  historySampleCount := h'.historySampleCount.trans h.historySampleCount
  lastConsumed := h'.lastConsumed.trans h.lastConsumed

lemma lateUnregister (older newer : List Sample) (inst : Instance) :
    SameAccounts inst (lateUnregister older newer inst).2 ∧
      (InstanceState.lateUnregister older newer inst).1.map core = newer.map core := by
  rw [InstanceState.lateUnregister]
  split
  · exact ⟨refl inst, rfl⟩
  · split_ifs
    · exact ⟨⟨rfl, rfl, rfl, rfl⟩, by rw [map_map]; rfl⟩
    · exact ⟨refl inst, rfl⟩

lemma lateArrival (message : Message) (older newer : List Sample) (inst : Instance) :
    SameAccounts inst (lateArrival message older newer inst).2 ∧
      (InstanceState.lateArrival message older newer inst).1.map core = newer.map core := by
  have hunregister : SameAccounts inst (if message.state.unregister then
      InstanceState.lateUnregister older newer inst else (newer, inst)).2 ∧
      (if message.state.unregister then InstanceState.lateUnregister older newer inst
        else (newer, inst)).1.map core = newer.map core := by
    split_ifs
    · exact lateUnregister older newer inst
    · exact ⟨refl inst, rfl⟩
  rw [InstanceState.lateArrival]
  generalize (if message.state.unregister then InstanceState.lateUnregister older newer inst
    else (newer, inst)) = out at hunregister ⊢
  split_ifs
  · refine ⟨hunregister.1.trans ⟨rfl, rfl, rfl, rfl⟩, ?_⟩
    rw [lateDispose, ← hunregister.2, map_map]
    rfl
  · exact hunregister

lemma revive (qos : ReaderQos) (message : Message) (inst : Instance) :
    SameAccounts inst (revive qos message inst) := by
  rw [InstanceState.revive]
  split_ifs <;> exact ⟨rfl, rfl, rfl, rfl⟩

lemma applyFlags (qos : ReaderQos) (message : Message) (inst : Instance) :
    SameAccounts inst (applyFlags qos message inst) := by
  rw [InstanceState.applyFlags]
  split_ifs <;> exact ⟨rfl, rfl, rfl, rfl⟩

end SameAccounts

lemma counted_of_hasKind {message : Message} (h : HasKind message) :
    (withoutData message || message.state.write) := by
  rw [withoutData]
  rcases h with h | h | h <;>
    cases hw : message.state.write <;> cases hd : message.state.disposed <;> simp_all

lemma view_linkIntermediate (older : List Sample) (newer : List Sample) (st : InstanceState)
    (hfree : s.inMinSepTime = false) (hkind : HasKind s.message) :
    (linkIntermediate s.message older s newer st).view claims =
      (st.view claims).link (older.map core) s.core false (newer.map core) := by
  obtain ⟨hinst, hnewer⟩ := SameAccounts.lateArrival s.message older newer
    (countValid s.message st.inst)
  have hcore : ({ s with validData := s.validData || s.message.state.write } : Sample).core =
      { s.core with
        validData := s.core.validData || s.core.message.state.write
        read := s.core.read || false
        inMinSepTime := false } := by
    rw [Bool.or_false, ← hfree]
    rfl
  simp only [view, linkIntermediate, link, map_append, map_cons, hnewer,
    counted_of_hasKind hkind, hinst.pending, hinst.resourceSampleCount, hinst.historySampleCount,
    hinst.lastConsumed, hcore]
  rfl

lemma core_settleNewest (st : InstanceState) (hfree : s.inMinSepTime = false) :
    (settleNewest qos s.message s st).core = { s.core with
      validData := s.core.validData || s.core.message.state.write
      read := s.core.read ||
        !(applyFlags qos s.message (revive qos s.message (countValid s.message st.inst))).trigger
      inMinSepTime := false } := by
  rw [← hfree]
  rfl

lemma view_linkNewest (older : List Sample) (newer : List Sample) (st : InstanceState)
    (hfree : s.inMinSepTime = false) :
    (linkNewest qos s.message older s newer st).view claims =
      (st.view claims).link (older.map core) s.core
        (!(applyFlags qos s.message (revive qos s.message (countValid s.message st.inst))).trigger)
        (newer.map core) := by
  have hinst := (SameAccounts.revive qos s.message (countValid s.message st.inst)).trans
    (SameAccounts.applyFlags qos s.message _)
  simp only [view, linkNewest, link, map_append, map_cons,
    hinst.pending, hinst.resourceSampleCount, hinst.historySampleCount, hinst.lastConsumed,
    core_settleNewest qos st hfree]
  cases (InstanceState.applyFlags qos s.message
    (InstanceState.revive qos s.message (countValid s.message st.inst))).trigger <;> rfl

/-! ### Claims, samples and positions -/

/-- The claims of the transactions after the message has been dealt with: those that are flushed are
not a claim of a transaction any more. -/
def claimsLeft (message : Message) (context : MessageContext) (claims : ℤ) : ℤ :=
  if message.state.write ∧ context = .transactionFlush then claims - 1 else claims

variable (message : Message) (clock : Clock)

lemma claimResource_cases (context : MessageContext) (st : InstanceState) :
    ((claimResource qos message context st).1 = .inserted ∧
      (claimResource qos message context st).2.view (claimsLeft message context claims) =
        (st.view claims).claim message context) ∨
    ((claimResource qos message context st).1 ≠ .inserted ∧
      (claimResource qos message context st).2 = st ∧
      claimsLeft message context claims = claims) := by
  rw [claimResource, claimsLeft, claim]
  by_cases hw : message.state.write
  · by_cases hc : context = .transactionFlush
    · have hclaim : ¬(message.state.write ∧ context ≠ .transactionFlush) := fun h ↦ h.2 hc
      rw [if_neg hclaim, if_pos ⟨hw, hc⟩, if_pos hw, if_pos hc]
      exact .inl ⟨rfl, rfl⟩
    · have hflush : ¬(message.state.write ∧ context = .transactionFlush) := fun h ↦ hc h.2
      rw [if_pos ⟨hw, hc⟩, if_neg hflush, if_pos hw, if_neg hc]
      split_ifs
      · exact .inr ⟨by simp, rfl, rfl⟩
      · exact .inr ⟨by simp, rfl, rfl⟩
      · exact .inl ⟨rfl, rfl⟩
  · rw [if_neg (fun h ↦ hw h.1), if_neg (fun h ↦ hw h.1), if_neg hw]
    exact .inl ⟨rfl, rfl⟩

lemma view_sampleNew (message : Message) (st : InstanceState) :
    (sampleNew qos clock message st).2.view claims =
      (st.view claims).create (expiryTime qos clock message) := by
  rfl

lemma core_sampleNew (message : Message) (st : InstanceState) :
    (sampleNew qos clock message st).1.core =
      (st.view claims).fresh message (expiryTime qos clock message) := rfl

lemma findHistoryPosition_append (history : List Sample) :
    (findHistoryPosition qos message history).2.1 ++
      (findHistoryPosition qos message history).2.2 = history := by
  rw [findHistoryPosition]
  split
  · exact rdropWhile_append_rtakeWhile
  · exact append_nil history

lemma getLast?_rdropWhile {α : Type} {p : α → Bool} {l : List α} {x : α}
    (h : (l.rdropWhile p).getLast? = some x) : ¬p x := by
  have hne : l.rdropWhile p ≠ [] := by
    intro hnil
    simp [hnil] at h
  have hlast := rdropWhile_last_not p l hne
  rw [getLast?_eq_some_getLast hne, Option.some_inj] at h
  rwa [h] at hlast

lemma admissible_findHistoryPosition {qos : ReaderQos} {message : Message} {st : InstanceState}
    (hpos : (findHistoryPosition qos message st.inst.history).1 = .inserted)
    (hconsumed : consumedBefore qos message st.inst = none) :
    Admissible qos message st.inst.lastConsumed
      ((findHistoryPosition qos message st.inst.history).2.1.map core)
      ((findHistoryPosition qos message st.inst.history).2.2.map core) where
  fresh hsource := by
    simp only [consumedBefore, hsource, if_true] at hconsumed
    split at hconsumed <;> simp_all
  older hsource s hs := by
    rw [findHistoryPosition, if_pos hsource] at hpos hs
    rw [getLast?_map, Option.map_eq_some_iff] at hs
    obtain ⟨x, hx, rfl⟩ := hs
    have hnotlt : messageCompare message x.message ≠ .lt := by
      have h := getLast?_rdropWhile hx
      simpa [olderThan] using h
    cases hcmp : messageCompare message x.message <;> simp_all
  newer hsource s hs := by
    rw [findHistoryPosition, if_pos hsource] at hs
    obtain ⟨x, hx, rfl⟩ := mem_map.mp hs
    simpa [olderThan] using mem_rtakeWhile_imp hx

lemma findHeldBack_eq_some (h : findHeldBack history = some (older, s, newer)) :
    history = older ++ s :: newer ∧ s.inMinSepTime ∧ ∀ x ∈ newer, x.inMinSepTime = false := by
  rw [findHeldBack, Option.map_eq_some_iff] at h
  obtain ⟨x, hx, heq⟩ := h
  obtain ⟨rfl, rfl, rfl⟩ := heq
  refine ⟨?_, by simpa using getLast?_rdropWhile hx, fun y hy ↦ ?_⟩
  · obtain ⟨ys, hys⟩ := getLast?_eq_some_iff.mp hx
    have happend := rdropWhile_append_rtakeWhile (p := fun s ↦ !s.inMinSepTime) (l := history)
    rw [hys, append_assoc, singleton_append] at happend
    rw [hys, dropLast_concat, happend]
  · simpa using mem_rtakeWhile_imp hy

variable (st : InstanceState)

lemma lastConsumed_replaceHeldBack :
    (replaceHeldBack qos message st).2.inst.lastConsumed = st.inst.lastConsumed := by
  rw [replaceHeldBack]
  split_ifs
  · split
    · rfl
    · split_ifs <;> rfl
  · rfl

lemma view_withPending (pending : List Sample) (st : InstanceState) :
    (st.withPending pending).view claims =
      { st.view claims with pending := pending.map core } := rfl

/-! ### Samples that are held back -/

def heldBack (inst : Instance) : List Sample := inst.history.filter Sample.inMinSepTime

def replacedSample (qos : ReaderQos) (message : Message) (inst : Instance) : Option Sample :=
  if filterable qos message && inst.inMinSepTime then
    (heldBack inst).getLast?.filter fun s ↦ messageCompare message s.message = .gt
  else none

def heldBackAfter (qos : ReaderQos) (message : Message) (inst : Instance) : List Sample :=
  if (replacedSample qos message inst).isSome then (heldBack inst).dropLast else heldBack inst

lemma filter_eq_of_findHeldBack (h : findHeldBack history = some (older, s, newer)) :
    history.filter inMinSepTime = older.filter inMinSepTime ++ [s] := by
  obtain ⟨rfl, hs, hnewer⟩ := findHeldBack_eq_some h
  have hnil : newer.filter inMinSepTime = [] := by
    rw [filter_eq_nil_iff]
    intro x hx
    simp [hnewer x hx]
  rw [filter_append, filter_cons_of_pos hs, hnil]

lemma filter_eq_nil_of_findHeldBack (h : findHeldBack history = none) :
    history.filter inMinSepTime = [] := by
  rw [findHeldBack, Option.map_eq_none_iff, getLast?_eq_none_iff, rdropWhile_eq_nil_iff] at h
  rw [filter_eq_nil_iff]
  intro x hx
  simpa using h x hx

def heldBackOlder (qos : ReaderQos) (message : Message) (st : InstanceState) : List Sample :=
  let out := replaceHeldBack qos message st
  if out.1 ≠ .inserted ∨ tooEarly qos message out.2.inst = true then []
  else (findHistoryPosition qos message out.2.inst.history).2.1.filter Sample.inMinSepTime

lemma heldBack_replaceHeldBack :
    heldBack (replaceHeldBack qos message st).2.inst = heldBackAfter qos message st.inst := by
  rw [replaceHeldBack, heldBackAfter, replacedSample]
  by_cases hfilter : (filterable qos message && st.inst.inMinSepTime)
  · rw [if_pos hfilter, if_pos hfilter]
    rcases hfind : findHeldBack st.inst.history with - | ⟨older, s, newer⟩
    · simp [heldBack, filter_eq_nil_of_findHeldBack hfind]
    · have hheld := filter_eq_of_findHeldBack hfind
      obtain ⟨-, -, hnewer⟩ := findHeldBack_eq_some hfind
      have hnil : newer.filter inMinSepTime = [] := by
        rw [filter_eq_nil_iff]
        intro x hx
        simp [hnewer x hx]
      by_cases hgt : messageCompare message s.message = .gt
      · simp [heldBack, hheld, hgt, releaseResource, hnil]
      · simp [heldBack, hheld, hgt]
  · rw [if_neg hfilter, if_neg hfilter]
    rfl

lemma heldBackOlder_subset : heldBackOlder qos message st ⊆ heldBackAfter qos message st.inst := by
  intro s hs
  rw [← heldBack_replaceHeldBack, heldBack]
  simp only [heldBackOlder] at hs
  split_ifs at hs
  · simp at hs
  · obtain ⟨hmem, hheld⟩ := mem_filter.mp hs
    refine mem_filter.mpr ⟨?_, hheld⟩
    have happend := findHistoryPosition_append qos message
      (replaceHeldBack qos message st).2.inst.history
    rw [← happend]
    exact mem_append_left _ hmem

end InstanceState

namespace Edits

open InstanceState List

variable (qos : ReaderQos) (ok : Effect → Prop) (claims : ℤ)
  {older newer : List Sample} {st : InstanceState} {clock : Clock} {message : Message}
  {context : MessageContext}

variable {s : Sample} (limit : ℤ)

lemma updateIntermediate (hfree : s.inMinSepTime = false) (hkind : HasKind s.message) :
    Edits qos ok ((st.view claims).link (older.map core) s.core false (newer.map core))
      ((updateIntermediate s.message older s newer st).view claims) := by
  rw [InstanceState.updateIntermediate, ← view_linkIntermediate claims older newer st hfree hkind]
  split_ifs with hwithout
  · refine sampleRemove qos ok claims rfl fun h ↦ ?_
    simp [hfree] at h
  · exact .refl

lemma dropInvalid (hist : st.inst.history.map core = (older ++ s :: newer).map core)
    (hfree : s.inMinSepTime = false) (hlazy : s.lazyRead = false)
    (hok : ∀ x ∈ older, x.inMinSepTime → ok .removesHeldBack) :
    Edits qos ok (st.view claims) ((dropInvalid older s newer st).view claims) := by
  rw [InstanceState.dropInvalid]
  rcases hlast : older.getLast? with - | prev
  · exact .refl
  obtain ⟨older', rfl⟩ := getLast?_eq_some_iff.mp hlast
  by_cases hvalid : prev.validData
  · simp only [if_pos hvalid]
    exact .refl
  simp only [if_neg hvalid, dropLast_concat]
  rw [append_assoc, singleton_append] at hist
  have hremove : Edits qos ok (st.view claims)
      ((InstanceState.sampleRemove older' prev (s :: newer) true st).view claims) :=
    sampleRemove qos ok claims hist (hok prev (by simp))
  split_ifs with hread
  · refine hremove.trans ?_
    have hhist : (InstanceState.sampleRemove older' prev (s :: newer) true st).withHistory
        (older' ++ s :: newer) = InstanceState.sampleRemove older' prev (s :: newer) true st := rfl
    generalize InstanceState.sampleRemove older' prev (s :: newer) true st = st1 at hhist ⊢
    -- the new sample takes over that the other one has not been read
    have hs : s.read := (and_eq_true_iff.mp hread).1
    have hmark : Edits qos ok ((st1.withHistory (older' ++ s :: newer)).view claims)
        (({ st1 with reader := { st1.reader with
          notReadCount := st1.reader.notReadCount + 1 } }.withHistory
            (older' ++ { s with read := false } :: newer)).view claims) :=
      mark qos ok claims hfree rfl (by simp [accessed, hs, hlazy, hfree]) rfl
    rwa [hhist] at hmark
  · exact hremove

lemma updateFinal (hfree : s.inMinSepTime = false) (hlazy : s.lazyRead = false)
    (hok : ∀ x ∈ older, x.inMinSepTime → ok .removesHeldBack) :
    ∃ read, Edits qos ok ((st.view claims).link (older.map core) s.core read (newer.map core))
      ((updateFinal qos s.message older s newer st).view claims) := by
  have hdrop : Edits qos ok ((linkNewest qos s.message older s newer st).view claims)
      ((InstanceState.updateFinal qos s.message older s newer st).view claims) :=
    dropInvalid qos ok claims rfl hfree hlazy hok
  rw [view_linkNewest qos claims older newer st hfree] at hdrop
  exact ⟨_, hdrop⟩

/-- `ClaimHistorySample`: the first of the older samples are pushed out. -/
lemma claimHistorySample (newer older : List Sample) (st : InstanceState) :
    ∃ pushed, older = pushed ++ (claimHistorySample qos newer older st).1 ∧
      (InstanceState.claimHistorySample qos newer older st).2.view claims = (st.view claims).pushOut
          (((InstanceState.claimHistorySample qos newer older st).1 ++ newer).map core)
          (pushed.map core) := by
  induction older generalizing st with
  | nil => exact ⟨[], rfl, rfl⟩
  | cons s older ih =>
    rw [InstanceState.claimHistorySample]
    split_ifs with hdepth
    · obtain ⟨pushed, hpushed, hview⟩ :=
        ih (InstanceState.sampleRemove [] s (older ++ newer) true st)
      refine ⟨s :: pushed, ?_, ?_⟩
      · rw [cons_append, ← hpushed]
      · rw [hview, view_sampleRemove, map_cons, pushOut, map_nil, ← map_append,
          ← append_assoc, ← hpushed]
    · exact ⟨[], rfl, rfl⟩

lemma makeRoom (message : Message) (heldBack : Bool) (older newer : List Sample)
    (st : InstanceState) :
    ∃ pushed, older = pushed ++ (makeRoom qos message heldBack older newer st).1 ∧
      (heldBack → pushed = []) ∧
      (InstanceState.makeRoom qos message heldBack older newer st).2.view claims =
        (st.view claims).pushOut
          (((InstanceState.makeRoom qos message heldBack older newer st).1 ++ newer).map core)
          (pushed.map core) := by
  rw [InstanceState.makeRoom]
  split_ifs with h
  · obtain ⟨pushed, holder, hview⟩ := claimHistorySample qos claims newer older st
    exact ⟨pushed, holder, fun hheld ↦ absurd hheld h.2.2, hview⟩
  · exact ⟨[], rfl, fun _ ↦ rfl, rfl⟩

lemma pushOut {pushed rest : List Sample} {v : View} (hist : v.history = pushed ++ rest)
    (hok : ∀ s ∈ pushed, s.inMinSepTime → ok .removesHeldBack) :
    Edits qos ok v (v.pushOut rest pushed) := by
  induction pushed generalizing v with
  | nil => exact .refl
  | cons s pushed ih =>
    refine .head (.remove [] s (pushed ++ rest) hist (hok s mem_cons_self)) ?_
    exact ih rfl fun x hx ↦ hok x (mem_cons_of_mem s hx)

/-! ### Into the history -/

lemma linkSample_heldBack (message : Message) (older newer : List Sample) (s : Sample)
    (st : InstanceState) :
    (linkSample qos message true older newer s st).view claims =
      (st.view claims).hold (older.map core) s.core (newer.map core) := by
  rw [linkSample, if_pos rfl]
  simp only [view, hold, map_append, map_cons]
  rfl

lemma linkSample (older newer : List Sample) (s : Sample) (st : InstanceState)
    (hfree : s.inMinSepTime = false) (hlazy : s.lazyRead = false) (hkind : HasKind s.message)
    (hok : ∀ x ∈ older, x.inMinSepTime → ok .removesHeldBack) :
    ∃ read, Edits qos ok ((st.view claims).link (older.map core) s.core read (newer.map core))
      ((linkSample qos s.message false older newer s st).view claims) := by
  rw [InstanceState.linkSample, if_neg (by simp)]
  have hview : ({ st with inst := { st.inst with inMinSepTime := false } } : InstanceState).view
      claims = st.view claims := rfl
  rw [← hview]
  generalize ({ st with inst := { st.inst with inMinSepTime := false } } : InstanceState) = st1
  have hlink : ∃ read, Edits qos ok
      ((st1.view claims).link (older.map core) s.core read (newer.map core))
      ((if newer.isEmpty then InstanceState.updateFinal qos s.message older s newer st1
        else InstanceState.updateIntermediate s.message older s newer st1).view claims) := by
    split_ifs
    · exact updateFinal qos ok claims hfree hlazy hok
    · exact ⟨false, updateIntermediate qos ok claims hfree hkind⟩
  split_ifs at hlink ⊢
  all_goals simpa only [view_makeSampleAvailable] using hlink

lemma insertAt {heldBack : Bool} (hadmits : ok (.admits message)) (hkind : HasKind message)
    (hheld : heldBack → message.state.write ∧ ok .holds)
    (hconsumed : consumedBefore qos message st.inst = none)
    (hok : heldBack = false → ∀ x ∈ (findHistoryPosition qos message st.inst.history).2.1,
      x.inMinSepTime → ok .removesHeldBack) :
    Edits qos ok (st.view claims) ((insertAt qos clock message context heldBack st).2.view
        (if (InstanceState.insertAt qos clock message context heldBack st).1 = .inserted then
          claimsLeft message context claims else claims)) := by
  rw [InstanceState.insertAt]
  have happend := findHistoryPosition_append qos message st.inst.history
  have hadm := fun h ↦ admissible_findHistoryPosition h hconsumed
  generalize findHistoryPosition qos message st.inst.history = pos at happend hadm hok ⊢
  by_cases hpos : pos.1 = .inserted
  swap
  · rw [if_pos hpos, if_neg hpos]
  rw [if_neg (not_not_intro hpos)]
  obtain ⟨pushed, holder, hnone, hview⟩ := makeRoom qos claims message heldBack pos.2.1 pos.2.2 st
  generalize InstanceState.makeRoom qos message heldBack pos.2.1 pos.2.2 st = out at *
  have hist : (st.view claims).history =
      pushed.map Sample.core ++ (out.1 ++ pos.2.2).map Sample.core := by
    rw [← map_append, ← append_assoc, ← holder, happend, view]
  have hpushed : ∀ x ∈ pushed.map Sample.core, x.inMinSepTime → ok .removesHeldBack := by
    intro x hx
    cases heldBack with
    | false =>
      obtain ⟨y, hy, rfl⟩ := mem_map.mp hx
      exact hok rfl y (by rw [holder]; exact mem_append_left _ hy)
    | true => simp [hnone rfl] at hx
  rcases claimResource_cases qos claims message context out.2 with
    ⟨hclaim, hclaimed⟩ | ⟨hclaim, hrest, -⟩
  swap
  · rw [if_pos hclaim, if_neg hclaim, hrest, hview]
    exact pushOut qos ok hist hpushed
  rw [if_neg (not_not_intro hclaim), if_pos rfl]
  have hnew := view_sampleNew qos (claimsLeft message context claims) clock message
    (claimResource qos message context out.2).2
  rw [hclaimed, hview] at hnew
  have hfresh : (sampleNew qos clock message (claimResource qos message context out.2).2).1.core =
      (st.view claims).fresh message (expiryTime qos clock message) := by
    rw [core_sampleNew qos (claimsLeft message context claims), hclaimed, hview]
    simp [fresh]
  generalize sampleNew qos clock message (claimResource qos message context out.2).2 = new at *
  obtain ⟨rfl, hfree, hlazy⟩ : new.1.message = message ∧ new.1.inMinSepTime = false ∧
      new.1.lazyRead = false :=
    ⟨congrArg Sample.message hfresh, congrArg Sample.inMinSepTime hfresh,
      congrArg Sample.lazyRead hfresh⟩
  rw [map_append] at hist hnew
  cases heldBack with
  | false =>
    have hrest : ∀ x ∈ out.1, x.inMinSepTime → ok .removesHeldBack := by
      intro x hx
      exact hok rfl x (by rw [holder]; exact mem_append_right _ hx)
    obtain ⟨read, hlink⟩ := linkSample qos ok (claimsLeft new.1.message context claims) out.1
      pos.2.2 new.1 new.2 hfree hlazy hkind hrest
    rw [hnew, hfresh] at hlink
    refine .head (.insert _ _ _ _ _ _ _ hadmits hist ?_ hpushed) hlink
    rw [← map_append, ← holder]
    exact hadm hpos
  | true =>
    rw [hnone rfl] at hnew hist holder
    rw [linkSample_heldBack, hnew, hfresh]
    refine .single (.hold _ _ _ _ _ hadmits (hheld rfl).2 hist (hheld rfl).1 ?_)
    have hplace := hadm hpos
    rwa [holder, nil_append] at hplace

lemma replaceHeldBack (message : Message)
    (hlife : ∀ s, replacedSample qos message st.inst = some s → s.expiryTime ≠ none →
      ok .forgetsLifespan) :
    Edits qos ok (st.view claims) ((replaceHeldBack qos message st).2.view claims) := by
  rw [InstanceState.replaceHeldBack]
  split_ifs with hfilter
  · rcases hfind : findHeldBack st.inst.history with - | ⟨older, s, newer⟩
    · exact .refl
    · obtain ⟨hist, hheld, -⟩ := findHeldBack_eq_some hfind
      dsimp only
      split_ifs with hnewer
      · have hview : (releaseResource { st with inst := { st.inst with
            history := older ++ newer } }).view claims = release { st.view claims with
            history := older.map core ++ newer.map core } := by
          rw [← map_append]
          rfl
        rw [hview]
        refine .single (.replace _ s.core _ ?_ hheld (hlife s ?_))
        · simp [view, hist]
        · rw [replacedSample, if_pos hfilter, heldBack, filter_eq_of_findHeldBack hfind]
          simp [hnewer]
      · exact .refl
  · exact .refl

lemma insertHistory (hadmits : ok (.admits message)) (hkind : HasKind message)
    (hconsumed : consumedBefore qos message st.inst = none) (hholds : ok .holds)
    (hok : heldBackOlder qos message st ≠ [] → ok .removesHeldBack)
    (hlife : ∀ s, replacedSample qos message st.inst = some s → s.expiryTime ≠ none →
      ok .forgetsLifespan) :
    Edits qos ok (st.view claims) ((insertHistory qos clock message context st).2.view
        (if (InstanceState.insertHistory qos clock message context st).1 = .inserted then
          claimsLeft message context claims else claims)) := by
  rw [InstanceState.insertHistory]
  rw [heldBackOlder] at hok
  have hreplace := replaceHeldBack qos ok claims message hlife
  have hlast := lastConsumed_replaceHeldBack qos message st
  generalize InstanceState.replaceHeldBack qos message st = out at hreplace hlast hok ⊢
  have hconsumed' : consumedBefore qos message out.2.inst = none := by rwa [consumedBefore, hlast]
  refine hreplace.trans ?_
  by_cases hout : out.1 = .inserted
  swap
  · rw [if_pos hout, if_neg hout]
  rw [if_neg (not_not_intro hout)]
  split
  case isTrue hearly =>
    by_cases hreliable : qos.reliable
    · rw [if_neg (not_not_intro hreliable)]
      refine insertAt qos ok claims hadmits hkind (fun _ ↦ ⟨?_, hholds⟩) hconsumed' (by simp)
      simp only [tooEarly, filterable, and_eq_true, not_eq_true', or_eq_false_iff] at hearly
      rcases hkind with h | h | h
      · exact h
      · simp [hearly.1.1.1] at h
      · simp [hearly.1.1.2] at h
    · rw [if_pos hreliable, if_neg (by simp)]
  case isFalse hearly =>
    rw [if_neg (not_or.mpr ⟨not_not_intro hout, hearly⟩)] at hok
    refine insertAt qos ok claims hadmits hkind (by simp) hconsumed' fun _ x hx hheld ↦ hok ?_
    exact ne_nil_of_mem (mem_filter.mpr ⟨hx, hheld⟩)

/-! ### Into the pending samples -/

lemma drop (s : Sample) (rest : List Sample) (st : InstanceState)
    (hok : ok .flushes ∨ ok .dropsPending ∧ (s.message.state.write → ok .losesPending)) :
    Edits qos ok ((st.withPending (s :: rest)).view claims)
      (((if s.message.state.write then releaseResource st else st).withPending rest).view
        claims) := by
  have hview : ((if s.message.state.write then releaseResource st else st).withPending rest).view
      claims = ((st.withPending (s :: rest)).view claims).drop s.core (rest.map core) := by
    rw [View.drop, core_message]
    split_ifs <;> rfl
  rw [hview]
  exact .single (.drop _ _ rfl hok)

lemma pushOutPending (samples rest : List Sample) (st : InstanceState) (hdrops : ok .dropsPending)
    (hok : ∀ s ∈ samples, s.message.state.write → ok .losesPending) :
    Edits qos ok ((st.withPending (samples ++ rest)).view claims)
      (((pushOutPending limit samples st).2.withPending
        ((InstanceState.pushOutPending limit samples st).1 ++ rest)).view claims) := by
  induction samples generalizing st with
  | nil => exact .refl
  | cons s samples ih =>
    rw [InstanceState.pushOutPending]
    have hdrop := drop qos ok claims s (samples ++ rest) st (.inr ⟨hdrops, hok s mem_cons_self⟩)
    have hrest := fun st ↦ ih st fun x hx ↦ hok x (mem_cons_of_mem s hx)
    split_ifs with hlimit hwrite
    · rw [if_pos hwrite] at hdrop
      exact hdrop.trans (hrest _)
    · rw [if_neg hwrite] at hdrop
      exact hdrop.trans (hrest _)
    · exact .refl

lemma makePendingRoom (older newer : List Sample) (st : InstanceState) (hdrops : ok .dropsPending)
    (hok : ∀ s ∈ older ++ newer, s.message.state.write → ok .losesPending) :
    Edits qos ok ((st.withPending (older ++ newer)).view claims)
      (((makePendingRoom limit older newer st).2.2.withPending
        ((InstanceState.makePendingRoom limit older newer st).1 ++
          (InstanceState.makePendingRoom limit older newer st).2.1)).view claims) := by
  have hfirst := pushOutPending qos ok claims limit older newer st hdrops
    fun s hs ↦ hok s (mem_append_left newer hs)
  rw [InstanceState.makePendingRoom]
  generalize InstanceState.pushOutPending limit older st = out at hfirst ⊢
  split_ifs with hempty
  · rw [isEmpty_iff.mp hempty, nil_append] at hfirst
    have hsecond := pushOutPending qos ok claims limit newer [] out.2 hdrops
      fun s hs ↦ hok s (mem_append_right older hs)
    rw [append_nil, append_nil] at hsecond
    exact hfirst.trans hsecond
  · exact hfirst

lemma linkPending (older newer : List Sample) (st : InstanceState)
    (hcontext : context ≠ .transactionFlush) (hadmits : ok (.admits message))
    (hkind : HasKind message) (hpends : ok .pends)
    (hlife : expiryTime qos clock message ≠ none → ok .pendsLifespan) :
    Edits qos ok ((st.withPending (older ++ newer)).view claims)
      ((linkPending qos clock message context older newer st).2.view claims) := by
  have hleft : claimsLeft message context claims = claims := if_neg fun h ↦ hcontext h.2
  rw [InstanceState.linkPending]
  rcases claimResource_cases qos claims message context (st.withPending (older ++ newer)) with
    ⟨hclaim, hclaimed⟩ | ⟨hclaim, hrest, -⟩
  · rw [if_neg (not_not_intro hclaim)]
    rw [hleft] at hclaimed
    have hnew := view_sampleNew qos claims clock message
      (claimResource qos message context (st.withPending (older ++ newer))).2
    have hfresh := core_sampleNew qos claims clock message
      (claimResource qos message context (st.withPending (older ++ newer))).2
    rw [hclaimed] at hnew hfresh
    generalize sampleNew qos clock message
      (claimResource qos message context (st.withPending (older ++ newer))).2 = new at hnew hfresh ⊢
    have hedit : Edit qos ok ((st.withPending (older ++ newer)).view claims) _ :=
      .pend (older.map core) (newer.map core) message context
        (expiryTime qos clock message) hadmits hkind hpends (by simp [view, withPending]) hlife
    have hview : (new.2.withPending (older ++ new.1 :: newer)).view claims = _ :=
      view_withPending claims _ _
    rw [map_append, map_cons, hfresh, hnew] at hview
    rw [hview]
    convert Relation.ReflTransGen.single hedit using 1
    simp [fresh]
  · rw [if_pos hclaim, hrest]

lemma insertPending (hcontext : context ≠ .transactionFlush) (hadmits : ok (.admits message))
    (hkind : HasKind message) (hpends : ok .pends) (hdrops : ok .dropsPending)
    (hlife : expiryTime qos clock message ≠ none → ok .pendsLifespan)
    (hdrop : message.state.write → qos.history = .keepLast →
      limitReached qos.maxSamplesPerInstance st.inst.resourceSampleCount →
      ∀ s ∈ st.inst.pending, s.message.state.write → ok .losesPending) :
    Edits qos ok (st.view claims) ((insertPending qos clock message context st).2.view claims) := by
  rw [InstanceState.insertPending]
  have happend : (if qos.bySourceTime then st.inst.pending.rdropWhile (olderThan message)
      else st.inst.pending) ++ (if qos.bySourceTime then
        st.inst.pending.rtakeWhile (olderThan message) else []) = st.inst.pending := by
    split_ifs
    · exact rdropWhile_append_rtakeWhile
    · exact append_nil _
  generalize (if qos.bySourceTime then st.inst.pending.rdropWhile (olderThan message)
      else st.inst.pending) = older at *
  generalize (if qos.bySourceTime then st.inst.pending.rtakeWhile (olderThan message) else []) =
    newer at *
  have hlink : Edits qos ok (st.view claims)
      ((InstanceState.linkPending qos clock message context older newer st).2.view claims) := by
    have h := linkPending qos ok claims older newer st hcontext hadmits hkind hpends hlife
    rwa [happend] at h
  by_cases hsame : qos.bySourceTime ∧
      (older.getLast?.any fun s ↦ messageCompare message s.message = .eq)
  · rw [if_pos hsame]
  rw [if_neg hsame]
  rcases hmax : qos.maxSamplesPerInstance with - | limit
  · exact hlink
  dsimp only
  by_cases hfull : message.state.write ∧ limit ≤ st.inst.resourceSampleCount
  swap
  · rw [if_neg hfull]
    exact hlink
  rw [if_pos hfull]
  split
  · split_ifs <;> exact .refl
  split_ifs with hkeep
  · have hlimit : limitReached qos.maxSamplesPerInstance st.inst.resourceSampleCount := by
      simpa [limitReached, hmax] using hfull.2
    have hroom := makePendingRoom qos ok claims limit older newer st hdrops
      (by rw [happend]; exact hdrop hfull.1 hkeep hlimit)
    rw [happend] at hroom
    exact hroom.trans (linkPending qos ok claims _ _ _ hcontext hadmits hkind hpends hlife)
  · exact hlink

end Edits

end OpenSplice.Kernel
