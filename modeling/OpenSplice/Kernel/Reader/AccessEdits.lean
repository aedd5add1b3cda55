import OpenSplice.Kernel.Reader.Edits

/-!
# Access as edits

Reading, taking and purging the samples of an instance are edits: a sample that is read is marked
(`Edits.readSamples`), and one that is taken (`Edits.takeSamples`) or purged
(`Edits.instancePurge`) is removed. Samples that are held back are only touched by a purge.
-/

set_option autoImplicit false

namespace OpenSplice.Kernel

open Sample InstanceState LoopOut

/-! ### The core of a sample -/

namespace Sample

variable (s : Sample)

@[simp]
lemma core_id : s.core.id = s.id := rfl

@[simp]
lemma core_message : s.core.message = s.message := rfl

@[simp]
lemma core_validData : s.core.validData = s.validData := rfl

@[simp]
lemma core_inMinSepTime : s.core.inMinSepTime = s.inMinSepTime := rfl

@[simp]
lemma core_expiryTime : s.core.expiryTime = s.expiryTime := rfl

@[simp]
lemma core_accessed : s.core.accessed = s.accessed := rfl

@[simp]
lemma core_readId (n : ℕ) : ({ s with readId := n } : Sample).core = s.core := rfl

@[simp]
lemma settleRead_accessed : s.settleRead.accessed = s.accessed := by
  simp [settleRead, accessed]

end Sample

def Sample.stamp (s : Sample) : Message × Bool := (s.message, s.validData)

lemma map_stamp_of_map_core {l l' : List Sample}
    (h : l.map core = l'.map core) : l.map stamp = l'.map stamp := by
  have hstamp : (stamp : Sample → _) = stamp ∘ core := rfl
  rw [hstamp, ← List.map_map, ← List.map_map, h]

namespace InstanceState

def withHistory (history : List Sample) (st : InstanceState) : InstanceState :=
  { st with inst := { st.inst with history := history } }

lemma view_sampleRemove (claims : ℤ) (older : List Sample) (s : Sample) (newer : List Sample)
    (pushed : Bool) (st : InstanceState) :
    (sampleRemove older s newer pushed st).view claims =
      (st.view claims).remove (older.map core) s.core (newer.map core) := by
  simp only [sampleRemove, view, View.remove, List.map_append]
  rfl

lemma remove_settleRead (older : List Sample) (s : Sample) (newer : List Sample) (v : View) :
    v.remove older s.settleRead.core newer = v.remove older s.core newer := by
  simp only [View.remove, core_accessed, settleRead_accessed]
  rfl

lemma splitUnread_append (history : List Sample) :
    (splitUnread history).1 ++ (splitUnread history).2 = history := by
  rw [splitUnread, List.span_eq_takeWhile_dropWhile, List.takeWhile_append_dropWhile]

open List

variable (qos : ReaderQos)

lemma perm_sampleTake (answer : ActionResult) (older : List Sample) (s : Sample)
    (newer accepted : List Sample) (st : InstanceState) :
    (((if (sampleTake qos (some answer) older s newer st).2.2.skip then accepted
        else accepted ++ [s.settleRead]) ++
      (older ++ (sampleTake qos (some answer) older s newer st).1.toList ++ newer)).map
        stamp).Perm ((accepted ++ (older ++ s :: newer)).map stamp) := by
  rw [sampleTake]
  split
  · simp only [append_assoc, map_append]
    exact .refl _
  by_cases hskip : (((some answer).map (actionAnswer qos)).getD .goOn).skip
  · simp only [if_pos hskip, append_assoc, map_append]
    exact .refl _
  · simp only [if_neg hskip, append_assoc, map_append]
    have hmiddle : (s.stamp :: (older.map stamp ++ newer.map stamp)).Perm
        (older.map stamp ++ s.stamp :: newer.map stamp) := perm_middle.symm
    exact hmiddle.append_left _

end InstanceState

namespace Edits

open InstanceState List

variable (qos : ReaderQos) (ok : Effect → Prop) (claims : ℤ)
  {older : List Sample} {s : Sample} {newer : List Sample} {st : InstanceState}

lemma sampleRemove {pushed : Bool}
    (hist : st.inst.history.map core = (older ++ s :: newer).map core)
    (hok : s.inMinSepTime → ok .removesHeldBack) :
    Edits qos ok (st.view claims) ((sampleRemove older s newer pushed st).view claims) := by
  rw [view_sampleRemove]
  refine .single (.remove _ _ _ ?_ hok)
  simpa [view] using hist

lemma mark {s' : Sample} {st' : InstanceState} (hheld : s.inMinSepTime = false)
    (hs' : s'.core = { s.core with read := s'.read, lazyRead := s'.lazyRead })
    (hcount : st'.reader.notReadCount = st.reader.notReadCount +
      (if s.accessed then 1 else 0) - if s'.accessed then 1 else 0)
    (hview : (st'.withHistory []).view claims =
      { (st.withHistory []).view claims with notReadCount := st'.reader.notReadCount }) :
    Edits qos ok ((st.withHistory (older ++ s :: newer)).view claims)
      ((st'.withHistory (older ++ s' :: newer)).view claims) := by
  have hedit : Edit qos ok ((st.withHistory (older ++ s :: newer)).view claims) _ :=
    .mark (older.map core) s.core s'.read s'.lazyRead (newer.map core)
      (by simp [view, withHistory]) hheld
  convert Relation.ReflTransGen.single hedit using 1
  have hacc : ({ s.core with read := s'.read, lazyRead := s'.lazyRead } : Sample).accessed =
      s'.accessed := by
    rw [← hs', core_accessed]
  simp only [view, withHistory, View.mk.injEq, map_nil, true_and] at hview
  obtain ⟨h1, h2, h3, h4, h5, h6, h7, -⟩ := hview
  simp only [View.mark, hacc, view, withHistory, View.mk.injEq, map_append, map_cons, hs',
    core_accessed]
  exact ⟨trivial, h1, hcount, h2, h3, h4, h5, h6, h7, trivial⟩

/-! ### Reading -/

lemma sampleRead (answer : ActionResult) (older : List Sample) (s : Sample) (newer : List Sample)
    (st : InstanceState) :
    Edits qos ok ((st.withHistory (older ++ s :: newer)).view claims)
      (((sampleRead qos answer s st).2.1.withHistory
        (older ++ (sampleRead qos answer s st).1 :: newer)).view claims) := by
  rw [InstanceState.sampleRead]
  by_cases hheld : s.inMinSepTime
  · rw [if_pos hheld]
  · rw [if_neg hheld]
    have hfree : s.inMinSepTime = false := by simpa using hheld
    by_cases hskip : (actionAnswer qos answer).skip
    · rw [if_pos hskip]
      exact mark qos ok claims hfree rfl (by simp) rfl
    · rw [if_neg hskip]
      refine mark qos ok claims hfree rfl ?_ rfl
      cases hread : s.read <;> cases hlazy : s.lazyRead <;>
        simp [accessed, settleRead, hfree, hread, hlazy]

variable (query : Option (Message → Bool)) (mask : SampleMask) (readId : ℕ)

lemma readLoop (action : Action) (rest before : List Sample) (st : InstanceState)
    (handed accepted : List Sample) :
    Edits qos ok ((st.withHistory (before ++ rest)).view claims)
      ((readLoop qos query mask readId action rest before st handed accepted).final.view
        claims) := by
  induction rest generalizing before st handed accepted with
  | nil => exact .refl
  | cons s rest ih =>
    rw [InstanceState.readLoop]
    split
    · have hread := sampleRead qos ok claims
        (action handed { s with readId := readId }.settleRead) before { s with readId := readId }
        rest st
      have hview : (st.withHistory (before ++ { s with readId := readId } :: rest)).view claims =
          (st.withHistory (before ++ s :: rest)).view claims := by simp [view, withHistory]
      rw [hview] at hread
      dsimp only
      generalize InstanceState.sampleRead qos (action handed { s with readId := readId }.settleRead)
        { s with readId := readId } st = out at hread
      refine hread.trans ?_
      split
      · have h := ih (before ++ [out.1]) out.2.1
        rw [append_assoc, singleton_append] at h
        exact h _ _
      · rw [final, append_assoc, singleton_append]
        exact .refl
    · have h := ih (before ++ [s]) st handed accepted
      rwa [append_assoc, singleton_append] at h

lemma settleInvalid (before : List Sample) (rest : List Sample) (st : InstanceState)
    (hs : unreadInvalid s) :
    Edits qos ok ((st.withHistory (before ++ s :: rest)).view claims)
      (({ st with reader := { st.reader with
          notReadCount := st.reader.notReadCount - 1 } }.withHistory
        (before ++ { s with read := true } :: rest)).view claims) := by
  have hs' : s.accessed = false := by
    simp only [unreadInvalid, Bool.not_eq_true', Bool.or_eq_false_iff] at hs
    exact hs.2
  have hfree : s.inMinSepTime = false := by
    simp only [accessed, Bool.or_eq_false_iff] at hs'
    exact hs'.2
  refine mark qos ok claims hfree rfl ?_ rfl
  have hread : ({ s with read := true } : Sample).accessed := by simp [accessed]
  rw [hs', hread]
  simp

lemma resetEventCounters_from (rest before : List Sample) (st : InstanceState) :
    Edits qos ok ((st.withHistory (before ++ rest)).view claims)
      (({ st with reader := { st.reader with
          notReadCount := st.reader.notReadCount - rest.countP unreadInvalid } }.withHistory
        (before ++ rest.map fun s ↦
          if unreadInvalid s then { s with read := true } else s)).view claims) := by
  induction rest generalizing before st with
  | nil => simpa using .refl
  | cons s rest ih =>
    by_cases hs : unreadInvalid s
    · refine (settleInvalid qos ok claims before rest st hs).trans ?_
      have h := ih (before ++ [{ s with read := true }])
        { st with reader := { st.reader with notReadCount := st.reader.notReadCount - 1 } }
      simpa [hs, Int.sub_sub, Int.add_comm] using h
    · have h := ih (before ++ [s]) st
      simpa [hs] using h

lemma resetEventCounters (st : InstanceState) :
    Edits qos ok (st.view claims) ((resetEventCounters st).view claims) :=
  resetEventCounters_from qos ok claims st.inst.history [] st

variable (action : Action)

lemma readSamples (st : InstanceState) :
    Edits qos ok (st.view claims) ((readSamples qos query mask action st).st.view claims) := by
  rw [InstanceState.readSamples]
  split
  · exact .refl
  split
  · split_ifs with hchanged
    · rcases hsplit : (splitUnread st.inst.history).2 with - | ⟨s, newer⟩
      · exact .refl
      · by_cases hmask : sampleMaskPass mask s st.inst
        · have hread := sampleRead qos ok claims
            (action [] s.settleRead) (splitUnread st.inst.history).1 s newer st
          rw [← hsplit, splitUnread_append] at hread
          simp only [if_pos hmask]
          split_ifs
          · exact hread
          · exact hread.trans (resetEventCounters qos ok claims _)
        · simp only [if_neg hmask]
          exact .refl
    · exact .refl
  · have hloop := readLoop qos ok claims query mask st.reader.readCnt
      action st.inst.history [] st [] []
    dsimp only
    split_ifs
    · exact hloop
    · exact hloop.trans (resetEventCounters qos ok claims _)

/-! ### Taking -/

/-- `v_dataReaderSampleTake`: what is left of the sample is in its place. -/
lemma sampleTake (answer : Option ActionResult)
    (hist : st.inst.history.map core = (older ++ s :: newer).map core) :
    Edits qos ok (st.view claims) ((sampleTake qos answer older s newer st).2.1.view claims) ∧
      (sampleTake qos answer older s newer st).2.1.inst.history.map core =
        ((older ++ (sampleTake qos answer older s newer st).1.toList) ++ newer).map core := by
  rw [InstanceState.sampleTake]
  split_ifs with hheld
  · exact ⟨.refl, by simpa using hist⟩
  have hfree : s.inMinSepTime = false := by simpa using hheld
  by_cases hskip : ((answer.map (actionAnswer qos)).getD .goOn).skip
  · rw [if_pos hskip]
    refine ⟨?_, by simp⟩
    have hmark : Edits qos ok ((st.withHistory (older ++ s :: newer)).view claims)
        ((st.withHistory (older ++ s.settleRead :: newer)).view claims) :=
      mark qos ok claims hfree rfl (by simp) rfl
    have hview : (st.withHistory (older ++ s :: newer)).view claims = st.view claims := by
      simp only [view, withHistory, hist]
    rwa [hview] at hmark
  · rw [if_neg hskip]
    refine ⟨?_, by simp [InstanceState.sampleRemove]⟩
    refine .single ?_
    rw [view_sampleRemove, remove_settleRead]
    exact .remove _ _ _ (by simpa [view] using hist) (fun h ↦ absurd h hheld)

lemma purgeSample (hist : st.inst.history.map core = (older ++ s :: newer).map core) :
    Edits qos ok (st.view claims) ((purgeSample qos older s newer st).2.view claims) ∧
      (purgeSample qos older s newer st).2.inst.history.map core =
        ((purgeSample qos older s newer st).1 ++ newer).map core := by
  rw [InstanceState.purgeSample]
  split_ifs with hvalid
  · exact ⟨.refl, by simpa using hist⟩
  · exact sampleTake qos ok claims none hist

lemma purgeInvalid (rest samples older : List Sample)
    (hist : st.inst.history.map core = (older ++ (samples ++ rest)).map core) :
    Edits qos ok (st.view claims) ((purgeInvalid qos rest samples older st).2.view claims) ∧
      (purgeInvalid qos rest samples older st).2.inst.history.map core =
        ((purgeInvalid qos rest samples older st).1 ++ rest).map core := by
  induction samples generalizing older st with
  | nil => exact ⟨.refl, hist⟩
  | cons _ _ ih =>
    obtain ⟨hedits, hist'⟩ := purgeSample qos ok claims hist
    obtain ⟨hedits', hist''⟩ := ih _ hist'
    exact ⟨hedits.trans hedits', hist''⟩

variable (samples : List Sample)

lemma purgeUpToValid (hist : st.inst.history.map core = (older ++ samples).map core) :
    Edits qos ok (st.view claims) ((purgeUpToValid qos samples older st).view claims) := by
  induction samples generalizing older st with
  | nil => exact .refl
  | cons _ _ ih =>
    rw [purgeUpToValid]
    split_ifs with hvalid
    · exact .refl
    · obtain ⟨hedits, hist'⟩ := purgeSample qos ok claims hist
      exact hedits.trans (ih hist')

lemma invalidSamplesPurgeUntil {before rest : List Sample}
    (hist : st.inst.history.map core = (before ++ rest).map core) :
    Edits qos ok (st.view claims) ((invalidSamplesPurgeUntil qos before rest st).view claims) := by
  obtain ⟨hedits, hist'⟩ := purgeInvalid qos ok claims rest before [] hist
  exact hedits.trans (purgeUpToValid qos ok claims rest hist')

/-- The loop of `v_dataReaderInstanceTakeSamples`, which hands the samples out that it takes
away. -/
lemma takeLoop (action : Action) (rest before : List Sample) (st : InstanceState)
    (handed accepted : List Sample) (hist : st.inst.history.map core = (before ++ rest).map core) :
    let out := takeLoop qos query mask readId action rest before st handed accepted
    Edits qos ok (st.view claims) (out.final.view claims) ∧
      ((out.accepted ++ (out.before ++ out.rest)).map stamp).Perm
        ((accepted ++ (before ++ rest)).map stamp) := by
  induction rest generalizing before st handed accepted with
  | nil =>
    have hview : (mk before [] st handed accepted true).final.view claims = st.view claims := by
      simp only [final, view, ← hist]
    rw [InstanceState.takeLoop]
    exact ⟨hview ▸ .refl, .refl _⟩
  | cons s rest ih =>
    rw [InstanceState.takeLoop]
    split
    · have hist1 : st.inst.history.map core =
          (before ++ { s with readId := readId } :: rest).map core := by
        rw [hist]
        simp
      have htake := sampleTake qos ok claims
        (some (action handed { s with readId := readId }.settleRead)) hist1
      have hstep := perm_sampleTake qos (action handed { s with readId := readId }.settleRead)
        before { s with readId := readId } rest accepted st
      have hstamp : (accepted ++ (before ++ { s with readId := readId } :: rest)).map stamp =
          (accepted ++ (before ++ s :: rest)).map stamp := by
        simp only [map_append, map_cons]
        rfl
      rw [hstamp] at hstep
      dsimp only
      generalize InstanceState.sampleTake qos
        (some (action handed { s with readId := readId }.settleRead)) before
        { s with readId := readId } rest st = out at htake hstep ⊢
      obtain ⟨hedits, hist'⟩ := htake
      split
      · obtain ⟨hrest, hperm⟩ := ih _ _ _ _ hist'
        exact ⟨hedits.trans hrest, hperm.trans hstep⟩
      · refine ⟨?_, hstep⟩
        simp only [final, view, ← hist']
        exact hedits
    · obtain ⟨hrest, hperm⟩ := ih (before ++ [s]) st handed accepted (by simpa using hist)
      rw [append_assoc, singleton_append] at hperm
      exact ⟨hrest, hperm⟩

/-- `v_dataReaderInstanceTakeSamples`: what it hands out is what is missing from the history before
samples without data are purged. -/
lemma takeSamples_split (st : InstanceState) :
    ∃ st1 : InstanceState, Edits qos ok (st.view claims) (st1.view claims) ∧
      Edits qos ok (st1.view claims) ((takeSamples qos query mask action st).st.view claims) ∧
      (((takeSamples qos query mask action st).accepted ++ st1.inst.history).map stamp).Perm
        (st.inst.history.map stamp) := by
  rw [takeSamples]
  split
  · exact ⟨st, .refl, .refl, .refl _⟩
  split
  · split_ifs with hchanged
    · rcases hsplit : (splitUnread st.inst.history).2 with - | ⟨s, newer⟩
      · exact ⟨st, .refl, .refl, .refl _⟩
      · by_cases hmask : sampleMaskPass mask s st.inst
        · have hist : st.inst.history = (splitUnread st.inst.history).1 ++ s :: newer := by
            rw [← hsplit, splitUnread_append]
          obtain ⟨hedits, hist'⟩ := sampleTake qos ok claims (some (action [] s.settleRead))
            (congrArg (map core) hist)
          have hperm := perm_sampleTake qos (action [] s.settleRead)
            (splitUnread st.inst.history).1 s newer [] st
          rw [nil_append, ← hist] at hperm
          simp only [if_pos hmask]
          refine ⟨_, hedits, ?_, ?_⟩
          · split_ifs
            · exact .refl
            · exact invalidSamplesPurgeUntil qos ok claims (by simp)
          · rw [map_append, map_stamp_of_map_core hist', ← map_append]
            exact hperm
        · simp only [if_neg hmask]
          exact ⟨st, .refl, .refl, .refl _⟩
    · exact ⟨st, .refl, invalidSamplesPurgeUntil qos ok claims (by simp), .refl _⟩
  · obtain ⟨hloop, hperm⟩ := takeLoop qos ok claims query mask st.reader.readCnt
      action st.inst.history [] st [] [] rfl
    dsimp only
    refine ⟨_, hloop, ?_, hperm⟩
    split_ifs
    · exact .refl
    · exact (invalidSamplesPurgeUntil qos ok claims rfl).trans (resetEventCounters qos ok claims _)

lemma takeSamples (st : InstanceState) :
    Edits qos ok (st.view claims) ((takeSamples qos query mask action st).st.view claims) := by
  obtain ⟨_, htaken, hpurged, -⟩ := takeSamples_split qos ok claims query mask action st
  exact htaken.trans hpurged

def purgeable (disposedCount noWritersCount : ℤ) (s : Sample) : Bool :=
  (0 ≤ disposedCount && s.disposeCount ≤ disposedCount) ||
    (0 ≤ noWritersCount && s.noWritersCount ≤ noWritersCount)

lemma purgeWhile {expired : Sample → Bool} (hist : st.inst.history = samples)
    (hok : ∀ s ∈ samples, expired s → s.inMinSepTime → ok .removesHeldBack) :
    Edits qos ok (st.view claims) ((purgeWhile expired samples st).view claims) ∧
      ∀ s ∈ (purgeWhile expired samples st).inst.history, s ∈ samples := by
  induction samples generalizing st with
  | nil => exact ⟨.refl, by simp [purgeWhile, hist]⟩
  | cons s samples ih =>
    rw [purgeWhile]
    split_ifs with hs
    · have hremove : Edits qos ok (st.view claims)
          ((InstanceState.sampleRemove [] s samples false st).view claims) :=
        sampleRemove qos ok claims (congrArg (map core) hist) (hok s mem_cons_self hs)
      have hist' : (InstanceState.sampleRemove [] s samples false st).inst.history = samples := rfl
      obtain ⟨hedits, hmem⟩ := ih hist' fun x hx ↦ hok x (mem_cons_of_mem s hx)
      exact ⟨hremove.trans hedits, fun x hx ↦ mem_cons_of_mem s (hmem x hx)⟩
    · exact ⟨.refl, by simp [hist]⟩

lemma instancePurge {disposedCount noWritersCount : ℤ}
    (hok : ∀ s ∈ st.inst.history, purgeable disposedCount noWritersCount s →
      s.inMinSepTime → ok .removesHeldBack) :
    Edits qos ok (st.view claims) ((instancePurge disposedCount noWritersCount st).view
      claims) := by
  rw [InstanceState.instancePurge]
  have hfirst : Edits qos ok (st.view claims) ((if 0 ≤ disposedCount then
          InstanceState.purgeWhile (fun s ↦ s.disposeCount ≤ disposedCount) st.inst.history st
        else st).view claims) ∧
      ∀ s ∈ (if 0 ≤ disposedCount then
          InstanceState.purgeWhile (fun s ↦ s.disposeCount ≤ disposedCount) st.inst.history st
        else st).inst.history, s ∈ st.inst.history := by
    split_ifs with hcount
    · refine purgeWhile qos ok claims st.inst.history rfl fun s hs hgone ↦ hok s hs ?_
      simp [purgeable, hcount, hgone]
    · exact ⟨.refl, fun s hs ↦ hs⟩
  obtain ⟨hedits, hmem⟩ := hfirst
  split
  case isTrue hcount =>
    refine hedits.trans (purgeWhile qos ok claims _ rfl fun s hs hgone ↦ hok s (hmem s hs) ?_).1
    simp [purgeable, hcount, hgone]
  · exact hedits

end Edits

end OpenSplice.Kernel
