import OpenSplice.Kernel.Reader.InsertEdits

/-!
# The operations on an instance as edits

What `InsertEdits` shows of the parts is put together for the operations of an instance:
`v_dataReaderInstanceInsert` (`Edits.instanceInsert`), `v_dataReaderInstanceFlushPending`
(`Edits.flushLoop`) and `v_dataReaderInstanceCheckMinimumSeparation`
(`Edits.checkMinimumSeparation`). The assumptions say which effects the operation can have in the
state it is called in.
-/

set_option autoImplicit false

namespace OpenSplice.Kernel

open InstanceState List Sample Option View ActionResult

def displacesPending (qos : ReaderQos) (message : Message) (st : InstanceState) : Prop :=
  message.state.write = true ∧ qos.history = .keepLast ∧
    limitReached qos.maxSamplesPerInstance st.inst.resourceSampleCount = true ∧
    ∃ s ∈ st.inst.pending, s.message.state.write = true

/-- The effects that the insertion of a message has are allowed. -/
structure InsertAllowed (qos : ReaderQos) (ok : Effect → Prop) (clock : Clock) (message : Message)
    (context : MessageContext) (st : InstanceState) : Prop where
  heldBack : ¬goesPending qos context st → heldBackOlder qos message st ≠ [] →
    ok .removesHeldBack
  marker : message.state.replaced = true → heldBackAfter qos message st.inst ≠ [] →
    ok .removesHeldBack
  replaced : ∀ s, replacedSample qos message st.inst = some s → s.expiryTime ≠ none →
    ok .forgetsLifespan
  lifespan : goesPending qos context st → expiryTime qos clock message ≠ none → ok .pendsLifespan
  displaced : goesPending qos context st → displacesPending qos message st → ok .losesPending
  holds : ok .holds
  pends : ok .pends
  dropsPending : ok .dropsPending
  admits : ok (.admits message)

/-- The message gets as far as the samples. -/
structure Settled (message : Message) (ownership : OwnershipResult) (st : InstanceState) :
    Prop where
  register : message.state.register = false
  unregister : message.state.unregister = false
  prepareDelete : st.reader.prepareDelete = false
  compatible : ownership ≠ .incompatibleQos
  owner : ownership ≠ .notOwner

section Marker

variable (qos : ReaderQos) (message : Message) {R : InstanceState → InstanceState → Prop}
  (refl : ∀ st, R st st) (trans : ∀ {st st' st''}, R st st' → R st' st'' → R st st'')
  (take : ∀ {older s newer st}, st.inst.history.map core = (older ++ s :: newer).map core →
    R st (sampleTake qos none older s newer st).2.1)

include refl trans take

lemma rel_takeReplaced {older newer : List Sample} {st : InstanceState}
    (reset : ∀ st, R st { st with inst := { st.inst with lastConsumed := ⟨0, .nil, 0, false⟩ } })
    (hist : st.inst.history.map core = (older ++ newer).map core) :
    R st (takeReplaced qos newer older st) := by
  induction newer generalizing older st with
  | nil => exact refl st
  | cons s newer ih =>
    rw [takeReplaced]
    have htake := take hist
    obtain ⟨-, hist'⟩ := Edits.sampleTake qos (fun _ ↦ True) 0 none hist
    generalize sampleTake qos none older s newer st = out at htake hist' ⊢
    refine trans htake ?_
    split_ifs
    · exact trans (reset out.2.1) (ih hist')
    · exact ih hist'

/-- What holds across each step of `processReplaceMarker` holds across all of it. -/
lemma rel_replaceMarker (reset : message.state.replaced → ∀ st, R st { st with inst :=
      { st.inst with lastConsumed := ⟨0, .nil, 0, false⟩ } })
    (flag : ∀ st, R st { st with inst := { st.inst with replaced := false } })
    (st : InstanceState) :
    R st (if st.inst.replaced then processReplaceMarker qos message st else st) := by
  split_ifs
  · rw [processReplaceMarker]
    split_ifs with hreplaced
    · exact trans (flag st) (rel_takeReplaced qos refl trans take (reset hreplaced) rfl)
    · exact flag st
    · exact refl st
  · exact refl st

end Marker

/-- What the insertion of a message depends on is the same, up to samples that are gone. -/
structure Prepared (st st' : InstanceState) : Prop where
  pending : st'.inst.pending = st.inst.pending
  inMinSepTime : st'.inst.inMinSepTime = st.inst.inMinSepTime
  lastInsertionTime : st'.inst.lastInsertionTime = st.inst.lastInsertionTime
  accessBusy : st'.reader.accessBusy = st.reader.accessBusy
  prepareDelete : st'.reader.prepareDelete = st.reader.prepareDelete
  resourceSampleCount : st'.inst.resourceSampleCount ≤ st.inst.resourceSampleCount
  heldBack : (heldBack st'.inst).map Sample.core = (heldBack st.inst).map Sample.core

namespace Prepared

variable {st st' : InstanceState} {older : List Sample}

lemma refl (st : InstanceState) : Prepared st st := ⟨rfl, rfl, rfl, rfl, rfl, le_rfl, rfl⟩

lemma trans {st'' : InstanceState} (h : Prepared st st') (h' : Prepared st' st'') :
    Prepared st st'' where
  pending := h'.pending.trans h.pending
  inMinSepTime := h'.inMinSepTime.trans h.inMinSepTime
  lastInsertionTime := h'.lastInsertionTime.trans h.lastInsertionTime
  accessBusy := h'.accessBusy.trans h.accessBusy
  prepareDelete := h'.prepareDelete.trans h.prepareDelete
  resourceSampleCount := h'.resourceSampleCount.trans h.resourceSampleCount
  heldBack := h'.heldBack.trans h.heldBack

lemma map_core_heldBack (inst : Instance) : (InstanceState.heldBack inst).map Sample.core =
      (inst.history.map Sample.core).filter Sample.inMinSepTime := by
  rw [List.filter_map]
  rfl

section

variable (h : Prepared st st')
include h

lemma replacedSample (qos : ReaderQos) (message : Message) :
    (replacedSample qos message st'.inst).map core =
      (InstanceState.replacedSample qos message st.inst).map core := by
  have hlast : (InstanceState.heldBack st'.inst).getLast?.map core =
      (InstanceState.heldBack st.inst).getLast?.map core := by
    rw [← getLast?_map, ← getLast?_map, h.heldBack]
  rw [InstanceState.replacedSample, InstanceState.replacedSample, h.inMinSepTime]
  split_ifs
  · generalize (InstanceState.heldBack st'.inst).getLast? = x at hlast ⊢
    generalize (InstanceState.heldBack st.inst).getLast? = y at hlast ⊢
    cases x <;> cases y <;> simp only [map_none, map_some, reduceCtorEq] at hlast
    · rfl
    · rename_i x y
      have hcore : x.core = y.core := some_inj.mp hlast
      have hmessage : x.message = y.message := by rw [← core_message x, hcore, core_message]
      rw [filter_some, filter_some, hmessage]
      split_ifs
      · exact hlast
      · rfl
  · rfl

lemma heldBackAfter (qos : ReaderQos) (message : Message) :
    (heldBackAfter qos message st'.inst).map core =
      (InstanceState.heldBackAfter qos message st.inst).map core := by
  have hsome : (InstanceState.replacedSample qos message st'.inst).isSome =
      (InstanceState.replacedSample qos message st.inst).isSome := by
    rw [← isSome_map (f := core), h.replacedSample, isSome_map]
  rw [InstanceState.heldBackAfter, InstanceState.heldBackAfter, hsome]
  split_ifs
  · rw [map_dropLast, map_dropLast, h.heldBack]
  · exact h.heldBack

lemma heldBackOlder (qos : ReaderQos) (message : Message)
    (hist : st'.inst.history = st.inst.history) :
    heldBackOlder qos message st' = heldBackOlder qos message st := by
  have hout : (replaceHeldBack qos message st').1 = (replaceHeldBack qos message st).1 ∧
      (replaceHeldBack qos message st').2.inst.history =
        (replaceHeldBack qos message st).2.inst.history ∧
      (replaceHeldBack qos message st').2.inst.lastInsertionTime =
        (replaceHeldBack qos message st).2.inst.lastInsertionTime := by
    rw [replaceHeldBack, replaceHeldBack, h.inMinSepTime, hist]
    split_ifs
    · rcases findHeldBack st.inst.history with - | ⟨older, s, newer⟩
      · exact ⟨rfl, hist, h.lastInsertionTime⟩
      · dsimp only
        split_ifs
        · exact ⟨rfl, rfl, h.lastInsertionTime⟩
        · exact ⟨rfl, hist, h.lastInsertionTime⟩
    · exact ⟨rfl, hist, h.lastInsertionTime⟩
  obtain ⟨hresult, hhist, htime⟩ := hout
  have hearly : tooEarly qos message (replaceHeldBack qos message st').2.inst =
      tooEarly qos message (replaceHeldBack qos message st).2.inst := by
    rw [tooEarly, tooEarly, htime]
  rw [InstanceState.heldBackOlder, InstanceState.heldBackOlder, hhist]
  exact if_congr (by rw [hresult, hearly]) rfl rfl

lemma allowed {qos : ReaderQos} {ok : Effect → Prop} {clock : Clock}
    {message : Message} {context : MessageContext}
    (hist : message.state.replaced = false → st'.inst.history = st.inst.history)
    (hok : InsertAllowed qos ok clock message context st) :
    InsertAllowed qos ok clock message context st' where
  heldBack hgoes hne := by
    rw [goesPending, h.accessBusy] at hgoes
    by_cases hreplaced : message.state.replaced
    · refine hok.marker hreplaced fun hnil ↦ hne ?_
      have hmap := h.heldBackAfter qos message
      rw [hnil, map_nil, map_eq_nil_iff] at hmap
      exact subset_nil.mp (hmap ▸ heldBackOlder_subset qos message st')
    · rw [h.heldBackOlder qos message (hist (by simpa using hreplaced))] at hne
      exact hok.heldBack hgoes hne
  marker hreplaced hne := by
    refine hok.marker hreplaced fun hnil ↦ hne ?_
    have hmap := h.heldBackAfter qos message
    rwa [hnil, map_nil, map_eq_nil_iff] at hmap
  replaced s hs hlife := by
    have hmap := h.replacedSample qos message
    rw [hs, map_some, eq_comm, map_eq_some_iff] at hmap
    obtain ⟨x, hx, hcore⟩ := hmap
    refine hok.replaced x hx ?_
    rwa [← core_expiryTime x, hcore]
  lifespan hgoes := by
    rw [goesPending, h.accessBusy] at hgoes
    exact hok.lifespan hgoes
  displaced hgoes hdisplaces := by
    rw [goesPending, h.accessBusy] at hgoes
    obtain ⟨hwrite, hkeep, hlimit, hpending⟩ := hdisplaces
    rw [h.pending] at hpending
    refine hok.displaced hgoes ⟨hwrite, hkeep, ?_, hpending⟩
    have hcount := h.resourceSampleCount
    rcases hmax : qos.maxSamplesPerInstance with - | limit
    · simp [limitReached, hmax] at hlimit
    · simp only [limitReached, hmax, any_some, decide_eq_true_eq] at hlimit ⊢
      omega
  holds := hok.holds
  pends := hok.pends
  dropsPending := hok.dropsPending
  admits := hok.admits

end

lemma sampleTake (qos : ReaderQos) {s : Sample} {newer : List Sample}
    (hist : st.inst.history.map core = (older ++ s :: newer).map core) :
    Prepared st (sampleTake qos none older s newer st).2.1 := by
  rw [InstanceState.sampleTake]
  split_ifs with hheld
  · exact refl st
  · refine ⟨rfl, rfl, rfl, rfl, rfl, ?_, ?_⟩
    · simp only [map_none, getD_none, goOn, Bool.false_eq_true, if_false, sampleRemove]
      split_ifs <;> omega
    · rw [map_core_heldBack, map_core_heldBack, hist]
      simp [goOn, sampleRemove, hheld]

lemma prepareInsert (qos : ReaderQos) (message : Message) (context : MessageContext)
    (st : InstanceState) : Prepared st (prepareInsert qos message context st).2 := by
  have hmarker := rel_replaceMarker qos message refl trans (sampleTake qos)
    (fun _ _ ↦ ⟨rfl, rfl, rfl, rfl, rfl, le_rfl, rfl⟩)
    (fun _ ↦ ⟨rfl, rfl, rfl, rfl, rfl, le_rfl, rfl⟩) st
  rw [InstanceState.prepareInsert]
  generalize (if st.inst.replaced then processReplaceMarker qos message st else st) = st1
    at hmarker ⊢
  refine hmarker.trans ?_
  rw [testOwnership]
  split
  · exact ⟨rfl, rfl, rfl, rfl, rfl, le_rfl, rfl⟩
  · split_ifs <;> exact ⟨rfl, rfl, rfl, rfl, rfl, le_rfl, rfl⟩

end Prepared

variable (qos : ReaderQos) (message : Message) (context : MessageContext) (st : InstanceState)

lemma prepareInsert_fst :
    (prepareInsert qos message context st).1 = (testOwnership message context st.inst).1 := by
  have howner : (if st.inst.replaced then processReplaceMarker qos message st
      else st).inst.owner = st.inst.owner := by
    refine rel_replaceMarker qos message (R := fun st st' ↦ st'.inst.owner = st.inst.owner)
      (fun _ ↦ rfl) (fun h h' ↦ h'.trans h) (fun {older s newer st} _ ↦ ?_) (fun _ _ ↦ rfl)
      (fun _ ↦ rfl) st
    rw [sampleTake]
    split_ifs
    · rfl
    · dsimp only
      split_ifs <;> rfl
  rw [prepareInsert]
  rw [testOwnership, testOwnership, howner]
  split
  · rfl
  · split_ifs <;> rfl

lemma history_prepareInsert (h : message.state.replaced = false) :
    (prepareInsert qos message context st).2.inst.history = st.inst.history := by
  have hmarker : (if st.inst.replaced then processReplaceMarker qos message st else st) = st := by
    split_ifs
    · rw [processReplaceMarker, if_neg (by simp [h])]
    · rfl
  simp only [prepareInsert, hmarker, testOwnership]
  split
  · rfl
  · split_ifs <;> rfl

lemma consumedBefore_ne {qos : ReaderQos} {message : Message} {inst : Instance}
    {result : DataReaderResult} (h : consumedBefore qos message inst = some result) :
    result ≠ .inserted := by
  rintro rfl
  rw [consumedBefore] at h
  split_ifs at h
  split at h <;> simp at h

namespace Edits

variable (qos : ReaderQos) (ok : Effect → Prop) (claims : ℤ)
  {clock : Clock} {message : Message} {context : MessageContext} {st : InstanceState}
  {older : List Sample} {s : Sample} {newer : List Sample}

/-! ### Insertion -/

lemma placeSample (hkind : HasKind message) (hok : InsertAllowed qos ok clock message context st) :
    Edits qos ok (st.view claims) ((placeSample qos clock message context st).2.view
        (if (placeSample qos clock message context st).1 = .inserted then
          claimsLeft message context claims else claims)) := by
  rw [InstanceState.placeSample]
  rcases hconsumed : consumedBefore qos message st.inst with - | result
  · by_cases hpending : goesPending qos context st
    · have hleft : claimsLeft message context claims = claims := if_neg fun h ↦ hpending.1 h.2
      simp only [if_pos hpending, hleft, ite_self]
      refine insertPending qos ok claims hpending.1 hok.admits hkind hok.pends hok.dropsPending
        (hok.lifespan hpending) ?_
      intro hwrite hkeep hlimit s hs hdata
      exact hok.displaced hpending ⟨hwrite, hkeep, hlimit, s, hs, hdata⟩
    · simp only [if_neg hpending]
      exact insertHistory qos ok claims hok.admits hkind hconsumed hok.holds
        (hok.heldBack hpending) hok.replaced
  · simp only [if_neg (consumedBefore_ne hconsumed)]
    exact .refl

lemma insertSample (hkind : HasKind message) (hok : InsertAllowed qos ok clock message context st) :
    Edits qos ok (st.view claims) ((insertSample qos clock message context st).2.view
        (claimsLeft message context claims)) := by
  have hplace := placeSample qos ok claims hkind hok
  rw [InstanceState.insertSample]
  generalize InstanceState.placeSample qos clock message context st = out at hplace ⊢
  split_ifs at hplace with hout
  · rwa [if_neg fun h ↦ h.1 hout]
  by_cases hflush : message.state.write ∧ context = .transactionFlush
  · rw [if_pos ⟨hout, hflush.2, hflush.1⟩, claimsLeft, if_pos hflush]
    exact hplace.tail .reject
  · rw [if_neg fun h ↦ hflush ⟨h.2.2, h.2.1⟩, claimsLeft, if_neg hflush]
    exact hplace

lemma prepareInsert (hok : message.state.replaced → ok .resetsBookmark) :
    Edits qos ok (st.view claims) ((prepareInsert qos message context st).2.view claims) := by
  have hmarker := rel_replaceMarker qos message
    (R := fun st st' ↦ Edits qos ok (st.view claims) (st'.view claims)) (fun _ ↦ .refl) .trans
    (fun hist ↦ (sampleTake qos ok claims none hist).1) (fun h _ ↦ .single (.reset (hok h)))
    (fun _ ↦ .refl) st
  rw [InstanceState.prepareInsert]
  generalize (if st.inst.replaced then processReplaceMarker qos message st else st) = st1
    at hmarker ⊢
  refine hmarker.trans ?_
  rw [testOwnership]
  split
  · exact .refl
  · split_ifs <;> exact .refl

/-- The last part of `v_dataReaderInstanceInsert`. A claim of a transaction is left over if the
message does not get as far as the samples. -/
lemma insertPrepared (ownership : OwnershipResult)
    (hkind : message.state.register = false → HasKind message)
    (hok : InsertAllowed qos ok clock message context st) :
    Edits qos ok (st.view claims) ((insertPrepared qos clock message context ownership st).2.view
          (claimsLeft message context claims)) ∨
      Edits qos ok (st.view claims)
        ((insertPrepared qos clock message context ownership st).2.view claims) ∧
      ¬Settled message ownership st := by
  rw [InstanceState.insertPrepared]
  split
  case isTrue hregister =>
    exact .inr ⟨.refl, fun h ↦ absurd hregister (by simp [h.register])⟩
  rename_i hregister
  have hkind' : HasKind message := hkind (by simpa using hregister)
  by_cases hunregister : message.state.unregister
  · have hunsettled : ¬Settled message ownership st := fun h ↦
      absurd hunregister (by simp [h.unregister])
    by_cases hlive : st.inst.liveliness = 0
    · rw [if_pos ⟨hunregister, hlive⟩]
      exact .inr ⟨.refl, hunsettled⟩
    rw [if_neg fun h ↦ hlive h.2, if_pos hunregister]
    have hview : view claims { st with inst := { st.inst with
        liveliness := st.inst.liveliness - 1 } } = st.view claims := rfl
    have hlower : Prepared st { st with inst := { st.inst with
        liveliness := st.inst.liveliness - 1 } } := ⟨rfl, rfl, rfl, rfl, rfl, le_rfl, rfl⟩
    dsimp only
    split_ifs
    · exact .inr ⟨.refl, hunsettled⟩
    · exact .inr ⟨.refl, hunsettled⟩
    · exact .inr ⟨.refl, hunsettled⟩
    · rw [← hview]
      exact .inl (insertSample qos ok claims hkind' (hlower.allowed (fun _ ↦ rfl) hok))
  · rw [if_neg fun h ↦ hunregister h.1, if_neg hunregister]
    rw [if_neg fun h ↦ hunregister h.1]
    split
    case isTrue hdelete =>
      exact .inr ⟨.refl, fun h ↦ absurd hdelete (by simp [h.prepareDelete])⟩
    split_ifs with howner
    · exact .inr ⟨.refl, fun h ↦ howner.elim h.compatible h.owner⟩
    · exact .inl (insertSample qos ok claims hkind' hok)

lemma instanceInsert (hkind : message.state.register = false → HasKind message)
    (hok : InsertAllowed qos ok clock message context st)
    (hreset : message.state.replaced → ok .resetsBookmark) :
    Edits qos ok (st.view claims) ((instanceInsert qos clock message context st).2.view
          (claimsLeft message context claims)) ∨
      Edits qos ok (st.view claims) ((instanceInsert qos clock message context st).2.view claims) ∧
      ¬Settled message (testOwnership message context st.inst).1 st := by
  have hprepare : Edits qos ok (st.view claims)
      ((InstanceState.prepareInsert qos message context st).2.view claims) :=
    prepareInsert qos ok claims hreset
  have hprepared := Prepared.prepareInsert qos message context st
  have howner := prepareInsert_fst qos message context st
  have hist := history_prepareInsert qos message context st
  rw [InstanceState.instanceInsert]
  generalize InstanceState.prepareInsert qos message context st = out at *
  rcases insertPrepared qos ok claims out.1 hkind (hprepared.allowed hist hok) with
    hleft | ⟨hsame, hunsettled⟩
  · exact .inl (hprepare.trans hleft)
  · refine .inr ⟨hprepare.trans hsame, fun h ↦ hunsettled ?_⟩
    exact ⟨h.register, h.unregister, hprepared.prepareDelete.trans h.prepareDelete,
      howner ▸ h.compatible, howner ▸ h.owner⟩

/-! ### Pending samples -/

/-- `InsertPendingSample`: the oldest pending sample becomes available, or nothing happens. -/
lemma insertPendingSample {rest : List Sample} (hkind : HasKind s.message)
    (hfree : s.inMinSepTime = false) (hlazy : s.lazyRead = false) (hflush : ok .flushes)
    (hok : ∀ x ∈ st.inst.history, x.inMinSepTime → ok .removesHeldBack) :
    ((insertPendingSample qos s (st.withPending rest)).1 = .inserted ∧
      ∃ v, Edit qos ok ((st.withPending (s :: rest)).view claims) v ∧ v.pending = rest.map core ∧
        ((∀ x ∈ st.inst.history, x.inMinSepTime = false) →
          ∀ x ∈ v.history, x.inMinSepTime = false) ∧
        Edits qos (fun e ↦ ok e ∧ e = .removesHeldBack) v
          ((insertPendingSample qos s (st.withPending rest)).2.view claims)) ∨
    ((insertPendingSample qos s (st.withPending rest)).1 ≠ .inserted ∧
      (InstanceState.insertPendingSample qos s (st.withPending rest)).2 = st.withPending rest) := by
  rw [InstanceState.insertPendingSample]
  rcases hconsumed : consumedBefore qos s.message (st.withPending rest).inst with - | result
  swap
  · exact .inr ⟨consumedBefore_ne hconsumed, rfl⟩
  have happend := findHistoryPosition_append qos s.message (st.withPending rest).inst.history
  have hadm := fun h ↦ admissible_findHistoryPosition h hconsumed
  dsimp only
  generalize findHistoryPosition qos s.message (st.withPending rest).inst.history = pos
    at happend hadm ⊢
  by_cases hpos : pos.1 = .inserted
  swap
  · rw [if_pos hpos]
    exact .inr ⟨hpos, rfl⟩
  rw [if_neg (not_not_intro hpos)]
  obtain ⟨pushed, holder, -, hview⟩ := makeRoom qos claims s.message false pos.2.1 pos.2.2
    (st.withPending rest)
  generalize InstanceState.makeRoom qos s.message false pos.2.1 pos.2.2 (st.withPending rest) = out
    at *
  have hist : st.inst.history = pushed ++ (out.1 ++ pos.2.2) := by
    rw [← append_assoc, ← holder, happend]
    rfl
  have hlink : ∃ read, Edits qos (fun e ↦ ok e ∧ e = .removesHeldBack)
      ((out.2.view claims).link (out.1.map core) s.core read (pos.2.2.map core))
      ((if pos.2.2.isEmpty then InstanceState.updateFinal qos s.message out.1 s pos.2.2 out.2
        else InstanceState.updateIntermediate s.message out.1 s pos.2.2 out.2).view claims) := by
    split_ifs
    · refine updateFinal qos _ claims hfree hlazy fun x hx hheld ↦ ⟨hok x ?_ hheld, rfl⟩
      simp [hist, hx]
    · exact ⟨false, updateIntermediate qos _ claims hfree hkind⟩
  obtain ⟨read, hlink⟩ := hlink
  refine .inl ⟨rfl, _, .flush s.core (rest.map core) (pushed.map core)
    (out.1.map core) (pos.2.2.map core) read rfl hflush ?_ ?_ ?_, ?_, ?_, ?_⟩
  · rw [← map_append, ← map_append, ← hist]
    rfl
  · rw [← map_append, ← holder]
    exact hadm hpos
  · intro x hx
    obtain ⟨y, hy, rfl⟩ := mem_map.mp hx
    exact hok y (by simp [hist, hy])
  · exact pushOut_pending _ _ _
  · intro hnone x hx
    simp only [link, mem_append, mem_cons, List.mem_map] at hx
    rcases hx with ⟨y, hy, rfl⟩ | rfl | ⟨y, hy, rfl⟩
    · exact hnone y (by simp [hist, hy])
    · rfl
    · exact hnone y (by simp [hist, hy])
  · rw [hview, map_append] at hlink
    split_ifs at hlink ⊢
    all_goals
      simp only [view_makeSampleAvailable]
      exact hlink

lemma flushLoop (pending : List Sample)
    (hkind : ∀ s ∈ pending, HasKind s.message ∧ s.inMinSepTime = false ∧ s.lazyRead = false)
    (hflush : ok .flushes)
    (hok : ok .removesHeldBack ∨ ∀ x ∈ st.inst.history, x.inMinSepTime = false)
    (hpending : st.inst.pending.map core = pending.map core) :
    Edits qos ok (st.view claims) ((flushLoop qos pending st).view claims) := by
  induction pending generalizing st with
  | nil => exact .refl
  | cons s rest ih =>
    obtain ⟨hs, hfree, hlazy⟩ := hkind s mem_cons_self
    have hrest := fun x hx ↦ hkind x (mem_cons_of_mem s hx)
    have hview : (st.withPending (s :: rest)).view claims = st.view claims := by
      rw [view_withPending, ← hpending]
      rfl
    have hok' : ∀ x ∈ st.inst.history, x.inMinSepTime → ok .removesHeldBack :=
      fun x hx hheld ↦ hok.resolve_right fun hnone ↦ absurd hheld (by simp [hnone x hx])
    rw [flushLoop]
    rcases insertPendingSample qos ok claims hs hfree hlazy hflush hok' with
      ⟨hinserted, v, hedit, hv, hnone, hedits⟩ | ⟨hrejected, hsame⟩
    · rw [if_neg fun h ↦ h.1 hinserted]
      obtain ⟨hquiet, hheld⟩ := hedits.quiet fun e he ↦ he.2
      rw [hview] at hedit
      refine (Relation.ReflTransGen.head hedit (hedits.mono fun e he ↦ he.1)).trans ?_
      refine ih hrest ?_ (hquiet.trans hv)
      refine hok.imp_right fun h x hx ↦ ?_
      exact hheld (hnone h) x.core (mem_map_of_mem hx)
    · have hdrop := drop qos ok claims s rest st (.inl hflush)
      rw [hview] at hdrop
      rw [hsame]
      split_ifs at hdrop with hwrite
      · rw [if_pos ⟨hrejected, hwrite⟩]
        exact hdrop.trans (ih hrest hok rfl)
      · rw [if_neg fun h ↦ hwrite h.2]
        exact hdrop.trans (ih hrest hok rfl)

/-! ### The minimum separation time -/

def countedSample (s : Sample) : Bool := s.validData && !s.inMinSepTime

/-- If there is still no room when `ClaimHistorySample` ends, it has pushed all samples out. -/
lemma claimHistorySample_full (newer older : List Sample) {st : InstanceState} (h : qos.depth ≤
      (InstanceState.claimHistorySample qos newer older st).2.inst.historySampleCount) :
    (InstanceState.claimHistorySample qos newer older st).1 = [] ∧
      (InstanceState.claimHistorySample qos newer older st).2.inst.historySampleCount =
        st.inst.historySampleCount - older.countP countedSample := by
  induction older generalizing st with
  | nil => exact ⟨rfl, by simp [InstanceState.claimHistorySample]⟩
  | cons s _ ih =>
    rw [InstanceState.claimHistorySample] at h ⊢
    by_cases hdepth : qos.depth ≤ st.inst.historySampleCount
    · rw [if_pos hdepth] at h ⊢
      obtain ⟨hnil, hcount⟩ := ih h
      refine ⟨hnil, hcount.trans ?_⟩
      rw [countP_cons, InstanceState.sampleRemove]
      change st.inst.historySampleCount - (if countedSample s then 1 else 0) - _ = _
      split_ifs <;> push_cast <;> omega
    · rw [if_neg hdepth] at h
      exact absurd h hdepth

lemma exposeRemoved (hist : st.inst.history.map core = (s :: newer).map core)
    (hvanish : ok .vanishes) :
    Edits qos ok (st.view claims) ((exposeRemoved qos s newer st).view claims) := by
  obtain ⟨pushed, hpushed, hview⟩ := claimHistorySample qos claims [] (s :: newer) st
  rw [InstanceState.exposeRemoved]
  generalize InstanceState.claimHistorySample qos [] (s :: newer) st = out at *
  rw [append_nil] at hview
  have hist' : (st.view claims).history = pushed.map core ++ out.1.map core := by
    rw [← map_append, ← hpushed, ← hist]
    rfl
  have hfree : ({ s with inMinSepTime := false } : Sample).inMinSepTime = false := rfl
  have hlink := view_linkNewest qos claims [] [] out.2 hfree
  have hrest := pushOut_history _ _ _ hist'
  have hfinal : view claims
      (let st1 :=
        InstanceState.updateFinal qos s.message [] { s with inMinSepTime := false } [] out.2
      { st1 with inst := { st1.inst with history := out.1 } }) =
      { (linkNewest qos s.message [] { s with inMinSepTime := false } [] out.2).view claims with
        history := out.1.map core } := rfl
  have hgone : ∀ (v : View) (x : Sample) (read : Bool), v.history = out.1.map core →
      { v.link [] x read [] with history := out.1.map core } = { v with
        notReadCount := v.notReadCount + if read then 0 else 1
        historyCount := v.historyCount + if x.message.state.write then 1 else 0 } := by
    intro v x read hv
    rw [← hv]
    rfl
  rw [hfinal, hlink, hview, map_nil, hgone _ _ _ hrest]
  exact .single (.vanish _ _ _ _ (by split_ifs <;> decide) hist' hvanish)

lemma exposeSample (hist : st.inst.history = older ++ s :: newer) (hheld : s.inMinSepTime)
    (hlazy : s.lazyRead = false) (hok : ∀ x ∈ older, x.inMinSepTime → ok .removesHeldBack)
    (hvanish : qos.history = .keepLast →
      qos.depth ≤ st.inst.historySampleCount - older.countP countedSample → ok .vanishes) :
    Edits qos ok (st.view claims) ((exposeSample qos older s newer st).view claims) := by
  have hfinal : ∀ older1 (st1 : InstanceState), (∀ x ∈ older1, x ∈ older) → ∃ read, Edits qos ok
        ((st1.view claims).link (older1.map core) s.core read (newer.map core))
        ((InstanceState.updateFinal qos s.message older1 { s with inMinSepTime := false } newer
          st1).view claims) := by
    intro older1 st1 hmem
    exact updateFinal qos ok claims (s := { s with inMinSepTime := false }) rfl hlazy
      fun x hx ↦ hok x (hmem x hx)
  rw [InstanceState.exposeSample]
  split_ifs with hkeep
  · obtain ⟨pushed, hpushed, hview⟩ := claimHistorySample qos claims (s :: newer) older st
    have hfull := @claimHistorySample_full qos (s :: newer) older st
    generalize InstanceState.claimHistorySample qos (s :: newer) older st = out at *
    have hist' : (st.view claims).history = pushed.map core ++ (out.1 ++ s :: newer).map core := by
      rw [← map_append, ← append_assoc, ← hpushed, ← hist]
      rfl
    have hpushed' : ∀ x ∈ pushed.map core, x.inMinSepTime → ok .removesHeldBack := by
      intro x hx
      obtain ⟨y, hy, rfl⟩ := mem_map.mp hx
      exact hok y (by simp [hpushed, hy])
    dsimp only
    split_ifs with hdepth
    · obtain ⟨hnil, hcount⟩ := hfull hdepth
      rw [hcount] at hdepth
      have hpush := pushOut qos ok hist' hpushed'
      rw [← hview] at hpush
      refine hpush.trans (exposeRemoved qos ok claims ?_ (hvanish hkeep hdepth))
      have hrest := pushOut_history _ _ _ hist'
      rw [← hview, hnil] at hrest
      exact hrest
    · obtain ⟨read, hlink⟩ := hfinal out.1 out.2 fun x hx ↦ by simp [hpushed, hx]
      rw [hview, map_append, map_cons] at hlink
      rw [map_append, map_cons] at hist'
      exact .head (.expose _ _ _ _ read hist' hheld hpushed') hlink
  · obtain ⟨read, hlink⟩ := hfinal older st fun x hx ↦ hx
    refine .head (.expose [] (older.map core) s.core (newer.map core) read ?_ hheld (by simp)) hlink
    simp [view, hist]

lemma checkMinimumSeparation {now : ℤ}
    (hlazy : ∀ s ∈ st.inst.history, s.inMinSepTime → s.lazyRead = false)
    (hok : ∀ older s newer, findHeldBack st.inst.history = some (older, s, newer) →
      qos.maximumSeparationTime ≤ now - st.inst.lastInsertionTime →
      (expired clock s → ok .removesHeldBack) ∧
      (expired clock s = false → (∀ x ∈ older, x.inMinSepTime → ok .removesHeldBack) ∧
        (qos.history = .keepLast →
          qos.depth ≤ st.inst.historySampleCount - older.countP countedSample → ok .vanishes))) :
    Edits qos ok (st.view claims) ((checkMinimumSeparation qos clock now st).view claims) := by
  rw [InstanceState.checkMinimumSeparation]
  rcases hfind : findHeldBack st.inst.history with - | ⟨older, s, newer⟩
  · exact .refl
  obtain ⟨hist, hheld, -⟩ := findHeldBack_eq_some hfind
  dsimp only
  by_cases hnow : now - st.inst.lastInsertionTime < qos.maximumSeparationTime
  · rw [if_pos hnow]
  rw [if_neg hnow]
  obtain ⟨hexpired, havailable⟩ := hok older s newer hfind (not_lt.mp hnow)
  have hstep : Edits qos ok (st.view claims)
      ((if expired clock s then InstanceState.sampleRemove older s newer false st
        else makeAvailable qos now older s newer st).view claims) := by
    split_ifs with hexp
    · exact sampleRemove qos ok claims (by rw [hist]) fun _ ↦ hexpired hexp
    · obtain ⟨hothers, hvanish⟩ := havailable (by simpa using hexp)
      rw [makeAvailable, view_makeSampleAvailable]
      exact exposeSample qos ok claims hist hheld (hlazy s (by simp [hist]) hheld) hothers hvanish
  exact hstep

end Edits

end OpenSplice.Kernel
