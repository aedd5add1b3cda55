import OpenSplice.Kernel.Reader.Accounts

/-!
# Runs of a data reader

A data reader has instances that share its counters and its lifespan administration. An operation
works on one instance (`InstanceOp.apply`). The runs of a reader (`DataReader.Reach`) consist of
operations that meet a condition, and of other changes that do not concern the samples. Every
operation is a series of edits (`InstanceOp.Allowed.edits`), so what the edits keep is kept in every
run (`DataReader.Reach.invariant`).
-/

set_option autoImplicit false

namespace OpenSplice.Kernel

open Finset List

namespace InstanceState

variable (qos : ReaderQos)

def findSample (id : ℕ) : List Sample → Option (List Sample × Sample × List Sample)
  | [] => none
  | s :: history =>
    if s.id = id then some ([], s, history)
    else (findSample id history).map fun found ↦ (s :: found.1, found.2)

/-- `lifespanTakeAction` for the first sample of the lifespan administration, if it has expired.
There is no result if the sample is not in the history of its instance: removing it there overwrites
both ends of the history with the links of a sample that is not in it. -/
def lifespanTakeAction (clock : Clock) (st : InstanceState) : Option InstanceState :=
  match st.reader.lifespanAdmin with
  | [] => some st
  | entry :: _ =>
    if clock.timeE < entry.expiryTime then some st
    else (findSample entry.id st.inst.history).map fun found ↦
      sampleRemove found.1 found.2.1 found.2.2 false st

end InstanceState

inductive InstanceOp
  | insert (clock : Clock) (message : Message) (context : MessageContext)
  | read (query : Option (Message → Bool)) (mask : SampleMask) (action : Action)
  | take (query : Option (Message → Bool)) (mask : SampleMask) (action : Action)
  | purge (disposedCount noWritersCount : ℤ)
  | checkSeparation (clock : Clock) (now : ℤ)
  | flushPending
  | expire (clock : Clock)

namespace InstanceOp

open InstanceState Option

def apply (qos : ReaderQos) : InstanceOp → InstanceState → Option InstanceState
  | insert clock message context, st => some (instanceInsert qos clock message context st).2
  | read query mask action, st => some (readSamples qos query mask action st).st
  | take query mask action, st => some (takeSamples qos query mask action st).st
  | purge disposedCount noWritersCount, st => some (instancePurge disposedCount noWritersCount st)
  | checkSeparation clock now, st => some (checkMinimumSeparation qos clock now st)
  | flushPending, st => some (InstanceState.flushPending qos st)
  | expire clock, st => lifespanTakeAction clock st

def WellFormed : InstanceOp → Prop
  | insert _ message _ => message.state.register = false → HasKind message
  | _ => True

def claimsAfter : InstanceOp → ℤ → ℤ → Prop
  | insert _ message context, claims, claims' =>
    claims' = claims ∨ claims' = claimsLeft message context claims
  | _, claims, claims' => claims' = claims

def Allowed (qos : ReaderQos) (ok : Effect → Prop) : InstanceOp → InstanceState → Prop
  | insert clock message context, st =>
    InsertAllowed qos ok clock message context st ∧
      (message.state.replaced = true → ok .resetsBookmark)
  | read _ _ _, _ => True
  | take _ _ _, _ => True
  | purge disposedCount noWritersCount, st =>
    ∀ s ∈ st.inst.history, Edits.purgeable disposedCount noWritersCount s = true →
      s.inMinSepTime = true → ok .removesHeldBack
  | checkSeparation clock now, st =>
    ∀ older s newer, findHeldBack st.inst.history = some (older, s, newer) →
      qos.maximumSeparationTime ≤ now - st.inst.lastInsertionTime →
      (expired clock s = true → ok .removesHeldBack) ∧
      (expired clock s = false →
        (∀ x ∈ older, x.inMinSepTime = true → ok .removesHeldBack) ∧
        (qos.history = .keepLast →
          qos.depth ≤ st.inst.historySampleCount - older.countP Edits.countedSample →
          ok .vanishes))
  | flushPending, st =>
    ok .flushes ∧ (st.inst.pending ≠ [] →
      ok .removesHeldBack ∨ ∀ s ∈ st.inst.history, s.inMinSepTime = false)
  | expire clock, st =>
    ∀ entry, st.reader.lifespanAdmin.head? = some entry → entry.expiryTime ≤ clock.timeE →
      ∀ s ∈ st.inst.history, s.id = entry.id → s.inMinSepTime = true → ok .removesHeldBack

lemma findSample_eq_some {id : ℕ} {history older newer : List Sample} {s : Sample}
    (h : findSample id history = some (older, s, newer)) :
    history = older ++ s :: newer ∧ s.id = id := by
  induction history generalizing older with
  | nil => simp [findSample] at h
  | cons _ _ ih =>
    rw [findSample] at h
    split_ifs at h with hid
    · simp only [some_inj, Prod.mk.injEq] at h
      obtain ⟨rfl, rfl, rfl⟩ := h
      exact ⟨rfl, hid⟩
    · obtain ⟨⟨older', found⟩, hfind, heq⟩ := map_eq_some_iff.mp h
      obtain ⟨rfl, rfl⟩ := heq
      obtain ⟨hist, hs⟩ := ih hfind
      exact ⟨by rw [hist, cons_append], hs⟩

lemma Allowed.edits {qos : ReaderQos} {ok : Effect → Prop} {op : InstanceOp}
    {st st' : InstanceState} (claims : ℤ) (hok : op.Allowed qos ok st) (hwf : op.WellFormed)
    (hsound : (st.view claims).Sound) (h : op.apply qos st = some st') :
    ∃ claims', Edits qos ok (st.view claims) (st'.view claims') ∧
      op.claimsAfter claims claims' := by
  have hmem : ∀ s ∈ st.inst.history, s.inMinSepTime → s.lazyRead = false :=
    fun s hs ↦ (hsound.history s.core (mem_map_of_mem hs)).lazyRead
  cases op with
  | insert =>
    obtain rfl := some_inj.mp h
    rcases Edits.instanceInsert qos ok claims hwf hok.1 hok.2 with hleft | ⟨hsame, -⟩
    · exact ⟨_, hleft, .inr rfl⟩
    · exact ⟨_, hsame, .inl rfl⟩
  | read query mask action =>
    obtain rfl := some_inj.mp h
    exact ⟨claims, Edits.readSamples qos ok claims query mask action st, rfl⟩
  | take query mask action =>
    obtain rfl := some_inj.mp h
    exact ⟨claims, Edits.takeSamples qos ok claims query mask action st, rfl⟩
  | purge =>
    obtain rfl := some_inj.mp h
    exact ⟨claims, Edits.instancePurge qos ok claims hok, rfl⟩
  | checkSeparation =>
    obtain rfl := some_inj.mp h
    exact ⟨claims, Edits.checkMinimumSeparation qos ok claims hmem hok, rfl⟩
  | flushPending =>
    obtain rfl := some_inj.mp h
    by_cases hnil : st.inst.pending = []
    · refine ⟨claims, ?_, rfl⟩
      rw [InstanceState.flushPending, hnil, flushLoop]
    refine ⟨claims, Edits.flushLoop qos ok claims _ (fun s hs ↦ ?_) hok.1 (hok.2 hnil) rfl, rfl⟩
    have hpending := hsound.pending s.core (mem_map_of_mem hs)
    exact ⟨hpending.kind, hpending.inMinSepTime, hpending.lazyRead⟩
  | expire =>
    refine ⟨claims, ?_, rfl⟩
    simp only [apply, lifespanTakeAction] at h
    split at h
    · obtain rfl := some_inj.mp h
      exact .refl
    · rename_i entry _ hadmin
      split_ifs at h with htime
      · obtain rfl := some_inj.mp h
        exact .refl
      · obtain ⟨⟨older, s, newer⟩, hfind, rfl⟩ := map_eq_some_iff.mp h
        obtain ⟨hist, hid⟩ := findSample_eq_some hfind
        refine Edits.sampleRemove qos ok claims (by rw [hist]) ?_
        exact hok entry (by rw [hadmin, head?_cons]) (not_lt.mp htime) s (by simp [hist]) hid

/-- Nothing is asked of an operation when every effect is allowed. -/
lemma allowed_true (qos : ReaderQos) (op : InstanceOp) (st : InstanceState) :
    op.Allowed qos (fun _ ↦ True) st := by
  cases op with
  | insert =>
    exact ⟨⟨by simp, by simp, by simp, by simp, by simp, by simp, by simp, by simp, by simp⟩,
      by simp⟩
  | read => trivial
  | take => trivial
  | purge => exact fun _ _ _ _ ↦ trivial
  | checkSeparation => exact fun _ _ _ _ _ ↦ by simp
  | flushPending => exact ⟨trivial, fun _ ↦ .inl trivial⟩
  | expire => exact fun _ _ _ _ _ _ _ ↦ trivial

end InstanceOp

/-! ### Readers -/

/-- A data reader with its instances. -/
structure DataReader (ι : Type) where
  reader : ReaderState
  inst : ι → Instance

namespace DataReader

variable {ι : Type} [DecidableEq ι] {qos : ReaderQos} {P : InstanceOp → InstanceState → Bool}
  {r₀ r : DataReader ι} {ops : List (ι × InstanceOp)}

def state (r : DataReader ι) (i : ι) : InstanceState := ⟨r.reader, r.inst i⟩

def update (r : DataReader ι) (i : ι) (st : InstanceState) : DataReader ι :=
  ⟨st.reader, Function.update r.inst i st.inst⟩

@[simp]
lemma state_update (r : DataReader ι) (i : ι) (st : InstanceState) :
    (r.update i st).state i = st := by
  simp [state, update]

lemma inst_state_update (r : DataReader ι) {i j : ι} (st : InstanceState) (h : j ≠ i) :
    ((r.update i st).state j).inst = (r.state j).inst := by
  simp [state, update, h]

omit [DecidableEq ι] in
/-- A reader without samples. -/
structure Fresh (r : DataReader ι) : Prop where
  notReadCount : r.reader.notReadCount = 0
  resourceSampleCount : r.reader.resourceSampleCount = 0
  lifespanAdmin : r.reader.lifespanAdmin = []
  history : ∀ i, (r.inst i).history = []
  pending : ∀ i, (r.inst i).pending = []
  instanceCount : ∀ i, (r.inst i).resourceSampleCount = 0
  historyCount : ∀ i, (r.inst i).historySampleCount = 0
  lastConsumed : ∀ i, (r.inst i).lastConsumed = ⟨0, .nil, 0, false⟩

omit [DecidableEq ι] in
/-- A reader without samples, as `v_dataReaderInstanceInit` makes its instances. -/
def init (exclusive : Bool) : DataReader ι where
  reader := ⟨0, 0, 0, 1, false, false, [], 1⟩
  inst _ := {
    empty := true, new := false, lazyNew := false, disposed := false, noWriters := true
    stateChanged := false, trigger := false, replaced := false, inMinSepTime := false
    history := [], pending := [], disposeCount := 0, noWritersCount := -1
    resourceSampleCount := 0, historySampleCount := 0, liveliness := 0
    lastConsumed := ⟨0, .nil, 0, false⟩, lastInsertionTime := 0, owner := ⟨.nil, 0, exclusive⟩ }

omit [DecidableEq ι] in
lemma fresh_init (exclusive : Bool) : (init exclusive : DataReader ι).Fresh :=
  ⟨rfl, rfl, rfl, fun _ ↦ rfl, fun _ ↦ rfl, fun _ ↦ rfl, fun _ ↦ rfl, fun _ ↦ rfl⟩

/-- The readers that are reached when every operation meets a condition. What else happens to an
instance leaves its samples and the counters alone. -/
inductive Reach (qos : ReaderQos) (P : InstanceOp → InstanceState → Prop) (r₀ : DataReader ι) :
    DataReader ι → Prop
  | refl : Reach qos P r₀ r₀
  | step {r : DataReader ι} (hr : Reach qos P r₀ r) (i : ι) (op : InstanceOp) {st : InstanceState}
      (hwf : op.WellFormed) (hP : P op (r.state i)) (h : op.apply qos (r.state i) = some st) :
      Reach qos P r₀ (r.update i st)
  | other {r : DataReader ι} (hr : Reach qos P r₀ r) (i : ι) {st : InstanceState}
      (h : ∀ claims, st.view claims = (r.state i).view claims) : Reach qos P r₀ (r.update i st)

def run (qos : ReaderQos) (P : InstanceOp → InstanceState → Bool) :
    List (ι × InstanceOp) → DataReader ι → Option (DataReader ι)
  | [], r => some r
  | (i, op) :: ops, r =>
    if P op (r.state i) then
      match op.apply qos (r.state i) with
      | some st => run qos P ops (r.update i st)
      | none => none
    else none

lemma Reach.run {r' : DataReader ι} (hr : Reach qos (P · ·) r₀ r)
    (hwf : ∀ p ∈ ops, p.2.WellFormed) (h : run qos P ops r = some r') :
    Reach qos (P · ·) r₀ r' := by
  induction ops generalizing r with
  | nil =>
    obtain rfl := Option.some_inj.mp h
    exact hr
  | cons p _ ih =>
    obtain ⟨i, op⟩ := p
    rw [DataReader.run] at h
    split_ifs at h with hP
    split at h
    · rename_i st happly
      exact ih (.step hr i op (hwf _ mem_cons_self) hP happly)
        (fun p hp ↦ hwf p (mem_cons_of_mem _ hp)) h
    · simp at h

/-- What a run that is checked by evaluation shows. -/
lemma Reach.of_run {p : DataReader ι → Bool} (hwf : ∀ q ∈ ops, q.2.WellFormed)
    (h : (DataReader.run qos P ops r₀).any p) :
    ∃ r, Reach qos (P · ·) r₀ r ∧ p r := by
  obtain ⟨r, hr, hp⟩ := (Option.any_eq_true _ _).mp h
  exact ⟨r, Reach.refl.run hwf hr, hp⟩

def Sound (r : DataReader ι) : Prop := ∀ i, ((r.state i).view 0).Sound

lemma Sound.update (hr : r.Sound) {i : ι} {st : InstanceState} (hst : (st.view 0).Sound) :
    (r.update i st).Sound := by
  intro j
  by_cases hj : j = i
  · subst hj
    rwa [state_update]
  · have hsame := inst_state_update r st hj
    exact ⟨by simpa [InstanceState.view, hsame] using (hr j).history,
      by simpa [InstanceState.view, hsame] using (hr j).pending⟩

lemma Reach.invariant {P : InstanceOp → InstanceState → Prop} (ok : Effect → Prop)
    (J : DataReader ι → Prop) (hs0 : r₀.Sound) (h0 : J r₀)
    (hallowed : ∀ (r : DataReader ι) i (op : InstanceOp), r.Sound → J r → P op (r.state i) →
      op.Allowed qos ok (r.state i))
    (hedits : ∀ (r : DataReader ι) i (st : InstanceState) claims, r.Sound → J r →
      Edits qos ok ((r.state i).view 0) (st.view claims) → J (r.update i st))
    (h : Reach qos P r₀ r) : r.Sound ∧ J r := by
  induction h with
  | refl => exact ⟨hs0, h0⟩
  | @step r _ i op st hwf hP happly ih =>
    obtain ⟨claims, hseries, -⟩ := (hallowed r i op ih.1 ih.2 hP).edits 0 hwf (ih.1 i) happly
    have hsound := hseries.sound (ih.1 i)
    exact ⟨ih.1.update ⟨hsound.history, hsound.pending⟩, hedits r i st claims ih.1 ih.2 hseries⟩
  | @other r _ i st hview ih =>
    have hseries : Edits qos ok ((r.state i).view 0) (st.view 0) := by rw [hview 0]
    exact ⟨ih.1.update (hseries.sound (ih.1 i)), hedits r i st 0 ih.1 ih.2 hseries⟩

omit [DecidableEq ι] in
lemma Fresh.sound (h : r.Fresh) : r.Sound := fun i ↦
  ⟨by simp [InstanceState.view, state, h.history i],
    by simp [InstanceState.view, state, h.pending i]⟩

lemma sum_update [Fintype ι] (g : Instance → ℤ) (inst : ι → Instance) (i : ι) (x : Instance) :
    ∑ j, g (Function.update inst i x j) = ∑ j, g (inst j) - g (inst i) + g x := by
  rw [← add_sum_erase _ _ (mem_univ i), ← add_sum_erase _ (fun j ↦ g (inst j)) (mem_univ i)]
  have hrest : ∑ j ∈ univ.erase i, g (Function.update inst i x j) =
      ∑ j ∈ univ.erase i, g (inst j) :=
    sum_congr rfl fun j hj ↦ by rw [Function.update_of_ne (ne_of_mem_erase hj)]
  rw [hrest, Function.update_self]
  omega

end DataReader

end OpenSplice.Kernel
