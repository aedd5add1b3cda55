import OpenSplice.Kernel.Reader.Consumption
import OpenSplice.Kernel.Reader.NotRead

/-!
# No replay after take

With the order of the source, data that has left the history is not replayed (`no_replay`): the
bookmark has moved behind it, and every way into the history compares with the bookmark.

Data that is pushed out of the pending samples is the exception. `InsertPending` frees it without
moving the bookmark, so something older may become available afterwards (`replay_behind_pending`).
-/

set_option autoImplicit false

namespace OpenSplice.Kernel

open List InstanceState Sample Option View Message

lemma Edits.pending_mem {qos : ReaderQos} {ok : Effect → Prop} {v v' : View}
    (hloses : ¬ok .losesPending) (hflushes : ¬ok .flushes) (h : Edits qos ok v v') {s : Sample}
    (hs : s ∈ v.pending) (hwrite : s.message.state.write) : s ∈ v'.pending := by
  induction h with
  | refl => exact hs
  | tail _ hedit ih =>
    cases hedit with
    | insert => simpa [link, create] using ih
    | hold => simpa [hold, create] using ih
    | pend _ _ _ _ _ _ _ _ hist =>
      rw [hist] at ih
      exact mem_insert _ ih
    | drop _ _ hpend hok =>
      rw [hpend] at ih
      rw [drop_eq]
      rcases mem_cons.mp ih with rfl | hrest
      · exact absurd ((hok.resolve_left hflushes).2 hwrite) hloses
      · exact hrest
    | flush _ _ _ _ _ _ _ hflush => exact absurd hflush hflushes
    | expose => simpa [link] using ih
    | vanish => simpa using ih
    | remove | mark | replace | reject | reset => exact ih

/-! ### Runs -/

def Message.identity (m : Message) : ℤ × Gid × ℕ := (m.writeTime, m.writerGID, m.sequenceNumber)

lemma sourceKey_eq_of_identity {m m' : Message} (hm : Plain m) (hm' : Plain m')
    (hwrite : m.state.write) (hwrite' : m'.state.write)
    (h : m.identity = m'.identity) : m.sourceKey = m'.sourceKey := by
  simp only [identity, Prod.mk.injEq] at h
  simp only [sourceKey, h.1, h.2.1, h.2.2, hm.register hwrite, hm'.register hwrite',
    hm.unregister hwrite, hm'.unregister hwrite']

namespace DataReader

variable {ι : Type} [DecidableEq ι] {st : InstanceState} {qos : ReaderQos} {r₀ r : DataReader ι}
  {op : InstanceOp}

/-- The messages that are inserted are neither implicit nor part of a merge, and their data is
neither a registration nor an unregistration. -/
def plainInsert : InstanceOp → InstanceState → Bool
  | .insert _ message _, _ =>
    !message.state.implicit && !message.state.replaced &&
      (!message.state.write || (!message.state.register && !message.state.unregister))
  | _, _ => true

def keepsBookmark (e : Effect) : Prop := e ≠ .resetsBookmark ∧ ∀ m, e = .admits m → Plain m

lemma plain_of_plainInsert {clock : Clock} {message : Message} {context : MessageContext}
    (h : plainInsert (.insert clock message context) st) :
    Plain message ∧ message.state.replaced = false := by
  simp only [plainInsert, Bool.and_eq_true, Bool.or_eq_true, Bool.not_eq_true'] at h
  refine ⟨⟨h.1.1, fun hwrite ↦ ?_, fun hwrite ↦ ?_⟩, h.1.2⟩
  · exact (h.2.resolve_left (by simp [hwrite])).1
  · exact (h.2.resolve_left (by simp [hwrite])).2

lemma plainInsert_allowed (qos : ReaderQos) (h : plainInsert op st) :
    op.Allowed qos keepsBookmark st := by
  cases op with
  | insert =>
    obtain ⟨hplain, hreplaced⟩ := plain_of_plainInsert h
    refine ⟨⟨?_, ?_, ?_, ?_, ?_, ?_, ?_, ?_, ?_⟩, by simp [hreplaced]⟩
    · simp [keepsBookmark]
    · simp [keepsBookmark]
    · simp [keepsBookmark]
    · simp [keepsBookmark]
    · simp [keepsBookmark]
    · simp [keepsBookmark]
    · simp [keepsBookmark]
    · simp [keepsBookmark]
    · refine ⟨by simp, fun m hm ↦ ?_⟩
      obtain rfl := Effect.admits.inj hm
      exact hplain
  | read => trivial
  | take => trivial
  | purge => exact fun _ _ _ _ ↦ by simp [keepsBookmark]
  | checkSeparation =>
    exact fun _ _ _ _ _ ↦ ⟨by simp [keepsBookmark],
      fun _ ↦ ⟨by simp [keepsBookmark], by simp [keepsBookmark]⟩⟩
  | flushPending => exact ⟨by simp [keepsBookmark], fun _ ↦ .inl (by simp [keepsBookmark])⟩
  | expire => exact fun _ _ _ _ _ _ _ ↦ by simp [keepsBookmark]

def Follows (r r' : DataReader ι) : Prop :=
  ∀ i, ((r'.state i).view 0).Ordered ∧ ((r.state i).view 0).Follows ((r'.state i).view 0)

section

variable (hsource : qos.bySourceTime = true)
include hsource

lemma keepsBookmark_follows {v v' : View} (hv : v.Sound)
    (ho : v.Ordered) (h : Edits qos keepsBookmark v v') : v.Follows v' ∧ v'.Ordered :=
  h.follows hsource (fun _ hm ↦ hm.2 _ rfl) (fun hreset ↦ hreset.1 rfl) hv ho

variable {claims : ℤ} {i : ι}

lemma Follows.update (h : Follows r₀ r) (hr : r.Sound)
    (hedits : Edits qos keepsBookmark ((r.state i).view 0) (st.view claims)) :
    Follows r₀ (r.update i st) := by
  intro j
  by_cases hj : j = i
  · subst hj
    obtain ⟨hfollows, hordered⟩ := keepsBookmark_follows hsource (hr j) (h j).1 hedits
    rw [state_update]
    exact ⟨⟨hordered.sorted, hordered.history, hordered.pending, hordered.bookmark⟩,
      ((h j).2.trans hfollows).congr rfl rfl rfl rfl⟩
  · have hsame := inst_state_update r st hj
    obtain ⟨hordered, hfollows⟩ := h j
    have hhist : (((r.update i st).state j).view 0).history = ((r.state j).view 0).history :=
      congrArg (fun x ↦ x.history.map core) hsame
    have hpending : (((r.update i st).state j).view 0).pending = ((r.state j).view 0).pending :=
      congrArg (fun x ↦ x.pending.map core) hsame
    have hlast : (((r.update i st).state j).view 0).lastConsumed =
        ((r.state j).view 0).lastConsumed := congrArg Instance.lastConsumed hsame
    exact ⟨⟨hhist ▸ hordered.sorted, hhist ▸ hordered.history, hpending ▸ hordered.pending,
      hlast ▸ hordered.bookmark⟩, hfollows.congr rfl rfl hhist hlast⟩

lemma Reach.follows (hsound : r₀.Sound)
    (hordered : ∀ i, ((r₀.state i).view 0).Ordered) (h : Reach qos (plainInsert · ·) r₀ r) :
    r.Sound ∧ Follows r₀ r := by
  refine h.invariant keepsBookmark (Follows r₀) hsound
    (fun i ↦ ⟨hordered i, .refl _⟩) (fun r i op _ _ hP ↦ plainInsert_allowed qos hP) ?_
  intro r i st claims hr hfollows hedits
  exact hfollows.update hsource hr hedits

lemma Reach.follows_of_update {r' : DataReader ι}
    (h : Reach qos (plainInsert · ·) (r.update i st) r') (hsound : r.Sound) (hr : Follows r₀ r)
    (hedits : Edits qos keepsBookmark ((r.state i).view 0) (st.view claims)) :
    r'.Sound ∧ ((r'.state i).view 0).Ordered ∧ (st.view 0).Follows ((r'.state i).view 0) := by
  have hst := hedits.sound (hsound i)
  obtain ⟨hsound', hfollows⟩ := h.follows hsource (hsound.update ⟨hst.history, hst.pending⟩)
    fun j ↦ (hr.update hsource hsound hedits j).1
  obtain ⟨hordered, hfollows⟩ := hfollows i
  rw [state_update] at hfollows
  exact ⟨hsound', hordered, hfollows⟩

/-- What a take has handed out and what is left have different keys, and what has been handed out is
consumed. -/
lemma taken_consumed (hsound : (st.view 0).Sound)
    (hordered : (st.view 0).Ordered) (query : Option (Message → Bool)) (mask : SampleMask)
    (action : Action) :
    ∃ v : View, v.Sound ∧ v.Ordered ∧ v.Follows ((takeSamples qos query mask action st).st.view 0) ∧
      (((takeSamples qos query mask action st).accepted ++ v.history).map
        fun s ↦ s.message.sourceKey).Nodup ∧
      (∀ s ∈ (takeSamples qos query mask action st).accepted,
        Plain s.message ∧ (∃ x ∈ (st.view 0).history, x.message = s.message) ∧
          (s.validData → s.message.state.write ∧ Consumed v.lastConsumed s.message)) := by
  obtain ⟨st1, hfirst, hsecond, hperm⟩ := Edits.takeSamples_split qos keepsBookmark 0 query mask
    action st
  obtain ⟨hfollows, hordered1⟩ := keepsBookmark_follows hsource hsound hordered hfirst
  have hsound1 := hfirst.sound hsound
  have hsecond' := keepsBookmark_follows hsource hsound1 hordered1 hsecond
  have hcore (l : List Sample) : (l.map core).map (fun s ↦ s.message.sourceKey) =
      l.map fun s ↦ s.message.sourceKey := map_map
  have hkeys : (((takeSamples qos query mask action st).accepted ++
      st1.inst.history).map fun s ↦ s.message.sourceKey).Nodup := by
    have hkey := hperm.map fun p ↦ p.1.sourceKey
    rw [List.map_map, List.map_map] at hkey
    refine hkey.nodup_iff.mpr ?_
    have hsorted := hordered.sorted
    rw [view, hcore] at hsorted
    exact hsorted.imp fun h ↦ h.ne
  refine ⟨st1.view 0, hsound1, hordered1, hsecond'.1, ?_, fun s hs ↦ ?_⟩
  · rw [map_append, view, hcore, ← map_append]
    exact hkeys
  · have hmem : s.stamp ∈ st.inst.history.map stamp :=
      hperm.subset (mem_map_of_mem (mem_append_left _ hs))
    obtain ⟨x, hx, hstamp⟩ := mem_map.mp hmem
    obtain ⟨hmessage, hvalid⟩ := Prod.mk.inj hstamp
    have hx' : x.core ∈ (st.view 0).history := mem_map_of_mem hx
    refine ⟨hmessage ▸ hordered.history x.core hx', ⟨x.core, hx', hmessage⟩, fun hdata ↦ ?_⟩
    have hxdata : x.core.validData := hvalid.trans hdata
    have hwrite : x.message.state.write := hsound.write_of_valid (s := x.core) hx' hxdata
    refine ⟨hmessage ▸ hwrite, ?_⟩
    rcases hfollows.gone x.core hx' hxdata with ⟨y, hy, hsame, -⟩ | hconsumed
    · -- the message would be both handed out and left
      obtain ⟨z, hz, rfl⟩ := mem_map.mp hy
      have hkey : z.message.sourceKey = s.message.sourceKey := by
        rw [← hmessage]
        exact congrArg sourceKey hsame
      rw [map_append] at hkeys
      exact absurd hkey.symm ((nodup_append.mp hkeys).2.2 _
        (mem_map_of_mem (f := fun s ↦ s.message.sourceKey) hs) _
        (mem_map_of_mem (f := fun s ↦ s.message.sourceKey) hz))
    · rwa [← hmessage]

end

omit [DecidableEq ι] in
lemma Fresh.ordered (h : r.Fresh) (i : ι) : ((r.state i).view 0).Ordered := by
  refine ⟨?_, ?_, ?_, ?_⟩
  · simp [view, state, h.history i]
  · simp [view, state, h.history i]
  · simp [view, state, h.pending i]
  · simp [view, state, h.lastConsumed i]

/-- Data leaves the history, or is pushed out of the pending samples by a message that is
inserted. -/
def Leaves : InstanceOp → InstanceState → InstanceState → Message → Prop
  | .insert _ _ _, st, st', m =>
    (∃ s ∈ st.inst.history, s.message = m ∧ s.validData = true ∧
      ∀ s' ∈ st'.inst.history, s'.message ≠ m) ∨
    ∃ s ∈ st.inst.pending, s.message = m ∧ m.state.write = true ∧
      ∀ s' ∈ st'.inst.pending, s'.message ≠ m
  | _, st, st', m => ∃ s ∈ st.inst.history, s.message = m ∧ s.validData = true ∧
      ∀ s' ∈ st'.inst.history, s'.message ≠ m

def pendingKept (qos : ReaderQos) : InstanceOp → InstanceState → Bool
  | .insert _ message context, st =>
    !(decide (InstanceState.goesPending qos context st) && message.state.write &&
      decide (qos.history = .keepLast) &&
      InstanceState.limitReached qos.maxSamplesPerInstance st.inst.resourceSampleCount &&
      st.inst.pending.any Sample.isWrite)
  | _, _ => true

lemma Leaves.consumed (hsource : qos.bySourceTime) {st' : InstanceState}
    {m : Message} (hsound : (st.view 0).Sound) (hordered : (st.view 0).Ordered)
    (hwf : op.WellFormed) (hplain : plainInsert op st) (hkept : pendingKept qos op st)
    (happly : op.apply qos st = some st') (h : Leaves op st st' m) :
    Plain m ∧ Consumed st'.inst.lastConsumed m := by
  obtain ⟨claims, hedits, -⟩ := (plainInsert_allowed qos hplain).edits 0 hwf hsound happly
  obtain ⟨hfollows, -⟩ := keepsBookmark_follows hsource hsound hordered hedits
  have hhistory : (∃ s ∈ st.inst.history, s.message = m ∧ s.validData ∧
      ∀ s' ∈ st'.inst.history, s'.message ≠ m) →
      Plain m ∧ Consumed st'.inst.lastConsumed m := by
    rintro ⟨s, hs, rfl, hvalid, hgone⟩
    have hs' : s.core ∈ (st.view 0).history := mem_map_of_mem hs
    refine ⟨hordered.history s.core hs', ?_⟩
    rcases hfollows.gone s.core hs' hvalid with ⟨y, hy, hsame, -⟩ | hconsumed
    · obtain ⟨z, hz, rfl⟩ := mem_map.mp hy
      exact absurd hsame (hgone z hz)
    · exact hconsumed
  cases op with
  | insert clock message context =>
    rcases h with h | ⟨s, hs, rfl, hwrite, hgone⟩
    · exact hhistory h
    · -- data that is pending stays so
      exfalso
      have hallowed : (InstanceOp.insert clock message context).Allowed qos
          (fun e ↦ e ≠ .losesPending ∧ e ≠ .flushes) st := by
        refine ⟨⟨by simp, by simp, by simp, by simp, fun hgoes hdisplaces ↦ ?_, by simp, by simp,
          by simp, by simp⟩, by simp⟩
        obtain ⟨hdata, hkeep, hlimit, x, hx, hxdata⟩ := hdisplaces
        have hany : st.inst.pending.any isWrite := any_eq_true.mpr ⟨x, hx, hxdata⟩
        simp [pendingKept, hgoes, hdata, hkeep, hlimit, hany] at hkept
      obtain ⟨claims', hedits', -⟩ := hallowed.edits 0 hwf hsound happly
      have hstill := hedits'.pending_mem (s := s.core) (by simp) (by simp)
        (mem_map_of_mem hs) hwrite
      obtain ⟨y, hy, hcore⟩ := mem_map.mp hstill
      have hmessage' : y.message = s.message := by
        rw [← core_message y, hcore, core_message]
      exact hgone y hy hmessage'
  | _ => exact hhistory h

/-- In every run of messages that are not implicit and not part of a merge, with the order of the
source: no data is handed out twice by one take or by two, and once data has left the history
nothing older is linked that has not been in the history then. The same holds for data that is
pushed out of the pending samples, in a step that pushes none out. -/
theorem no_replay {qos : ReaderQos} (hsource : qos.bySourceTime = true) {r₀ r : DataReader ι}
    (h₀ : r₀.Fresh) (h : Reach qos (plainInsert · ·) r₀ r) (i : ι) :
    (∀ query mask action,
      ((InstanceState.takeSamples qos query mask action (r.state i)).accepted.filter
        Sample.validData).Pairwise fun s s' ↦ s.message.identity ≠ s'.message.identity) ∧
    (∀ query mask action r',
      Reach qos (plainInsert · ·)
        (r.update i (InstanceState.takeSamples qos query mask action (r.state i)).st) r' →
      ∀ query' mask' action',
      ∀ s ∈ (InstanceState.takeSamples qos query mask action (r.state i)).accepted,
      ∀ s' ∈ (InstanceState.takeSamples qos query' mask' action' (r'.state i)).accepted,
        s.validData = true → s'.validData = true →
          s.message.identity ≠ s'.message.identity) ∧
    ∀ (op : InstanceOp) (st : InstanceState) (m : Message), op.WellFormed →
      plainInsert op (r.state i) = true → op.apply qos (r.state i) = some st →
      pendingKept qos op (r.state i) = true → Leaves op (r.state i) st m →
      ∀ r', Reach qos (plainInsert · ·) (r.update i st) r' →
      ∀ s ∈ (r'.inst i).history, messageCompare s.message m = .lt →
        ∃ s' ∈ st.inst.history, s'.message = s.message := by
  obtain ⟨hsound, hfollows⟩ := h.follows hsource h₀.sound h₀.ordered
  have hordered := (hfollows i).1
  refine ⟨fun query mask action ↦ ?_, fun query mask action r' h' query' mask' action' ↦ ?_,
    fun op st m hwf hplain happly hkept hleaves r' h' ↦ ?_⟩
  · obtain ⟨v, -, -, -, hkeys, htaken⟩ := taken_consumed hsource (hsound i) hordered query mask
      action
    rw [map_append] at hkeys
    have hpairwise := pairwise_map.mp (nodup_append.mp hkeys).1
    refine (hpairwise.filter _).imp_of_mem fun {s s'} hs hs' hne heq ↦ hne ?_
    obtain ⟨hs, hvalid⟩ := mem_filter.mp hs
    obtain ⟨hs', hvalid'⟩ := mem_filter.mp hs'
    exact sourceKey_eq_of_identity (htaken s hs).1 (htaken s' hs').1 ((htaken s hs).2.2 hvalid).1
      ((htaken s' hs').2.2 hvalid').1 heq
  · obtain ⟨v, -, -, hafter, hkeys, htaken⟩ := taken_consumed hsource (hsound i) hordered query mask
      action
    have hedits : Edits qos keepsBookmark ((r.state i).view 0)
        ((takeSamples qos query mask action (r.state i)).st.view 0) :=
      Edits.takeSamples qos keepsBookmark 0 query mask action (r.state i)
    obtain ⟨hsound', hordered', hlater⟩ := h'.follows_of_update hsource hsound hfollows hedits
    obtain ⟨v', -, -, -, -, htaken'⟩ := taken_consumed hsource (hsound' i) hordered' query' mask'
      action'
    intro s hs s' hs' hvalid hvalid' heq
    obtain ⟨hplain, -, hdata⟩ := htaken s hs
    obtain ⟨hplain', ⟨x, hx, hmessage⟩, hdata'⟩ := htaken' s' hs'
    have hkey := sourceKey_eq_of_identity hplain hplain' (hdata hvalid).1 (hdata' hvalid').1 heq
    rcases (hafter.trans hlater).new x hx with ⟨z, hz, hsame⟩ | hfresh
    · rw [map_append] at hkeys
      refine (nodup_append.mp hkeys).2.2 _ (mem_map_of_mem (f := fun s ↦ s.message.sourceKey) hs) _
        (mem_map_of_mem (f := fun s ↦ s.message.sourceKey) hz) ?_
      rw [hsame, hmessage, hkey]
    · refine hfresh ?_
      rw [hmessage, Consumed, ← hkey]
      exact (hdata hvalid).2
  · obtain ⟨hm, hconsumed⟩ := hleaves.consumed hsource (hsound i) hordered hwf hplain hkept happly
    obtain ⟨claims, hedits, -⟩ := (plainInsert_allowed qos hplain).edits 0 hwf (hsound i) happly
    obtain ⟨-, hordered', hlater⟩ := h'.follows_of_update hsource hsound hfollows hedits
    intro s hs hlt
    have hs' : s.core ∈ ((r'.state i).view 0).history := mem_map_of_mem hs
    rcases hlater.new s.core hs' with ⟨z, hz, hsame⟩ | hfresh
    · obtain ⟨y, hy, rfl⟩ := mem_map.mp hz
      exact ⟨y, hy, hsame⟩
    · have hs'' : Plain s.message := hordered'.history s.core hs'
      rw [messageCompare_eq_compare hs''.explicit hm.explicit, compare_lt_iff_lt] at hlt
      exact absurd (hlt.le.trans hconsumed) hfresh

def takeAll : InstanceOp :=
  .take none ⟨true, true, true, true, true, true, true⟩ fun _ _ ↦ .goOn

/-- The reader of `filterQos` without the filter. -/
def plainQos : ReaderQos := { filterQos with minSeparation := 0 }

open Reach

/-- Once the write of the time 20 has been taken, nothing older comes up. -/
theorem no_replay_of_take :
    ∃ (r : DataReader Unit) (st : InstanceState) (m : Message), m.writeTime = 20 ∧
      Reach plainQos (plainInsert · ·) (init false) r ∧
      takeAll.apply plainQos (r.state ()) = some st ∧
      ∀ r', Reach plainQos (plainInsert · ·) (r.update () st) r' →
        ∀ s ∈ (r'.inst ()).history, messageCompare s.message m ≠ .lt := by
  have hrun : (run plainQos plainInsert [arrival true 20 100] (init false)).any (fun r ↦
      (takeAll.apply plainQos (r.state ())).any fun st ↦
        (r.inst ()).history.any (fun s ↦ s.message.writeTime = 20 && s.validData) &&
          st.inst.history.isEmpty) := by
    decide +kernel
  obtain ⟨r, hreach, hrest⟩ := of_run (by simp) hrun
  obtain ⟨st, hst, hrest⟩ := (any_eq_true _ _).mp hrest
  rw [Bool.and_eq_true, List.any_eq_true, List.isEmpty_iff] at hrest
  obtain ⟨⟨s, hs, hdata⟩, hempty⟩ := hrest
  rw [Bool.and_eq_true, decide_eq_true_eq] at hdata
  refine ⟨r, st, s.message, hdata.1, hreach, hst, fun r' hr' x hx hlt ↦ ?_⟩
  obtain ⟨y, hy, -⟩ := (no_replay rfl (fresh_init false) hreach ()).2.2 takeAll st s.message trivial
    rfl hst rfl ⟨s, hs, rfl, hdata.2, by simp [hempty]⟩ r' hr' x hx hlt
  simp [hempty] at hy

def groupQos : ReaderQos :=
  { plainQos with groupOrderedNonCoherent := true, maxSamplesPerInstance := some 2 }

def setBusy (busy : Bool) (r : DataReader Unit) : DataReader Unit :=
  r.update () { (r.state ()) with reader := { r.reader with accessBusy := busy } }

lemma Reach.setBusy {P : InstanceOp → InstanceState → Prop} {r₀ r : DataReader Unit}
    (h : Reach qos P r₀ r) (busy : Bool) :
    Reach qos P r₀ (r.setBusy busy) := .other h () fun _ ↦ rfl

/-- The write of the time 10 is pending when that of the time 20 pushes it out; when the first
sample has been taken and the pending ones have been flushed, the write of the time 5 is linked. -/
theorem replay_behind_pending :
    ∃ (r : DataReader Unit) (op : InstanceOp) (st : InstanceState) (m : Message)
      (r' : DataReader Unit),
      Reach groupQos (plainInsert · ·) (init false) r ∧ op.WellFormed ∧
      plainInsert op (r.state ()) = true ∧ op.apply groupQos (r.state ()) = some st ∧
      Leaves op (r.state ()) st m ∧ Reach groupQos (plainInsert · ·) (r.update () st) r' ∧
      ∃ s ∈ (r'.inst ()).history, s.validData = true ∧ messageCompare s.message m = .lt ∧
        ∀ s' ∈ st.inst.history, s'.message ≠ s.message := by
  have hrun : (run groupQos plainInsert [arrival true 1 100] (init false)).any (fun r₁ ↦
      (run groupQos plainInsert [arrival true 10 101] (r₁.setBusy true)).any fun r ↦
      ((arrival true 20 102).2.apply groupQos (r.state ())).any fun st ↦
      (run groupQos plainInsert [((), takeAll)] (r.update () st)).any fun r₂ ↦
      (run groupQos plainInsert [((), .flushPending), arrival true 5 103] (r₂.setBusy false)).any
        fun r' ↦ (r.inst ()).pending.any fun s ↦ (s.message.state.write &&
          st.inst.pending.all fun s' ↦ s'.message ≠ s.message) &&
          (r'.inst ()).history.any fun x ↦ (x.validData && messageCompare x.message s.message = .lt)
            && st.inst.history.all fun s' ↦ s'.message ≠ x.message) := by
    decide +kernel
  obtain ⟨r₁, hr₁, hrest⟩ := (any_eq_true _ _).mp hrun
  obtain ⟨r, hr, hrest⟩ := (any_eq_true _ _).mp hrest
  obtain ⟨st, hst, hrest⟩ := (any_eq_true _ _).mp hrest
  obtain ⟨r₂, hr₂, hrest⟩ := (any_eq_true _ _).mp hrest
  obtain ⟨r', hr', hrest⟩ := (any_eq_true _ _).mp hrest
  obtain ⟨s, hs, hrest⟩ := any_eq_true.mp hrest
  simp only [Bool.and_eq_true, List.all_eq_true, decide_eq_true_eq, List.any_eq_true] at hrest
  obtain ⟨⟨hwrite, hgone⟩, x, hx, ⟨hvalid, hlt⟩, hnew⟩ := hrest
  have hwf (p : Unit × InstanceOp) (hp : p ∈ [arrival true 1 100] ∨ p ∈ [arrival true 10 101] ∨
      p ∈ [((), takeAll)] ∨ p ∈ [((), .flushPending), arrival true 5 103]) : p.2.WellFormed := by
    simp only [mem_cons, not_mem_nil, or_false] at hp
    rcases hp with rfl | rfl | rfl | rfl | rfl
    all_goals first | exact arrival_wellFormed _ _ _ | trivial
  have hreach₁ : Reach groupQos (plainInsert · ·) (init false) r₁ :=
    refl.run (fun p hp ↦ hwf p (.inl hp)) hr₁
  have hreach : Reach groupQos (plainInsert · ·) (init false) r :=
    (hreach₁.setBusy true).run (fun p hp ↦ hwf p (.inr (.inl hp))) hr
  have hreach₂ : Reach groupQos (plainInsert · ·) (r.update () st) r₂ :=
    refl.run (fun p hp ↦ hwf p (.inr (.inr (.inl hp)))) hr₂
  have hreach' : Reach groupQos (plainInsert · ·) (r.update () st) r' :=
    (hreach₂.setBusy false).run (fun p hp ↦ hwf p (.inr (.inr (.inr hp)))) hr'
  exact ⟨r, (arrival true 20 102).2, st, s.message, r', hreach, arrival_wellFormed _ _ _, rfl, hst,
    .inr ⟨s, hs, rfl, hwrite, hgone⟩, hreach', x, hx, hvalid, hlt, hnew⟩

end DataReader

end OpenSplice.Kernel
