import OpenSplice.Kernel.Reader.Replay

/-!
# Reading with a mask

What a read with a mask hands out of an instance with accessible data (`masked_read`), from the
oldest to the newest. With ordered access of group scope it is only the first sample.

The mask is evaluated sample by sample, while the first sample that is read already makes the
instance not new. So a mask for new instances only selects a single sample of an instance that is
new (`masked_read_stops`), and the result is about the other cases.
-/

set_option autoImplicit false

namespace OpenSplice.Kernel

open List Sample ActionResult

namespace InstanceState

def Sample.touch (readId : ℕ) (s : Sample) : Sample := { s with readId := readId }.settleRead

def selected (query : Option (Message → Bool)) (mask : SampleMask) (inst : Instance) (s : Sample) :
    Bool :=
  s.validData && (query.all fun q ↦ q s.message) && sampleMaskPass mask s inst

def viewKept (mask : SampleMask) (inst : Instance) : Bool :=
  !inst.new || inst.lazyNew || !mask.newView || mask.notNewView

/-- The mask answers in the same way when the instance is not new any more. -/
lemma instanceMaskPass_read {mask : SampleMask} {inst : Instance}
    (h : viewKept mask inst) (hpass : instanceMaskPass mask inst) :
    instanceMaskPass mask { inst with new := false, stateChanged := false } ∧
      viewKept mask { inst with new := false, stateChanged := false } := by
  simp only [instanceMaskPass, viewKept] at *
  cases hnew : inst.new <;> cases hlazy : inst.lazyNew <;> simp_all

variable (qos : ReaderQos) (query : Option (Message → Bool)) (mask : SampleMask) {action : Action}

/-- The loop of `v_dataReaderInstanceReadSamples`, for an action that always proceeds. -/
lemma handed_readLoop {readId : ℕ} (haction : ∀ given s, action given s = .goOn)
    (rest before : List Sample) (st : InstanceState) (handed accepted : List Sample)
    (hfree : ∀ s ∈ rest, s.validData → s.inMinSepTime = false)
    (hfresh : ∀ s ∈ rest, s.readId ≠ readId) (hview : viewKept mask st.inst) :
    (readLoop qos query mask readId action rest before st handed accepted).handed =
      handed ++ ((if qos.orderedGroupAccess then
        (rest.filter (selected query mask st.inst)).take 1
        else rest.filter (selected query mask st.inst)).map (Sample.touch readId)) := by
  induction rest generalizing before st handed accepted with
  | nil => simp [readLoop]
  | cons s _ ih =>
    have hfree' := fun x hx ↦ hfree x (mem_cons_of_mem s hx)
    have hfresh' := fun x hx ↦ hfresh x (mem_cons_of_mem s hx)
    have hs := hfresh s mem_cons_self
    rw [readLoop]
    have hselected : (eligible query readId s && sampleMaskPass mask s st.inst) =
        selected query mask st.inst s := by
      simp [eligible, selected, hs, Bool.and_comm, Bool.and_left_comm]
    rw [hselected]
    split
    case isTrue hsel =>
      rw [filter_cons_of_pos hsel]
      simp only [selected, Bool.and_eq_true, sampleMaskPass] at hsel
      have hheld := hfree s mem_cons_self hsel.1.1
      obtain ⟨hpass, hview'⟩ := instanceMaskPass_read hview hsel.2.2
      have hsame : ∀ x, selected query mask { st.inst with new := false, stateChanged := false } x =
            selected query mask st.inst x := by
        intro x
        simp only [selected, sampleMaskPass, hpass, hsel.2.2]
      by_cases hgroup : qos.orderedGroupAccess
      · simp [haction, sampleRead, actionAnswer, hheld, hgroup, goOn, Sample.touch]
      · simp only [haction, sampleRead, actionAnswer, hheld, hgroup, goOn,
          Bool.false_eq_true, false_and, if_false, if_true]
        rw [ih _ _ _ _ hfree' hfresh' hview', if_neg hgroup, filter_congr fun x _ ↦ hsame x,
          append_assoc, map_cons]
        simp [Sample.touch, hheld]
    case isFalse hsel =>
      rw [filter_cons_of_neg hsel]
      exact ih _ _ _ _ hfree' hfresh' hview

/-- A read of a sound instance, for an action that always proceeds. -/
lemma handed_readSamples (haction : ∀ given s, action given s = .goOn) {st : InstanceState}
    (hsound : (st.view 0).Sound) (hcount : 0 < st.inst.historySampleCount)
    (hfresh : ∀ s ∈ st.inst.history, s.readId ≠ st.reader.readCnt)
    (hview : viewKept mask st.inst) :
    (readSamples qos query mask action st).handed = (if qos.orderedGroupAccess then
        (st.inst.history.filter (selected query mask st.inst)).take 1
        else st.inst.history.filter (selected query mask st.inst)).map
          (Sample.touch st.reader.readCnt) := by
  have hfree : ∀ s ∈ st.inst.history, s.validData → s.inMinSepTime = false := by
    intro s hs hvalid
    have hs' := (hsound.history s.core (mem_map_of_mem hs)).valid
    simp only [core_validData, hvalid, core_inMinSepTime] at hs'
    cases hheld : s.inMinSepTime
    · rfl
    · simp [hheld] at hs'
  rw [readSamples]
  by_cases hempty : st.inst.history.isEmpty
  · rw [if_pos hempty, isEmpty_iff.mp hempty]
    simp [AccessOut.none]
  · rw [if_neg hempty, if_neg (not_le.mpr hcount)]
    exact handed_readLoop qos query mask haction _ _ _ _ _ hfree hfresh hview

end InstanceState

namespace DataReader

open InstanceState

variable {ι : Type} [DecidableEq ι]

/-- In every run the history count of an instance covers its samples with data. -/
lemma Reach.historyCovered {qos : ReaderQos} {P : InstanceOp → InstanceState → Prop}
    {r₀ r : DataReader ι} (h₀ : r₀.Fresh) (h : Reach qos P r₀ r) :
    r.Sound ∧ ∀ i, 0 ≤ ((r.state i).view 0).historySlack := by
  refine h.invariant (fun _ ↦ True) (fun r ↦ ∀ i, 0 ≤ ((r.state i).view 0).historySlack)
    h₀.sound (fun i ↦ ?_) (fun _ _ op _ _ _ ↦ op.allowed_true qos _) ?_
  · simp [View.historySlack, InstanceState.view, state, h₀.history i, h₀.historyCount i]
  · intro r i st claims hsound hJ hedits j
    by_cases hj : j = i
    · subst hj
      rw [state_update]
      have hle := hedits.historySlack_le (hsound j)
      exact (hJ j).trans hle
    · have hj' := hJ j
      simp only [View.historySlack, InstanceState.view] at hj' ⊢
      rwa [inst_state_update r st hj]

/-- A read with a mask hands out the samples with data that satisfy the query and pass the mask
before the read, unless the mask selects new instances only and the instance is new. -/
theorem masked_read {qos : ReaderQos} {P : InstanceOp → InstanceState → Prop} {r₀ r : DataReader ι}
    (h₀ : r₀.Fresh) (h : Reach qos P r₀ r) (i : ι) (query : Option (Message → Bool))
    (mask : SampleMask) (action : Action) (haction : ∀ given s, action given s = .goOn)
    (hvalid : ∃ s ∈ (r.inst i).history, s.validData = true)
    (hfresh : ∀ s ∈ (r.inst i).history, s.readId ≠ r.reader.readCnt)
    (hview : viewKept mask (r.inst i) = true) :
    (readSamples qos query mask action (r.state i)).handed =
      (if qos.orderedGroupAccess then
        ((r.inst i).history.filter (selected query mask (r.inst i))).take 1
        else (r.inst i).history.filter (selected query mask (r.inst i))).map
          (Sample.touch r.reader.readCnt) := by
  obtain ⟨hsound, hslack⟩ := h.historyCovered h₀
  have hmap : ((r.inst i).history.map core).countP validData =
      (r.inst i).history.countP validData := countP_map ..
  have hpos : 0 < (r.inst i).history.countP validData := countP_pos_iff.mpr hvalid
  have hcount : 0 < (r.inst i).historySampleCount := by
    have hi := hslack i
    simp only [View.historySlack, InstanceState.view, state, hmap] at hi
    omega
  exact handed_readSamples qos query mask haction (hsound i) hcount hfresh hview

def twoWrites : List (Unit × InstanceOp) := [arrival true 1 100, arrival true 20 101]

def viewMask (newView notNewView : Bool) : SampleMask :=
  ⟨true, true, newView, notNewView, true, true, true⟩

/-- Both writes are handed out when every view is asked for. -/
theorem masked_read_of_writes :
    ∃ r : DataReader Unit, Reach plainQos (fun _ _ ↦ true) (init false) r ∧
      (r.inst ()).history.length = 2 ∧
      (readSamples plainQos none (viewMask true true) (fun _ _ ↦ .goOn) (r.state ())).handed =
        (r.inst ()).history.map (Sample.touch r.reader.readCnt) := by
  have hrun : (run plainQos (fun _ _ ↦ true) twoWrites (init false)).any (fun r ↦
      (r.inst ()).history.length = 2 &&
      ((r.inst ()).history.all (fun s ↦ s.validData && s.readId ≠ r.reader.readCnt &&
        selected none (viewMask true true) (r.inst ()) s) &&
      viewKept (viewMask true true) (r.inst ()))) := by
    decide +kernel
  obtain ⟨r, hreach, hrest⟩ := Reach.of_run (by simp [twoWrites]) hrun
  simp only [Bool.and_eq_true, decide_eq_true_eq, all_eq_true] at hrest
  obtain ⟨hlength, hall, hview⟩ := hrest
  obtain ⟨s, hs⟩ := exists_mem_of_length_pos (show 0 < (r.inst ()).history.length by omega)
  have hread := masked_read (fresh_init false) hreach () none (viewMask true true)
    (fun _ _ ↦ .goOn) (fun _ _ ↦ rfl) ⟨s, hs, (hall s hs).1.1⟩ (fun s hs ↦ (hall s hs).1.2) hview
  rw [filter_eq_self.mpr fun s hs ↦ (hall s hs).2] at hread
  exact ⟨r, hreach, hlength, hread⟩

/-- A read with the mask that always goes on hands out one of two samples that pass the mask. -/
def StopsEarly (qos : ReaderQos) (mask : SampleMask) : Prop :=
  ∃ r : DataReader Unit, Reach qos (fun _ _ ↦ true) (init false) r ∧
    ((r.inst ()).history.filter (selected none mask (r.inst ()))).length = 2 ∧
    (∀ s ∈ (r.inst ()).history, s.readId ≠ r.reader.readCnt) ∧
    (readSamples qos none mask (fun _ _ ↦ .goOn) (r.state ())).handed.length = 1

lemma stopsEarly_of_run {qos : ReaderQos} {mask : SampleMask}
    (hrun : (run qos (fun _ _ ↦ true) twoWrites (init false)).any (fun r ↦
      ((r.inst ()).history.filter (selected none mask (r.inst ()))).length = 2 &&
      ((r.inst ()).history.all (fun s ↦ s.readId ≠ r.reader.readCnt) &&
      (readSamples qos none mask (fun _ _ ↦ .goOn) (r.state ())).handed.length = 1))) :
    StopsEarly qos mask := by
  obtain ⟨r, hreach, hrest⟩ := Reach.of_run (by simp [twoWrites]) hrun
  simp only [Bool.and_eq_true, decide_eq_true_eq, all_eq_true] at hrest
  exact ⟨r, hreach, hrest⟩

/-- One of two samples that pass the mask is handed out: with ordered access of group scope, and
when the mask asks for new instances. -/
theorem masked_read_stops :
    StopsEarly { plainQos with orderedGroupAccess := true } (viewMask true true) ∧
      StopsEarly plainQos (viewMask true false) :=
  ⟨stopsEarly_of_run (by decide +kernel), stopsEarly_of_run (by decide +kernel)⟩

end DataReader

end OpenSplice.Kernel
