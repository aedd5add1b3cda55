import OpenSplice.Kernel.Reader.Runs

/-!
# The not read count

The not read count of a reader is right (`not_read_count`) as long as no sample that is to be made
available is pushed out to make room for itself. `ClaimHistorySample` is called without an insertion
point for such a sample, so with `KEEP_LAST` and a full history behind the sample it frees the
sample that is counted afterwards (`not_read_count_of_removed`).
-/

set_option autoImplicit false

namespace OpenSplice.Kernel

open Sample InstanceState List View

namespace DataReader

variable {ι : Type} [DecidableEq ι] {st : InstanceState} {qos : ReaderQos}

/-- When a sample that has been held back is made available, fewer samples with data than the depth
of the history are newer. -/
def exposable (qos : ReaderQos) : InstanceOp → InstanceState → Bool
  | .checkSeparation clock now, st =>
    qos.history ≠ .keepLast || now - st.inst.lastInsertionTime < qos.maximumSeparationTime ||
      (InstanceState.findHeldBack st.inst.history).all fun (_, s, newer) ↦
        InstanceState.expired clock s || newer.countP Sample.validData < qos.depth
  | _, _ => true

/-- The history counts are right, and the not read count is what is left unread. -/
structure ReadAccounts [Fintype ι] (r : DataReader ι) : Prop where
  history : ∀ i, ((r.state i).view 0).historySlack = 0
  unread : r.reader.notReadCount = ∑ i, ((r.inst i).history.countP Sample.unread : ℤ)

lemma exposable_allowed {op : InstanceOp}
    (hsound : (st.view 0).Sound) (hhistory : (st.view 0).historySlack = 0)
    (h : exposable qos op st) : op.Allowed qos (· ≠ .vanishes) st := by
  cases op with
  | insert =>
    exact ⟨⟨by simp, by simp, by simp, by simp, by simp, by simp, by simp, by simp, by simp⟩,
      by simp⟩
  | read => trivial
  | take => trivial
  | purge => exact fun _ _ _ _ ↦ by simp
  | checkSeparation =>
    intro older s newer hfind hdue
    refine ⟨by simp, fun hexpired ↦ ⟨by simp, fun hkeep hdepth ↦ ?_⟩⟩
    obtain ⟨hist, hheld, -⟩ := findHeldBack_eq_some hfind
    have hfew : newer.countP validData < qos.depth := by
      simpa [exposable, hkeep, hfind, hexpired, not_lt.mpr hdue] using h
    have hs : s.validData = false := by
      simpa [hheld] using (hsound.history s.core (mem_map_of_mem (by simp [hist]))).valid
    have holder : older.countP Edits.countedSample = older.countP validData := by
      refine countP_congr fun x hx ↦ ?_
      have hx' := (hsound.history x.core (mem_map_of_mem (by simp [hist, hx]))).valid
      simp only [core_validData, core_message, core_inMinSepTime] at hx'
      simp [Edits.countedSample, hx']
    have hcount : st.inst.historySampleCount = st.inst.history.countP validData := by
      have hmap : (st.inst.history.map core).countP validData =
          st.inst.history.countP validData := countP_map ..
      simp only [historySlack, view, hmap] at hhistory
      omega
    rw [hist, countP_append, countP_cons, hs] at hcount
    simp only [Bool.false_eq_true, if_false] at hcount
    omega
  | flushPending => exact ⟨by simp, fun _ ↦ .inl (by simp)⟩
  | expire => exact fun _ _ _ _ _ _ _ ↦ by simp

lemma ReadAccounts.update [Fintype ι] {r : DataReader ι} (h : r.ReadAccounts) {i : ι} {claims : ℤ}
    (hhistory : (st.view claims).historySlack = ((r.state i).view 0).historySlack)
    (hunread : (st.view claims).unreadSlack = ((r.state i).view 0).unreadSlack) :
    (r.update i st).ReadAccounts where
  history j := by
    by_cases hj : j = i
    · subst hj
      rw [state_update]
      exact hhistory.trans (h.history j)
    · have hsame := inst_state_update r st hj
      have hj' := h.history j
      simp only [historySlack, view] at hj' ⊢
      rwa [hsame]
  unread := by
    have hmap (l : List Sample) :
        (l.map Sample.core).countP Sample.unread = l.countP Sample.unread := countP_map ..
    simp only [unreadSlack, view, hmap, state] at hunread
    have hsum := sum_update (fun x ↦ (x.history.countP Sample.unread : ℤ)) r.inst i st.inst
    have hold := h.unread
    simp only [DataReader.update]
    omega

lemma Reach.readAccounts [Fintype ι] {r₀ r : DataReader ι} (h₀ : r₀.Fresh)
    (h : Reach qos (exposable qos · ·) r₀ r) : r.ReadAccounts := by
  refine (h.invariant (· ≠ .vanishes) ReadAccounts h₀.sound ⟨fun i ↦ ?_, ?_⟩ ?_ ?_).2
  · simp [historySlack, view, state, h₀.history i, h₀.historyCount i]
  · simp [h₀.notReadCount, h₀.history]
  · intro r i op hsound hJ hP
    exact exposable_allowed (hsound i) (hJ.history i) hP
  · intro r i st claims hsound hJ hedits
    exact hJ.update (hedits.historySlack (hsound i) (by simp))
      (hedits.unreadSlack (hsound i) (by simp))

/-- In every run in which a sample that is made available has fewer newer samples with data than the
depth, the not read count is the number of the samples that are linked and have not been read. -/
theorem not_read_count [Fintype ι] {qos : ReaderQos} {r₀ r : DataReader ι} (h₀ : r₀.Fresh)
    (h : Reach qos (exposable qos · ·) r₀ r) :
    r.reader.notReadCount = ∑ i, ((r.inst i).history.countP Sample.unread : ℤ) ∧
      0 ≤ r.reader.notReadCount := by
  have hcount := (h.readAccounts h₀).unread
  refine ⟨hcount, ?_⟩
  rw [hcount]
  exact Finset.sum_nonneg fun i _ ↦ Int.natCast_nonneg _

/-- A reader with `KEEP_LAST`, a time based filter and reliable delivery. -/
def filterQos : ReaderQos where
  history := .keepLast
  depth := 2
  maxSamples := none
  maxSamplesPerInstance := none
  bySourceTime := true
  minSeparation := 10
  maximumSeparationTime := 10
  reliable := true
  lifespanUsed := false
  lifespan := none
  userKey := false
  enableInvalidSamples := true
  autopurgeDisposeAll := false
  groupOrderedNonCoherent := false
  orderedGroupAccess := false
  notReadTriggerThreshold := 0

def arrival (write : Bool) (writeTime : ℕ) (allocTime : ℤ) : Unit × InstanceOp :=
  ((), .insert ⟨0, 0⟩ ⟨writeTime, ⟨write, !write, false, false, false, false⟩, allocTime, writeTime,
    ⟨1, 1, 1⟩, writeTime, none⟩ .groupWrite)

@[simp]
lemma arrival_wellFormed (write : Bool) (writeTime : ℕ) (allocTime : ℤ) :
    (arrival write writeTime allocTime).2.WellFormed := by
  intro _
  cases write
  · exact .inr (.inl rfl)
  · exact .inl rfl

@[simp]
lemma checkSeparation_wellFormed {clock : Clock} {now : ℤ} :
    (InstanceOp.checkSeparation clock now).WellFormed :=
  trivial

def separatedRun : List (Unit × InstanceOp) :=
  [arrival true 1 100, arrival true 20 101, ((), .checkSeparation ⟨0, 0⟩ 400)]

theorem not_read_count_separated :
    ∃ r : DataReader Unit, Reach filterQos (exposable filterQos · ·) (init false) r ∧
      r.reader.notReadCount = 2 ∧
      r.reader.notReadCount = ∑ i, ((r.inst i).history.countP Sample.unread : ℤ) := by
  have hrun : (run filterQos (exposable filterQos) separatedRun (init false)).any
      (fun r ↦ r.reader.notReadCount = 2) := by
    decide +kernel
  obtain ⟨r, hreach, hcount⟩ := Reach.of_run (by simp [separatedRun]) hrun
  exact ⟨r, hreach, by simpa using hcount, (not_read_count (fresh_init false) hreach).1⟩

/-- A dispose removes the newer one of two samples that are held back. The older one is made
available when two samples with data are newer: it is pushed out itself, and is counted
nevertheless. -/
def removedRun : List (Unit × InstanceOp) :=
  [arrival true 1 100, arrival true 20 101, arrival false 5 102, arrival true 25 103,
    arrival false 30 104, arrival true 40 200, arrival true 50 300, arrival true 45 301,
    arrival true 50 302, ((), .checkSeparation ⟨0, 0⟩ 400)]

theorem not_read_count_of_removed :
    ∃ r : DataReader Unit, Reach filterQos (fun _ _ ↦ True) (init false) r ∧
      r.reader.notReadCount ≠ ∑ i, ((r.inst i).history.countP Sample.unread : ℤ) := by
  have hrun : (run filterQos (fun _ _ ↦ true) removedRun (init false)).any
      (fun r ↦ r.reader.notReadCount ≠ (r.inst ()).history.countP Sample.unread) := by
    decide +kernel
  obtain ⟨r, hreach, hcount⟩ := Reach.of_run (by simp [removedRun]) hrun
  refine ⟨r, by simpa using hreach, ?_⟩
  simpa using hcount

end DataReader

end OpenSplice.Kernel
