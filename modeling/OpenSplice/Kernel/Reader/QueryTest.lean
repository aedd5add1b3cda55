import OpenSplice.Kernel.Reader.Runs

/-!
# The evaluation of a query

The three functions of `v_dataReaderQuery.c` that find out whether a sample satisfies a query. A
query is a disjunction; each term has a part for the keys and one for the other fields, of which
either may be absent. `c_queryEval` evaluates a part on the newest sample of the instance.

A term without a part for the keys is nothing to `testSample` (`query_test_agree`).
-/

set_option autoImplicit false

namespace OpenSplice.Kernel

/-- `instanceQ[i]` and `sampleQ[i]`. -/
structure QueryTerm where
  instanceQ : Option (Message → Bool)
  sampleQ : Option (Message → Bool)

def QueryTerm.holds (term : QueryTerm) (message : Message) : Bool :=
  term.instanceQ.all (· message) && term.sampleQ.all (· message)

/-- `v_dataReaderQuery`. -/
structure DataReaderQuery where
  sampleMask : SampleMask
  terms : List QueryTerm

namespace DataReaderQuery

/-- The loop of `v_dataReaderQueryTestSample`. -/
def testLoop (newest : Sample) : List QueryTerm → Bool → Bool
  | [], pass => pass
  | term :: terms, pass =>
    if pass then pass
    else
      let pass₁ := term.instanceQ.elim pass (· newest.message)
      testLoop newest terms (if pass₁ then term.sampleQ.elim pass₁ (· newest.message) else pass₁)

/-- `v_dataReaderQueryTestSample`. -/
def testSample (query : DataReaderQuery) (inst : Instance) (newest sample : Sample) : Bool :=
  let pass := sampleMaskPass query.sampleMask sample inst
  if pass && 0 < query.terms.length then testLoop newest query.terms false else pass

/-- The loop of `v_dataReaderQueryTest`. The sample is the newest one for its own part. -/
def triggerLoop (newest sample : Sample) : List QueryTerm → Bool → Bool
  | [], pass => pass
  | term :: terms, pass =>
    if pass then pass
    else
      let pass₁ := term.instanceQ.elim true (· newest.message)
      triggerLoop newest sample terms <|
        if pass₁ && sample.validData then term.sampleQ.elim pass₁ (· sample.message) else pass₁

/-- `v_dataReaderQueryTest`, for its trigger value, before the action. -/
def testTrigger (query : DataReaderQuery) (inst : Instance) (newest sample : Sample) : Bool :=
  if sampleMaskPass query.sampleMask sample inst then
    triggerLoop newest sample query.terms false
  else false

/-- The loop of `v__dataReaderQueryOrderedReadOrTake` over the terms, with `V_SKIP`. -/
def orderedLoop (sample : Sample) : List QueryTerm → Bool → Bool
  | [], skip => skip
  | term :: terms, skip =>
    if skip then
      orderedLoop sample terms <|
        if term.sampleQ.all (· sample.message) && term.instanceQ.all (· sample.message) then false
        else skip
    else skip

/-- `v__dataReaderQueryOrderedReadOrTake`: the sample is read or taken. -/
def orderedTest (query : DataReaderQuery) (inst : Instance) (sample : Sample) : Bool :=
  sampleMaskPass query.sampleMask sample inst && !orderedLoop sample query.terms true

/-- What the functions are to compute. -/
def accepts (query : DataReaderQuery) (inst : Instance) (sample : Sample) : Bool :=
  sampleMaskPass query.sampleMask sample inst && query.terms.any (·.holds sample.message)

variable (sample : Sample) (terms : List QueryTerm)

open QueryTerm

lemma testLoop_eq (pass : Bool) : testLoop sample terms pass =
    (pass || terms.any fun term ↦ term.instanceQ.isSome && term.holds sample.message) := by
  induction terms generalizing pass with
  | nil => simp [testLoop]
  | cons term _ ih =>
    rcases term with ⟨- | q, - | q'⟩ <;> cases pass <;> simp [testLoop, ih, holds]
    all_goals by_cases hq : q sample.message = true <;> simp [hq]

lemma triggerLoop_eq (h : sample.validData) (pass : Bool) :
    triggerLoop sample sample terms pass = (pass || terms.any (·.holds sample.message)) := by
  induction terms generalizing pass with
  | nil => simp [triggerLoop]
  | cons term _ ih =>
    rcases term with ⟨- | q, - | q'⟩ <;> cases pass <;> simp [triggerLoop, ih, holds, h]
    all_goals by_cases hq : q sample.message = true <;> simp [hq]

lemma orderedLoop_eq (skip : Bool) :
    orderedLoop sample terms skip = (skip && !terms.any (·.holds sample.message)) := by
  induction terms generalizing skip with
  | nil => simp [orderedLoop]
  | cons term _ ih =>
    cases skip <;> simp [orderedLoop, ih, holds]
    rw [Bool.or_comm (!Option.all _ _)]

/-- The functions agree on the newest sample exactly if there are terms, and one with a part for the
keys accepts the sample if any does. -/
theorem query_test_agree (query : DataReaderQuery) (inst : Instance) (h : sample.validData = true) :
    (query.testSample inst sample sample = query.accepts inst sample ∧
      query.testTrigger inst sample sample = query.accepts inst sample ∧
      query.orderedTest inst sample = query.accepts inst sample) ↔
    (sampleMaskPass query.sampleMask sample inst = true → query.terms ≠ [] ∧
      ∀ term ∈ query.terms, term.holds sample.message = true →
        ∃ term ∈ query.terms, term.instanceQ.isSome = true ∧ term.holds sample.message = true) := by
  simp only [testSample, testTrigger, orderedTest, accepts, testLoop_eq, triggerLoop_eq _ _ h,
    orderedLoop_eq]
  by_cases hmask : sampleMaskPass query.sampleMask sample inst
  · by_cases hterms : query.terms = []
    · simp [hmask, hterms]
    · simp only [hmask, List.length_pos_iff.mpr hterms, decide_true, Bool.and_self, if_true,
        Bool.false_or, Bool.true_and, Bool.not_not, and_self, and_true, forall_const]
      rw [Bool.eq_iff_iff]
      simp only [List.any_eq_true, Bool.and_eq_true]
      refine ⟨fun heq ↦ ⟨hterms, fun term hterm hholds ↦ heq.mpr ⟨term, hterm, hholds⟩⟩,
        fun himp ↦ ⟨?_, ?_⟩⟩
      · rintro ⟨term, hterm, -, hholds⟩
        exact ⟨term, hterm, hholds⟩
      · rintro ⟨term, hterm, hholds⟩
        exact himp.2 term hterm hholds
  · simp [hmask]

def oneTerm (term : QueryTerm) : DataReaderQuery :=
  ⟨⟨true, true, true, true, true, true, true⟩, [term]⟩

def written : Sample :=
  ⟨1, ⟨1, ⟨true, false, false, false, false, false⟩, 100, 1, ⟨1, 1, 1⟩, 1, none⟩, true, false,
    false, false, 0, 0, 0, none⟩

/-- A term for the keys that does not hold, one without a part for the keys, and one with both parts
that holds. -/
def threeTerms : DataReaderQuery :=
  ⟨⟨true, true, true, true, true, true, true⟩, [⟨some fun m ↦ m.allocTime = 0, none⟩,
    ⟨none, some fun m ↦ m.writeTime = 100⟩,
    ⟨some fun _ ↦ true, some fun m ↦ m.sequenceNumber = 1⟩]⟩

/-- The last term has a part for the keys and holds as well as the second one. -/
theorem query_test_agree_of_keys :
    let inst := (DataReader.init false : DataReader Unit).inst ()
    threeTerms.testSample inst written written = threeTerms.accepts inst written ∧
      threeTerms.testTrigger inst written written = threeTerms.accepts inst written ∧
      threeTerms.orderedTest inst written = threeTerms.accepts inst written :=
  (query_test_agree _ _ _ rfl).mpr fun _ ↦ ⟨List.cons_ne_nil _ _, fun _ _ _ ↦
    ⟨_, List.mem_of_getElem? (i := 2) rfl, rfl, by decide⟩⟩

/-- A term without a part for the keys holds for the sample, but the listeners do not hear of it. -/
theorem query_test_without_keys :
    let inst := (DataReader.init false : DataReader Unit).inst ()
    (oneTerm ⟨none, some fun _ ↦ true⟩).accepts inst written ∧
      (oneTerm ⟨none, some fun _ ↦ true⟩).testTrigger inst written written ∧
      (oneTerm ⟨none, some fun _ ↦ true⟩).testSample inst written written = false := by
  decide

end DataReaderQuery

end OpenSplice.Kernel
