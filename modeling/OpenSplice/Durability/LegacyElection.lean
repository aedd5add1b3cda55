import OpenSplice.Durability.MasterElection

/-!
# The election of a master without priorities

`d_groupLocalListenerDetermineMastersLegacy` first looks for a master that the fellows have already
(`determineExistingMaster`). The walk keeps a candidate, which another report makes it drop, and
notes that it is confirmed only if it is reported while there is another candidate.
`existingMaster_confirmed` tells from the reports alone when the outcome is right.

Each report is also a vote. The loop over the votes finds the best master that is alive
(`majorityVoting`).

If no fellow has a master yet, `determineNewMasterLegacy` compares the candidates as the other
election does, with the state in place of the priority (`replacesLegacy_iff`), so the walk finds the
greatest aligner (`legacyElection`).
-/

set_option autoImplicit false

namespace OpenSplice.Durability

open List Fellow Prod

/-! ### Existing masters -/

/-- The part of `struct masterInfo` for existing masters, with the votes. -/
structure ExistingInfo where
  master : NetworkAddress
  masterConfirmed : Bool
  conflicts : Bool
  list : List (NetworkAddress × ℕ)
deriving DecidableEq

/-- The state of a walk that knows of no master yet. -/
abbrev ExistingInfo.start : ExistingInfo := ⟨.unaddressed, false, false, []⟩

def addMajorityMaster (address : NetworkAddress) :
    List (NetworkAddress × ℕ) → List (NetworkAddress × ℕ)
  | [] => [(address, 1)]
  | (a, count) :: list =>
    if address = a then (a, count + 1) :: list else (a, count) :: addMajorityMaster address list

/-- The master that a fellow of the same role reports, and whether it is confirmed. -/
def Fellow.report (nameSpace : NameSpace) (fellow : Fellow) : Option (NetworkAddress × Bool) :=
  match fellow.nameSpace nameSpace with
  | none => none
  | some fellowNameSpace =>
    if fellowNameSpace.role = nameSpace.role ∧ fellowNameSpace.master ≠ .unaddressed then
      some (fellowNameSpace.master, fellowNameSpace.masterConfirmed)
    else none

/-- What a report makes of the state. -/
def ExistingInfo.hear (m : ExistingInfo) (r : NetworkAddress × Bool) : ExistingInfo :=
  { (if m.master = .unaddressed then { m with master := r.1 }
    else if m.master = r.1 then m
    else match r.2, m.masterConfirmed with
      | true, false => { m with master := r.1, masterConfirmed := true, conflicts := false }
      | true, true => { m with conflicts := true }
      | false, false => { m with master := .unaddressed }
      | false, true => m) with list := addMajorityMaster r.1 m.list }

def determineExistingMaster (nameSpace : NameSpace) (m : ExistingInfo) (fellow : Fellow) :
    ExistingInfo :=
  match fellow.report nameSpace with
  | none => m
  | some r => m.hear r

lemma foldl_determineExistingMaster (nameSpace : NameSpace) (m : ExistingInfo)
    (fellows : List Fellow) :
    fellows.foldl (determineExistingMaster nameSpace) m =
      (fellows.filterMap (Fellow.report nameSpace)).foldl ExistingInfo.hear m := by
  rw [foldl_filterMap]
  congr 1
  funext m fellow
  rw [determineExistingMaster]
  cases fellow.report nameSpace <;> rfl

lemma report_addressed {nameSpace : NameSpace} {fellows : List Fellow} :
    ∀ r ∈ fellows.filterMap (Fellow.report nameSpace), r.1 ≠ .unaddressed := by
  intro r hr
  obtain ⟨fellow, -, hreport⟩ := mem_filterMap.mp hr
  rw [report] at hreport
  split at hreport
  · contradiction
  · split_ifs at hreport with h
    exact Option.some_inj.mp hreport ▸ h.2

/-- Reports that cancel out: one or more of one master and then an unconfirmed one of another
master, and so on. -/
inductive Cancelling : List (NetworkAddress × Bool) → Prop
  | nil : Cancelling []
  | group {before run : List (NetworkAddress × Bool)} {master : NetworkAddress}
      {last : NetworkAddress × Bool} (hbefore : Cancelling before) (hne : run ≠ [])
      (hrun : ∀ r ∈ run, r.1 = master) (hlast : last.1 ≠ master) (hunconfirmed : last.2 = false) :
      Cancelling (before ++ run ++ [last])

/-- What the reports must be like for a confirmed master to be found. Behind reports that cancel out
there are only reports of one master, and all confirmed ones are of that master; or one of them is
confirmed and of another master first, and all confirmed ones agree with that, or one behind it does
not. -/
def ConfirmedCount (reports : List (NetworkAddress × Bool)) : Prop :=
  ∃ before run master, Cancelling before ∧ (∀ r ∈ run, r.1 = master) ∧
    (reports = before ++ run ∧ (∀ r ∈ reports, r.2 = true → run ≠ [] ∧ r.1 = master) ∨
      run ≠ [] ∧ ∃ r behind, reports = before ++ run ++ r :: behind ∧ r.2 = true ∧ r.1 ≠ master ∧
        ((∀ r' ∈ reports, r'.2 = true → r'.1 = r.1) ∨ ∃ r' ∈ behind, r'.2 = true ∧ r'.1 ≠ r.1))

/-- All reports can be split at the first confirmed one that is of another master than those that
did not cancel out before it. -/
lemma exists_split (reports : List (NetworkAddress × Bool)) :
    ∃ before run master, Cancelling before ∧ (∀ r ∈ run, r.1 = master) ∧
      (reports = before ++ run ∨ run ≠ [] ∧ ∃ r behind,
        reports = before ++ run ++ r :: behind ∧ r.2 ∧ r.1 ≠ master) := by
  induction reports using reverseRecOn with
  | nil => exact ⟨[], [], .unaddressed, .nil, by simp, .inl rfl⟩
  | append_singleton reports r ih =>
    obtain ⟨before, run, master, hbefore, hrun, rfl | ⟨hne, r', behind, rfl, hr'⟩⟩ := ih
    · by_cases hne : run = []
      · subst hne
        exact ⟨before, [r], r.1, hbefore, by simp, .inl (by simp)⟩
      by_cases hmaster : r.1 = master
      · refine ⟨before, run ++ [r], master, hbefore, fun r' hr' ↦ ?_, .inl (by simp)⟩
        rcases mem_append.mp hr' with hr' | hr'
        · exact hrun r' hr'
        · rwa [mem_singleton.mp hr']
      · cases hconfirmed : r.2 with
        | true =>
          exact ⟨before, run, master, hbefore, hrun, .inr ⟨hne, r, [], rfl, hconfirmed, hmaster⟩⟩
        | false =>
          exact ⟨_, [], master, .group hbefore hne hrun hmaster hconfirmed, by simp, .inl (by simp)⟩
    · exact ⟨before, run, master, hbefore, hrun, .inr ⟨hne, r', behind ++ [r], by simp, hr'⟩⟩

variable {m : ExistingInfo} {reports : List (NetworkAddress × Bool)}

open ExistingInfo

lemma foldl_hear_confirmed (hm : m.masterConfirmed) (haddr : m.master ≠ .unaddressed) :
    (reports.foldl ExistingInfo.hear m).master = m.master ∧
      ((reports.foldl ExistingInfo.hear m).conflicts ↔
        m.conflicts ∨ ∃ r ∈ reports, r.2 ∧ r.1 ≠ m.master) := by
  induction reports generalizing m with
  | nil => simp
  | cons r reports ih =>
    have hhear : (m.hear r).master = m.master ∧ (m.hear r).masterConfirmed ∧
        ((m.hear r).conflicts ↔ m.conflicts ∨ r.2 ∧ r.1 ≠ m.master) := by
      by_cases heq : m.master = r.1
      · simp [hear, heq, heq ▸ haddr, hm]
      · cases hr : r.2 <;> simp [hear, haddr, heq, hm, hr, Ne.symm heq]
    obtain ⟨hmaster, hconfirmed, hconflicts⟩ := hhear
    obtain ⟨ihmaster, ihconflicts⟩ := ih hconfirmed (by rwa [hmaster])
    rw [foldl_cons, ihmaster, ihconflicts, hconflicts, hmaster]
    simp [or_assoc]

/-- No master is known to be confirmed, and there is a candidate or none. -/
structure Undecided (candidate : NetworkAddress) (m : ExistingInfo) : Prop where
  master : m.master = candidate
  masterConfirmed : m.masterConfirmed = false
  conflicts : m.conflicts = false

namespace Undecided

variable {candidate : NetworkAddress} {run : List (NetworkAddress × Bool)}

lemma hear_same (h : Undecided candidate m) {r : NetworkAddress × Bool}
    (hr : candidate = .unaddressed ∨ r.1 = candidate) : Undecided r.1 (m.hear r) := by
  by_cases hm : m.master = .unaddressed
  · exact ⟨by simp [hear, hm], by simp [hear, hm, h.masterConfirmed],
      by simp [hear, hm, h.conflicts]⟩
  · have heq : m.master = r.1 := by
      rw [h.master] at hm ⊢
      exact (hr.resolve_left hm).symm
    rw [hear, if_neg hm, if_pos heq]
    exact ⟨heq, h.masterConfirmed, h.conflicts⟩

lemma foldl_same (h : Undecided candidate m) (hrun : ∀ r ∈ run, r.1 = candidate) :
    Undecided candidate (run.foldl hear m) := by
  induction run generalizing m with
  | nil => exact h
  | cons r run ih =>
    obtain ⟨hr, hrest⟩ := forall_mem_cons.mp hrun
    exact ih (hr ▸ h.hear_same (.inr hr)) hrest

/-- The first one of reports of one master makes it the candidate. -/
lemma foldl_run (h : Undecided .unaddressed m) (hrun : ∀ r ∈ run, r.1 = candidate) :
    Undecided (if run = [] then .unaddressed else candidate) (run.foldl hear m) := by
  cases run with
  | nil => exact h
  | cons r run =>
    obtain ⟨hr, hrest⟩ := forall_mem_cons.mp hrun
    rw [if_neg (cons_ne_nil r run)]
    exact (hr ▸ h.hear_same (.inl rfl)).foldl_same hrest

end Undecided

lemma Cancelling.undecided {before : List (NetworkAddress × Bool)} (h : Cancelling before)
    (haddr : ∀ r ∈ before, r.1 ≠ .unaddressed) :
    Undecided .unaddressed (before.foldl hear .start) := by
  induction h with
  | nil => exact ⟨rfl, rfl, rfl⟩
  | @group before run master last hbefore hne hrun hlast hunconfirmed ih =>
    have hm := (ih fun r hr ↦ haddr r (by simp [hr])).foldl_run hrun
    obtain ⟨r, hr⟩ := exists_mem_of_ne_nil run hne
    have hmaster : master ≠ .unaddressed := hrun r hr ▸ haddr r (by simp [hr])
    rw [if_neg hne] at hm
    rw [foldl_append, foldl_append, foldl_cons, foldl_nil, hear, hm.master, if_neg hmaster,
      if_neg (Ne.symm hlast), hunconfirmed, hm.masterConfirmed]
    exact ⟨rfl, rfl, hm.conflicts⟩

/-- The walk ends with the confirmed master if the confirmed reports agree, and with a conflict if
they do not. -/
structure KeepsConfirmed (reports : List (NetworkAddress × Bool)) (m : ExistingInfo) : Prop where
  agreed : ∀ master, (∃ r ∈ reports, r.2 = true) → (∀ r ∈ reports, r.2 = true → r.1 = master) →
    m.master = master ∧ m.conflicts = false
  split : ∀ r ∈ reports, ∀ r' ∈ reports, r.2 = true → r'.2 = true → r.1 ≠ r'.1 →
    m.conflicts = true

/-- A conflict is only noted between confirmed masters. -/
lemma keepsConfirmed_iff (hconf : m.conflicts →
      ∃ r ∈ reports, r.2 ∧ ∃ r' ∈ reports, r'.2 ∧ r.1 ≠ r'.1) :
    KeepsConfirmed reports m ↔ (∀ r ∈ reports, r.2 → r.1 = m.master) ∨ m.conflicts := by
  constructor
  · intro hkeeps
    refine or_iff_not_imp_right.mpr fun hconflicts r hr hconfirmed ↦ ?_
    refine (hkeeps.agreed r.1 ⟨r, hr, hconfirmed⟩ fun r' hr' hconfirmed' ↦ ?_).1.symm
    by_contra hne
    exact hconflicts (hkeeps.split r' hr' r hr hconfirmed' hconfirmed hne)
  · intro hor
    have hagree {master} (hall : ∀ r ∈ reports, r.2 → r.1 = master) : m.conflicts = false := by
      refine Bool.eq_false_iff.mpr fun hconflicts ↦ ?_
      obtain ⟨r, hr, hconfirmed, r', hr', hconfirmed', hne⟩ := hconf hconflicts
      exact hne ((hall r hr hconfirmed).trans (hall r' hr' hconfirmed').symm)
    constructor
    · rintro master ⟨r, hr, hconfirmed⟩ hall
      have hm := hor.resolve_right (by simp [hagree hall])
      exact ⟨(hm r hr hconfirmed).symm.trans (hall r hr hconfirmed), hagree hall⟩
    · intro r hr r' hr' hconfirmed hconfirmed' hne
      refine hor.resolve_left fun hall ↦ hne ?_
      exact (hall r hr hconfirmed).trans (hall r' hr' hconfirmed').symm

section Split

variable {before run behind : List (NetworkAddress × Bool)} {master : NetworkAddress}
  (hbefore : Cancelling before) (hrun : ∀ r ∈ run, r.1 = master)
include hbefore hrun

lemma keepsConfirmed_run (haddr : ∀ r ∈ before ++ run, r.1 ≠ .unaddressed) :
    KeepsConfirmed (before ++ run) ((before ++ run).foldl hear .start) ↔
      ∀ r ∈ before ++ run, r.2 → run ≠ [] ∧ r.1 = master := by
  have hm := (hbefore.undecided fun r hr ↦ haddr r (by simp [hr])).foldl_run hrun
  rw [← foldl_append] at hm
  rw [keepsConfirmed_iff fun h ↦ absurd (hm.conflicts.symm.trans h) Bool.false_ne_true,
    hm.conflicts, hm.master, or_iff_left Bool.false_ne_true]
  refine forall₂_congr fun r hr ↦ imp_congr_right fun _ ↦ ?_
  split_ifs with hne
  · simp [hne, haddr r hr]
  · simp [hne]

lemma keepsConfirmed_overtaken (hne : run ≠ []) {r : NetworkAddress × Bool} (hr : r.2)
    (hmaster : r.1 ≠ master) (haddr : ∀ r' ∈ before ++ run ++ r :: behind, r'.1 ≠ .unaddressed) :
    KeepsConfirmed (before ++ run ++ r :: behind)
        ((before ++ run ++ r :: behind).foldl hear .start) ↔
      (∀ r' ∈ before ++ run ++ r :: behind, r'.2 → r'.1 = r.1) ∨
        ∃ r' ∈ behind, r'.2 ∧ r'.1 ≠ r.1 := by
  have hm := (hbefore.undecided fun r hr ↦ haddr r (by simp [hr])).foldl_run hrun
  obtain ⟨r₁, hr₁⟩ := exists_mem_of_ne_nil run hne
  have hunaddressed : master ≠ .unaddressed := hrun r₁ hr₁ ▸ haddr r₁ (by simp [hr₁])
  rw [← foldl_append, if_neg hne] at hm
  -- the confirmed report takes the place of the candidate, and stays
  have hhear : ((before ++ run).foldl hear .start).hear r =
      { (before ++ run).foldl hear .start with
        master := r.1, masterConfirmed := true, conflicts := false,
        list := addMajorityMaster r.1 ((before ++ run).foldl hear .start).list } := by
    rw [hear, hm.master, if_neg hunaddressed, if_neg (Ne.symm hmaster), hr, hm.masterConfirmed]
  obtain ⟨hlast, hconflicts⟩ := @foldl_hear_confirmed _ behind (congrArg masterConfirmed hhear)
    (by rw [hhear]; exact haddr r (by simp))
  rw [foldl_append, foldl_cons, keepsConfirmed_iff, hlast, hconflicts, hhear]
  · simp
  · rw [hconflicts, hhear]
    rintro (hfalse | ⟨r', hr', hconfirmed, hdiff⟩)
    · exact absurd hfalse Bool.false_ne_true
    · exact ⟨r', by simp [hr'], hconfirmed, r, by simp, hr, hdiff⟩

end Split

/-- Confirmed masters and conflicts between them are found exactly if `ConfirmedCount`. -/
theorem existingMaster_confirmed (nameSpace : NameSpace) (fellows : List Fellow) :
    KeepsConfirmed (fellows.filterMap (report nameSpace))
        (fellows.foldl (determineExistingMaster nameSpace) .start) ↔
      ConfirmedCount (fellows.filterMap (report nameSpace)) := by
  have haddr := @report_addressed nameSpace fellows
  rw [foldl_determineExistingMaster]
  generalize fellows.filterMap (report nameSpace) = reports at haddr ⊢
  constructor
  · intro hkeeps
    obtain ⟨before, run, master, hbefore, hrun, rfl | ⟨hne, r, behind, rfl, hr, hmaster⟩⟩ :=
      exists_split reports
    · exact ⟨before, run, master, hbefore, hrun,
        .inl ⟨rfl, (keepsConfirmed_run hbefore hrun haddr).mp hkeeps⟩⟩
    · exact ⟨before, run, master, hbefore, hrun, .inr ⟨hne, r, behind, rfl, hr, hmaster,
        (keepsConfirmed_overtaken hbefore hrun hne hr hmaster haddr).mp hkeeps⟩⟩
  · rintro ⟨before, run, master, hbefore, hrun,
      ⟨rfl, hall⟩ | ⟨hne, r, behind, rfl, hr, hmaster, hall⟩⟩
    · exact (keepsConfirmed_run hbefore hrun haddr).mpr hall
    · exact (keepsConfirmed_overtaken hbefore hrun hne hr hmaster haddr).mpr hall

/-- A fellow that reports a master. -/
def reporting (systemId master : ℕ) (confirmed : Bool) : Fellow :=
  ⟨⟨systemId, 1, 1⟩, .complete,
    [{ nameSpaceOf 0 0 with master := ⟨master, 1, 1⟩, masterConfirmed := confirmed }]⟩

/-- A confirmed master that is the first to be reported is dropped for an unconfirmed one. -/
theorem existingMaster_dropped :
    let fellows := [reporting 2 2 true, reporting 3 3 false]
    let m := fellows.foldl (determineExistingMaster (nameSpaceOf 0 0)) .start
    m.master = .unaddressed ∧ ¬KeepsConfirmed (fellows.filterMap (report (nameSpaceOf 0 0))) m := by
  refine ⟨by decide, fun hkeeps ↦ ?_⟩
  have hmaster := (hkeeps.agreed ⟨2, 1, 1⟩ (by decide) (by decide)).1
  exact absurd hmaster (by decide)

/-! ### Votes -/

/-- The body of the loop of `getMajorityMaster`. -/
def betterMaster (best v : NetworkAddress × ℕ) : NetworkAddress × ℕ :=
  if best.2 < v.2 then v
  else if v.2 = best.2 then if networkAddressCompare v.1 best.1 = .gt then v else best
  else best

def getMajorityMaster : List (NetworkAddress × ℕ) → NetworkAddress
  | [] => .unaddressed
  | first :: list => (list.foldl betterMaster first).1

def removeMajorityMaster (address : NetworkAddress) (list : List (NetworkAddress × ℕ)) :
    List (NetworkAddress × ℕ) :=
  list.eraseP fun v ↦ v.1 = address

/-- Whether the loop ends with a master: this service, or a fellow that is not about to go. -/
def Admin.accepts (admin : Admin) (master : NetworkAddress) : Bool :=
  match admin.fellows.find? fun fellow ↦ fellow.address = master with
  | none => master = admin.myAddress
  | some fellow => ¬(fellow.state = .terminating ∨ fellow.state = .terminated)

def voteRank (v : NetworkAddress × ℕ) : Rank := toLex (v.2, v.1.rank)

lemma foldl_betterMaster (first : NetworkAddress × ℕ) (list : List (NetworkAddress × ℕ)) :
    list.foldl betterMaster first ∈ first :: list ∧
      ∀ v ∈ first :: list, voteRank v ≤ voteRank (list.foldl betterMaster first) := by
  induction list generalizing first with
  | nil => simp
  | cons v list ih =>
    have hbetter : betterMaster first v = if voteRank first < voteRank v then v else first := by
      simp only [betterMaster, networkAddressCompare_eq, compare_gt_iff_gt, voteRank,
        Prod.Lex.toLex_lt_toLex]
      grind
    rw [foldl_cons]
    obtain ⟨hmem, hmax⟩ := ih (betterMaster first v)
    grind

variable {list : List (NetworkAddress × ℕ)} {votes : NetworkAddress → ℕ}

lemma getMajorityMaster_spec (h : list ≠ []) :
    ∃ n, (getMajorityMaster list, n) ∈ list ∧
      ∀ v ∈ list, voteRank v ≤ voteRank (getMajorityMaster list, n) := by
  obtain ⟨first, list, rfl⟩ := exists_cons_of_ne_nil h
  exact ⟨_, foldl_betterMaster first list⟩

/-- The voting loop. -/
def majorityMaster (admin : Admin) (list : List (NetworkAddress × ℕ)) : NetworkAddress :=
  let master := getMajorityMaster list
  if _ : master = .unaddressed then master
  else if admin.accepts master then master
  else majorityMaster admin (removeMajorityMaster master list)
termination_by list.length
decreasing_by
  obtain ⟨n, hmem, -⟩ := @getMajorityMaster_spec list (by rintro rfl; contradiction)
  rw [removeMajorityMaster, length_eraseP_of_mem hmem (by simp)]
  exact Nat.sub_lt (length_pos_of_mem hmem) Nat.one_pos

/-- A list of votes has one entry for each address with votes, which counts them. -/
def Tally (list : List (NetworkAddress × ℕ)) (votes : NetworkAddress → ℕ) : Prop :=
  ∀ a, list.filter (·.1 = a) = if votes a = 0 then [] else [(a, votes a)]

lemma filter_addMajorityMaster (address a : NetworkAddress) :
    (addMajorityMaster address list).filter (·.1 = a) =
      if a = address then addMajorityMaster a (list.filter (·.1 = a))
      else list.filter (·.1 = a) := by
  fun_induction addMajorityMaster address list with
  | case1 => grind [addMajorityMaster]
  | case2 => grind [addMajorityMaster]
  | case3 b count list hne ih => grind [addMajorityMaster]

lemma Tally.add (h : Tally list votes) (address : NetworkAddress) :
    Tally (addMajorityMaster address list) fun a ↦ votes a + if a = address then 1 else 0 := by
  intro a
  rw [filter_addMajorityMaster, h a]
  by_cases ha : a = address
  · subst ha
    by_cases hvotes : votes a = 0 <;> simp [hvotes, addMajorityMaster]
  · simp [ha]

lemma tally_hear (reports : List (NetworkAddress × Bool)) (h : Tally m.list votes) :
    Tally (reports.foldl ExistingInfo.hear m).list
      fun a ↦ votes a + (reports.map Prod.fst).count a := by
  induction reports generalizing m votes with
  | nil => exact h
  | cons r reports ih =>
    have hrest := ih (m := m.hear r) (h.add r.1)
    rw [foldl_cons]
    convert hrest using 2
    grind

/-- A master has most votes of those that are accepted, and is the greatest if there are several. It
is unaddressed if there are none. -/
def Wins (admin : Admin) (list : List (NetworkAddress × ℕ)) (master : NetworkAddress) : Prop :=
  (master = .unaddressed ∧ ∀ v ∈ list, admin.accepts v.1 = false) ∨
    ∃ n, (master, n) ∈ list ∧ admin.accepts master = true ∧
      ∀ v ∈ list, admin.accepts v.1 = true → voteRank v ≤ voteRank (master, n)

lemma majorityMaster_wins (admin : Admin) (haddr : ∀ v ∈ list, v.1 ≠ .unaddressed) :
    Wins admin list (majorityMaster admin list) := by
  fun_induction majorityMaster admin list with
  | case1 list master hmaster =>
    refine .inl ⟨hmaster, fun v hv ↦ ?_⟩
    obtain ⟨n, hmem, -⟩ := getMajorityMaster_spec (ne_nil_of_mem hv)
    exact absurd hmaster (haddr _ hmem)
  | case2 list master hmaster haccepts =>
    obtain ⟨n, hmem, hmax⟩ := @getMajorityMaster_spec list (by rintro rfl; contradiction)
    exact .inr ⟨n, hmem, haccepts, fun v hv _ ↦ hmax v hv⟩
  | case3 list master hmaster haccepts ih =>
    have hsub : ∀ v ∈ removeMajorityMaster master list, v ∈ list := fun v ↦ mem_of_mem_eraseP
    have hkeep : ∀ v ∈ list, admin.accepts v.1 → v ∈ removeMajorityMaster master list := by
      intro v hv hv'
      refine (mem_eraseP_of_neg fun heq ↦ ?_).mpr hv
      rw [of_decide_eq_true heq] at hv'
      exact haccepts hv'
    rcases ih fun v hv ↦ haddr v (hsub v hv) with ⟨hnone, hdead⟩ | ⟨n, hmem, haccepted, hmost⟩
    · refine .inl ⟨hnone, fun v hv ↦ Bool.eq_false_iff.mpr fun hv' ↦ ?_⟩
      exact absurd (hdead v (hkeep v hv hv')) (by simp [hv'])
    · exact .inr ⟨n, hsub _ hmem, haccepted, fun v hv hv' ↦ hmost v (hkeep v hv hv') hv'⟩

/-- The walk counts how many fellows report each master, whatever the state it starts from, and the
loop finds the one that wins. -/
theorem majorityVoting (admin : Admin) (nameSpace : NameSpace) (master : NetworkAddress)
    (masterConfirmed conflicts : Bool) :
    let list := (admin.fellows.foldl (determineExistingMaster nameSpace)
      ⟨master, masterConfirmed, conflicts, []⟩).list
    let reports := admin.fellows.filterMap (report nameSpace)
    Tally list (reports.map fst).count ∧ Wins admin list (majorityMaster admin list) := by
  intro list reports
  have htally : Tally list (reports.map fst).count := by
    have hstart : Tally [] fun _ ↦ 0 := fun _ ↦ rfl
    simpa [list, foldl_determineExistingMaster] using
      tally_hear (m := ⟨master, masterConfirmed, conflicts, []⟩) reports hstart
  refine ⟨htally, majorityMaster_wins admin fun v hv ↦ ?_⟩
  have hfilter := htally v.1
  split_ifs at hfilter with hcount
  · exact absurd (filter_eq_nil_iff.mp hfilter v hv) (by simp)
  · obtain ⟨r, hr, heq⟩ := mem_map.mp (count_pos_iff.mp (Nat.pos_of_ne_zero hcount))
    exact heq ▸ report_addressed r hr

/-! ### New masters -/

/-- Whether a state is after `D_STATE_DISCOVER_PERSISTENT_SOURCE`. -/
def ServiceState.pastSource : ServiceState → Bool
  | .init | .discoverFellowsGroups | .discoverLocalGroups | .discoverPersistentSource => false
  | _ => true

/-- The comparison of qualities and addresses, for `contEval`. -/
def evalLegacy (m : MasterInfo) (fellow : Fellow) (quality : ℕ) : Bool :=
  match compare quality m.masterQuality with
  | .gt => true
  | .eq => networkAddressCompare fellow.address m.master = .gt
  | .lt => false

def determineNewMasterLegacy (m : MasterInfo) (fellow : Fellow) : MasterInfo :=
  match fellow.nameSpace m.nameSpace with
  | none => m
  | some fellowNameSpace =>
    let replace :=
      if m.nameSpace.role = fellowNameSpace.role ∧ fellowNameSpace.aligner then
        if m.master = .unaddressed then true
        else if ¬m.nameSpace.delayedAlignment then
          if ¬m.masterState.pastSource ∧ fellow.state.pastSource then true
          else if m.masterState.pastSource ∧ ¬fellow.state.pastSource then false
          else evalLegacy m fellow fellowNameSpace.quality
        else evalLegacy m fellow fellowNameSpace.quality
      else false
    if replace then
      { m with
        master := fellow.address
        masterQuality := fellowNameSpace.quality
        masterState := fellow.state }
    else m

/-- The walk over the fellows, with the state that the caller sets up. -/
def determineMasterLegacy (admin : Admin) (nameSpace : NameSpace) : MasterInfo :=
  admin.fellows.foldl determineNewMasterLegacy
    (if nameSpace.aligner then
      ⟨nameSpace, admin.myAddress, nameSpace.quality, admin.state, false⟩
    else ⟨nameSpace, .unaddressed, 0, .init, false⟩)

/-- An aligner as a candidate: its state stands where the priority is in the other election. -/
def legacyCandidate (nameSpace : NameSpace) (state : ServiceState) (quality : ℕ)
    (address : NetworkAddress) : Candidate :=
  ⟨if nameSpace.delayedAlignment then 0 else state.pastSource.toNat, quality, address⟩

def Fellow.legacyCandidate (nameSpace : NameSpace) (fellow : Fellow) : Option Candidate :=
  ((fellow.nameSpace nameSpace).filter fun n ↦ nameSpace.role = n.role ∧ n.aligner).map fun n ↦
    Durability.legacyCandidate nameSpace fellow.state n.quality fellow.address

def Admin.legacyCandidates (admin : Admin) (nameSpace : NameSpace) : List Candidate :=
  (if nameSpace.aligner then
    [legacyCandidate nameSpace admin.state nameSpace.quality admin.myAddress] else []) ++
  admin.fellows.filterMap (Fellow.legacyCandidate nameSpace)

def MasterInfo.legacyCandidate (m : MasterInfo) : Option Candidate :=
  if m.master = .unaddressed then none
  else some (Durability.legacyCandidate m.nameSpace m.masterState m.masterQuality m.master)

section

variable (m : MasterInfo) (fellow : Fellow) (quality : ℕ)

lemma evalLegacy_iff :
    evalLegacy m fellow quality ↔ m.rank < toLex (quality, fellow.address.rank) := by
  rw [evalLegacy, networkAddressCompare_eq, MasterInfo.rank, Prod.Lex.toLex_lt_toLex]
  rcases lt_trichotomy quality m.masterQuality with h | rfl | h
  · simp [compare_lt_iff_lt.mpr h, h.not_gt, h.ne']
  · simp [compare_gt_iff_gt]
  · simp [compare_gt_iff_gt.mpr h, h]

lemma replacesLegacy_iff :
    (if ¬m.nameSpace.delayedAlignment then
      if ¬m.masterState.pastSource ∧ fellow.state.pastSource then true
      else if m.masterState.pastSource ∧ ¬fellow.state.pastSource then false
      else evalLegacy m fellow quality
    else evalLegacy m fellow quality) ↔
      (legacyCandidate m.nameSpace m.masterState m.masterQuality m.master).key <
        (legacyCandidate m.nameSpace fellow.state quality fellow.address).key := by
  have hkey : ∀ c c' : Candidate, c.key < c'.key ↔
      c.priority < c'.priority ∨ c.priority = c'.priority ∧ c.rank < c'.rank :=
    fun c c' ↦ Prod.Lex.toLex_lt_toLex
  have heval : evalLegacy m fellow quality ↔
      (legacyCandidate m.nameSpace m.masterState m.masterQuality m.master).rank <
        (legacyCandidate m.nameSpace fellow.state quality fellow.address).rank :=
    evalLegacy_iff m fellow quality
  rw [hkey]
  cases hdelay : m.nameSpace.delayedAlignment
  · cases hm : m.masterState.pastSource <;> cases hf : fellow.state.pastSource <;>
      simp [hdelay, hm, hf, heval, legacyCandidate]
  · simp [hdelay, heval, legacyCandidate]

lemma determineNewMasterLegacy_spec {fellow : Fellow} (haddr : fellow.address ≠ .unaddressed) :
    (determineNewMasterLegacy m fellow).nameSpace = m.nameSpace ∧
      (determineNewMasterLegacy m fellow).legacyCandidate =
        (fellow.legacyCandidate m.nameSpace).elim m.legacyCandidate
          (argAux (fun b c ↦ Candidate.key c < Candidate.key b) m.legacyCandidate) := by
  rw [determineNewMasterLegacy, Fellow.legacyCandidate]
  cases fellow.nameSpace m.nameSpace with
  | none => exact ⟨rfl, rfl⟩
  | some n =>
    by_cases hn : m.nameSpace.role = n.role ∧ n.aligner
    · by_cases hm : m.master = .unaddressed
      · simp [hn, hm, Option.filter, MasterInfo.legacyCandidate, haddr, argAux]
      · have hkey := replacesLegacy_iff m fellow n.quality
        simp only [if_pos hn, if_neg hm]
        by_cases hlt : (legacyCandidate m.nameSpace m.masterState m.masterQuality m.master).key <
            (legacyCandidate m.nameSpace fellow.state n.quality fellow.address).key
        · rw [if_pos (hkey.mpr hlt)]
          simp [hn, hm, Option.filter, MasterInfo.legacyCandidate, haddr, argAux, hlt]
        · rw [if_neg (mt hkey.mp hlt)]
          simp [hn, hm, Option.filter, MasterInfo.legacyCandidate, argAux, hlt]
    · simp [hn, Option.filter]

lemma foldl_determineNewMasterLegacy {fellows : List Fellow}
    (haddr : ∀ fellow ∈ fellows, fellow.address ≠ .unaddressed) :
    (fellows.foldl determineNewMasterLegacy m).legacyCandidate =
      (fellows.filterMap (Fellow.legacyCandidate m.nameSpace)).foldl
        (argAux fun b c ↦ Candidate.key c < Candidate.key b) m.legacyCandidate := by
  induction fellows generalizing m with
  | nil => rfl
  | cons fellow fellows ih =>
    obtain ⟨hname, hstep⟩ := determineNewMasterLegacy_spec m (haddr fellow mem_cons_self)
    rw [foldl_cons, ih _ fun f h ↦ haddr f (mem_cons_of_mem fellow h), hname, hstep]
    cases h : fellow.legacyCandidate m.nameSpace with
    | none => rw [filterMap_cons_none h]; rfl
    | some c => rw [filterMap_cons_some h]; rfl

end

/-- The walk finds the greatest of the aligners, this service being one of them or not, or nobody if
there is none. -/
theorem legacyElection {admin : Admin} (hwf : admin.WellFormed) (nameSpace : NameSpace) :
    (determineMasterLegacy admin nameSpace).master =
      match (admin.legacyCandidates nameSpace).argmax Candidate.key with
      | none => .unaddressed
      | some c => c.address := by
  have haddr := hwf.fellow_ne
  have hme : admin.myAddress ≠ .unaddressed := hwf.addressed _ mem_cons_self
  have hbest : (determineMasterLegacy admin nameSpace).legacyCandidate =
      (admin.legacyCandidates nameSpace).argmax Candidate.key := by
    rw [determineMasterLegacy, foldl_determineNewMasterLegacy _ haddr, Admin.legacyCandidates,
      argmax, foldl_append]
    cases nameSpace.aligner
    · rfl
    · simp [MasterInfo.legacyCandidate, hme, argAux]
  rw [← hbest, MasterInfo.legacyCandidate]
  by_cases hmaster : (determineMasterLegacy admin nameSpace).master = .unaddressed
  · rw [if_pos hmaster, hmaster]
  · rw [if_neg hmaster]
    rfl

theorem legacyElection_of_equalFellows :
    (determineMasterLegacy equalFellows (nameSpaceOf 5 0)).master =
      match (equalFellows.legacyCandidates (nameSpaceOf 5 0)).argmax Candidate.key with
      | none => .unaddressed
      | some c => c.address :=
  legacyElection ⟨by decide, by decide⟩ (nameSpaceOf 5 0)

end OpenSplice.Durability
