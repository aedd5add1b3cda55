import OpenSplice.Library.Challenge

/-!
# The election of a master by priority

Every durability service chooses a master for each of its name spaces among itself and its fellows
(`d_groupLocalListenerDetermineMastersImproved`). The fellows are walked with the best master so far
in a `MasterInfo`, which a candidate replaces if `determineNewMasterPriorityCompare` says so. That
comparison takes the priority of the service's own name space for the one of the current master, and
if the service starts as the master itself, the quality is what the name space before has left.

So the master is the greatest candidate in the order of priority, quality and address (`best`) only
under conditions on the walk and on the other name spaces (`masterElection`).
-/

set_option autoImplicit false

namespace OpenSplice.Durability

open OpenSplice.Library List Challenge Option

/-- `d_networkAddress`. -/
structure NetworkAddress where
  systemId : ℕ
  localId : ℕ
  lifecycleId : ℕ
deriving DecidableEq

/-- `d_networkAddressUnaddressed`. -/
def NetworkAddress.unaddressed : NetworkAddress := ⟨0, 0, 0⟩

abbrev AddressRank := ℕ ×ₗ ℕ ×ₗ ℕ

def NetworkAddress.rank (a : NetworkAddress) : AddressRank :=
  toLex (a.systemId, toLex (a.localId, a.lifecycleId))

open NetworkAddress

lemma NetworkAddress.rank_injective : Function.Injective NetworkAddress.rank := by
  intro a b _
  cases a
  simp_all [rank]

/-- `d_networkAddressCompare`. -/
def networkAddressCompare (a b : NetworkAddress) : Ordering :=
  (compare a.systemId b.systemId).then
    ((compare a.localId b.localId).then (compare a.lifecycleId b.lifecycleId))

lemma networkAddressCompare_eq (a b : NetworkAddress) :
    networkAddressCompare a b = compare a.rank b.rank := by
  simp only [networkAddressCompare, rank, Prod.Lex.compare_def, compareLex, compareOn, ofLex_toLex]

/-- `d_serviceState`. -/
inductive ServiceState
  | init
  | discoverFellowsGroups
  | discoverLocalGroups
  | discoverPersistentSource
  | injectPersistent
  | fetchInitial
  | complete
  | fetch
  | align
  | fetchAlign
  | terminating
  | terminated
deriving DecidableEq

/-- What the election reads and writes of a `d_nameSpace` and its policy. -/
structure NameSpace where
  name : String
  role : String
  aligner : Bool
  masterPriority : ℕ
  delayedAlignment : Bool
  /-- The initial quality. -/
  quality : ℕ
  master : NetworkAddress
  masterConfirmed : Bool
deriving DecidableEq

/-- A `d_fellow` with its name spaces. -/
structure Fellow where
  address : NetworkAddress
  state : ServiceState
  nameSpaces : List NameSpace
deriving DecidableEq

/-- `d_fellowGetNameSpace`. -/
def Fellow.nameSpace (fellow : Fellow) (template : NameSpace) : Option NameSpace :=
  fellow.nameSpaces.find? fun nameSpace ↦ nameSpace.name = template.name

/-- What the election reads of the `d_admin`: the fellows are in the order of the walk. -/
structure Admin where
  myAddress : NetworkAddress
  state : ServiceState
  fellows : List Fellow
deriving DecidableEq

/-- `struct masterInfo`. -/
structure MasterInfo where
  nameSpace : NameSpace
  master : NetworkAddress
  masterQuality : ℕ
  masterState : ServiceState
  conflicts : Bool
deriving DecidableEq

/-- `determineNewMasterPriorityCompare`. -/
def determineNewMasterPriorityCompare (m : MasterInfo) (fellow : Fellow)
    (fellowNameSpace : NameSpace) : Ordering :=
  (compare m.nameSpace.masterPriority fellowNameSpace.masterPriority).then
    ((compare m.masterQuality fellowNameSpace.quality).then
      (networkAddressCompare m.master fellow.address))

/-- `determineNewMasterPriorityIsFellowCandidate`. -/
def determineNewMasterPriorityIsFellowCandidate (m : MasterInfo) (fellowNameSpace : NameSpace) :
    Bool :=
  m.nameSpace.role = fellowNameSpace.role ∧ fellowNameSpace.aligner ∧
    0 < fellowNameSpace.masterPriority

/-- `determineNewMasterPriority`. -/
def determineNewMasterPriority (m : MasterInfo) (fellow : Fellow) : MasterInfo :=
  match fellow.nameSpace m.nameSpace with
  | none => m
  | some fellowNameSpace =>
    if determineNewMasterPriorityIsFellowCandidate m fellowNameSpace then
      let replace :=
        if m.master = .unaddressed then true
        else if m.nameSpace.delayedAlignment then false
        else determineNewMasterPriorityCompare m fellow fellowNameSpace = .lt
      if replace then
        { m with
          master := fellow.address
          masterQuality := fellowNameSpace.quality
          masterState := fellow.state
          conflicts := true }
      else m
    else m

/-- `propose_master_for_namespace`, with the quality that the `masterInfo` has before. -/
def proposeMasterForNamespace (admin : Admin) (nameSpace : NameSpace) (masterQuality : ℕ) :
    MasterInfo :=
  admin.fellows.foldl determineNewMasterPriority
    { nameSpace := nameSpace
      master :=
        if nameSpace.aligner ∧ 0 < nameSpace.masterPriority then admin.myAddress else .unaddressed
      masterQuality := masterQuality
      masterState := admin.state
      conflicts := false }

/-- The loop of `d_groupLocalListenerDetermineMastersImproved`: the name spaces with their masters,
whether this service is one of them, and the quality left in the `masterInfo`. -/
def determineMastersLoop (admin : Admin) : ℕ → List NameSpace → List NameSpace × Bool × ℕ
  | masterQuality, [] => ([], false, masterQuality)
  | masterQuality, nameSpace :: nameSpaces =>
    let m := proposeMasterForNamespace admin nameSpace masterQuality
    let rest := determineMastersLoop admin m.masterQuality nameSpaces
    ({ nameSpace with master := m.master, masterConfirmed := true } :: rest.1,
      m.master = admin.myAddress ∨ rest.2.1, rest.2.2)

/-- `d_groupLocalListenerDetermineMastersImproved`, up to the requests to others. -/
def determineMastersImproved (admin : Admin) (nameSpaces : List NameSpace) :
    List NameSpace × Bool :=
  let (nameSpaces, iAmMaster, masterQuality) := determineMastersLoop admin 0 nameSpaces
  if 0 < masterQuality then
    (nameSpaces.map fun nameSpace ↦ { nameSpace with quality := masterQuality }, iAmMaster)
  else (nameSpaces, iAmMaster)

/-! ### Candidates -/

abbrev Rank := ℕ ×ₗ AddressRank

/-- A candidate: its priority, quality and address. -/
structure Candidate where
  priority : ℕ
  quality : ℕ
  address : NetworkAddress
deriving DecidableEq

namespace Candidate

def rank (c : Candidate) : Rank := toLex (c.quality, c.address.rank)

def key (c : Candidate) : ℕ ×ₗ Rank := toLex (c.priority, c.rank)

lemma key_injective : Function.Injective key := by
  intro a b h
  obtain ⟨hp, hr⟩ := Prod.mk.inj (toLex.injective h)
  obtain ⟨hq, ha⟩ := Prod.mk.inj (toLex.injective hr)
  cases a
  simp_all [rank_injective.eq_iff]

/-- A candidate outranks a current master in the comparison of the walk, where the master has the
priority `p` whatever its own. -/
def Outranks (c : Candidate) (p : ℕ) (current : Candidate) : Prop :=
  Challenge.Outranks p current.rank c.key

instance (c : Candidate) (p : ℕ) (current : Candidate) : Decidable (c.Outranks p current) :=
  inferInstanceAs (Decidable (Challenge.Outranks _ _ _))

end Candidate

def fellowCandidate (nameSpace : NameSpace) (fellow : Fellow) : Option Candidate :=
  (fellow.nameSpace nameSpace).bind fun fellowNameSpace ↦
    if nameSpace.role = fellowNameSpace.role ∧ fellowNameSpace.aligner ∧
        0 < fellowNameSpace.masterPriority then
      some ⟨fellowNameSpace.masterPriority, fellowNameSpace.quality, fellow.address⟩
    else none

namespace Admin

variable (admin : Admin) (nameSpace : NameSpace)

def fellowCandidates : List Candidate := admin.fellows.filterMap (fellowCandidate nameSpace)

def ownCandidate : Option Candidate :=
  if nameSpace.aligner ∧ 0 < nameSpace.masterPriority then
    some ⟨nameSpace.masterPriority, nameSpace.quality, admin.myAddress⟩
  else none

def candidates : List Candidate :=
  (admin.ownCandidate nameSpace).toList ++ admin.fellowCandidates nameSpace

def best : Option Candidate := (admin.candidates nameSpace).argmax Candidate.key

def bestMaster : NetworkAddress :=
  match admin.best nameSpace with
  | none => .unaddressed
  | some c => c.address

/-- The first master of the walk, with the candidates who are compared with it: this service with
the quality left over in the `masterInfo`, or else the first candidate. -/
def opening (masterQuality : ℕ) : Option (Candidate × List Candidate) :=
  match admin.ownCandidate nameSpace with
  | some me => some ({ me with quality := masterQuality }, admin.fellowCandidates nameSpace)
  | none =>
    match admin.fellowCandidates nameSpace with
    | [] => none
    | c :: rest => some (c, rest)

/-- The addresses are those of different services. -/
structure WellFormed : Prop where
  nodup : (admin.myAddress :: admin.fellows.map Fellow.address).Nodup
  addressed : ∀ a ∈ admin.myAddress :: admin.fellows.map Fellow.address, a ≠ .unaddressed

end Admin

variable {admin : Admin}

lemma Admin.WellFormed.fellow_ne (h : admin.WellFormed) :
    ∀ fellow ∈ admin.fellows, fellow.address ≠ .unaddressed := fun fellow hmem ↦
  h.addressed fellow.address (mem_cons_of_mem _ (mem_map_of_mem hmem))

/-! ### The walk -/

def MasterInfo.rank (m : MasterInfo) : Rank := toLex (m.masterQuality, m.master.rank)

lemma toLex_rank_inj {q q' : ℕ} {a a' : NetworkAddress} :
    (toLex (q, a.rank) : Rank) = toLex (q', a'.rank) ↔ q = q' ∧ a = a' := by
  rw [toLex.injective.eq_iff, Prod.mk.injEq, rank_injective.eq_iff]

section Walk

variable {m : MasterInfo} {fellow : Fellow} {fellows : List Fellow}

lemma fellowCandidate_address {nameSpace : NameSpace} {c : Candidate}
    (h : fellowCandidate nameSpace fellow = some c) : c.address = fellow.address := by
  obtain ⟨fellowNameSpace, -, h⟩ := bind_eq_some_iff.mp h
  split_ifs at h
  rw [← some_inj.mp h]

open Candidate

lemma determineNewMasterPriorityCompare_eq (fellowNameSpace : NameSpace) :
    determineNewMasterPriorityCompare m fellow fellowNameSpace =
      compare (toLex (m.nameSpace.masterPriority, m.rank))
        (Candidate.key ⟨fellowNameSpace.masterPriority, fellowNameSpace.quality,
          fellow.address⟩) := by
  simp only [determineNewMasterPriorityCompare, networkAddressCompare_eq, key,
    Candidate.rank, MasterInfo.rank, Prod.Lex.compare_def, compareLex, compareOn, ofLex_toLex]

lemma replaces_iff (hdelay : m.nameSpace.delayedAlignment = false) (fellowNameSpace : NameSpace) :
    (if m.master = .unaddressed then true else if m.nameSpace.delayedAlignment then false
      else decide (determineNewMasterPriorityCompare m fellow fellowNameSpace = .lt)) ↔
    m.master = .unaddressed ∨ Challenge.Outranks m.nameSpace.masterPriority m.rank
      (Candidate.key ⟨fellowNameSpace.masterPriority, fellowNameSpace.quality,
        fellow.address⟩) := by
  by_cases hnobody : m.master = .unaddressed
  · simp [hnobody]
  · simp [hnobody, hdelay, determineNewMasterPriorityCompare_eq, compare_lt_iff_lt,
      Challenge.Outranks]

lemma determineNewMasterPriority_spec (fellow : Fellow)
    (hdelay : m.nameSpace.delayedAlignment = false) :
    (determineNewMasterPriority m fellow).nameSpace = m.nameSpace ∧
      match fellowCandidate m.nameSpace fellow with
      | none => determineNewMasterPriority m fellow = m
      | some c =>
        (determineNewMasterPriority m fellow).rank =
          if m.master = .unaddressed ∨ Challenge.Outranks m.nameSpace.masterPriority m.rank c.key
          then c.rank else m.rank := by
  unfold determineNewMasterPriority fellowCandidate
  cases hfind : fellow.nameSpace m.nameSpace with
  | none => exact ⟨rfl, rfl⟩
  | some fellowNameSpace =>
    simp only [bind_some, determineNewMasterPriorityIsFellowCandidate, decide_eq_true_eq]
    by_cases hcandidate : m.nameSpace.role = fellowNameSpace.role ∧ fellowNameSpace.aligner ∧
        0 < fellowNameSpace.masterPriority
    · rw [if_pos hcandidate, if_pos hcandidate]
      by_cases hreplace : m.master = .unaddressed ∨ Challenge.Outranks m.nameSpace.masterPriority
          m.rank (key ⟨fellowNameSpace.masterPriority, fellowNameSpace.quality, fellow.address⟩)
      · rw [if_pos ((replaces_iff hdelay fellowNameSpace).mpr hreplace)]
        exact ⟨rfl, (if_pos hreplace).symm⟩
      · rw [if_neg (mt (replaces_iff hdelay fellowNameSpace).mp hreplace)]
        exact ⟨rfl, (if_neg hreplace).symm⟩
    · rw [if_neg hcandidate, if_neg hcandidate]
      exact ⟨rfl, rfl⟩

variable (hdelay : m.nameSpace.delayedAlignment = false)
include hdelay

lemma walk_spec (hm : m.master ≠ .unaddressed)
    (hfellows : ∀ fellow ∈ fellows, fellow.address ≠ .unaddressed) :
    (fellows.foldl determineNewMasterPriority m).rank = champion m.nameSpace.masterPriority m.rank
        ((fellows.filterMap (fellowCandidate m.nameSpace)).map Candidate.key) := by
  induction fellows generalizing m with
  | nil => rfl
  | cons fellow _ ih =>
    have hrest := fun fellow' h ↦ hfellows fellow' (mem_cons_of_mem fellow h)
    obtain ⟨hname, hstep⟩ := determineNewMasterPriority_spec fellow hdelay
    rw [foldl_cons]
    cases hcandidate : fellowCandidate m.nameSpace fellow with
    | none =>
      rw [hcandidate] at hstep
      rw [hstep, filterMap_cons_none hcandidate]
      exact ih hdelay hm hrest
    | some =>
      simp only [hcandidate] at hstep
      have hm' : (determineNewMasterPriority m fellow).master ≠ .unaddressed := by
        split_ifs at hstep
        · rw [(toLex_rank_inj.mp hstep).2, fellowCandidate_address hcandidate]
          exact hfellows fellow (by simp)
        · rwa [(toLex_rank_inj.mp hstep).2]
      rw [filterMap_cons_some hcandidate, map_cons, champion,
        ih (by rwa [hname]) hm' hrest, hname, hstep]
      simp only [hm, false_or]
      rfl

lemma walk_unaddressed (hm : m.master = .unaddressed)
    (hfellows : ∀ fellow ∈ fellows, fellow.address ≠ .unaddressed) :
    match fellows.filterMap (fellowCandidate m.nameSpace) with
    | [] => fellows.foldl determineNewMasterPriority m = m
    | c :: rest =>
      (fellows.foldl determineNewMasterPriority m).rank =
        champion m.nameSpace.masterPriority c.rank (rest.map Candidate.key) := by
  induction fellows with
  | nil => rfl
  | cons fellow _ ih =>
    have hrest := fun fellow' h ↦ hfellows fellow' (mem_cons_of_mem fellow h)
    obtain ⟨hname, hstep⟩ := determineNewMasterPriority_spec fellow hdelay
    rw [foldl_cons]
    cases hcandidate : fellowCandidate m.nameSpace fellow with
    | none =>
      rw [hcandidate] at hstep
      rw [hstep, filterMap_cons_none hcandidate]
      exact ih hrest
    | some c =>
      rw [hcandidate] at hstep
      have hrank : (determineNewMasterPriority m fellow).rank = c.rank :=
        hstep.trans (if_pos (.inl hm))
      have hm' : (determineNewMasterPriority m fellow).master ≠ .unaddressed := by
        rw [(toLex_rank_inj.mp hrank).2, fellowCandidate_address hcandidate]
        exact hfellows fellow (by simp)
      rw [filterMap_cons_some hcandidate]
      rw [walk_spec (by rwa [hname]) hm' hrest, hname, hrank]

end Walk

section Election

variable {admin : Admin} {nameSpace : NameSpace} {masterQuality : ℕ}

open Admin

lemma proposeMasterForNamespace_spec (masterQuality : ℕ) (hwf : admin.WellFormed)
    (hdelay : nameSpace.delayedAlignment = false) :
    match admin.opening nameSpace masterQuality with
    | none =>
      (proposeMasterForNamespace admin nameSpace masterQuality).master = .unaddressed ∧
        (proposeMasterForNamespace admin nameSpace masterQuality).masterQuality = masterQuality
    | some (start, rest) =>
      (proposeMasterForNamespace admin nameSpace masterQuality).rank =
        champion nameSpace.masterPriority start.rank (rest.map Candidate.key) := by
  have hfellows := hwf.fellow_ne
  have hme : admin.myAddress ≠ .unaddressed := hwf.addressed _ mem_cons_self
  unfold proposeMasterForNamespace opening ownCandidate
  split_ifs with hown
  · exact walk_spec hdelay hme hfellows
  · have hwalk := walk_unaddressed (m := ⟨nameSpace, .unaddressed, masterQuality, admin.state,
      false⟩) hdelay rfl hfellows
    unfold fellowCandidates
    cases hlist : admin.fellows.filterMap (fellowCandidate nameSpace) with
    | nil =>
      simp only [hlist] at hwalk
      rw [hwalk]
      exact ⟨rfl, rfl⟩
    | cons =>
      simp only [hlist] at hwalk
      exact hwalk

lemma candidates_eq_opening {start : Candidate} {rest : List Candidate}
    (h : admin.opening nameSpace masterQuality = some (start, rest)) :
    ∃ first, admin.candidates nameSpace = first :: rest ∧ first.address = start.address ∧
      (∀ c ∈ rest, c ∈ admin.fellowCandidates nameSpace) ∧
        (first = start ∧ first ∈ admin.fellowCandidates nameSpace ∨
          first.address = admin.myAddress ∧ start.quality = masterQuality) := by
  unfold opening at h
  unfold candidates
  cases hown : admin.ownCandidate nameSpace with
  | some me =>
    rw [hown] at h
    obtain ⟨rfl, rfl⟩ := Prod.mk.inj (some_inj.mp h)
    refine ⟨me, rfl, rfl, fun c hc ↦ hc, .inr ⟨?_, rfl⟩⟩
    unfold ownCandidate at hown
    split_ifs at hown
    rw [← some_inj.mp hown]
  | none =>
    rw [hown] at h
    cases hlist : admin.fellowCandidates nameSpace with
    | nil => simp [hlist] at h
    | cons c =>
      simp only [hlist, some_inj, Prod.mk.injEq] at h
      obtain ⟨rfl, rfl⟩ := h
      exact ⟨c, rfl, rfl, fun c' hc' ↦ mem_cons_of_mem c hc', .inl ⟨rfl, mem_cons_self⟩⟩

lemma candidates_eq_nil (h : admin.opening nameSpace masterQuality = none) :
    admin.candidates nameSpace = [] := by
  unfold opening at h
  unfold candidates
  cases hown : admin.ownCandidate nameSpace with
  | some => simp [hown] at h
  | none =>
    cases hlist : admin.fellowCandidates nameSpace with
    | nil => rfl
    | cons => simp [hown, hlist] at h

lemma fellowCandidates_sublist (nameSpace : NameSpace) (fellows : List Fellow) :
    ((fellows.filterMap (fellowCandidate nameSpace)).map Candidate.address).Sublist
      (fellows.map Fellow.address) := by
  induction fellows with
  | nil => exact .slnil
  | cons fellow _ ih =>
    cases hcandidate : fellowCandidate nameSpace fellow with
    | none =>
      rw [filterMap_cons_none hcandidate]
      exact ih.cons fellow.address
    | some =>
      rw [filterMap_cons_some hcandidate, map_cons, map_cons, fellowCandidate_address hcandidate]
      exact ih.cons_cons fellow.address

lemma address_ne_of_mem_fellowCandidates (hwf : admin.WellFormed) {c : Candidate}
    (hc : c ∈ admin.fellowCandidates nameSpace) : c.address ≠ admin.myAddress := by
  rintro heq
  have hmem := (fellowCandidates_sublist nameSpace admin.fellows).subset (mem_map_of_mem hc)
  exact (nodup_cons.mp hwf.nodup).1 (heq ▸ hmem)

lemma candidates_nodup (hwf : admin.WellFormed) (nameSpace : NameSpace) :
    ((admin.candidates nameSpace).map Candidate.address).Nodup := by
  have hsublist := fellowCandidates_sublist nameSpace admin.fellows
  refine List.Nodup.sublist ?_ hwf.nodup
  unfold candidates ownCandidate
  split_ifs
  · exact hsublist.cons_cons admin.myAddress
  · exact hsublist.cons admin.myAddress

/-- What the walk must be like for the master to be the best candidate `w`: `w` is the first master
and nobody replaces it, or `w` outranks the first master and nobody behind `w` outranks `w`. -/
def Settles (nameSpace : NameSpace) (start : Candidate) (rest : List Candidate) (w : Candidate) :
    Prop :=
  (w.address = start.address ∧ ∀ c ∈ rest, ¬c.Outranks nameSpace.masterPriority start) ∨
    ∃ before behind, rest = before ++ w :: behind ∧ w.Outranks nameSpace.masterPriority start ∧
      ∀ c ∈ behind, ¬c.Outranks nameSpace.masterPriority w

def Settled (admin : Admin) (nameSpace : NameSpace) (masterQuality : ℕ) : Prop :=
  ∀ start rest w, admin.opening nameSpace masterQuality = some (start, rest) →
    admin.best nameSpace = some w → Settles nameSpace start rest w

/-- The quality that the `masterInfo` has after the best candidate has been chosen. -/
def carried (admin : Admin) (nameSpace : NameSpace) (masterQuality : ℕ) : ℕ :=
  match admin.best nameSpace with
  | none => masterQuality
  | some w => if w.address = admin.myAddress then masterQuality else w.quality

section Settles

variable {m : MasterInfo} {first start w c : Candidate} {rest : List Candidate}
  (hnodup : ((first :: rest).map Candidate.address).Nodup) (hfirst : first.address = start.address)
  (hm : m.rank =
    Challenge.champion nameSpace.masterPriority start.rank (rest.map Candidate.key))

include hnodup hfirst

lemma address_ne_of_mem_rest (hc : c ∈ rest) : c.address ≠ start.address := by
  rw [← hfirst]
  rintro heq
  exact (nodup_cons.mp hnodup).1 (heq ▸ mem_map_of_mem hc)

lemma rank_ne_of_mem_rest (hc : c ∈ rest) : c.rank ≠ start.rank := fun heq ↦
  address_ne_of_mem_rest hnodup hfirst hc (toLex_rank_inj.mp heq).2

include hm

lemma master_eq_iff (hc : c ∈ start :: rest) : m.master = c.address ↔ m.rank = c.rank := by
  refine ⟨fun h ↦ ?_, fun h ↦ (toLex_rank_inj.mp h).2⟩
  obtain ⟨d, hd, heq⟩ : ∃ d ∈ start :: rest, m.rank = d.rank := by
    rw [hm]
    rcases champion_mem (p := nameSpace.masterPriority) (r := start.rank)
      (l := rest.map Candidate.key) with heq | ⟨k, hk, heq, -⟩
    · exact ⟨start, mem_cons_self, heq⟩
    · obtain ⟨d, hd, rfl⟩ := mem_map.mp hk
      exact ⟨d, mem_cons_of_mem start hd, heq⟩
  rw [map_cons, hfirst, ← map_cons] at hnodup
  rw [heq, inj_on_of_nodup_map hnodup hd hc ((toLex_rank_inj.mp heq).2.symm.trans h)]

lemma settles_first (hw : w.address = start.address) :
    (m.master = w.address ↔ Settles nameSpace start rest w) ∧
      (m.master = w.address → m.masterQuality = start.quality) := by
  have hrank := master_eq_iff hnodup hfirst hm mem_cons_self
  rw [hw]
  refine ⟨?_, fun h ↦ (toLex_rank_inj.mp (hrank.mp h)).1⟩
  rw [hrank, hm, champion_eq_self_iff]
  · constructor
    · exact fun h ↦ .inl ⟨hw, fun c hc ↦ h c.key (mem_map_of_mem hc)⟩
    · rintro (⟨-, h⟩ | ⟨before, behind, rfl, -⟩) k hk
      · obtain ⟨c, hc, rfl⟩ := mem_map.mp hk
        exact h c hc
      · exact absurd hw (address_ne_of_mem_rest hnodup hfirst (by simp))
  · intro k hk
    obtain ⟨c, hc, rfl⟩ := mem_map.mp hk
    exact rank_ne_of_mem_rest hnodup hfirst hc

lemma settles_rest (hw : w ∈ rest) (hle : ∀ c ∈ rest, c.key ≤ w.key) :
    (m.master = w.address ↔ Settles nameSpace start rest w) ∧
      (m.master = w.address → m.masterQuality = w.quality) := by
  have hrank := master_eq_iff hnodup hfirst hm (mem_cons_of_mem start hw)
  have hsplit : ∀ before behind, rest = before ++ w :: behind →
      (m.rank = w.rank ↔ w.Outranks nameSpace.masterPriority start ∧
        ∀ c ∈ behind, ¬c.Outranks nameSpace.masterPriority w) := by
    intro before behind hrest
    have hne : ∀ c ∈ before ++ behind, c.rank ≠ w.rank := by
      intro c hc heq
      have haddr := (nodup_cons.mp hnodup).2
      rw [hrest, map_append, map_cons, nodup_middle, ← map_append] at haddr
      exact (nodup_cons.mp haddr).1 ((toLex_rank_inj.mp heq).2 ▸ mem_map_of_mem hc)
    rw [hm, hrest, map_append, map_cons]
    have hiff := @Challenge.champion_eq_iff _ _ _ _ nameSpace.masterPriority start.rank w.key
      (before.map Candidate.key) (behind.map Candidate.key)
    simp only [List.forall_mem_map] at hiff
    refine hiff ?_ (rank_ne_of_mem_rest hnodup hfirst hw).symm ?_ ?_
    · intro c hc
      refine lt_of_le_of_ne (hle c (by simp [hrest, hc])) fun heq ↦ ?_
      exact hne c (by simp [hc]) (by rw [Candidate.key_injective heq])
    · exact fun c hc ↦ hne c (by simp [hc])
    · exact fun c hc ↦ hne c (by simp [hc])
  refine ⟨?_, fun h ↦ (toLex_rank_inj.mp (hrank.mp h)).1⟩
  rw [hrank]
  constructor
  · intro h
    obtain ⟨before, behind, hrest⟩ := append_of_mem hw
    exact .inr ⟨before, behind, hrest, (hsplit before behind hrest).mp h⟩
  · rintro (⟨heq, -⟩ | ⟨before, behind, hrest, h⟩)
    · exact absurd heq (address_ne_of_mem_rest hnodup hfirst hw)
    · exact (hsplit before behind hrest).mpr h

end Settles

/-- The master is the best candidate exactly under the conditions on the walk, and then it leaves
its quality behind unless it is this service. -/
lemma proposeMasterForNamespace_iff (masterQuality : ℕ) (hwf : admin.WellFormed)
    (hdelay : nameSpace.delayedAlignment = false) :
    ((proposeMasterForNamespace admin nameSpace masterQuality).master =
        admin.bestMaster nameSpace ↔ Settled admin nameSpace masterQuality) ∧
      (Settled admin nameSpace masterQuality →
        (proposeMasterForNamespace admin nameSpace masterQuality).masterQuality =
          carried admin nameSpace masterQuality) := by
  have hspec := proposeMasterForNamespace_spec masterQuality hwf hdelay
  have hnodup := candidates_nodup hwf nameSpace
  unfold Settled carried bestMaster best
  cases hopening : admin.opening nameSpace masterQuality with
  | none =>
    rw [hopening] at hspec
    rw [candidates_eq_nil hopening]
    simp [hspec.1, hspec.2]
  | some opening =>
    obtain ⟨start, rest⟩ := opening
    rw [hopening] at hspec
    obtain ⟨first, hcandidates, hfirst, hrest, hstart⟩ := candidates_eq_opening hopening
    rw [hcandidates] at hnodup ⊢
    obtain ⟨w, hbest⟩ : ∃ w, (first :: rest).argmax Candidate.key = some w := by
      rw [← isSome_iff_exists, isSome_iff_ne_none, Ne, argmax_eq_none]
      simp
    have hle : ∀ c ∈ rest, c.key ≤ w.key := fun c hc ↦
      le_of_mem_argmax (mem_cons_of_mem first hc) hbest
    have hsettled : (∀ start' rest' w', some (start, rest) = some (start', rest') →
        (first :: rest).argmax Candidate.key = some w' → Settles nameSpace start' rest' w') ↔
          Settles nameSpace start rest w := by
      constructor
      · exact fun h ↦ h start rest w rfl hbest
      · intro _ start' rest' w' heq hbest'
        obtain ⟨rfl, rfl⟩ := Prod.mk.inj (some_inj.mp heq)
        rwa [← mem_unique hbest hbest']
    rw [hsettled, hbest]
    rcases mem_cons.mp (argmax_mem hbest) with rfl | hw
    · obtain ⟨hiff, hquality⟩ := settles_first hnodup hfirst hspec hfirst
      refine ⟨hiff, fun h ↦ (hquality (hiff.mpr h)).trans ?_⟩
      rcases hstart with ⟨rfl, hfellow⟩ | ⟨hme, hquality⟩
      · exact (if_neg (address_ne_of_mem_fellowCandidates hwf hfellow)).symm
      · rw [hquality]
        exact (if_pos hme).symm
    · obtain ⟨hiff, hquality⟩ := settles_rest hnodup hfirst hspec hw hle
      refine ⟨hiff, fun h ↦ (hquality (hiff.mpr h)).trans ?_⟩
      exact (if_neg (address_ne_of_mem_fellowCandidates hwf (hrest w hw))).symm

end Election

/-! ### All name spaces -/

/-- What is required of the walks for all name spaces: each of them starts with the quality that the
masters of those before have left. -/
def AllSettled (admin : Admin) : ℕ → List NameSpace → Prop
  | _, [] => True
  | masterQuality, nameSpace :: nameSpaces =>
    Settled admin nameSpace masterQuality ∧
      AllSettled admin (carried admin nameSpace masterQuality) nameSpaces

lemma determineMastersLoop_iff (hwf : admin.WellFormed) {nameSpaces : List NameSpace}
    (hdelay : ∀ nameSpace ∈ nameSpaces, nameSpace.delayedAlignment = false) (masterQuality : ℕ) :
    (determineMastersLoop admin masterQuality nameSpaces).1.map NameSpace.master =
        nameSpaces.map admin.bestMaster ↔ AllSettled admin masterQuality nameSpaces := by
  induction nameSpaces generalizing masterQuality with
  | nil => simp [determineMastersLoop, AllSettled]
  | cons nameSpace _ ih =>
    obtain ⟨hiff, hcarried⟩ := proposeMasterForNamespace_iff masterQuality hwf
      (hdelay nameSpace mem_cons_self)
    have hrest := ih (fun ns h ↦ hdelay ns (mem_cons_of_mem nameSpace h))
    simp only [determineMastersLoop, map_cons, cons.injEq, AllSettled, hiff]
    refine and_congr_right fun hsettled ↦ ?_
    rw [hcarried hsettled]
    exact hrest _

lemma bestMaster_congr {admin' : Admin} {nameSpace nameSpace' : NameSpace}
    (h : ∀ c, c ∈ admin.candidates nameSpace ↔ c ∈ admin'.candidates nameSpace') :
    admin.bestMaster nameSpace = admin'.bestMaster nameSpace' := by
  have hbest : admin.best nameSpace = admin'.best nameSpace' := by
    unfold Admin.best
    cases hb : (admin'.candidates nameSpace').argmax Candidate.key with
    | none =>
      rw [argmax_eq_none] at hb ⊢
      rw [eq_nil_iff_forall_not_mem]
      intro c hc
      simp [h, hb] at hc
    | some w =>
      cases ha : (admin.candidates nameSpace).argmax Candidate.key with
      | none =>
        rw [argmax_eq_none] at ha
        have hw := (h w).mpr (argmax_mem hb)
        simp [ha] at hw
      | some w' =>
        have hle := le_of_mem_argmax ((h w).mpr (argmax_mem hb)) ha
        have hge := le_of_mem_argmax ((h w').mp (argmax_mem ha)) hb
        rw [Candidate.key_injective (le_antisymm hge hle)]
  rw [Admin.bestMaster, Admin.bestMaster, hbest]

/-- The masters chosen are the greatest candidates for all name spaces exactly if every walk is
settled, and two services that know the same candidates then choose the same master. -/
theorem masterElection (admin : Admin) (hwf : admin.WellFormed) (nameSpaces : List NameSpace)
    (hdelay : ∀ nameSpace ∈ nameSpaces, nameSpace.delayedAlignment = false) :
    ((determineMastersImproved admin nameSpaces).1.map NameSpace.master =
        nameSpaces.map admin.bestMaster ↔ AllSettled admin 0 nameSpaces) ∧
      ∀ (admin' : Admin) (nameSpace nameSpace' : NameSpace),
        (∀ c, c ∈ admin.candidates nameSpace ↔ c ∈ admin'.candidates nameSpace') →
          admin.bestMaster nameSpace = admin'.bestMaster nameSpace' := by
  refine ⟨?_, fun admin' nameSpace nameSpace' h ↦ bestMaster_congr h⟩
  rw [← determineMastersLoop_iff hwf hdelay]
  unfold determineMastersImproved
  simp only
  split_ifs
  · rw [List.map_map]
    rfl
  · rfl

def nameSpaceOf (priority quality : ℕ) : NameSpace :=
  ⟨"ns", "role", true, priority, false, quality, .unaddressed, false⟩

def fellowOf (systemId priority quality : ℕ) : Fellow :=
  ⟨⟨systemId, 1, 1⟩, .complete, [nameSpaceOf priority quality]⟩

def equalFellows : Admin := ⟨⟨2, 1, 1⟩, .complete, [fellowOf 1 5 0, fellowOf 3 5 0]⟩

def greaterFellows : Admin := ⟨⟨1, 1, 1⟩, .complete, [fellowOf 2 3 0, fellowOf 3 2 0]⟩

/-- The last fellow has the greatest address, and nobody is behind it. -/
theorem masterElection_of_equalFellows :
    AllSettled equalFellows 0 [nameSpaceOf 5 0] ∧
      (determineMastersImproved equalFellows [nameSpaceOf 5 0]).1.map NameSpace.master =
        [nameSpaceOf 5 0].map equalFellows.bestMaster := by
  have hbest : equalFellows.best (nameSpaceOf 5 0) = some ⟨5, 0, ⟨3, 1, 1⟩⟩ := by decide +kernel
  have hsettled : AllSettled equalFellows 0 [nameSpaceOf 5 0] := by
    refine ⟨fun start rest w hopening hw ↦ ?_, trivial⟩
    obtain ⟨rfl, rfl⟩ := Prod.mk.inj (Option.some_inj.mp hopening)
    obtain rfl := Option.some_inj.mp (hbest.symm.trans hw)
    exact .inr ⟨[⟨5, 0, ⟨1, 1, 1⟩⟩], [], rfl, by decide, by simp⟩
  exact ⟨hsettled, (masterElection equalFellows ⟨by decide, by decide⟩ [nameSpaceOf 5 0]
    (by decide)).1.mpr hsettled⟩

/-- The fellow of priority 2 replaces the one of priority 3, both being above the own priority. -/
theorem masterElection_prefers_last :
    greaterFellows.WellFormed ∧
      (determineMastersImproved greaterFellows [nameSpaceOf 1 0]).1.map NameSpace.master =
        [⟨3, 1, 1⟩] ∧
      greaterFellows.bestMaster (nameSpaceOf 1 0) = ⟨2, 1, 1⟩ :=
  ⟨⟨by decide, by decide⟩, by decide +kernel, by decide +kernel⟩

end OpenSplice.Durability
