import OpenSplice.Kernel.Message

/-!
# Exclusive ownership

`v_determineOwnershipByStrength` decides by the strength and the gid of its writer whether a message
is from the owner of an instance. A message that is neither a registration nor an unregistration and
that is accepted makes its writer the owner (`determineOwnership_accepts`), and while the strengths
do not change the owner is the best of the writers (`OwnerReach.best`).

The branches for a writer that outranks the owner are also taken by unregistrations, and those for
the owner with another strength by any message. So an unregistration resets the ownership exactly
for the owner only if `RanksAsRecorded` (`exclusive_ownership`).
-/

set_option autoImplicit false

namespace OpenSplice.Kernel

open List

/-- `struct v_owner`. -/
structure Owner where
  gid : Gid
  strength : ℤ
  exclusive : Bool
deriving DecidableEq

/-- `v_ownershipResult`. -/
inductive OwnershipResult
  | alreadyOwner
  | owner
  | notOwner
  | ownerReset
  | sharedQos
  | incompatibleQos
deriving DecidableEq

def Owner.reset (owner : Owner) : Owner := { owner with gid := .nil, strength := 0 }

/-- `claimOwnership`. -/
def claimOwnership (owner candidate : Owner) (messageState : MsgState) : OwnershipResult × Owner :=
  if messageState.register then (.notOwner, owner)
  else if messageState.unregister then (.ownerReset, owner.reset)
  else (.owner, { owner with gid := candidate.gid, strength := candidate.strength })

/-- `v_determineOwnershipByStrength`. -/
def determineOwnershipByStrength (owner candidate : Owner) (messageState : MsgState) :
    OwnershipResult × Owner :=
  if owner.exclusive then
    if candidate.gid.isValid then
      if owner.exclusive = candidate.exclusive then
        if owner.gid.isValid then
          let equality := gidCompare owner.gid candidate.gid
          if candidate.strength > owner.strength then
            if equality = .eq then (.alreadyOwner, { owner with strength := candidate.strength })
            else claimOwnership owner candidate messageState
          else if candidate.strength < owner.strength then
            if equality = .eq then (.alreadyOwner, { owner with strength := candidate.strength })
            else (.notOwner, owner)
          else if equality = .lt then (.notOwner, owner)
          else claimOwnership owner candidate messageState
        else claimOwnership owner candidate messageState
      else (.incompatibleQos, owner)
    else (.ownerReset, owner.reset)
  else (.sharedQos, owner)

/-! ### Runs -/

/-- A message as it is given to `v_determineOwnershipByStrength`. -/
structure OwnerMsg where
  candidate : Owner
  state : MsgState
deriving DecidableEq

/-- A write or dispose: what `claimOwnership` takes for neither of the others. -/
def OwnerMsg.writes (msg : OwnerMsg) : Prop := ¬msg.state.register ∧ ¬msg.state.unregister

instance (msg : OwnerMsg) : Decidable msg.writes := inferInstanceAs (Decidable (_ ∧ _))

def OwnerMsg.unregisters (msg : OwnerMsg) : Prop := ¬msg.state.register ∧ msg.state.unregister

instance (msg : OwnerMsg) : Decidable msg.unregisters := inferInstanceAs (Decidable (_ ∧ _))

def OwnerMsg.Proper (msg : OwnerMsg) : Prop :=
  msg.candidate.exclusive = true ∧ msg.candidate.gid.isValid

instance (msg : OwnerMsg) : Decidable msg.Proper := inferInstanceAs (Decidable (_ ∧ _))

def Owner.next (owner : Owner) (msg : OwnerMsg) : Owner :=
  (determineOwnershipByStrength owner msg.candidate msg.state).2

/-- The states of a run for one exclusive instance, with the messages since the ownership was last
reset. At first there is no owner. -/
inductive OwnerReach : Owner → List OwnerMsg → Prop
  | init (owner : Owner) (hexclusive : owner.exclusive = true) (hnil : owner.gid = .nil) :
    OwnerReach owner []
  | msg {owner : Owner} {since : List OwnerMsg} (msg : OwnerMsg) (h : OwnerReach owner since)
    (hproper : msg.Proper) : OwnerReach (owner.next msg)
      (if (owner.next msg).gid.isValid then msg :: since else [])

def Outranks (candidate owner : Owner) : Prop :=
  owner.strength < candidate.strength ∨
    (candidate.strength = owner.strength ∧ gidCompare owner.gid candidate.gid = .gt)

instance (candidate owner : Owner) : Decidable (Outranks candidate owner) :=
  inferInstanceAs (Decidable (_ ∨ _))

/-- An unregistration comes with the strength that is recorded for the owner, if it is from the
owner, and does not outrank the owner otherwise. -/
def RanksAsRecorded (owner candidate : Owner) : Prop :=
  ¬owner.gid.isValid ∨
    if owner.gid = candidate.gid then candidate.strength = owner.strength
    else ¬Outranks candidate owner

/-- An unregistration resets the ownership if and only if it comes from the owner: its writer is not
the owner after it, and no other writer has lost the ownership. -/
def ResetsExactly (owner : Owner) (msg : OwnerMsg) : Prop :=
  (owner.gid.isValid ∧ ¬(owner.next msg).gid.isValid ↔ owner.gid = msg.candidate.gid) ∧
    (owner.next msg).gid ≠ msg.candidate.gid ∧
    (owner.gid ≠ msg.candidate.gid → (owner.next msg).gid = owner.gid)

section Step

variable {owner : Owner} {msg : OwnerMsg} (hexclusive : owner.exclusive = true)
  (hproper : msg.Proper)
include hexclusive hproper

lemma determineOwnership_cases :
    (owner.gid.isValid ∧ owner.gid = msg.candidate.gid ∧ msg.candidate.strength ≠ owner.strength ∧
      determineOwnershipByStrength owner msg.candidate msg.state =
        (.alreadyOwner, { owner with strength := msg.candidate.strength })) ∨
    (owner.gid.isValid ∧ owner.gid ≠ msg.candidate.gid ∧ ¬Outranks msg.candidate owner ∧
      determineOwnershipByStrength owner msg.candidate msg.state = (.notOwner, owner)) ∨
    ((owner.gid.isValid → owner.gid = msg.candidate.gid ∧ msg.candidate.strength = owner.strength ∨
        owner.gid ≠ msg.candidate.gid ∧ Outranks msg.candidate owner) ∧
      determineOwnershipByStrength owner msg.candidate msg.state =
        claimOwnership owner msg.candidate msg.state) := by
  obtain ⟨hcandidate, hvalid⟩ := hproper
  rw [determineOwnershipByStrength, if_pos hexclusive, if_pos hvalid,
    if_pos (hexclusive.trans hcandidate.symm)]
  by_cases howner : owner.gid.isValid
  · rw [if_pos howner]
    simp only [gidCompare_eq_iff]
    by_cases hsame : owner.gid = msg.candidate.gid
    · by_cases hstrength : msg.candidate.strength = owner.strength
      · refine .inr (.inr ⟨fun _ ↦ .inl ⟨hsame, hstrength⟩, ?_⟩)
        have hlt : gidCompare owner.gid msg.candidate.gid ≠ .lt := by
          rw [gidCompare_eq_iff.mpr hsame]
          simp
        rw [if_neg (by omega), if_neg (by omega), if_neg hlt]
      · refine .inl ⟨howner, hsame, hstrength, ?_⟩
        by_cases hlt : msg.candidate.strength > owner.strength
        · rw [if_pos hlt, if_pos hsame]
        · rw [if_neg hlt, if_pos (by omega), if_pos hsame]
    · simp only [hsame, if_false]
      have htotal : gidCompare owner.gid msg.candidate.gid ≠ .eq := mt gidCompare_eq_iff.mp hsame
      by_cases hgt : msg.candidate.strength > owner.strength
      · exact .inr (.inr ⟨fun _ ↦ .inr ⟨hsame, .inl hgt⟩, if_pos hgt⟩)
      · rw [if_neg hgt]
        by_cases hlt : msg.candidate.strength < owner.strength
        · refine .inr (.inl ⟨howner, hsame, ?_, if_pos hlt⟩)
          rintro (h | ⟨h, -⟩) <;> omega
        · rw [if_neg hlt]
          have heq : msg.candidate.strength = owner.strength := by omega
          cases hcmp : gidCompare owner.gid msg.candidate.gid with
          | lt =>
            refine .inr (.inl ⟨howner, hsame, ?_, if_pos rfl⟩)
            rintro (h | ⟨-, h⟩)
            · omega
            · exact absurd (hcmp.symm.trans h) (by simp)
          | eq => exact absurd hcmp htotal
          | gt => exact .inr (.inr ⟨fun _ ↦ .inr ⟨hsame, .inr ⟨heq, hcmp⟩⟩, by simp⟩)
  · exact .inr (.inr ⟨fun h ↦ absurd h howner, if_neg howner⟩)

open Owner

lemma determineOwnership_accepts (hwrites : msg.writes)
    (haccepted : (determineOwnershipByStrength owner msg.candidate msg.state).1 ≠ .notOwner) :
    (owner.next msg).gid = msg.candidate.gid := by
  rw [Owner.next]
  rcases determineOwnership_cases hexclusive hproper with
    ⟨-, hsame, -, hout⟩ | ⟨-, -, -, hout⟩ | ⟨-, hout⟩
  · rw [hout]
    exact hsame
  · rw [hout] at haccepted
    exact absurd rfl haccepted
  · rw [hout, claimOwnership, if_neg hwrites.1, if_neg hwrites.2]

/-- The ownership is reset for the owner only, exactly under the condition. -/
lemma resetsExactly_iff (hnil : ¬owner.gid.isValid → owner.gid = .nil)
    (hunregisters : msg.unregisters) :
    ResetsExactly owner msg ↔ RanksAsRecorded owner msg.candidate := by
  have hclaim : claimOwnership owner msg.candidate msg.state = (.ownerReset, owner.reset) := by
    rw [claimOwnership, if_neg hunregisters.1, if_pos hunregisters.2]
  have hne : Gid.nil ≠ msg.candidate.gid := by
    intro h
    exact Gid.not_isValid_nil (h ▸ hproper.2)
  rw [ResetsExactly, RanksAsRecorded, Owner.next]
  rcases determineOwnership_cases hexclusive hproper with
    ⟨-, hsame, hstrength, hout⟩ | ⟨hvalid, hdiff, hrank, hout⟩ | ⟨hrank, hout⟩
  · -- the owner stays the owner
    simp [hout, hsame, hstrength, hproper.2]
  · simp [hout, hvalid, hdiff, hrank]
  · rw [hout, hclaim]
    by_cases hvalid : owner.gid.isValid
    · rcases hrank hvalid with ⟨hsame, hstrength⟩ | ⟨hdiff, hrank⟩
      · simp [reset, hproper.2, hsame, hstrength, hne]
      · simp [reset, hvalid, hdiff, hrank]
    · simp [reset, hnil hvalid, hne]

end Step

/-! ### Every run -/

variable {owner : Owner} {since : List OwnerMsg}

/-- The instance stays exclusive, and without an owner there are no messages to account for. -/
lemma OwnerReach.proper (h : OwnerReach owner since) :
    owner.exclusive ∧ (¬owner.gid.isValid → owner.gid = .nil ∧ since = []) := by
  induction h with
  | init _ hexclusive hnil => exact ⟨hexclusive, fun _ ↦ ⟨hnil, rfl⟩⟩
  | @msg owner _ msg _ hproper ih =>
    obtain ⟨hexclusive, hunset⟩ := ih
    have hstep : (owner.next msg).exclusive ∧
        ((owner.next msg).gid = owner.gid ∨ (owner.next msg).gid = msg.candidate.gid ∨
          (owner.next msg).gid = .nil) := by
      rw [Owner.next]
      rcases determineOwnership_cases hexclusive hproper with
        ⟨-, -, -, hout⟩ | ⟨-, -, -, hout⟩ | ⟨-, hout⟩
      · exact ⟨by rw [hout]; exact hexclusive, .inl (by rw [hout])⟩
      · exact ⟨by rw [hout]; exact hexclusive, .inl (by rw [hout])⟩
      · rw [hout, claimOwnership]
        split_ifs
        · exact ⟨hexclusive, .inl rfl⟩
        · exact ⟨hexclusive, .inr (.inr rfl)⟩
        · exact ⟨hexclusive, .inr (.inl rfl)⟩
    refine ⟨hstep.1, fun hinvalid ↦ ⟨?_, if_neg hinvalid⟩⟩
    rcases hstep.2 with hgid | hgid | hgid
    · exact hgid.trans (hunset (hgid ▸ hinvalid)).1
    · exact absurd (hgid ▸ hproper.2) hinvalid
    · exact hgid

lemma not_outranks_self (owner : Owner) : ¬Outranks owner owner := by
  rintro (h | ⟨-, h⟩)
  · exact lt_irrefl _ h
  · rw [gidCompare_eq_iff.mpr rfl] at h
    simp at h

/-- Who does not outrank the owner does not outrank a candidate who does. -/
lemma not_outranks_of_outranks {a candidate : Owner} (ha : ¬Outranks a owner)
    (hc : Outranks candidate owner) : ¬Outranks a candidate := by
  have hle : a.strength ≤ owner.strength := Int.not_lt.mp fun h ↦ ha (.inl h)
  rintro (h | ⟨heq, hgt⟩)
  · rcases hc with hc | ⟨hc, -⟩ <;> omega
  · rcases hc with hc | ⟨hc, hcgt⟩
    · omega
    · -- the gids decide: `candidate < owner`, and `a < candidate`
      refine ha (.inr ⟨heq.trans hc, ?_⟩)
      exact Std.TransCmp.gt_trans hcgt hgt

/-- While the strengths do not change, the owner is the best of those that have written. -/
lemma OwnerReach.best (h : OwnerReach owner since) {strength : Gid → ℤ}
    (hconst : ∀ m ∈ since, m.candidate.strength = strength m.candidate.gid)
    (hvalid : owner.gid.isValid) :
    owner.strength = strength owner.gid ∧ (∃ m ∈ since, m.writes ∧ m.candidate.gid = owner.gid) ∧
      ∀ m ∈ since, m.writes → ¬Outranks m.candidate owner := by
  induction h with
  | init _ _ hnil => exact absurd (hnil ▸ hvalid) Gid.not_isValid_nil
  | @msg owner since msg hreach hproper ih =>
    rw [if_pos hvalid] at hconst ⊢
    obtain ⟨hexclusive, hunset⟩ := hreach.proper
    have hnew := hconst msg mem_cons_self
    have ih' := ih fun m hm ↦ hconst m (mem_cons_of_mem _ hm)
    -- the owner is not affected and the message is no better
    have hkeep : owner.next msg = owner → (msg.writes → ¬Outranks msg.candidate owner) →
        (owner.next msg).strength = strength (owner.next msg).gid ∧
        (∃ m ∈ msg :: since, m.writes ∧ m.candidate.gid = (owner.next msg).gid) ∧
        ∀ m ∈ msg :: since, m.writes → ¬Outranks m.candidate (owner.next msg) := by
      intro hsame hworse
      rw [hsame] at hvalid ⊢
      obtain ⟨hstrength, ⟨m, hm, hwrites⟩, hbest⟩ := ih' hvalid
      refine ⟨hstrength, ⟨m, mem_cons_of_mem _ hm, hwrites⟩, fun m hm hmw ↦ ?_⟩
      rcases mem_cons.mp hm with rfl | hm
      · exact hworse hmw
      · exact hbest m hm hmw
    rcases determineOwnership_cases hexclusive hproper with
      ⟨howner, hsame, hdiff, -⟩ | ⟨-, -, hrank, hout⟩ | ⟨hrank, hout⟩
    · have hstrength := (ih' howner).1
      rw [hsame, ← hnew] at hstrength
      exact absurd hstrength.symm hdiff
    · exact hkeep (by rw [Owner.next, hout]) fun _ ↦ hrank
    · rw [claimOwnership] at hout
      by_cases hregister : msg.state.register
      · rw [if_pos hregister] at hout
        exact hkeep (by rw [Owner.next, hout]) fun hwrites ↦ absurd hregister hwrites.1
      by_cases hunregister : msg.state.unregister
      · rw [if_neg hregister, if_pos hunregister] at hout
        rw [Owner.next, hout] at hvalid
        exact absurd hvalid Gid.not_isValid_nil
      rw [if_neg hregister, if_neg hunregister] at hout
      rw [Owner.next, hout]
      refine ⟨hnew, ⟨msg, mem_cons_self, ⟨hregister, hunregister⟩, rfl⟩, fun m hm hmw ↦ ?_⟩
      rcases mem_cons.mp hm with rfl | hm
      · exact not_outranks_self m.candidate
      · by_cases howner : owner.gid.isValid
        · have hold := (ih' howner).2.2 m hm hmw
          rcases hrank howner with ⟨hgid, hstr⟩ | ⟨-, houtranks⟩
          · rw [Outranks, hgid, ← hstr] at hold
            exact hold
          · exact not_outranks_of_outranks hold houtranks
        · rw [(hunset howner).2] at hm
          simp at hm

/-- In every run for an exclusive instance: an accepted write or dispose is from the owner; while
the strengths are constant the owner is the best of the writers since the last reset; and an
unregistration resets the ownership for the owner only, if and only if it comes with the strength
that is recorded for the owner or, from another writer, does not outrank it. -/
theorem exclusive_ownership {owner : Owner} {since : List OwnerMsg} (h : OwnerReach owner since) :
    (∀ msg : OwnerMsg, msg.Proper → msg.writes →
      (determineOwnershipByStrength owner msg.candidate msg.state).1 ≠ .notOwner →
      (owner.next msg).gid = msg.candidate.gid) ∧
    (∀ strength : Gid → ℤ, (∀ m ∈ since, m.candidate.strength = strength m.candidate.gid) →
      owner.gid.isValid → (∃ m ∈ since, m.writes ∧ m.candidate.gid = owner.gid) ∧
        ∀ m ∈ since, m.writes → ¬Outranks m.candidate owner) ∧
    ∀ msg : OwnerMsg, msg.Proper → msg.unregisters →
      (ResetsExactly owner msg ↔ RanksAsRecorded owner msg.candidate) := by
  obtain ⟨hexclusive, hunset⟩ := h.proper
  refine ⟨fun msg hproper ↦ determineOwnership_accepts hexclusive hproper,
    fun strength hconst hvalid ↦ (h.best hconst hvalid).2, fun msg hproper ↦ ?_⟩
  exact resetsExactly_iff hexclusive hproper fun hinvalid ↦ (hunset hinvalid).1

def sampleMsg (writer : ℕ) (strength : ℤ) (state : MsgState) : OwnerMsg :=
  ⟨⟨⟨1, 1, writer⟩, strength, true⟩, state⟩

/-- The bits of a write, and of an unregistration. -/
def writeState : MsgState := ⟨true, false, false, false, false, false⟩

@[inherit_doc writeState]
def unregisterState : MsgState := ⟨false, false, false, true, false, false⟩

def unowned : Owner := ⟨.nil, 0, true⟩

lemma written_reach : OwnerReach ⟨⟨1, 1, 1⟩, 1, true⟩ [sampleMsg 1 1 writeState] :=
  .msg (sampleMsg 1 1 writeState) (.init unowned rfl rfl) (by decide)

/-- The second write comes with a greater strength, so its writer is the owner. -/
theorem exclusive_ownership_written :
    ∃ owner since, OwnerReach owner since ∧ owner.gid = ⟨1, 1, 2⟩ ∧ since.length = 2 ∧
      (∀ m ∈ since, m.writes → ¬Outranks m.candidate owner) ∧
      ∀ msg : OwnerMsg, msg.Proper → msg.unregisters →
        (ResetsExactly owner msg ↔ RanksAsRecorded owner msg.candidate) := by
  have hreach := OwnerReach.msg (sampleMsg 2 2 writeState) written_reach (by decide)
  obtain ⟨-, hbest, hresets⟩ := exclusive_ownership hreach
  exact ⟨_, _, hreach, by decide, rfl, (hbest (·.serial) (by decide) (by decide)).2, hresets⟩

/-- The first writer is the owner. The unregistration of a stronger writer that has never written
resets the ownership, and the unregistration of the owner itself, with another strength than it
wrote with, does not. -/
theorem unregister_resets_other :
    ∃ owner since, OwnerReach owner since ∧ owner.gid = ⟨1, 1, 1⟩ ∧
      (∃ msg : OwnerMsg, msg.Proper ∧ msg.unregisters ∧ msg.candidate.gid = ⟨1, 1, 2⟩ ∧
        (owner.next msg).gid = .nil) ∧
      ∃ msg : OwnerMsg, msg.Proper ∧ msg.unregisters ∧ msg.candidate.gid = ⟨1, 1, 1⟩ ∧
        (owner.next msg).gid = ⟨1, 1, 1⟩ :=
  ⟨_, _, written_reach, rfl, ⟨sampleMsg 2 2 unregisterState, by decide, by decide, rfl, by decide⟩,
    ⟨sampleMsg 1 3 unregisterState, by decide, by decide, rfl, by decide⟩⟩

end OpenSplice.Kernel
