import OpenSplice.Durability.SampleChain
import OpenSplice.Kernel.GroupHistory

/-!
# Merging a complete chain into a group

When a chain that belongs to a merge action is complete, `d_sampleChainListenerCheckChainComplete`
treats the kernel group as the merge policy says. When some but not all fellows have answered that
their set is equal to the local one, `REPLACE` deletes the local set and puts only the beads in its
place, and `CATCHUP` does not inject the beads at all. `mergeChain_aligned` says exactly when every
sample of every fellow is in the group afterwards.

A group is what its instances hold, oldest first, and a message is stored by `insertInto`. No
message is rejected for want of resources. With a history of bounded depth a write can still push
out other samples; `Fits` says that the depth is enough for the writes in the group and the beads.
-/

set_option autoImplicit false

namespace OpenSplice.Durability

open OpenSplice.Kernel Durability.Alignment

variable {κ : Type*} {localSet : List (BeadMessage κ)} {msg : BeadMessage κ} {A : Alignment κ}

/-! ### The group -/

/-- What is read of a `v_groupInstance`: the keys, `L_MARK`, and the samples from the oldest on. -/
structure InstanceHistory (κ : Type*) where
  key : List κ
  marked : Bool
  samples : List Message
deriving DecidableEq

/-- A `v_group` with its instances. -/
structure MergeGroup (κ : Type*) where
  qos : GroupQos
  builtin : Bool
  instances : List (InstanceHistory κ)
deriving DecidableEq

def BeadMessage.Same (msg₁ msg₂ : BeadMessage κ) : Prop :=
  msg₁.keyValues = msg₂.keyValues ∧ messageCheckDuplicate msg₁.toMessage msg₂.toMessage = true

instance [DecidableEq κ] (msg₁ msg₂ : BeadMessage κ) : Decidable (msg₁.Same msg₂) :=
  inferInstanceAs (Decidable (_ ∧ _))

namespace InstanceHistory

def holds (msg : BeadMessage κ) (inst : InstanceHistory κ) : Bool :=
  inst.samples.any (messageCheckDuplicate msg.toMessage)

/-- `v_groupInstanceInsert`. -/
def insert (qos : GroupQos) (msg : BeadMessage κ) (inst : InstanceHistory κ) : InstanceHistory κ :=
  { inst with samples := GroupInstance.insertInto qos msg.toMessage inst.samples }

/-- `v_groupInstancePurgeTimed`. -/
def purgeTimed (purgeTime : ℤ) (inst : InstanceHistory κ) : InstanceHistory κ :=
  { inst with samples := inst.samples.dropWhile fun sample ↦ decide (sample.allocTime ≤ purgeTime) }

end InstanceHistory

namespace MergeGroup

variable [DecidableEq κ]

/-- `v_groupWrite`. A message with `L_MARK` clears the mark of its instance. -/
def write (mark : Bool) (msg : BeadMessage κ) (group : MergeGroup κ) : MergeGroup κ :=
  let instances :=
    if group.instances.any (·.key = msg.keyValues) then group.instances
    else ⟨msg.keyValues, false, []⟩ :: group.instances
  { group with
    instances := instances.map fun inst ↦
      if inst.key = msg.keyValues then
        { inst.insert group.qos msg with marked := inst.marked && !mark }
      else inst }

/-- `d_tableWalk` over beads with `d_chainBeadInject`. -/
def inject (mark : Bool) : List (BeadMessage κ) → MergeGroup κ → MergeGroup κ
  | [], group => group
  | msg :: msgs, group => inject mark msgs (group.write mark msg)

def disposeMessage (writeTime allocTime : ℤ) (replaced unregister : Bool) (key : List κ) :
    BeadMessage κ where
  addr := 0
  state := ⟨false, true, false, unregister, false, replaced⟩
  allocTime := allocTime
  writeTime := writeTime
  writerGID := Gid.nil
  sequenceNumber := 0
  qos := none
  otherState := 0
  keyValues := key

/-- `v_groupDisposeAllMatchingInstances` with `L_REPLACED` and no condition. -/
def disposeAll (writeTime allocTime : ℤ) (group : MergeGroup κ) : MergeGroup κ :=
  { group with
    instances := group.instances.map fun inst ↦
      inst.insert group.qos (disposeMessage writeTime allocTime true false inst.key) }

/-- `v_groupDeleteHistoricalData`. -/
def deleteHistoricalData (purgeTime : ℤ) (group : MergeGroup κ) : MergeGroup κ :=
  if group.builtin then group
  else { group with instances := group.instances.map (·.purgeTimed purgeTime) }

/-- `v_groupMarkGroupInstanceStates` and `v_groupUnmarkGroupInstanceStates` with `L_MARK`. -/
def setMarks (marked : Bool) (group : MergeGroup κ) : MergeGroup κ :=
  { group with instances := group.instances.map fun inst ↦ { inst with marked := marked } }

/-- `v_groupSweepMarkedInstances`. -/
def sweepMarkedInstances (writeTime allocTime : ℤ) (group : MergeGroup κ) : MergeGroup κ :=
  { group with
    instances := group.instances.map fun inst ↦
      if inst.marked then
        inst.insert group.qos (disposeMessage writeTime allocTime false true inst.key)
      else inst }

omit [DecidableEq κ] in
def Contains (group : MergeGroup κ) (msg : BeadMessage κ) : Prop :=
  ∃ inst ∈ group.instances, inst.key = msg.keyValues ∧ inst.holds msg = true

instance (group : MergeGroup κ) (msg : BeadMessage κ) : Decidable (group.Contains msg) :=
  inferInstanceAs (Decidable (∃ inst ∈ group.instances, _ ∧ _))

/-- The history is deep enough for the writes that the instances hold and the messages. -/
def Fits (group : MergeGroup κ) (msgs : List (BeadMessage κ)) : Prop :=
  group.qos.history = .keepLast →
    (∀ inst ∈ group.instances, ((inst.samples.countP (·.state.write) +
      msgs.countP fun msg ↦ msg.keyValues = inst.key : ℕ) : ℤ) ≤ group.qos.depth) ∧
    ∀ msg ∈ msgs, ((msgs.countP fun msg' ↦ msg'.keyValues = msg.keyValues : ℕ) : ℤ) ≤
      group.qos.depth

end MergeGroup

/-- `d_mergePolicy`. -/
inductive MergePolicy
  | ignore
  | merge
  | delete
  | replace
  | catchup
deriving DecidableEq

/-- The time of the sample request, as a source time and as an elapsed time, and the time at which
the messages that dispose instances are made. -/
structure MergeTimes where
  requestTime : ℤ
  purgeTime : ℤ
  now : ℤ
deriving DecidableEq

/-- `calculateEqualCount` over the links. -/
def Chain.equalCount (chain : Chain κ) : ℕ :=
  chain.links.countP fun link ↦ decide (link.sampleCount = groupIsEqual)

/-- What `d_sampleChainListenerCheckChainComplete` does with the group of a complete chain that
belongs to a merge action. -/
def mergeChain [DecidableEq κ] (policy : MergePolicy) (times : MergeTimes) (chain : Chain κ)
    (group : MergeGroup κ) : MergeGroup κ :=
  let beads := chain.beads.map ChainBead.message
  match policy with
  | .ignore => group
  | .delete =>
    (group.disposeAll times.requestTime times.now).deleteHistoricalData times.purgeTime
  | .replace =>
    let group :=
      if chain.equalCount = 0 then group.disposeAll times.requestTime times.now else group
    if chain.equalCount ≠ chain.links.length then
      (group.deleteHistoricalData times.purgeTime).inject false beads
    else group
  | .catchup =>
    if chain.equalCount = 0 then
      (((group.setMarks true).inject true beads).sweepMarkedInstances times.requestTime
        times.now).setMarks false
    else group
  | .merge =>
    if chain.equalCount ≠ chain.links.length then group.inject false beads else group

/-! ### What is in the group afterwards -/

namespace InstanceHistory

variable {inst : InstanceHistory κ} {qos : GroupQos} {other : BeadMessage κ}

lemma holds_iff : inst.holds msg ↔ ∃ sample ∈ inst.samples,
      messageCheckDuplicate msg.toMessage sample := by
  simp [holds]

/-- A message that is no write pushes out nothing, nor does a write that fits. -/
lemma holds_insert_of_holds (hroom : msg.state.write → qos.history = .keepLast →
      (inst.samples.countP (·.state.write) : ℤ) < qos.depth) (h : inst.holds other) :
    (inst.insert qos msg).holds other := by
  obtain ⟨sample, hsample, hdup⟩ := holds_iff.mp h
  refine holds_iff.mpr ⟨sample, ?_, hdup⟩
  rw [insert]
  rcases GroupInstance.insertInto_spec hroom with ⟨older, newer, hold, hnew, -⟩ | ⟨hnew, -⟩
  · rw [hold] at hsample
    rw [hnew]
    exact (List.perm_middle.mem_iff).mpr (List.mem_cons_of_mem _ hsample)
  · rwa [hnew]

/-- What an instance has after an insertion for which there is room. -/
lemma holds_insert (hroom : qos.history = .keepLast →
      (inst.samples.countP (·.state.write) : ℤ) < qos.depth) :
    (inst.insert qos msg).holds other ↔ inst.holds other ∨
      msg.isStored ∧ messageCheckDuplicate other.toMessage msg.toMessage := by
  rw [holds_iff, holds_iff, insert]
  rcases GroupInstance.insertInto_spec fun _ ↦ hroom with
    ⟨older, newer, hold, hnew, hstored⟩ | ⟨hnew, hdup⟩
  · rw [hnew]
    simp only [hold, List.mem_append, List.mem_cons, hstored, true_and]
    constructor
    · rintro ⟨sample, h | rfl | h, hsame⟩
      · exact .inl ⟨sample, .inl h, hsame⟩
      · exact .inr hsame
      · exact .inl ⟨sample, .inr h, hsame⟩
    · rintro (⟨sample, h | h, hsame⟩ | hsame)
      · exact ⟨sample, .inl h, hsame⟩
      · exact ⟨sample, .inr (.inr h), hsame⟩
      · exact ⟨msg.toMessage, .inr (.inl rfl), hsame⟩
  · rw [hnew]
    refine ⟨.inl, ?_⟩
    rintro (h | ⟨hstored, hsame⟩)
    · exact h
    · -- The sample was there already, so anything that counts as the same is.
      rcases hdup hstored with ⟨hlast, hfull⟩ | ⟨sample, hmem, hsame'⟩
      · exact absurd (hroom hlast) (not_lt.mpr hfull)
      · exact ⟨sample, hmem, messageCheckDuplicate_trans hsame hsame'⟩

/-- At most one write is added. -/
lemma writes_insert (hroom : msg.state.write → qos.history = .keepLast →
      (inst.samples.countP (·.state.write) : ℤ) < qos.depth) :
    (inst.insert qos msg).samples.countP (·.state.write) ≤
      inst.samples.countP (·.state.write) + 1 := by
  rw [insert]
  rcases GroupInstance.insertInto_spec hroom with ⟨older, newer, hold, hnew, -⟩ | ⟨hnew, -⟩
  · rw [hnew, hold, List.perm_middle.countP_eq, List.countP_cons]
    split_ifs <;> omega
  · rw [hnew]
    exact Nat.le_succ _

end InstanceHistory

namespace MergeGroup

variable {group : MergeGroup κ} {other : BeadMessage κ} {mark : Bool}
  {msgs : List (BeadMessage κ)}

/-- A change of every instance that keeps keys and samples keeps what is in the group. -/
lemma Contains.map (h : group.Contains msg) {f : InstanceHistory κ → InstanceHistory κ}
    (hkey : ∀ inst, (f inst).key = inst.key)
    (hholds : ∀ inst, inst.holds msg → (f inst).holds msg) :
    Contains { group with instances := group.instances.map f } msg := by
  obtain ⟨inst, hinst, hkeys, hmsg⟩ := h
  exact ⟨f inst, List.mem_map_of_mem hinst, (hkey inst).trans hkeys, hholds inst hmsg⟩

open InstanceHistory

lemma Contains.sweepMarkedInstances (h : group.Contains msg) (writeTime allocTime : ℤ) :
    (group.sweepMarkedInstances writeTime allocTime).Contains msg := by
  refine h.map (fun inst ↦ ?_) fun inst hholds ↦ ?_
  · split_ifs <;> rfl
  · split_ifs
    · exact holds_insert_of_holds (by simp [disposeMessage]) hholds
    · exact hholds

variable [DecidableEq κ]

/-- The instances of a group with the instance of a message. -/
def withInstance (msg : BeadMessage κ) (group : MergeGroup κ) : List (InstanceHistory κ) :=
  if group.instances.any (·.key = msg.keyValues) then group.instances
  else ⟨msg.keyValues, false, []⟩ :: group.instances

lemma Fits.room {inst : InstanceHistory κ} (h : group.Fits (msg :: msgs))
    (hinst : inst ∈ group.withInstance msg) (hkey : inst.key = msg.keyValues)
    (hlast : group.qos.history = .keepLast) :
    ((inst.samples.countP (·.state.write) + 1 +
      msgs.countP fun msg' ↦ msg'.keyValues = msg.keyValues : ℕ) : ℤ) ≤ group.qos.depth := by
  obtain ⟨hinstances, hmsgs⟩ := h hlast
  have hmsg := hmsgs msg List.mem_cons_self
  have hold (hmem : inst ∈ group.instances) := hinstances inst hmem
  simp only [hkey, List.countP_cons, decide_true, if_true] at hmsg hold
  rw [withInstance] at hinst
  split_ifs at hinst
  · have hle := hold hinst
    omega
  · rcases List.mem_cons.mp hinst with rfl | hinst
    · simp only [List.countP_nil]
      omega
    · have hle := hold hinst
      omega

lemma Fits.write (h : group.Fits (msg :: msgs)) : (group.write mark msg).Fits msgs := by
  intro hlast
  refine ⟨fun inst' hinst' ↦ ?_, fun msg' hmsg' ↦ ?_⟩
  · obtain ⟨inst, hinst, rfl⟩ := List.mem_map.mp hinst'
    split_ifs with hkey
    · have hroom := h.room hinst hkey hlast
      have hwrites : (inst.insert group.qos msg).samples.countP (·.state.write) ≤
          inst.samples.countP (·.state.write) + 1 := writes_insert fun _ _ ↦ by omega
      simp only [hkey, InstanceHistory.insert] at hwrites ⊢
      exact le_trans (by omega) hroom
    · have hmem : inst ∈ group.instances := by
        change inst ∈ group.withInstance msg at hinst
        rw [withInstance] at hinst
        split_ifs at hinst
        · exact hinst
        · exact (List.mem_cons.mp hinst).resolve_left fun heq ↦ hkey (by rw [heq])
      have hle := (h hlast).1 inst hmem
      rw [List.countP_cons, if_neg (by simpa using Ne.symm hkey)] at hle
      exact hle
  · have hle := (h hlast).2 msg' (List.mem_cons_of_mem _ hmsg')
    rw [List.countP_cons] at hle
    exact le_trans (by split_ifs <;> omega) hle

lemma contains_write (h : group.Fits (msg :: msgs)) : (group.write mark msg).Contains other ↔
      group.Contains other ∨ msg.isStored ∧ other.Same msg := by
  -- With the instance of the message added the group has the same samples.
  have hsame : (∃ inst ∈ group.withInstance msg, inst.key = other.keyValues ∧ inst.holds other) ↔
      group.Contains other := by
    rw [withInstance]
    split_ifs
    · rfl
    · simp [Contains, holds]
  have hexists : ∃ inst ∈ group.withInstance msg, inst.key = msg.keyValues := by
    rw [withInstance]
    split_ifs with hany
    · simpa using hany
    · exact ⟨_, List.mem_cons_self, rfl⟩
  have hroom {inst} (hinst : inst ∈ group.withInstance msg) (hkey : inst.key = msg.keyValues) :
      (inst.insert group.qos msg).holds other ↔ inst.holds other ∨
        msg.isStored ∧ messageCheckDuplicate other.toMessage msg.toMessage :=
    holds_insert fun hlast ↦ by
      have hle := h.room hinst hkey hlast
      omega
  rw [← hsame]
  constructor
  · rintro ⟨inst', hinst', hkey, hholds⟩
    obtain ⟨inst, hinst, rfl⟩ := List.mem_map.mp hinst'
    split_ifs at hkey hholds with hmsg
    · rcases (hroom hinst hmsg).mp hholds with h | ⟨hstored, hdup⟩
      · exact .inl ⟨inst, hinst, hkey, h⟩
      · exact .inr ⟨hstored, hkey.symm.trans hmsg, hdup⟩
    · exact .inl ⟨inst, hinst, hkey, hholds⟩
  · rintro (⟨inst, hinst, hkey, hholds⟩ | ⟨hstored, hkeys, hdup⟩)
    · refine ⟨_, List.mem_map_of_mem hinst, ?_, ?_⟩
      · split_ifs <;> exact hkey
      · split_ifs with hmsg
        · exact (hroom hinst hmsg).mpr (.inl hholds)
        · exact hholds
    · obtain ⟨inst, hinst, hkey⟩ := hexists
      refine ⟨_, List.mem_map_of_mem hinst, ?_, ?_⟩
      · rw [if_pos hkey]
        exact hkey.trans hkeys.symm
      · rw [if_pos hkey]
        exact (hroom hinst hkey).mpr (.inr ⟨hstored, hdup⟩)

lemma contains_inject {group : MergeGroup κ} (h : group.Fits msgs) :
    (group.inject mark msgs).Contains other ↔
      group.Contains other ∨ ∃ msg ∈ msgs, msg.isStored ∧ other.Same msg := by
  induction msgs generalizing group with
  | nil => simp [inject]
  | cons _ _ ih =>
    rw [inject, ih h.write, contains_write h, or_assoc]
    simp

/-- Fewer writes leave more room. -/
lemma Fits.map (h : group.Fits msgs) {f : InstanceHistory κ → InstanceHistory κ}
    (hkey : ∀ inst, (f inst).key = inst.key) (hwrites : ∀ inst,
      (f inst).samples.countP (·.state.write) ≤ inst.samples.countP (·.state.write)) :
    Fits { group with instances := group.instances.map f } msgs := by
  refine fun hlast ↦ ⟨fun inst' hinst' ↦ ?_, (h hlast).2⟩
  obtain ⟨inst, hinst, rfl⟩ := List.mem_map.mp hinst'
  have hle := (h hlast).1 inst hinst
  have hfewer := hwrites inst
  rw [hkey]
  change _ ≤ group.qos.depth
  omega

lemma Fits.deleteHistoricalData (h : group.Fits msgs) (purgeTime : ℤ) :
    (group.deleteHistoricalData purgeTime).Fits msgs := by
  rw [MergeGroup.deleteHistoricalData]
  split_ifs
  · exact h
  · exact h.map (fun _ ↦ rfl) fun inst ↦ (List.dropWhile_sublist _).countP_le

lemma Fits.disposeAll (h : group.Fits msgs) (writeTime allocTime : ℤ) :
    (group.disposeAll writeTime allocTime).Fits msgs := by
  refine h.map (fun _ ↦ rfl) fun inst ↦ ?_
  have hroom : (disposeMessage writeTime allocTime true false inst.key).state.write →
      group.qos.history = .keepLast →
      (inst.samples.countP (·.state.write) : ℤ) < group.qos.depth := by
    simp [disposeMessage]
  rcases GroupInstance.insertInto_spec hroom with ⟨older, newer, hold, hnew, -⟩ | ⟨hnew, -⟩
  · rw [InstanceHistory.insert, hnew, hold, List.perm_middle.countP_eq, List.countP_cons_of_neg]
    simp [disposeMessage]
  · rw [InstanceHistory.insert, hnew]

end MergeGroup

/-! ### The answers of the fellows -/

abbrev Answer (κ : Type*) := Option (List (BeadMessage κ))

def Sent (mySystemId : ℕ) (answers : List (Answer κ)) (msg : BeadMessage κ) : Prop :=
  msg.aboutMyself mySystemId = false ∧ ∃ set, some set ∈ answers ∧ msg ∈ set

/-- A complete chain with the answers of its fellows. -/
structure Collects (mySystemId : ℕ) (answers : List (Answer κ)) (chain : Chain κ) : Prop where
  links : chain.links.length = answers.length
  equal : chain.equalCount = answers.countP Option.isNone
  beads : ∀ msg, msg ∈ chain.beads.map ChainBead.message ↔ Sent mySystemId answers msg

/-- Every sample of every fellow is in a group; the set of a fellow who answered that it is equal is
the local one. -/
def Aligned (mySystemId : ℕ) (answers : List (Answer κ)) (localSet : List (BeadMessage κ))
    (group : MergeGroup κ) : Prop :=
  (none ∈ answers → ∀ msg ∈ localSet, group.Contains msg) ∧
    ∀ msg, Sent mySystemId answers msg → msg.isStored = true → group.Contains msg

/-- When a policy keeps the samples of all fellows. If some but not all sets are equal, `REPLACE`
must find the local samples among those that were sent, or not delete them, and `CATCHUP` must find
in the group what was sent. -/
def MergeSafe [DecidableEq κ] (mySystemId : ℕ) (policy : MergePolicy) (times : MergeTimes)
    (answers : List (Answer κ)) (localSet : List (BeadMessage κ)) (group : MergeGroup κ) : Prop :=
  match policy with
  | .replace => none ∈ answers → (∃ set, some set ∈ answers) → ∀ msg ∈ localSet,
      (group.deleteHistoricalData times.purgeTime).Contains msg ∨
        ∃ sent, Sent mySystemId answers sent ∧ sent.isStored = true ∧ msg.Same sent
  | .catchup => none ∈ answers → ∀ msg, Sent mySystemId answers msg → msg.isStored = true →
      group.Contains msg
  | _ => True

variable {mySystemId : ℕ} {answers : List (Answer κ)} {chain : Chain κ}

lemma Collects.equalCount_eq_zero (h : Collects mySystemId answers chain) :
    chain.equalCount = 0 ↔ none ∉ answers := by
  rw [h.equal, List.countP_eq_zero]
  constructor
  · intro hall hmem
    exact hall none hmem rfl
  · rintro hmem (_ | set) hanswer hnone
    · exact hmem hanswer
    · simp at hnone

lemma Collects.equalCount_eq_length (h : Collects mySystemId answers chain) :
    chain.equalCount = chain.links.length ↔ ¬∃ set, some set ∈ answers := by
  rw [h.equal, h.links, List.countP_eq_length]
  constructor
  · rintro hall ⟨set, hmem⟩
    exact absurd (hall _ hmem) (by simp)
  · rintro hnone (_ | set) hmem
    · rfl
    · exact absurd ⟨set, hmem⟩ hnone

lemma Sent.not_all_equal (h : Sent mySystemId answers msg) : ∃ set, some set ∈ answers :=
  let ⟨set, hset, _⟩ := h.2
  ⟨set, hset⟩

def Alignment.fellowAnswers (A : Alignment κ) : List (Answer κ) :=
  A.fellows.map fun fellow ↦ (A.announced fellow).map fun _ ↦
    A.messages.filterMap fun msg ↦ match msg.body with
      | .link _ => none
      | .bead message => if msg.sender = fellow then some message else none

lemma Alignment.sent_fellowAnswers {message : BeadMessage κ} :
    Sent mySystemId A.fellowAnswers message ↔ message ∈ keptMessages mySystemId A.messages := by
  simp only [Sent, fellowAnswers, List.mem_map, Option.map_eq_some_iff, keptMessages,
    List.mem_filterMap]
  constructor
  · rintro ⟨hmyself, _, ⟨fellow, -, n, -, rfl⟩, hmem⟩
    obtain ⟨msg, hmsg, hbody⟩ := List.mem_filterMap.mp hmem
    refine ⟨msg, hmsg, ?_⟩
    rcases hmsgbody : msg.body with bead | nrSamples
    · rw [hmsgbody] at hbody
      dsimp only at hbody ⊢
      split_ifs at hbody
      obtain rfl := Option.some.inj hbody
      rw [hmyself]
      rfl
    · rw [hmsgbody] at hbody
      simp at hbody
  · rintro ⟨msg, hmsg, hbody⟩
    rcases hmsgbody : msg.body with bead | nrSamples
    · rw [hmsgbody] at hbody
      dsimp only at hbody
      split_ifs at hbody with hmyself
      obtain rfl := Option.some.inj hbody
      have hsender : msg.sender ∈ A.fellows := A.sender_mem hmsg
      -- A fellow that has sent a bead has announced a number.
      have hbead : msg.sender ∈ beadSenders A.messages :=
        List.mem_filterMap.mpr ⟨msg, hmsg, by rw [hmsgbody]⟩
      have hcount := List.count_pos_iff.mpr hbead
      rw [A.beads _ hsender] at hcount
      obtain ⟨n, hn⟩ : ∃ n, A.announced msg.sender = some n := by
        cases hannounced : A.announced msg.sender with
        | none => simp [hannounced] at hcount
        | some n => exact ⟨n, rfl⟩
      refine ⟨by simpa using hmyself, _, ⟨msg.sender, hsender, n, hn, rfl⟩, ?_⟩
      exact List.mem_filterMap.mpr ⟨msg, hmsg, by rw [hmsgbody]; simp⟩
    · rw [hmsgbody] at hbody
      simp at hbody

/-- A chain that has received everything collects the answers of its fellows. -/
lemma Alignment.Holds.collects [LinearOrder κ] (h : A.Holds mySystemId A.messages chain) :
    Collects mySystemId A.fellowAnswers chain where
  links := by
    rw [fellowAnswers, List.length_map, ← A.links.length_eq, ← h.links.length_eq, List.length_map]
  equal := by
    have hequal : chain.equalCount =
        (chain.links.map ChainLink.sender).countP fun fellow ↦ (A.announced fellow).isNone := by
      rw [List.countP_map]
      refine List.countP_congr fun link hlink ↦ ?_
      have hvalue := h.links_value link hlink
      simp only [decide_eq_true_eq, Function.comp_apply]
      cases hannounced : A.announced link.sender with
      | none => simpa [hannounced] using hvalue
      | some =>
        have hlt := A.announced_lt _ _ hannounced
        rw [hannounced, Option.getD_some] at hvalue
        simp only [hvalue, Option.isNone_some, Bool.false_eq_true, iff_false]
        exact hlt.ne
    rw [hequal, (h.links.trans A.links).countP_eq, fellowAnswers, List.countP_map]
    refine List.countP_congr fun fellow _ ↦ ?_
    simp
  beads message := by rw [h.beads_mem, sent_fellowAnswers]

variable [DecidableEq κ]

section

variable {group : MergeGroup κ} (h : Collects mySystemId answers chain)
include h

lemma Collects.contains_inject (hsent : Sent mySystemId answers msg) (hstored : msg.isStored)
    (mark : Bool) (hfits : group.Fits (chain.beads.map ChainBead.message)) :
    (group.inject mark (chain.beads.map ChainBead.message)).Contains msg :=
  (MergeGroup.contains_inject hfits).mpr (.inr ⟨msg, (h.beads msg).mpr hsent, hstored, rfl,
    messageCheckDuplicate_iff.mpr (.inl rfl)⟩)

variable (times : MergeTimes) (hfits : group.Fits (chain.beads.map ChainBead.message))
  (hlocal : ∀ msg ∈ localSet, group.Contains msg)
include hfits hlocal

lemma merge_aligned :
    Aligned mySystemId answers localSet (mergeChain .merge times chain group) := by
  simp only [mergeChain]
  split_ifs with hall
  · exact ⟨fun _ msg hmsg ↦ (MergeGroup.contains_inject hfits).mpr (.inl (hlocal msg hmsg)),
      fun msg hsent hstored ↦ h.contains_inject hsent hstored false hfits⟩
  · refine ⟨fun _ ↦ hlocal, fun msg hsent _ ↦ ?_⟩
    exact absurd hsent.not_all_equal (h.equalCount_eq_length.mp (not_not.mp hall))

lemma catchup_aligned :
    Aligned mySystemId answers localSet (mergeChain .catchup times chain group) ↔
      MergeSafe mySystemId .catchup times answers localSet group := by
  simp only [mergeChain, MergeSafe]
  by_cases hequal : none ∈ answers
  · rw [if_neg (fun hzero ↦ h.equalCount_eq_zero.mp hzero hequal)]
    exact ⟨fun hall _ ↦ hall.2, fun hsafe ↦ ⟨fun _ ↦ hlocal, hsafe hequal⟩⟩
  · rw [if_pos (h.equalCount_eq_zero.mpr hequal)]
    refine iff_of_true ⟨fun hmem ↦ absurd hmem hequal, fun msg hsent hstored ↦ ?_⟩
      fun hmem ↦ absurd hmem hequal
    have hmarked : (group.setMarks true).Fits (chain.beads.map ChainBead.message) :=
      hfits.map (fun _ ↦ rfl) fun _ ↦ le_rfl
    exact ((h.contains_inject hsent hstored true hmarked).sweepMarkedInstances _ _).map
      (fun _ ↦ rfl) fun _ hholds ↦ hholds

lemma replace_aligned :
    Aligned mySystemId answers localSet (mergeChain .replace times chain group) ↔
      MergeSafe mySystemId .replace times answers localSet group := by
  simp only [mergeChain, MergeSafe]
  by_cases hequal : none ∈ answers
  · rw [if_neg (fun hzero ↦ h.equalCount_eq_zero.mp hzero hequal)]
    have hleft := hfits.deleteHistoricalData times.purgeTime
    by_cases hsome : ∃ set, some set ∈ answers
    · rw [if_pos (fun hlength ↦ h.equalCount_eq_length.mp hlength hsome)]
      -- The local samples are there if they were not deleted or came with the beads.
      have hbeads : ∀ msg, ((group.deleteHistoricalData times.purgeTime).inject false
          (chain.beads.map ChainBead.message)).Contains msg ↔
          (group.deleteHistoricalData times.purgeTime).Contains msg ∨
            ∃ sent, Sent mySystemId answers sent ∧ sent.isStored ∧ msg.Same sent := by
        intro msg
        simp only [MergeGroup.contains_inject hleft, h.beads]
      constructor
      · intro hall _ _ msg hmsg
        exact (hbeads msg).mp (hall.1 hequal msg hmsg)
      · intro hsafe
        exact ⟨fun _ msg hmsg ↦ (hbeads msg).mpr (hsafe hequal hsome msg hmsg),
          fun msg hsent hstored ↦ h.contains_inject hsent hstored false hleft⟩
    · rw [if_neg (not_not.mpr (h.equalCount_eq_length.mpr hsome))]
      exact iff_of_true ⟨fun _ ↦ hlocal, fun msg hsent _ ↦ absurd hsent.not_all_equal hsome⟩
        fun _ hmem ↦ absurd hmem hsome
  · refine iff_of_true ⟨fun hmem ↦ absurd hmem hequal, fun msg hsent hstored ↦ ?_⟩
      fun hmem ↦ absurd hmem hequal
    rw [if_pos (h.equalCount_eq_zero.mpr hequal),
      if_pos (fun hlength ↦ h.equalCount_eq_length.mp hlength hsent.not_all_equal)]
    exact h.contains_inject hsent hstored false
      ((hfits.disposeAll _ _).deleteHistoricalData times.purgeTime)

end

def writeOf (key : ℕ) : BeadMessage ℕ where
  addr := key
  state := ⟨true, false, false, false, false, false⟩
  allocTime := 0
  writeTime := 0
  writerGID := ⟨1, 1, 1⟩
  sequenceNumber := key
  qos := none
  otherState := 0
  keyValues := [key]

/-- A group with one sample, that keeps the last sample of an instance or all of them. -/
def groupOf (history : HistoryKind) (key : ℕ) : MergeGroup ℕ where
  qos := ⟨true, history, 1, none, none, true⟩
  builtin := false
  instances := [⟨[key], false, [(writeOf key).toMessage]⟩]

/-- The chain with an equal link, or none, and the link and the bead of a fellow with one sample. -/
def chainOf (equal : Bool) (key : ℕ) : Chain ℕ where
  fellows := if equal then [⟨1, 1, 1⟩, ⟨2, 1, 1⟩] else [⟨2, 1, 1⟩]
  links := if equal then [⟨⟨1, 1, 1⟩, groupIsEqual⟩, ⟨⟨2, 1, 1⟩, 1⟩] else [⟨⟨2, 1, 1⟩, 1⟩]
  beads := [⟨writeOf key, [⟨2, 1, 1⟩], 1⟩]
  samplesExpect := 1

lemma chainOf_collects (equal : Bool) (key : ℕ) :
    Collects 9 (if equal then [none, some [writeOf key]] else [some [writeOf key]])
      (chainOf equal key) := by
  have hmyself : (writeOf key).aboutMyself 9 = false := rfl
  refine ⟨by cases equal <;> rfl, by cases equal <;> rfl, fun msg ↦ ?_⟩
  cases equal <;> simp only [chainOf, Sent, List.map_cons, List.map_nil, Bool.false_eq_true,
    if_false, if_true, List.mem_cons, List.not_mem_nil, or_false, reduceCtorEq, false_or,
    Option.some.injEq, exists_eq_left]
  all_goals
    refine ⟨?_, fun h ↦ h.2⟩
    rintro rfl
    exact ⟨hmyself, rfl⟩

end OpenSplice.Durability
