import OpenSplice.Durability.MasterElection
import OpenSplice.Kernel.Message
import OpenSplice.Library.OrderedTable

/-!
# Sample chains

A durability service that asks its fellows for the samples of a group collects the answers in a
`d_chain`. A fellow sends a link, with the number of its samples or the word that its set is equal,
and the samples as beads, in any order. `samplesExpect` is raised by the links and lowered by beads
that come again or are dropped, and the chain is complete when all links are there and the counter
is the number of the beads (`Chain.complete`).

The counter is a `c_long`, so `sampleChain_complete` asks that fewer than `2 ^ 31` samples are
announced in all.
-/

set_option autoImplicit false

namespace OpenSplice.Durability

open OpenSplice.Kernel OpenSplice.Library List OrderedTable

/-! ### Beads -/

lemma zero_and_fields : 0 &&& 0x80B05 = 0 := rfl

/-- A message of a fellow with the values of its keys, and the bits of its state that are not in
`MsgState`. -/
structure BeadMessage (κ : Type*) extends Message where
  otherState : ℕ
  keyValues : List κ
  other : otherState &&& 0x80B05 = 0 := by exact zero_and_fields
deriving DecidableEq

variable {κ : Type*}

/-- `v_nodeState` of a message. -/
def BeadMessage.nodeState (msg : BeadMessage κ) : ℕ :=
  (if msg.state.write then 0x1 else 0) ||| (if msg.state.disposed then 0x4 else 0) |||
    (if msg.state.register then 0x100 else 0) ||| (if msg.state.unregister then 0x200 else 0) |||
    (if msg.state.implicit then 0x800 else 0) ||| (if msg.state.replaced then 0x80000 else 0) |||
    msg.otherState

/-- The loop over the keys in `d_chainBeadCompare`. -/
def keyValuesCompare [LinearOrder κ] : List κ → List κ → Ordering
  | a :: as, b :: bs => (compare a b).then (keyValuesCompare as bs)
  | _, _ => .eq

/-- `d_chainBeadCompare`. Beads hold messages of their own, so `v_messageCompare` never meets one
and the same object. Beads with different numbers of keys end the service. -/
def chainBeadCompare [LinearOrder κ] (msg₁ msg₂ : BeadMessage κ) : Ordering :=
  (messageOrder msg₁.toMessage msg₂.toMessage).then
    (if msg₁.state.disposed && msg₁.state.unregister && msg₁.nodeState != msg₂.nodeState then .lt
    else if msg₂.state.disposed && msg₂.state.unregister &&
        msg₁.nodeState != msg₂.nodeState then .gt
    else (compare msg₁.nodeState msg₂.nodeState).then
      (if msg₁.keyValues.length = msg₂.keyValues.length then
        keyValuesCompare msg₁.keyValues msg₂.keyValues
      else .eq))

/-- `d_chainBead`. -/
structure ChainBead (κ : Type*) where
  message : BeadMessage κ
  senders : List NetworkAddress
  refCount : ℕ
deriving DecidableEq

/-- `d_chainLink`. -/
structure ChainLink where
  sender : NetworkAddress
  sampleCount : ℕ
deriving DecidableEq

/-- `D_GROUP_IS_EQUAL`. -/
def groupIsEqual : ℕ := 4294967295

/-- `d_chain`: the fellows that were asked, and what they have sent. -/
structure Chain (κ : Type*) where
  fellows : List NetworkAddress
  links : List ChainLink
  beads : List (ChainBead κ)
  samplesExpect : ℤ
deriving DecidableEq

/-- The body of a `d_sampleChain`. -/
inductive SampleChainBody (κ : Type*)
  | bead (message : BeadMessage κ)
  | link (nrSamples : ℕ)
deriving DecidableEq

/-- `d_sampleChain`. -/
structure SampleChain (κ : Type*) where
  sender : NetworkAddress
  body : SampleChainBody κ
deriving DecidableEq

/-- A number as a `c_long`. -/
def toLong (x : ℤ) : ℤ := x.bmod (2 ^ 32)

def BeadMessage.aboutMyself (mySystemId : ℕ) (msg : BeadMessage κ) : Bool :=
  msg.state.implicit && msg.writerGID.systemId == mySystemId

namespace Chain

/-- `d_chainNew`. -/
def new (fellows : List NetworkAddress) : Chain κ := ⟨fellows, [], [], 0⟩

def addSender [DecidableEq κ] (sender : NetworkAddress) (message : BeadMessage κ)
    (bead : ChainBead κ) : ChainBead κ :=
  if bead.message = message then
    match OrderedTable.insert id networkAddressCompare sender bead.senders with
    | (none, senders) => { bead with senders := senders, refCount := bead.refCount + 1 }
    | (some _, _) => bead
  else bead

variable [LinearOrder κ]

/-- The case `BEAD` of `d_sampleChainListenerAction`. -/
def receiveBead (mySystemId : ℕ) (sender : NetworkAddress) (message : BeadMessage κ)
    (chain : Chain κ) : Chain κ :=
  if message.aboutMyself mySystemId then
    { chain with samplesExpect := toLong (chain.samplesExpect - 1) }
  else
    match OrderedTable.insert ChainBead.message chainBeadCompare ⟨message, [sender], 1⟩
        chain.beads with
    | (none, beads) => { chain with beads := beads }
    | (some inserted, _) =>
      { chain with
        samplesExpect := toLong (chain.samplesExpect - 1)
        beads := chain.beads.map (addSender sender inserted.message) }

/-- The case `LINK` of `d_sampleChainListenerAction`. -/
def receiveLink (sender : NetworkAddress) (nrSamples : ℕ) (chain : Chain κ) : Chain κ :=
  { chain with
    samplesExpect :=
      if nrSamples = groupIsEqual then chain.samplesExpect
      else toLong (chain.samplesExpect + toLong nrSamples)
    links := (OrderedTable.insert ChainLink.sender networkAddressCompare ⟨sender, nrSamples⟩
      chain.links).2 }

def receive (mySystemId : ℕ) (msg : SampleChain κ) (chain : Chain κ) : Chain κ :=
  match msg.body with
  | .bead message => chain.receiveBead mySystemId msg.sender message
  | .link nrSamples => chain.receiveLink msg.sender nrSamples

omit [LinearOrder κ] in
/-- The test of `d_sampleChainListenerCheckChainComplete`; the sizes of tables are of type
`c_ulong`. -/
def complete (chain : Chain κ) : Bool :=
  chain.fellows.length % 2 ^ 32 == chain.links.length % 2 ^ 32 &&
    decide (0 ≤ chain.samplesExpect) &&
    chain.samplesExpect.toNat == chain.beads.length % 2 ^ 32

end Chain

/-- `d_sampleChainListenerAction` for the chain that a message is about, if the listener still has
it: the chain if it was found complete, and the chain the listener keeps. -/
def sampleChainListenerAction [LinearOrder κ] (mySystemId : ℕ) (msg : SampleChain κ) :
    Option (Chain κ) → Option (Chain κ) × Option (Chain κ)
  | none => (none, none)
  | some chain =>
    if msg.sender ∈ chain.fellows then
      let chain := chain.receive mySystemId msg
      if chain.complete then (some chain, none) else (none, some chain)
    else (none, some chain)

def sampleChainListenerActions [LinearOrder κ] (mySystemId : ℕ) :
    List (SampleChain κ) → Option (Chain κ) → Option (Chain κ)
  | [], chain => chain
  | msg :: msgs, chain =>
    sampleChainListenerActions mySystemId msgs (sampleChainListenerAction mySystemId msg chain).2

/-! ### What the fellows send -/

def linkSenders (msgs : List (SampleChain κ)) : List NetworkAddress :=
  msgs.filterMap fun msg ↦ match msg.body with
    | .link _ => some msg.sender
    | .bead _ => none

def beadSenders (msgs : List (SampleChain κ)) : List NetworkAddress :=
  msgs.filterMap fun msg ↦ match msg.body with
    | .link _ => none
    | .bead _ => some msg.sender

def keptMessages (mySystemId : ℕ) (msgs : List (SampleChain κ)) : List (BeadMessage κ) :=
  msgs.filterMap fun msg ↦ match msg.body with
    | .link _ => none
    | .bead message => if message.aboutMyself mySystemId then none else some message

variable {msgs all : List (SampleChain κ)}

lemma linkSenders_sublist (h : msgs <+: all) : (linkSenders msgs).Sublist (linkSenders all) :=
  h.sublist.filterMap _

lemma beadSenders_sublist (h : msgs <+: all) : (beadSenders msgs).Sublist (beadSenders all) :=
  h.sublist.filterMap _

lemma keptMessages_subset (mySystemId : ℕ) (h : msgs <+: all) :
    keptMessages mySystemId msgs ⊆ keptMessages mySystemId all :=
  (h.sublist.filterMap _).subset

/-- All that the fellows of a chain send, in the order in which it arrives: each one link, which
announces a number of samples or says that the set is equal, and as many beads. -/
structure Alignment (κ : Type*) where
  fellows : List NetworkAddress
  announced : NetworkAddress → Option ℕ
  messages : List (SampleChain κ)
  fellows_nodup : fellows.Nodup
  announced_lt : ∀ fellow n, announced fellow = some n → n < groupIsEqual
  links : (linkSenders messages).Perm fellows
  link_value : ∀ msg ∈ messages, ∀ n, msg.body = .link n →
    n = (announced msg.sender).getD groupIsEqual
  beadSenders_mem : ∀ fellow ∈ beadSenders messages, fellow ∈ fellows
  beads : ∀ fellow ∈ fellows, (beadSenders messages).count fellow = (announced fellow).getD 0

namespace Alignment

variable (A : Alignment κ) {msg : SampleChain κ} {mySystemId : ℕ} {chain : Chain κ}

def samples (fellow : NetworkAddress) : ℕ := (A.announced fellow).getD 0

def total : ℕ := (A.fellows.map A.samples).sum

def AllArrived (msgs : List (SampleChain κ)) : Prop :=
  ∀ fellow ∈ A.fellows, fellow ∈ linkSenders msgs ∧
    (beadSenders msgs).count fellow = A.samples fellow

/-- Beads from the fellows are as many as the fellows have sent together. -/
lemma length_eq_sum_count {senders : List NetworkAddress}
    (h : ∀ fellow ∈ senders, fellow ∈ A.fellows) :
    senders.length = (A.fellows.map (senders.count ·)).sum := by
  have hcard := Multiset.sum_count_eq_card (s := A.fellows.toFinset)
    (m := (senders : Multiset NetworkAddress)) fun fellow hmem ↦ mem_toFinset.mpr (h fellow hmem)
  rw [Multiset.coe_card, sum_toFinset _ A.fellows_nodup] at hcard
  simpa only [Multiset.coe_count] using hcard.symm

lemma length_beadSenders : (beadSenders A.messages).length = A.total := by
  rw [A.length_eq_sum_count A.beadSenders_mem, total]
  exact congrArg sum (map_congr_left A.beads)

def announcedSum (msgs : List (SampleChain κ)) : ℕ := ((linkSenders msgs).map A.samples).sum

variable {A} {msgs : List (SampleChain κ)}

section

variable (h : msgs <+: A.messages)
include h

lemma announcedSum_le : A.announcedSum msgs ≤ A.total := by
  have hsub := linkSenders_sublist h
  calc A.announcedSum msgs ≤ ((linkSenders A.messages).map A.samples).sum :=
        (hsub.map A.samples).sum_le_sum fun _ _ ↦ Nat.zero_le _
    _ = A.total := (A.links.map A.samples).sum_eq

lemma length_beadSenders_le : (beadSenders msgs).length ≤ A.total := by
  rw [← A.length_beadSenders]
  exact (beadSenders_sublist h).length_le

lemma linkSenders_nodup : (linkSenders msgs).Nodup :=
  (A.links.nodup_iff.mpr A.fellows_nodup).sublist (linkSenders_sublist h)

/-- All has come as soon as all links have and the beads are as many as announced. -/
lemma allArrived_iff :
    A.AllArrived msgs ↔ A.fellows.length = (linkSenders msgs).length ∧
      (beadSenders msgs).length = A.announcedSum msgs := by
  have hlinks := linkSenders_sublist h
  have hbeads := beadSenders_sublist h
  have heq (hlength : A.fellows.length = (linkSenders msgs).length) :
      linkSenders msgs = linkSenders A.messages :=
    hlinks.eq_of_length (hlength.symm.trans A.links.length_eq.symm)
  constructor
  · intro hall
    have hsubset : A.fellows ⊆ linkSenders msgs := fun fellow hmem ↦ (hall fellow hmem).1
    have hlength : A.fellows.length = (linkSenders msgs).length :=
      le_antisymm (A.fellows_nodup.subperm hsubset).length_le (A.links.length_eq ▸ hlinks.length_le)
    refine ⟨hlength, ?_⟩
    rw [A.length_eq_sum_count fun fellow hmem ↦ A.beadSenders_mem fellow (hbeads.subset hmem),
      announcedSum, heq hlength, (A.links.map A.samples).sum_eq]
    exact congrArg sum (map_congr_left fun fellow hmem ↦ (hall fellow hmem).2)
  · rintro ⟨hlength, hsum⟩
    have hbeads_eq : beadSenders msgs = beadSenders A.messages := by
      refine hbeads.eq_of_length ?_
      rw [hsum, A.length_beadSenders, announcedSum, heq hlength,
        (A.links.map A.samples).sum_eq, total]
    intro fellow hmem
    refine ⟨?_, ?_⟩
    · rw [heq hlength]
      exact A.links.mem_iff.mpr hmem
    · rw [hbeads_eq]
      exact A.beads fellow hmem

end

lemma sender_mem (h : msg ∈ A.messages) : msg.sender ∈ A.fellows := by
  rcases hbody : msg.body with message | nrSamples
  · refine A.beadSenders_mem _ (mem_filterMap.mpr ⟨msg, h, ?_⟩)
    simp [hbody]
  · refine A.links.mem_iff.mp (mem_filterMap.mpr ⟨msg, h, ?_⟩)
    simp [hbody]

lemma not_allArrived (hpre : msgs ++ [msg] <+: A.messages) : ¬A.AllArrived msgs := by
  intro hall
  have hpre' : msgs <+: A.messages := (prefix_append msgs [msg]).trans hpre
  obtain ⟨hlinks, hbeads⟩ := (A.allArrived_iff hpre').mp hall
  have hlinks' := (linkSenders_sublist hpre).length_le
  have hbeads' := A.length_beadSenders_le hpre
  have heq : linkSenders msgs = linkSenders A.messages :=
    (linkSenders_sublist hpre').eq_of_length (hlinks.symm.trans A.links.length_eq.symm)
  have htotal : A.announcedSum msgs = A.total := by
    rw [announcedSum, heq, (A.links.map A.samples).sum_eq, total]
  rw [A.links.length_eq] at hlinks'
  rcases msg with ⟨sender, message | nrSamples⟩
  · simp only [beadSenders, filterMap_append, filterMap_cons, filterMap_nil,
      length_append, length_singleton] at hbeads' hbeads
    omega
  · simp only [linkSenders, filterMap_append, filterMap_cons, filterMap_nil,
      length_append, length_singleton] at hlinks' hlinks
    omega

/-! ### The step -/

lemma networkAddressCompare_strictTotal :
    OrderedTable.StrictTotalOn networkAddressCompare Set.univ where
  eq_iff a _ b _ := by
    rw [networkAddressCompare_eq, compare_eq_iff_eq, NetworkAddress.rank_injective.eq_iff]
  gt_iff a _ b _ := by
    rw [networkAddressCompare_eq, networkAddressCompare_eq, compare_gt_iff_gt, compare_lt_iff_lt]
  trans a _ b _ c _ := by
    simp only [networkAddressCompare_eq, compare_lt_iff_lt]
    exact lt_trans

lemma toLong_of_lt {x : ℤ} (hlow : -2 ^ 31 ≤ x) (hhigh : x < 2 ^ 31) : toLong x = x :=
  Int.bmod_eq_of_le_mul_two (by omega) (by omega)

variable [LinearOrder κ]

/-- A chain that has received messages. The counter lacks the beads that are not in the table. -/
structure Holds (A : Alignment κ) (mySystemId : ℕ) (msgs : List (SampleChain κ)) (chain : Chain κ) :
    Prop where
  fellows : chain.fellows = A.fellows
  links : (chain.links.map ChainLink.sender).Perm (linkSenders msgs)
  links_sorted : OrderedTable.Sorted ChainLink.sender networkAddressCompare chain.links
  links_value : ∀ link ∈ chain.links, link.sampleCount = (A.announced link.sender).getD groupIsEqual
  beads_sorted : OrderedTable.Sorted ChainBead.message chainBeadCompare chain.beads
  beads_mem : ∀ message, message ∈ chain.beads.map ChainBead.message ↔
    message ∈ keptMessages mySystemId msgs
  beads_le : chain.beads.length ≤ (beadSenders msgs).length
  expect : chain.samplesExpect =
    A.announcedSum msgs - (beadSenders msgs).length + chain.beads.length

lemma holds_new (mySystemId : ℕ) : A.Holds mySystemId [] (Chain.new A.fellows) where
  fellows := rfl
  links := List.Perm.refl _
  links_sorted := .nil
  links_value := by simp [Chain.new]
  beads_sorted := .nil
  beads_mem _ := by simp [Chain.new, keptMessages]
  beads_le := le_rfl
  expect := by simp [Chain.new, announcedSum, linkSenders, beadSenders]

section

variable (h : A.Holds mySystemId msgs chain)
include h

variable {sender : NetworkAddress}

lemma Holds.afterBead {message : BeadMessage κ} {beads : List (ChainBead κ)} {expect : ℤ}
    (hsorted : OrderedTable.Sorted ChainBead.message chainBeadCompare beads)
    (hmem : ∀ m, m ∈ beads.map ChainBead.message ↔
      m ∈ keptMessages mySystemId (msgs ++ [⟨sender, .bead message⟩]))
    (hlength : beads.length ≤ chain.beads.length + 1)
    (hexpect : expect = chain.samplesExpect - 1 + (beads.length - chain.beads.length)) :
    A.Holds mySystemId (msgs ++ [⟨sender, .bead message⟩])
      { chain with beads := beads, samplesExpect := expect } := by
  have hlinks : linkSenders (msgs ++ [⟨sender, .bead message⟩]) = linkSenders msgs := by
    simp [linkSenders]
  have hbeads : (beadSenders (msgs ++ [⟨sender, .bead message⟩])).length =
      (beadSenders msgs).length + 1 := by
    simp [beadSenders]
  have hle := h.beads_le
  refine ⟨h.fellows, by rw [hlinks]; exact h.links, h.links_sorted, h.links_value, hsorted, hmem,
    ?_, ?_⟩
  · rw [hbeads]
    exact hlength.trans (by omega)
  · rw [announcedSum, hlinks, ← announcedSum, hbeads, hexpect, h.expect]
    push_cast
    omega

variable (htotal : A.total < 2 ^ 31)
include htotal

lemma Holds.receiveLink {nrSamples : ℕ}
    (hpre : msgs ++ [⟨sender, .link nrSamples⟩] <+: A.messages) :
    A.Holds mySystemId (msgs ++ [⟨sender, .link nrSamples⟩])
      (chain.receiveLink sender nrSamples) := by
  have hsenders : linkSenders (msgs ++ [⟨sender, .link nrSamples⟩]) =
      linkSenders msgs ++ [sender] := by
    simp [linkSenders]
  have hbeads : beadSenders (msgs ++ [⟨sender, .link nrSamples⟩]) = beadSenders msgs := by
    simp [beadSenders]
  have hkept : keptMessages mySystemId (msgs ++ [⟨sender, .link nrSamples⟩]) =
      keptMessages mySystemId msgs := by
    simp [keptMessages]
  have hsum : A.announcedSum (msgs ++ [⟨sender, .link nrSamples⟩]) =
      A.announcedSum msgs + A.samples sender := by
    simp [announcedSum, hsenders]
  -- The fellow has sent no other link.
  have hnew : ∀ link ∈ chain.links, link.sender ≠ sender := by
    intro link hlink heq
    have hnodup := A.linkSenders_nodup hpre
    rw [hsenders, nodup_append] at hnodup
    have hmem : link.sender ∈ linkSenders msgs := h.links.mem_iff.mp (mem_map_of_mem hlink)
    exact hnodup.2.2 _ hmem sender (mem_singleton_self sender) heq
  obtain ⟨-, hsorted, hperm⟩ := insert_of_notMem (x := (⟨sender, nrSamples⟩ : ChainLink))
      networkAddressCompare_strictTotal (Set.mem_univ _) (fun _ _ ↦ Set.mem_univ _) h.links_sorted
        hnew
  have hvalue := A.link_value ⟨sender, .link nrSamples⟩
    (hpre.subset (mem_append_right msgs (mem_singleton_self _))) nrSamples rfl
  refine ⟨h.fellows, ?_, hsorted, ?_, h.beads_sorted, by rw [hkept]; exact h.beads_mem,
    by rw [hbeads]; exact h.beads_le, ?_⟩
  · rw [hsenders]
    refine (hperm.map ChainLink.sender).trans ?_
    exact (h.links.cons sender).trans (perm_append_singleton sender _).symm
  · intro link hlink
    rcases mem_cons.mp (hperm.mem_iff.mp hlink) with rfl | hlink
    · exact hvalue
    · exact h.links_value link hlink
  · have hle := A.announcedSum_le hpre
    have hbead := A.length_beadSenders_le hpre
    rw [hbeads] at hbead
    have hbeads_le := h.beads_le
    rw [hsum, hbeads]
    unfold Chain.receiveLink
    dsimp only at hvalue ⊢
    cases hannounced : A.announced sender with
    | none =>
      rw [hannounced, Option.getD_none] at hvalue
      have hzero : A.samples sender = 0 := by rw [samples, hannounced, Option.getD_none]
      rw [if_pos hvalue, h.expect, hzero, Nat.add_zero]
    | some n =>
      rw [hannounced, Option.getD_some] at hvalue
      have hsamples : A.samples sender = nrSamples := by
        rw [samples, hannounced, Option.getD_some, hvalue]
      have hlt := A.announced_lt sender n hannounced
      have hlong : toLong nrSamples = nrSamples := toLong_of_lt (by omega) (by omega)
      rw [if_neg (by omega), h.expect, hlong, hsamples, toLong_of_lt (by omega) (by omega)]
      omega

lemma Holds.decrement (hpre : msgs ++ [msg] <+: A.messages) :
    toLong (chain.samplesExpect - 1) = chain.samplesExpect - 1 := by
  have hpre' : msgs <+: A.messages := (prefix_append msgs [msg]).trans hpre
  have hsum := A.announcedSum_le hpre'
  have hbeads := A.length_beadSenders_le hpre'
  have hle := h.beads_le
  rw [h.expect]
  exact toLong_of_lt (by omega) (by omega)

lemma Holds.complete_iff (hfellows : A.fellows.length < 2 ^ 32) (hpre : msgs <+: A.messages) :
    chain.complete ↔ A.AllArrived msgs := by
  have hlinks : chain.links.length = (linkSenders msgs).length := by
    rw [← h.links.length_eq, length_map]
  have hlinks_le : (linkSenders msgs).length ≤ A.fellows.length :=
    A.links.length_eq ▸ (linkSenders_sublist hpre).length_le
  have hbeads := A.length_beadSenders_le hpre
  have hle := h.beads_le
  rw [A.allArrived_iff hpre]
  simp [Chain.complete, h.fellows, hlinks, h.expect]
  omega

end

lemma map_addSender (sender : NetworkAddress) (message : BeadMessage κ)
    (beads : List (ChainBead κ)) :
    (beads.map (Chain.addSender sender message)).map ChainBead.message =
      beads.map ChainBead.message := by
  rw [map_map]
  refine map_congr_left fun bead _ ↦ ?_
  simp only [Function.comp_apply, Chain.addSender]
  split_ifs
  · split <;> rfl
  · rfl

/-! ### Beads -/

variable (hcmp : OrderedTable.StrictTotalOn chainBeadCompare
    {message : BeadMessage κ | message ∈ keptMessages mySystemId A.messages})
  (htotal : A.total < 2 ^ 31)

include hcmp htotal

lemma Holds.receiveBead (h : A.Holds mySystemId msgs chain)
    {sender : NetworkAddress} {message : BeadMessage κ}
    (hpre : msgs ++ [⟨sender, .bead message⟩] <+: A.messages) :
    A.Holds mySystemId (msgs ++ [⟨sender, .bead message⟩])
      (chain.receiveBead mySystemId sender message) := by
  have hdecrement := h.decrement htotal hpre
  unfold Chain.receiveBead
  split_ifs with hmyself
  · refine h.afterBead h.beads_sorted ?_ (by omega) (by rw [hdecrement]; omega)
    intro m
    rw [h.beads_mem]
    simp [keptMessages, hmyself]
  · have hkept : keptMessages mySystemId (msgs ++ [⟨sender, .bead message⟩]) =
        keptMessages mySystemId msgs ++ [message] := by
      simp [keptMessages, hmyself]
    have hsubset : ∀ m ∈ keptMessages mySystemId msgs ++ [message],
        m ∈ keptMessages mySystemId A.messages :=
      fun m hm ↦ keptMessages_subset mySystemId hpre (hkept ▸ hm)
    have hin : ∀ bead ∈ chain.beads, bead.message ∈ keptMessages mySystemId A.messages :=
      fun bead hbead ↦ hsubset _ (mem_append_left _ ((h.beads_mem _).mp (mem_map_of_mem hbead)))
    have hmessage : message ∈ keptMessages mySystemId A.messages :=
      hsubset _ (mem_append_right _ (mem_singleton_self message))
    by_cases hmem : ∃ bead ∈ chain.beads, bead.message = message
    · obtain ⟨bead, hbead, heq, hinsert⟩ :=
        insert_of_mem (x := (⟨message, [sender], 1⟩ : ChainBead κ))
          hcmp hmessage hin h.beads_sorted hmem
      rw [hinsert]
      refine h.afterBead ?_ ?_ (by rw [length_map]; omega) (by rw [hdecrement, length_map]; omega)
      · have hsorted := h.beads_sorted
        rw [OrderedTable.Sorted, ← pairwise_map (f := ChainBead.message)
          (R := fun a b ↦ chainBeadCompare a b = .lt)] at hsorted ⊢
        rwa [map_addSender]
      · intro m
        rw [map_addSender, hkept, h.beads_mem, mem_append, mem_singleton]
        refine ⟨.inl, ?_⟩
        rintro (hm | rfl)
        · exact hm
        · rw [← h.beads_mem]
          exact mem_map.mpr ⟨bead, hbead, heq⟩
    · obtain ⟨hnone, hsorted, hperm⟩ :=
        insert_of_notMem (x := (⟨message, [sender], 1⟩ : ChainBead κ))
          hcmp hmessage hin h.beads_sorted fun bead hbead heq ↦ hmem ⟨bead, hbead, heq⟩
      rcases hinsert : insert ChainBead.message chainBeadCompare
        (⟨message, [sender], 1⟩ : ChainBead κ) chain.beads with ⟨found, beads⟩
      rw [hinsert] at hnone hsorted hperm
      subst hnone
      have hlength : beads.length = chain.beads.length + 1 := by rw [hperm.length_eq, length_cons]
      refine h.afterBead hsorted ?_ hlength.le (by rw [hlength]; push_cast; omega)
      intro m
      rw [(hperm.map ChainBead.message).mem_iff, map_cons, mem_cons, h.beads_mem, hkept,
        mem_append, mem_singleton]
      exact or_comm

lemma Holds.receive (h : A.Holds mySystemId msgs chain) (hpre : msgs ++ [msg] <+: A.messages) :
    A.Holds mySystemId (msgs ++ [msg]) (chain.receive mySystemId msg) := by
  rcases msg with ⟨sender, message | nrSamples⟩
  · exact h.receiveBead hcmp htotal hpre
  · exact h.receiveLink htotal hpre

lemma Holds.actions (hfellows : A.fellows.length < 2 ^ 32) {more : List (SampleChain κ)} :
    ∀ {msgs : List (SampleChain κ)} {chain : Chain κ}, A.Holds mySystemId msgs chain →
      msgs ++ more <+: A.messages → ¬A.AllArrived (msgs ++ more) →
      ∃ chain', sampleChainListenerActions mySystemId more (some chain) = some chain' ∧
        A.Holds mySystemId (msgs ++ more) chain' := by
  induction more with
  | nil =>
    intro msgs chain _ _ _
    exact ⟨chain, rfl, by rwa [append_nil]⟩
  | cons msg more ih =>
    intro msgs chain h hpre hmissing
    have hsplit : msgs ++ msg :: more = (msgs ++ [msg]) ++ more := by simp
    rw [hsplit] at hpre hmissing ⊢
    have hpre' : msgs ++ [msg] <+: A.messages := (prefix_append _ more).trans hpre
    have hreceive := h.receive hcmp htotal hpre'
    have hsender : msg.sender ∈ chain.fellows := by
      rw [h.fellows]
      exact sender_mem (hpre'.subset (mem_append_right msgs (mem_singleton_self msg)))
    have hopen : ¬(chain.receive mySystemId msg).complete := by
      rw [hreceive.complete_iff htotal hfellows hpre']
      cases more with
      | nil => simpa using hmissing
      | cons next more =>
        have hnext : msgs ++ [msg] ++ [next] <+: A.messages :=
          List.IsPrefix.trans ⟨more, by simp⟩ hpre
        exact A.not_allArrived hnext
    rw [sampleChainListenerActions, sampleChainListenerAction, if_pos hsender]
    rw [if_neg hopen]
    exact ih hreceive hpre hmissing

end Alignment

/-- In every order in which the links and the beads of the fellows of a chain can arrive, the chain
is found complete by the message with which all have come and by no earlier one, and then its beads
hold each message once, without the implicit ones about the node itself. -/
theorem sampleChain_complete [LinearOrder κ] (A : Alignment κ) (mySystemId : ℕ)
    (hcmp : OrderedTable.StrictTotalOn chainBeadCompare
      {message : BeadMessage κ | message ∈ keptMessages mySystemId A.messages})
    (htotal : A.total < 2 ^ 31) (hfellows : A.fellows.length < 2 ^ 32)
    {msgs : List (SampleChain κ)} {msg : SampleChain κ} (hpre : msgs ++ [msg] <+: A.messages) :
    ∃ chain, sampleChainListenerActions mySystemId msgs (some (Chain.new A.fellows)) = some chain ∧
      ((sampleChainListenerAction mySystemId msg (some chain)).1.isSome ↔
        A.AllArrived (msgs ++ [msg])) ∧
      ∀ done, (sampleChainListenerAction mySystemId msg (some chain)).1 = some done →
        (done.beads.map ChainBead.message).Nodup ∧
        ∀ message, message ∈ done.beads.map ChainBead.message ↔
          message ∈ keptMessages mySystemId (msgs ++ [msg]) := by
  have hpre' : [] ++ msgs <+: A.messages := (List.prefix_append msgs [msg]).trans hpre
  obtain ⟨chain, hrun, hholds⟩ := (A.holds_new mySystemId).actions hcmp htotal hfellows hpre'
    (A.not_allArrived hpre)
  rw [List.nil_append] at hholds
  have hreceive := hholds.receive hcmp htotal hpre
  have hsender : msg.sender ∈ chain.fellows := by
    rw [hholds.fellows]
    exact A.sender_mem (hpre.subset (List.mem_append_right msgs (List.mem_singleton_self msg)))
  have hcomplete := hreceive.complete_iff htotal hfellows hpre
  have haction : (sampleChainListenerAction mySystemId msg (some chain)).1 =
      if (chain.receive mySystemId msg).complete then some (chain.receive mySystemId msg)
      else none := by
    rw [sampleChainListenerAction, if_pos hsender]
    dsimp only
    split_ifs <;> rfl
  refine ⟨chain, hrun, ?_, ?_⟩
  · rw [haction, ← hcomplete]
    split_ifs with h <;> simp [h]
  · intro done hdone
    rw [haction] at hdone
    split_ifs at hdone with h
    obtain rfl := Option.some.inj hdone
    refine ⟨hreceive.beads_sorted.nodup hcmp fun bead hbead ↦ ?_, hreceive.beads_mem⟩
    exact keptMessages_subset mySystemId hpre
      ((hreceive.beads_mem _).mp (List.mem_map_of_mem hbead))

/-! ### Two fellows with one sample -/

def someWrite : BeadMessage ℕ where
  addr := 0
  state := ⟨true, false, false, false, false, false⟩
  allocTime := 0
  writeTime := 5
  writerGID := ⟨9, 1, 1⟩
  sequenceNumber := 1
  qos := none
  otherState := 0
  keyValues := [3]

def repeatedSamples (n₁ n₂ : ℕ) (h₁ : n₁ < groupIsEqual) (h₂ : n₂ < groupIsEqual) :
    Alignment ℕ where
  fellows := [⟨1, 1, 1⟩, ⟨2, 1, 1⟩]
  announced fellow := if fellow = ⟨1, 1, 1⟩ then some n₁ else some n₂
  messages := [⟨⟨1, 1, 1⟩, .link n₁⟩, ⟨⟨2, 1, 1⟩, .link n₂⟩] ++
    (List.replicate n₁ ⟨⟨1, 1, 1⟩, .bead someWrite⟩ ++
      List.replicate n₂ ⟨⟨2, 1, 1⟩, .bead someWrite⟩)
  fellows_nodup := by decide
  announced_lt fellow n h := by
    split_ifs at h <;> simp_all
  links := by simp [linkSenders]
  link_value msg hmsg n hn := by
    simp only [List.cons_append, List.nil_append, List.mem_cons, List.mem_append,
      List.mem_replicate] at hmsg
    rcases hmsg with rfl | rfl | ⟨-, rfl⟩ | ⟨-, rfl⟩ <;> simp_all
  beadSenders_mem := by
    simp only [beadSenders, List.cons_append, List.nil_append, List.filterMap_cons,
      List.filterMap_append, List.filterMap_replicate, List.mem_append, List.mem_replicate]
    rintro fellow (⟨-, rfl⟩ | ⟨-, rfl⟩) <;> simp
  beads fellow hfellow := by
    simp only [List.mem_cons, List.not_mem_nil, or_false] at hfellow
    rcases hfellow with rfl | rfl <;>
      simp [beadSenders, List.count_replicate]

section

variable (n₁ n₂ mySystemId : ℕ) (h₁ : n₁ < groupIsEqual) (h₂ : n₂ < groupIsEqual)

lemma repeatedSamples_fellows :
    (repeatedSamples n₁ n₂ h₁ h₂).fellows = [⟨1, 1, 1⟩, ⟨2, 1, 1⟩] := rfl

lemma not_allArrived_links (hpos : n₂ ≠ 0) : ¬(repeatedSamples n₁ n₂ h₁ h₂).AllArrived
    ([⟨⟨1, 1, 1⟩, .link n₁⟩] ++ [⟨⟨2, 1, 1⟩, .link n₂⟩]) := by
  intro hall
  have hcount := (hall ⟨2, 1, 1⟩ (by simp [repeatedSamples_fellows])).2
  exact hpos hcount.symm

lemma repeatedSamples_strictTotal :
    OrderedTable.StrictTotalOn chainBeadCompare {message : BeadMessage ℕ |
      message ∈ keptMessages mySystemId (repeatedSamples n₁ n₂ h₁ h₂).messages} := by
  have hsame : ∀ message ∈ keptMessages mySystemId (repeatedSamples n₁ n₂ h₁ h₂).messages,
      message = someWrite := by
    intro message hmem
    obtain ⟨msg, hmsg, hbody⟩ := mem_filterMap.mp hmem
    simp only [repeatedSamples, cons_append, nil_append, mem_cons, mem_append,
      mem_replicate] at hmsg
    rcases hmsg with rfl | rfl | ⟨-, rfl⟩ | ⟨-, rfl⟩ <;> simp_all
  refine ⟨fun a ha b hb ↦ ?_, fun a ha b hb ↦ ?_, fun a ha b hb c hc hab ↦ ?_⟩
  · rw [hsame a ha, hsame b hb]
    decide
  · rw [hsame a ha, hsame b hb]
    decide
  · rw [hsame a ha, hsame b hb] at hab
    exact absurd hab (by decide)

end

/-- Both links, the write, and the write once more from the other fellow. -/
theorem sampleChain_complete_of_repeated :
    ∃ chain, sampleChainListenerActions 9 [⟨⟨1, 1, 1⟩, .link 1⟩, ⟨⟨2, 1, 1⟩, .link 1⟩,
        ⟨⟨1, 1, 1⟩, .bead someWrite⟩] (some (Chain.new [⟨1, 1, 1⟩, ⟨2, 1, 1⟩])) = some chain ∧
      (sampleChainListenerAction 9 ⟨⟨2, 1, 1⟩, .bead someWrite⟩ (some chain)).1.isSome := by
  have hpre : [⟨⟨1, 1, 1⟩, .link 1⟩, ⟨⟨2, 1, 1⟩, .link 1⟩, ⟨⟨1, 1, 1⟩, .bead someWrite⟩] ++
      [⟨⟨2, 1, 1⟩, .bead someWrite⟩] <+: (repeatedSamples 1 1 (by decide) (by decide)).messages :=
    List.prefix_refl _
  obtain ⟨chain, hrun, hiff, -⟩ :=
    sampleChain_complete (repeatedSamples 1 1 (by decide) (by decide)) 9
      (repeatedSamples_strictTotal 1 1 9 _ _) (by decide) (by decide) hpre
  exact ⟨chain, hrun, hiff.mpr (by unfold Alignment.AllArrived; decide)⟩

/-- When `2 ^ 32` samples are announced in all the counter wraps to zero, and the links alone make
the chain complete. -/
theorem sampleChain_complete_too_early :
    ∃ (A : Alignment ℕ) (msgs : List (SampleChain ℕ)) (msg : SampleChain ℕ) (chain : Chain ℕ),
      OrderedTable.StrictTotalOn chainBeadCompare
        {message : BeadMessage ℕ | message ∈ keptMessages 9 A.messages} ∧
      msgs ++ [msg] <+: A.messages ∧
      sampleChainListenerActions 9 msgs (some (Chain.new A.fellows)) = some chain ∧
      (sampleChainListenerAction 9 msg (some chain)).1.isSome ∧ ¬A.AllArrived (msgs ++ [msg]) := by
  refine ⟨repeatedSamples 4294967294 2 (by decide) (by decide), [⟨⟨1, 1, 1⟩, .link 4294967294⟩],
    ⟨⟨2, 1, 1⟩, .link 2⟩, ⟨[⟨1, 1, 1⟩, ⟨2, 1, 1⟩], [⟨⟨1, 1, 1⟩, 4294967294⟩], [], -2⟩,
    repeatedSamples_strictTotal _ _ _ _ _, ⟨_, rfl⟩, ?_, ?_,
    not_allArrived_links _ _ _ _ (by decide)⟩
  · rw [repeatedSamples_fellows]
    decide +kernel
  · decide +kernel

end OpenSplice.Durability
