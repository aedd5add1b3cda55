import OpenSplice.Kernel.Coherent.Model

/-!
# Atomicity of coherent transactions in a group

`CoherentSet` is what a writer sends for one transaction: messages with consecutive sequence
numbers, modulo `2 ^ 32`, and the end of the transaction. `Tracks` says what the group has kept
after any calls with these messages: each index holds the latest call with its message, whatever the
order and however often, and the count is the number of the messages that have come.
`Tracks.insertMessage` is the step.
-/

set_option autoImplicit false

namespace OpenSplice.Kernel.Coherent

open List TransactionAdmin Transaction TransactionWriter CoherentMessage

variable {ι : Type*} {places : List (Option (Element ι))} {index : ℕ}

/-- The first index whose block does not fit in a `c_ulong`. -/
def indexLimit : ℕ := 4294967250

lemma Transaction.grow_eq_some (h : index < indexLimit) (elements : List (Option (Element ι))) :
    ∃ n, grow elements index = some (elements ++ replicate n none) ∧
      index < (elements ++ replicate n none).length := by
  unfold grow
  split_ifs with hindex
  · exact ⟨0, by simp, by simpa using hindex⟩
  · have hmod : (index / blockSize + 1) * blockSize % 2 ^ 32 =
        (index / blockSize + 1) * blockSize := by
      simp only [blockSize, indexLimit] at *
      omega
    have halloc : index < (index / blockSize + 1) * blockSize := by
      simp only [blockSize]
      omega
    rw [hmod, if_pos ⟨by omega, halloc⟩]
    refine ⟨_, rfl, ?_⟩
    rw [length_append, length_replicate]
    omega

lemma getD_append_replicate {α : Type*} (l : List (Option α)) (n i : ℕ) :
    (l ++ replicate n none).getD i none = l.getD i none := by
  simp only [getD_eq_getElem?_getD, getElem?_append, getElem?_replicate]
  split_ifs with h h' <;> simp_all

/-- An index below the limit gives the element that was there, or a new one, and only that element
is made. -/
lemma Transaction.getTransactionElement_spec (h : index < indexLimit) (txn : Transaction ι) :
    ∃ elements, txn.getTransactionElement index =
        some ((txn.elements.getD index none).getD ⟨false, none, none⟩,
          { txn with elements := elements }) ∧
      ∀ element i, (elements.set index (some element)).getD i none =
        if i = index then some element else txn.elements.getD i none := by
  obtain ⟨n, hgrow, hlength⟩ := grow_eq_some h txn.elements
  refine ⟨_, by rw [getTransactionElement, hgrow, Option.bind_eq_bind, Option.bind_some,
    getD_append_replicate], ?_⟩
  intro element i
  rw [set_set, getD_eq_getElem?_getD, getElem?_set]
  split_ifs with hi hi'
  · rfl
  · exact absurd hi.symm hi'
  · exact absurd (Eq.symm ‹_›) hi
  · rw [← getD_eq_getElem?_getD, getD_append_replicate]

/-! ### The walk -/

def payload (place : Option (Element ι)) : Option (Option ι × CoherentMessage) :=
  place.bind fun element ↦ element.message.map fun msg ↦ (element.inst, msg)

lemma walkElements_none (h : ∀ place ∈ places, place = none) : walkElements places = [] := by
  induction places with
  | nil => rfl
  | cons place _ ih =>
    rw [h place mem_cons_self]
    exact ih fun d hd ↦ h d (mem_cons_of_mem place hd)

lemma payload_release (place : Option (Element ι)) :
    payload (place.map releaseElement) = (payload place).filter (·.2.neverLost) := by
  rcases place with _ | ⟨inserted, _ | msg, inst⟩
  · rfl
  · rfl
  · cases hlost : msg.neverLost <;>
      simp [payload, releaseElement, hlost, Option.filter]

section

variable (h : ∀ place ∈ places, ∀ p, payload place = some p → p.2.endOfTransaction = false)
include h

lemma walkElements_append (rest : List (Option (Element ι))) :
    walkElements (places ++ rest) = places.filterMap payload ++ walkElements rest := by
  induction places with
  | nil => rfl
  | cons place _ ih =>
    have ih := ih fun d hd ↦ h d (mem_cons_of_mem place hd)
    have hplace := h place mem_cons_self
    rcases place with _ | ⟨inserted, _ | msg, inst⟩
    · exact ih
    · exact ih
    · have hend : msg.endOfTransaction = false := hplace (inst, msg) rfl
      simp [walkElements, hend, ih, payload]

lemma walkElements_release {rest : List (Option (Element ι))} {eot : Element ι}
    {msg : CoherentMessage} (hmsg : eot.message = some msg) (hend : msg.endOfTransaction)
    (hrest : ∀ place ∈ rest, place = none) :
    walkElements ((places ++ some eot :: rest).map (Option.map releaseElement)) =
      (walkElements (places ++ some eot :: rest)).filter (·.2.neverLost) := by
  have hplaces : ∀ place ∈ places.map (Option.map releaseElement),
      ∀ p, payload place = some p → p.2.endOfTransaction = false := by
    intro place hplace p hp
    obtain ⟨d, hd, rfl⟩ := mem_map.mp hplace
    rw [payload_release, Option.filter_eq_some_iff] at hp
    exact h d hd p hp.1
  have hnone : ∀ place ∈ rest.map (Option.map releaseElement), place = none := by
    intro place hplace
    obtain ⟨d, hd, rfl⟩ := mem_map.mp hplace
    rw [hrest d hd]
    rfl
  rw [map_append, map_cons, walkElements_append hplaces, walkElements_append h,
    filter_append, filterMap_map, filter_filterMap]
  congr 1
  · exact congrArg (filterMap · places) (funext payload_release)
  · cases hlost : msg.neverLost <;>
      simp [walkElements, releaseElement, hmsg, hend, hlost,
        walkElements_none hnone]

end

/-! ### What a writer sends -/

/-- The messages of one coherent transaction and the message that ends it. -/
structure CoherentSet where
  writerGID : Gid
  transactionId : ℕ
  n : ℕ
  message : ℕ → CoherentMessage
  eot : CoherentMessage
  transactionId_lt : transactionId < 2 ^ 32
  one_le : 1 ≤ n
  n_lt : n < 2 ^ 32
  /-- No message has the number of an unnumbered one. -/
  numbered : transactionId = 0 → n < maxUlong
  message_writer : ∀ i < n, (message i).writerGID = writerGID
  message_id : ∀ i < n, (message i).transactionId = transactionId
  message_number : ∀ i < n, (message i).sequenceNumber = (transactionId + i) % 2 ^ 32
  message_state : ∀ i < n, (message i).transaction = true ∧ (message i).endOfTransaction = false
  eot_writer : eot.writerGID = writerGID
  eot_id : eot.transactionId = transactionId
  eot_number : eot.sequenceNumber = (transactionId + n) % 2 ^ 32
  eot_state : eot.transaction = true ∧ eot.endOfTransaction = true

namespace CoherentSet

variable (S : CoherentSet) {msg : CoherentMessage} {i : ℕ} {calls : List (Call ι)} {call : Call ι}
  {txn : Transaction ι} {admin : TransactionAdmin ι}

lemma index_of_number (hi : i ≤ S.n) (hid : msg.transactionId = S.transactionId)
    (hnumber : msg.sequenceNumber = (S.transactionId + i) % 2 ^ 32) :
    msg.index = i ∧ msg.isUnnumbered = false := by
  have hid_lt := S.transactionId_lt
  have hn_lt := S.n_lt
  have hnumbered := S.numbered
  simp only [index, isUnnumbered, hid, hnumber, maxUlong,
    Bool.and_eq_false_iff, beq_eq_false_iff_ne, ne_eq] at *
  split_ifs <;> omega

lemma message_index (hi : i < S.n) : (S.message i).index = i ∧ (S.message i).isUnnumbered = false :=
  S.index_of_number hi.le (S.message_id i hi) (S.message_number i hi)

lemma message_injective {j : ℕ} (hi : i < S.n) (hj : j < S.n) (h : S.message i = S.message j) :
    i = j := by
  rw [← (S.message_index hi).1, ← (S.message_index hj).1, h]

lemma message_ne_eot (hi : i < S.n) : S.message i ≠ S.eot := by
  intro h
  have hstate := (S.message_state i hi).2
  rw [h, S.eot_state.2] at hstate
  exact absurd hstate (by decide)

/-- A call with a message of the set, without abort and with the resources granted. -/
structure Passes (call : Call ι) : Prop where
  message : (∃ i < S.n, call.message = S.message i) ∨ call.message = S.eot
  abort : call.abort = false
  claim : call.claim = .granted

def latest (msg : CoherentMessage) (calls : List (Call ι)) : Option (Call ι) :=
  (calls.filter (·.message = msg)).getLast?

def Arrived (msg : CoherentMessage) (calls : List (Call ι)) : Prop :=
  ∃ call ∈ calls, call.message = msg

instance (msg : CoherentMessage) (calls : List (Call ι)) : Decidable (Arrived msg calls) :=
  inferInstanceAs (Decidable (∃ call ∈ calls, call.message = msg))

def Complete (calls : List (Call ι)) : Prop :=
  Arrived S.eot calls ∧ ∀ i < S.n, Arrived (S.message i) calls

def slot (calls : List (Call ι)) (i : ℕ) : Option (Element ι) :=
  if i < S.n then
    (latest (S.message i) calls).map fun call ↦
      ⟨true, if call.inst.isSome then some call.message else none, call.inst⟩
  else if i = S.n ∧ Arrived S.eot calls then some ⟨false, some S.eot, none⟩
  else none

/-- What a flush hands over after some calls: the messages in their order, each with the instance of
its last call and left out if that had none, and the end of the transaction. -/
def handed (calls : List (Call ι)) : List (Option ι × CoherentMessage) :=
  ((List.range S.n).filterMap fun i ↦ ((latest (S.message i) calls).bind (·.inst)).map
    fun inst ↦ (some inst, S.message i)) ++ [(none, S.eot)]

lemma latest_concat (msg : CoherentMessage) (calls : List (Call ι)) (call : Call ι) :
    latest msg (calls ++ [call]) = if call.message = msg then some call else latest msg calls := by
  unfold latest
  split_ifs with h
  · simp [h]
  · simp [h]

lemma arrived_concat : Arrived msg (calls ++ [call]) ↔ call.message = msg ∨ Arrived msg calls := by
  simp only [Arrived, mem_append, mem_singleton]
  constructor
  · rintro ⟨c, hc | rfl, h⟩
    · exact .inr ⟨c, hc, h⟩
    · exact .inl h
  · rintro (h | ⟨c, hc, h⟩)
    · exact ⟨call, .inr rfl, h⟩
    · exact ⟨c, .inl hc, h⟩

lemma latest_isSome : (latest msg calls).isSome ↔ Arrived msg calls := by
  rw [latest, getLast?_isSome, ne_eq, filter_eq_nil_iff]
  simp [Arrived]

lemma message_of_latest (h : latest msg calls = some call) : call.message = msg := by
  have hmem := mem_of_getLast? h
  simpa using (mem_filter.mp hmem).2

/-! ### The step -/

def arrivals (calls : List (Call ι)) : Finset ℕ :=
  (Finset.range S.n).filter fun i ↦ Arrived (S.message i) calls

/-- A transaction that has seen some calls of the set, and no others. -/
structure Tracks (calls : List (Call ι)) (txn : Transaction ι) : Prop where
  id : txn.transactionId = S.transactionId
  aborted : txn.aborted = false
  elements : ∀ i, txn.elements.getD i none = S.slot calls i
  count : txn.count = (S.arrivals calls).card
  eot : txn.eot = if Arrived S.eot calls then some S.eot else none
  eotCount : txn.eotCount = if Arrived S.eot calls then 1 else 0
  size : Arrived S.eot calls → txn.size = S.n

variable {S}

lemma tracks_new : S.Tracks [] (new S.transactionId : Transaction ι) where
  id := rfl
  aborted := rfl
  elements i := by
    simp only [Transaction.new, slot, latest, Arrived, getD_eq_getElem?_getD, getElem?_replicate]
    split_ifs <;> simp_all
  count := by simp [Transaction.new, arrivals, Arrived]
  eot := by simp [Transaction.new, Arrived]
  eotCount := by simp [Transaction.new, Arrived]
  size h := by simp [Arrived] at h

lemma arrived_eot_of_message (hi : i < S.n) (hmsg : call.message = S.message i) :
    Arrived S.eot (calls ++ [call]) ↔ Arrived S.eot calls := by
  rw [arrived_concat, hmsg, or_iff_right (S.message_ne_eot hi)]

lemma slot_of_message (hi : i < S.n) (hmsg : call.message = S.message i) (j : ℕ) :
    S.slot (calls ++ [call]) j =
      if j = i then some ⟨true, if call.inst.isSome then some call.message else none, call.inst⟩
      else S.slot calls j := by
  unfold slot
  rw [latest_concat, hmsg]
  by_cases hj : j < S.n
  · by_cases hji : j = i
    · simp [hji, hi, hmsg]
    · have hne : S.message i ≠ S.message j := fun h ↦ hji (S.message_injective hi hj h).symm
      simp [hj, hji, hne]
  · have hji : j ≠ i := by omega
    simp [hj, hji, arrived_eot_of_message hi hmsg]

lemma arrivals_of_message (hi : i < S.n) (hmsg : call.message = S.message i) :
    S.arrivals (calls ++ [call]) = insert i (S.arrivals calls) := by
  ext j
  simp only [arrivals, arrived_concat, hmsg, Finset.mem_filter, Finset.mem_range,
    Finset.mem_insert]
  constructor
  · rintro ⟨hj, h | h⟩
    · exact .inl (S.message_injective hi hj h).symm
    · exact .inr ⟨hj, h⟩
  · rintro (rfl | ⟨hj, h⟩)
    · exact ⟨hi, .inl rfl⟩
    · exact ⟨hj, .inr h⟩

lemma card_arrivals_le (calls : List (Call ι)) : (S.arrivals calls).card ≤ S.n := by
  have h := Finset.card_filter_le (Finset.range S.n) fun i ↦ Arrived (S.message i) calls
  rwa [Finset.card_range] at h

section

variable (hmsg : call.message = S.eot)
include hmsg

lemma arrived_eot_of_eot : Arrived S.eot (calls ++ [call]) := arrived_concat.mpr (.inl hmsg)

lemma slot_of_eot (j : ℕ) : S.slot (calls ++ [call]) j =
      if j = S.n then some ⟨false, some S.eot, none⟩ else S.slot calls j := by
  unfold slot
  rw [latest_concat, hmsg]
  by_cases hj : j < S.n
  · simp [hj, hj.ne, (S.message_ne_eot hj).symm]
  · by_cases hjn : j = S.n
    · simp [hjn, arrived_eot_of_eot hmsg]
    · simp [hj, hjn]

lemma arrivals_of_eot : S.arrivals (calls ++ [call]) = S.arrivals calls := by
  ext j
  simp only [arrivals, Finset.mem_filter, Finset.mem_range]
  refine and_congr_right fun hj ↦ ?_
  rw [arrived_concat, hmsg, or_iff_right (S.message_ne_eot hj).symm]

end

lemma storeResult_of_passes (hcall : S.Passes call) (haborted : txn.aborted = false) :
    txn.storeResult call = .success := by
  simp [storeResult, haborted, hcall.abort, hcall.claim]

section

variable (h : S.Tracks calls txn)
include h

lemma Tracks.mark (marked : Bool) : S.Tracks calls { txn with isMarked := marked } :=
  ⟨h.id, h.aborted, h.elements, h.count, h.eot, h.eotCount, h.size⟩

variable (hlimit : S.n < indexLimit)
include hlimit

lemma Tracks.storeElement (hi : i < S.n) (hmsg : call.message = S.message i) :
    ∃ txn', txn.storeElement i call = some txn' ∧ S.Tracks (calls ++ [call]) txn' := by
  obtain ⟨elements, hget, hset⟩ := getTransactionElement_spec (hi.trans hlimit) txn
  rw [h.elements] at hget
  rw [Transaction.storeElement, hget]
  refine ⟨_, rfl, h.id, h.aborted, fun j ↦ ?_, ?_, ?_, ?_, ?_⟩
  · rw [hset, h.elements, slot_of_message hi hmsg]
  · -- The place was counted exactly if its message had come before.
    have hinserted : ((S.slot calls i).getD ⟨false, none, none⟩).inserted ↔
        i ∈ S.arrivals calls := by
      rw [arrivals, Finset.mem_filter, ← latest_isSome, slot, if_pos hi]
      cases latest (S.message i) calls <;> simp [hi]
    rw [arrivals_of_message hi hmsg]
    by_cases harrived : i ∈ S.arrivals calls
    · rw [if_pos (hinserted.mpr harrived), Finset.insert_eq_of_mem harrived, h.count]
    · rw [if_neg (harrived ∘ hinserted.mp), Finset.card_insert_of_notMem harrived, h.count]
      have hle := S.card_arrivals_le (calls ++ [call])
      rw [arrivals_of_message hi hmsg, Finset.card_insert_of_notMem harrived] at hle
      exact Nat.mod_eq_of_lt (hle.trans_lt S.n_lt)
  · simpa only [arrived_eot_of_message hi hmsg] using h.eot
  · simpa only [arrived_eot_of_message hi hmsg] using h.eotCount
  · simpa only [arrived_eot_of_message hi hmsg] using h.size

lemma Tracks.storeMessageEOT (hmsg : call.message = S.eot) :
    ∃ txn', txn.storeMessageEOT .group S.n S.eot = some txn' ∧ S.Tracks (calls ++ [call]) txn' := by
  have harrived : Arrived S.eot (calls ++ [call]) := arrived_eot_of_eot hmsg
  unfold Transaction.storeMessageEOT
  by_cases hseen : Arrived S.eot calls
  · -- A second end of the transaction changes nothing.
    have hkept : ¬(txn.eotCount = 0 ∨ txn.replacesEOT S.eot) := by
      simp [h.eotCount, hseen, replacesEOT, S.eot_state.1]
    rw [if_neg hkept]
    refine ⟨_, rfl, h.id, h.aborted, fun j ↦ ?_, ?_, ?_, ?_, fun _ ↦ h.size hseen⟩
    · rw [slot_of_eot hmsg, h.elements]
      split_ifs with hj
      · simp [hj, slot, hseen]
      · rfl
    · rw [arrivals_of_eot hmsg, h.count]
    · rw [if_pos harrived, h.eot, if_pos hseen]
    · rw [if_pos harrived]
      rfl
  · have hcount : txn.eotCount = 0 := by rw [h.eotCount, if_neg hseen]
    obtain ⟨elements, hget, hset⟩ := getTransactionElement_spec hlimit txn
    rw [h.elements] at hget
    rw [if_pos (.inl hcount), hget]
    refine ⟨_, rfl, h.id, h.aborted, fun j ↦ ?_, ?_, ?_, ?_, fun _ ↦ rfl⟩
    · rw [hset, h.elements, slot_of_eot hmsg]
    · have hslot : S.slot calls S.n = none := by simp [slot, hseen]
      simp only [hslot, Option.getD_none, Bool.false_eq_true, if_false]
      rw [arrivals_of_eot hmsg, h.count]
    · rw [if_pos harrived]
    · rw [if_pos harrived]
      rfl

lemma Tracks.insertMessage (hcall : S.Passes call) :
    ∃ result txn', txn.insertMessage .group call = some (result, txn') ∧
      S.Tracks (calls ++ [call]) txn' := by
  have hmark := h.mark (txn.isMarked || false)
  unfold Transaction.insertMessage
  rcases hcall.message with ⟨i, hi, hmsg⟩ | hmsg
  · obtain ⟨hindex, hnumbered⟩ := S.message_index hi
    obtain ⟨htransaction, hend⟩ := S.message_state i hi
    obtain ⟨txn', hstore, htracks⟩ := hmark.storeElement hlimit hi hmsg
    have hsingle : (S.message i).isSingleTransaction = false := by
      simp [isSingleTransaction, htransaction]
    have hresult := storeResult_of_passes hcall hmark.aborted
    refine ⟨.success, txn', ?_, htracks⟩
    simp only [hmsg, hnumbered, hindex, hend, hresult, hstore, hsingle, Bool.false_eq_true,
      if_false, and_false, reduceCtorEq, Option.bind_eq_bind, Option.bind_some]
  · obtain ⟨hindex, hnumbered⟩ := S.index_of_number le_rfl S.eot_id S.eot_number
    obtain ⟨txn', hstore, htracks⟩ := hmark.storeMessageEOT hlimit hmsg
    refine ⟨.successNotStored, txn', ?_, htracks⟩
    simp only [hmsg, hnumbered, hindex, S.eot_state.2, hstore, Bool.false_eq_true, if_false,
      if_true, Option.bind_eq_bind, Option.bind_some]

end

/-! ### The end -/

lemma payload_slot (hi : i < S.n) :
    payload (S.slot calls i) = ((latest (S.message i) calls).bind (·.inst)).map
      fun inst ↦ (some inst, S.message i) := by
  rw [slot, if_pos hi]
  cases hlatest : latest (S.message i) calls with
  | none => rfl
  | some call =>
    have hmsg := message_of_latest hlatest
    cases hinst : call.inst <;> simp [payload, hinst, hmsg]

lemma payload_slot_not_end : ∀ place ∈ (range S.n).map (S.slot calls), ∀ p, payload place = some p →
      p.2.endOfTransaction = false := by
  intro place hplace p hp
  obtain ⟨i, hi, rfl⟩ := mem_map.mp hplace
  have hi := mem_range.mp hi
  rw [payload_slot hi] at hp
  obtain ⟨inst, -, rfl⟩ := Option.map_eq_some_iff.mp hp
  exact (S.message_state i hi).2

section

variable (h : S.Tracks calls txn)
include h

lemma Tracks.complete_iff (matchCount : ℕ) : txn.complete .group matchCount ↔ S.Complete calls := by
  unfold complete Complete
  rw [h.eot]
  by_cases hseen : Arrived S.eot calls
  · have hcard : (S.arrivals calls).card = S.n ↔ ∀ i < S.n, Arrived (S.message i) calls := by
      conv_lhs => rw [← Finset.card_range S.n]
      rw [arrivals, Finset.card_filter_eq_iff]
      simp
    simp [hseen, S.eot_state.1, h.count, h.size hseen, hcard]
  · simp [hseen]

variable (hseen : Arrived S.eot calls)
include hseen

/-- Once the end of the transaction is there, the array holds the messages, the end and nothing
more. -/
lemma Tracks.elements_eq :
    ∃ rest, txn.elements =
        (range S.n).map (S.slot calls) ++ some ⟨false, some S.eot, none⟩ :: rest ∧
      ∀ place ∈ rest, place = none := by
  have hslot : S.slot calls S.n = some ⟨false, some S.eot, none⟩ := by simp [slot, hseen]
  have hlength : S.n < txn.elements.length := by
    by_contra hle
    have hnone := h.elements S.n
    rw [hslot, getD_eq_default _ _ (by omega)] at hnone
    simp at hnone
  have hrange : txn.elements = (range txn.elements.length).map (S.slot calls) := by
    refine ext_getElem (by simp) fun i hi _ ↦ ?_
    rw [getElem_map, getElem_range, ← h.elements, getD_eq_getElem _ _ hi]
  obtain ⟨k, hk⟩ : ∃ k, txn.elements.length = S.n + (k + 1) :=
    ⟨txn.elements.length - S.n - 1, by omega⟩
  rw [hk, range_add, map_append, range_succ_eq_map, map_cons, map_cons,
    Nat.add_zero, hslot] at hrange
  refine ⟨_, hrange, fun place hplace ↦ ?_⟩
  simp only [map_map, mem_map, Function.comp_apply] at hplace
  obtain ⟨j, -, rfl⟩ := hplace
  rw [slot, if_neg (by omega), if_neg (by omega)]

lemma Tracks.walk_eq : txn.walk = S.handed calls := by
  obtain ⟨rest, helements, -⟩ := h.elements_eq hseen
  rw [walk, helements, walkElements_append payload_slot_not_end, handed, filterMap_map]
  congr 1
  · exact filterMap_congr fun i hi ↦ payload_slot (mem_range.mp hi)
  · simp [walkElements, S.eot_state.2]

lemma Tracks.walk_abort : txn.abort.walk = (S.handed calls).filter (·.2.neverLost) := by
  obtain ⟨rest, helements, hrest⟩ := h.elements_eq hseen
  rw [← h.walk_eq hseen, abort, h.aborted, walk, walk, helements]
  exact walkElements_release payload_slot_not_end rfl S.eot_state.2 hrest

end

/-! ### Runs -/

/-- An administration of a group whose transaction of the set has seen some calls. -/
structure Follows (S : CoherentSet) (calls : List (Call ι)) (admin : TransactionAdmin ι) :
    Prop where
  owner : admin.owner = .group
  tracks : S.Tracks calls
    ((admin.lookupWriter S.writerGID).lookupTransaction S.transactionId)

/-- Where the transaction goes when it is complete. A transaction of group scope is left to the
group administration, or aborted if it is volatile; any other is flushed. -/
def Leaves (S : CoherentSet) (groupAdmin : Bool) (calls : List (Call ι))
    (departure : Option (Departure ι)) : Prop :=
  if groupAdmin ∧ S.eot.presentationKind = .group then
    if S.eot.isVolatile then departure = some (.flushed ((S.handed calls).filter (·.2.neverLost)))
    else ∃ txn, departure = some (.forwarded txn) ∧ txn.walk = S.handed calls
  else departure = some (.flushed (S.handed calls))

lemma Passes.writerGID (h : S.Passes call) : call.message.writerGID = S.writerGID := by
  rcases h.message with ⟨i, hi, hmsg⟩ | hmsg
  · rw [hmsg, S.message_writer i hi]
  · rw [hmsg, S.eot_writer]

lemma Passes.transactionId (h : S.Passes call) : call.message.transactionId = S.transactionId := by
  rcases h.message with ⟨i, hi, hmsg⟩ | hmsg
  · rw [hmsg, S.message_id i hi]
  · rw [hmsg, S.eot_id]

lemma Tracks.leaves (h : S.Tracks calls txn) (hcomplete : S.Complete calls)
    (howner : admin.owner = .group) (groupComplete : Bool) :
    S.Leaves admin.groupAdmin calls (some (admin.flush groupComplete txn).2) := by
  have heot : txn.eot = some S.eot := by rw [h.eot, if_pos hcomplete.1]
  unfold Leaves flush
  simp only [heot, howner, Option.any_some, Bool.and_eq_true, beq_iff_eq, true_and]
  split_ifs with hgroup hvolatile
  · rw [h.walk_abort hcomplete.1]
  · exact ⟨txn, rfl, h.walk_eq hcomplete.1⟩
  · rw [h.walk_eq hcomplete.1]

lemma Follows.insertMessage (h : S.Follows calls admin) (hlimit : S.n < indexLimit)
    (hcall : S.Passes call) :
    ∃ reply admin', admin.insertMessage call = some (reply, admin') ∧
      (S.Complete (calls ++ [call]) → S.Leaves admin.groupAdmin (calls ++ [call]) reply.departure) ∧
      (¬S.Complete (calls ++ [call]) → reply.departure = none ∧ S.Follows (calls ++ [call]) admin' ∧
          admin'.groupAdmin = admin.groupAdmin) := by
  obtain ⟨result, txn, hinsert, htracks⟩ := h.tracks.insertMessage hlimit hcall
  have hcomplete := htracks.complete_iff (admin.lookupWriter S.writerGID).matchCount
  unfold TransactionAdmin.insertMessage
  simp only [hcall.writerGID, hcall.transactionId, h.owner, hinsert, Option.bind_eq_bind,
    Option.bind_some]
  by_cases hall : S.Complete (calls ++ [call])
  · rw [if_pos (hcomplete.mpr hall)]
    exact ⟨_, _, rfl, fun _ ↦ htracks.leaves hall h.owner _, fun hnot ↦ absurd hall hnot⟩
  · rw [if_neg (hall ∘ hcomplete.mp)]
    refine ⟨_, _, rfl, fun hyes ↦ absurd hyes hall, fun _ ↦ ⟨rfl, ⟨h.owner, ?_⟩, rfl⟩⟩
    simpa [putWriter, lookupWriter, putTransaction, lookupTransaction, ← htracks.id] using htracks

lemma Complete.append {calls : List (Call ι)} (h : S.Complete calls) (more : List (Call ι)) :
    S.Complete (calls ++ more) := by
  have hmono : ∀ {msg}, Arrived msg calls → Arrived msg (calls ++ more) :=
    fun ⟨call, hmem, hmsg⟩ ↦ ⟨call, mem_append_left more hmem, hmsg⟩
  exact ⟨hmono h.1, fun i hi ↦ hmono (h.2 i hi)⟩

lemma Follows.insertMessages (hlimit : S.n < indexLimit) :
    ∀ {seen : List (Call ι)} {admin : TransactionAdmin ι}, S.Follows seen admin →
      (∀ call ∈ calls, S.Passes call) → ¬S.Complete (seen ++ calls) →
      ∃ replies admin', admin.insertMessages calls = some (replies, admin') ∧
        (∀ reply ∈ replies, reply.departure = none) ∧ S.Follows (seen ++ calls) admin' ∧
          admin'.groupAdmin = admin.groupAdmin := by
  induction calls with
  | nil =>
    intro seen admin _ _ _
    exact ⟨[], admin, rfl, by simp, by rwa [append_nil], rfl⟩
  | cons call calls ih =>
    intro seen admin h hpasses hincomplete
    have hsplit : seen ++ call :: calls = (seen ++ [call]) ++ calls := by simp
    rw [hsplit] at hincomplete ⊢
    obtain ⟨reply, admin1, hinsert, -, hopen⟩ := h.insertMessage hlimit (hpasses call mem_cons_self)
    obtain ⟨hdeparture, hfollows, hgroup⟩ := hopen fun hall ↦ hincomplete (hall.append calls)
    obtain ⟨replies, admin2, hrest, hnone, hfollows', hgroup'⟩ :=
      ih hfollows (fun c hc ↦ hpasses c (mem_cons_of_mem call hc)) hincomplete
    refine ⟨reply :: replies, admin2, ?_, ?_, hfollows', hgroup'.trans hgroup⟩
    · simp [TransactionAdmin.insertMessages, hinsert, hrest]
    · rintro r (_ | ⟨_, hr⟩)
      · exact hdeparture
      · exact hnone r hr

/-- An administration of a group has no open transaction of the set. -/
structure Unknown (S : CoherentSet) (admin : TransactionAdmin ι) : Prop where
  owner : admin.owner = .group
  closed : ∀ writer, admin.writers S.writerGID = some writer →
    ∀ txn ∈ writer.transactions, txn.transactionId ≠ S.transactionId

lemma Unknown.follows (h : S.Unknown admin) : S.Follows [] admin := by
  refine ⟨h.owner, ?_⟩
  have hnew : (admin.lookupWriter S.writerGID).lookupTransaction S.transactionId =
      .new S.transactionId := by
    unfold lookupWriter lookupTransaction
    cases hwriter : admin.writers S.writerGID with
    | none => simp [TransactionWriter.new]
    | some writer =>
      rw [Option.getD_some, find?_eq_none.mpr, Option.getD_none]
      intro txn htxn
      simpa using h.closed writer hwriter txn htxn
  rw [hnew]
  exact tracks_new

/-- The messages of a transaction and its end may come in any order and any number of times. As long
as one of them is missing no call lets the transaction go. The call with the last missing one does,
and then its messages are handed over in order, each once with the instance of its last call and
those without an instance left out, and the end of the transaction. -/
theorem coherentSet_atomic (S : CoherentSet) (hlimit : S.n < indexLimit)
    {admin : TransactionAdmin ι} (hadmin : S.Unknown admin) {calls : List (Call ι)}
    (hcalls : ∀ call ∈ calls, S.Passes call) (hincomplete : ¬S.Complete calls) {call : Call ι}
    (hcall : S.Passes call) :
    ∃ replies admin' reply admin'', admin.insertMessages calls = some (replies, admin') ∧
      (∀ reply ∈ replies, reply.departure = none) ∧
      admin'.insertMessage call = some (reply, admin'') ∧
      (¬S.Complete (calls ++ [call]) → reply.departure = none) ∧
      (S.Complete (calls ++ [call]) →
        S.Leaves admin.groupAdmin (calls ++ [call]) reply.departure) := by
  obtain ⟨replies, admin', hrun, hnone, hfollows, hgroup⟩ :=
    hadmin.follows.insertMessages hlimit hcalls hincomplete
  obtain ⟨reply, admin'', hinsert, hleaves, hopen⟩ := hfollows.insertMessage hlimit hcall
  rw [hgroup] at hleaves
  exact ⟨replies, admin', reply, admin'', hrun, hnone, hinsert, fun h ↦ (hopen h).1, hleaves⟩

/-! ### Runs on given messages -/

/-- A write whose number is at some distance from the last `c_ulong`, or the end of its
transaction. -/
def writeAt (presentationKind : PresentationKind) (isVolatile endOfTransaction : Bool) (i : ℕ) :
    CoherentMessage where
  addr := i
  state := ⟨!endOfTransaction, false, false, false, false, false⟩
  allocTime := 0
  writeTime := 0
  writerGID := ⟨1, 1, 1⟩
  sequenceNumber := (maxUlong + i) % 2 ^ 32
  qos := some ⟨false, 0, none⟩
  transaction := true
  endOfTransaction := endOfTransaction
  auto := false
  transactionId := maxUlong
  presentationKind := presentationKind
  coherentAccess := true
  isVolatile := isVolatile
  publisherId := 0

def twoWrites (presentationKind : PresentationKind) (isVolatile : Bool) : CoherentSet where
  writerGID := ⟨1, 1, 1⟩
  transactionId := maxUlong
  n := 2
  message := writeAt presentationKind isVolatile false
  eot := writeAt presentationKind isVolatile true 2
  transactionId_lt := by decide
  one_le := by decide
  n_lt := by decide
  numbered := by decide
  message_writer _ _ := rfl
  message_id _ _ := rfl
  message_number _ _ := rfl
  message_state _ _ := ⟨rfl, rfl⟩
  eot_writer := rfl
  eot_id := rfl
  eot_number := rfl
  eot_state := ⟨rfl, rfl⟩

def grantedCall (msg : CoherentMessage) (inst : Option ℕ) : Call ℕ :=
  ⟨msg, inst, false, .granted, 0, false⟩

def emptyAdmin : TransactionAdmin ℕ := ⟨.group, true, fun _ ↦ none⟩

def topicSet : CoherentSet := twoWrites .topic false

/-- The end first, then the second write twice: the first write lets the transaction go. -/
theorem coherentSet_atomic_of_wrap :
    ∃ replies admin' reply admin'',
      emptyAdmin.insertMessages [grantedCall topicSet.eot none,
        grantedCall (topicSet.message 1) (some 7),
        grantedCall (topicSet.message 1) (some 7)] = some (replies, admin') ∧
      (∀ reply ∈ replies, reply.departure = none) ∧
      admin'.insertMessage (grantedCall (topicSet.message 0) (some 8)) =
        some (reply, admin'') ∧
      reply.departure = some (.flushed [(some 8, topicSet.message 0),
        (some 7, topicSet.message 1), (none, topicSet.eot)]) := by
  have hpasses : ∀ i < 2, ∀ inst, topicSet.Passes
      (grantedCall (topicSet.message i) inst) :=
    fun i hi inst ↦ ⟨.inl ⟨i, hi, rfl⟩, rfl, rfl⟩
  have hunknown : topicSet.Unknown emptyAdmin := ⟨rfl, by simp [emptyAdmin]⟩
  have hcalls : ∀ call ∈ [grantedCall topicSet.eot none,
      grantedCall (topicSet.message 1) (some 7),
      grantedCall (topicSet.message 1) (some 7)],
      topicSet.Passes call := by
    intro call hcall
    simp only [mem_cons, not_mem_nil, or_false] at hcall
    rcases hcall with rfl | rfl | rfl
    · exact ⟨.inr rfl, rfl, rfl⟩
    · exact hpasses 1 (by decide) _
    · exact hpasses 1 (by decide) _
  obtain ⟨replies, admin', reply, admin'', hrun, hnone, hinsert, -, hleaves⟩ :=
    coherentSet_atomic topicSet (by decide) hunknown hcalls
      (fun h ↦ absurd (h.2 0 (by decide)) (by decide)) (hpasses 0 (by decide) (some 8))
  refine ⟨replies, admin', reply, admin'', hrun, hnone, hinsert, hleaves ⟨by decide, ?_⟩⟩
  intro i hi
  have hi : i = 0 ∨ i = 1 := by
    change i < 2 at hi
    omega
  rcases hi with rfl | rfl <;> decide

/-- What a flush hands over can lack messages of the transaction: one whose last call had no
instance is only counted, a transaction of group scope is not flushed when it is complete, and a
volatile one is aborted before its walk. -/
theorem coherentSet_handed_incomplete :
    (emptyAdmin.insertMessages [grantedCall ((twoWrites .topic false).message 0) none,
        grantedCall ((twoWrites .topic false).message 1) (some 7),
        grantedCall (twoWrites .topic false).eot none]).map (·.1.map (·.departure)) =
      some [none, none, some (.flushed [(some 7, (twoWrites .topic false).message 1),
        (none, (twoWrites .topic false).eot)])] ∧
    (∃ txn, (emptyAdmin.insertMessages [grantedCall ((twoWrites .group false).message 0) (some 8),
        grantedCall ((twoWrites .group false).message 1) (some 7),
        grantedCall (twoWrites .group false).eot none]).map (·.1.map (·.departure)) =
      some [none, none, some (.forwarded txn)]) ∧
    (emptyAdmin.insertMessages [grantedCall ((twoWrites .group true).message 0) (some 8),
        grantedCall ((twoWrites .group true).message 1) (some 7),
        grantedCall (twoWrites .group true).eot none]).map (·.1.map (·.departure)) =
      some [none, none, some (.flushed [])] :=
  ⟨by decide +kernel, ⟨_, rfl⟩, by decide +kernel⟩

end CoherentSet

end OpenSplice.Kernel.Coherent
