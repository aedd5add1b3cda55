import OpenSplice.Kernel.Reader.Transaction

/-!
# The resources of a data reader

The resource counts are right (`resource_accounts`) as long as no sample that is held back is
removed, no sample is pushed out to make room for itself, no sample expires outside the history, and
no data of a transaction is dropped on its way into the history.

`v_dataReaderInstanceSampleRemove` releases the resource of a valid sample only, but the sample that
the time based filter holds back is not valid yet: a dispose that follows it leaves one resource
claimed for nothing (`resource_accounts_of_dispose`).
-/

set_option autoImplicit false

namespace OpenSplice.Kernel

open TransactionElement List InstanceState Option DataReader Transaction Function MessageContext
open Sample

/-! ### Operations that keep the accounts -/

namespace InstanceState

variable {qos : ReaderQos} {st : InstanceState}

def insertKept (qos : ReaderQos) (message : Message) (context : MessageContext)
    (st : InstanceState) : Bool :=
  (decide (goesPending qos context st) || (heldBackOlder qos message st).isEmpty) &&
    (!message.state.replaced || (heldBackAfter qos message st.inst).isEmpty)

def instanceKept (qos : ReaderQos) : InstanceOp → InstanceState → Bool
  | .insert _ message context, st => insertKept qos message context st
  | .read _ _ _, _ => true
  | .take _ _ _, _ => true
  | .purge disposedCount noWritersCount, st =>
    st.inst.history.all fun s ↦
      !(Edits.purgeable disposedCount noWritersCount s && s.inMinSepTime)
  | .checkSeparation clock now, st =>
    DataReader.exposable qos (.checkSeparation clock now) st &&
      (now - st.inst.lastInsertionTime < qos.maximumSeparationTime ||
        (findHeldBack st.inst.history).all fun (older, s, _) ↦
          !expired clock s && older.all fun x ↦ !x.inMinSepTime)
  | .flushPending, st =>
    st.inst.pending.isEmpty || st.inst.history.all fun s ↦ !s.inMinSepTime
  | .expire clock, st =>
    st.reader.lifespanAdmin.head?.all fun entry ↦ clock.timeE < entry.expiryTime ||
      (st.inst.history.any fun s ↦ s.id = entry.id) &&
        st.inst.history.all fun s ↦ !(s.id = entry.id && s.inMinSepTime)

def keepsAccounts (e : Effect) : Prop := e ≠ .removesHeldBack ∧ e ≠ .vanishes

lemma insertKept_allowed {clock : Clock} {message : Message} {context : MessageContext}
    (h : insertKept qos message context st) :
    InsertAllowed qos keepsAccounts clock message context st := by
  simp only [insertKept, Bool.and_eq_true, Bool.or_eq_true, decide_eq_true_eq, List.isEmpty_iff,
    Bool.not_eq_true'] at h
  refine ⟨fun hgoes hne ↦ ?_, fun hreplaced hne ↦ ?_, ?_, ?_, ?_, ?_, ?_, ?_, ?_⟩
  · exact absurd (h.1.resolve_left hgoes) hne
  · exact absurd (h.2.resolve_left (by simp [hreplaced])) hne
  all_goals simp [keepsAccounts]

lemma instanceKept_allowed {op : InstanceOp} (hsound : (st.view 0).Sound)
    (hhistory : (st.view 0).historySlack = 0) (h : instanceKept qos op st) :
    op.Allowed qos keepsAccounts st := by
  cases op with
  | insert => exact ⟨insertKept_allowed h, fun _ ↦ by simp [keepsAccounts]⟩
  | read => trivial
  | take => trivial
  | purge =>
    intro s hs hpurge hheld
    have hs' := all_eq_true.mp h s hs
    simp [hpurge, hheld] at hs'
  | checkSeparation =>
    simp only [instanceKept, Bool.and_eq_true, Bool.or_eq_true, decide_eq_true_eq] at h
    intro older s newer hfind hdue
    have hrest := h.2.resolve_left (not_lt.mpr hdue)
    simp only [hfind, all_some, Bool.and_eq_true, Bool.not_eq_true', List.all_eq_true] at hrest
    have hexposed := exposable_allowed hsound hhistory h.1 older s newer hfind hdue
    refine ⟨fun hexpired ↦ ?_, fun hexpired ↦ ⟨fun x hx hheld ↦ ?_, fun hkeep hdepth ↦ ?_⟩⟩
    · simp [hrest.1] at hexpired
    · simp [hrest.2 x hx] at hheld
    · exact absurd rfl ((hexposed.2 hexpired).2 hkeep hdepth)
  | flushPending =>
    refine ⟨by simp [keepsAccounts], fun hne ↦ .inr fun s hs ↦ ?_⟩
    simp only [instanceKept, Bool.or_eq_true, List.isEmpty_iff, List.all_eq_true] at h
    simpa using h.resolve_left hne s hs
  | expire =>
    intro entry hentry htime s hs hid hheld
    simp only [instanceKept, hentry, all_some, Bool.or_eq_true, Bool.and_eq_true,
      decide_eq_true_eq, List.all_eq_true] at h
    have hs' := (h.resolve_left (not_lt.mpr htime)).2 s hs
    simp [hid, hheld] at hs'

lemma claimResource_groupWrite (qos : ReaderQos) (message : Message) (st : InstanceState) :
    (claimResource qos message .groupWrite st).1 = .inserted ∨
      (claimResource qos message .groupWrite st).1 = .instanceFull ∨
      (claimResource qos message .groupWrite st).1 = .maxSamples := by
  rw [claimResource]
  split_ifs <;> simp

end InstanceState

/-! ### The accounts of a reader -/

namespace DataReader

open InstanceState

variable {ι : Type} [DecidableEq ι]

/-- The counters of the reader are right, if others have claims on its instances. -/
structure Booked [Fintype ι] (claims : ι → ℤ) (r : DataReader ι) : Prop where
  sound : r.Sound
  history : ∀ i, ((r.state i).view 0).historySlack = 0
  resources : ∀ i, ((r.state i).view (claims i)).resourceSlack = 0
  reader : r.reader.resourceSampleCount = ∑ i, (r.inst i).resourceSampleCount

namespace Booked

variable [Fintype ι] {claims : ι → ℤ} {r : DataReader ι} {i : ι} {st : InstanceState} {left : ℤ}

section

variable (h : r.Booked claims)
include h

lemma update (hsound : (st.view 0).Sound)
    (hhistory : (st.view 0).historySlack = 0) (hresources : (st.view left).resourceSlack = 0)
    (hother : (st.view 0).otherCount = ((r.state i).view 0).otherCount) :
    (r.update i st).Booked (Function.update claims i left) where
  sound := h.sound.update hsound
  history j := by
    by_cases hj : j = i
    · subst hj
      rwa [state_update]
    · have hsame := inst_state_update r st hj
      have hj' := h.history j
      simp only [View.historySlack, view] at hj' ⊢
      rwa [hsame]
  resources j := by
    by_cases hj : j = i
    · subst hj
      rwa [state_update, update_self]
    · have hsame := inst_state_update r st hj
      have hj' := h.resources j
      simp only [View.resourceSlack, view] at hj' ⊢
      rwa [hsame, update_of_ne hj]
  reader := by
    have hsum := sum_update Instance.resourceSampleCount r.inst i st.inst
    have hold := h.reader
    simp only [View.otherCount, view, state] at hother
    simp only [DataReader.update]
    omega

lemma edits {qos : ReaderQos}
    (hedits : Edits qos keepsAccounts ((r.state i).view (claims i)) (st.view left)) :
    (r.update i st).Booked (Function.update claims i left) := by
  have hsound : ((r.state i).view (claims i)).Sound := ⟨(h.sound i).history, (h.sound i).pending⟩
  have hsound' := hedits.sound hsound
  refine h.update ⟨hsound'.history, hsound'.pending⟩ ?_ ?_ ?_
  · exact (hedits.historySlack hsound (by simp [keepsAccounts])).trans (h.history i)
  · exact (hedits.resourceSlack hsound (by simp [keepsAccounts]) (by simp [keepsAccounts])).trans
      (h.resources i)
  · have hother := hedits.otherCount hsound
    exact hother

lemma release (i : ι) : (r.release i).Booked (Function.update claims i (claims i - 1)) := by
  refine h.update ⟨(h.sound i).history, (h.sound i).pending⟩ (h.history i) ?_ ?_
  · have hold := h.resources i
    simp only [View.resourceSlack, view, releaseResource] at hold ⊢
    omega
  · simp only [View.otherCount, view, releaseResource]
    omega

lemma claimResource (qos : ReaderQos) (message : Message) (i : ι)
    (hclaim : (claimResource qos message .groupWrite (r.state i)).1 = .inserted) :
    (r.update i (claimResource qos message .groupWrite (r.state i)).2).Booked
      (Function.update claims i (claims i + if message.state.write then 1 else 0)) := by
  have hold := h.resources i
  rw [InstanceState.claimResource] at hclaim ⊢
  by_cases hwrite : message.state.write
  · have hboth : message.state.write ∧ groupWrite ≠ .transactionFlush := ⟨hwrite, by decide⟩
    split_ifs at hclaim ⊢
    refine h.update ⟨(h.sound i).history, (h.sound i).pending⟩ (h.history i) ?_ ?_
    · simp only [View.resourceSlack, view] at hold ⊢
      omega
    · simp only [View.otherCount, view]
      omega
  · have hboth : ¬(message.state.write ∧
        groupWrite ≠ .transactionFlush) := fun hboth ↦ hwrite hboth.1
    rw [if_neg hboth, if_neg hwrite, add_zero]
    exact h.update (h.sound i) (h.history i) hold rfl

end

omit [DecidableEq ι] in
lemma congr {claims' : ι → ℤ} (h : r.Booked claims) (heq : ∀ i, claims i = claims' i) :
    r.Booked claims' := by
  rwa [← funext heq]

end Booked

end DataReader

/-! ### Transactions -/

/-- A message that the element holds is of one of the kinds that writers write, and carries no data
if it cannot be lost. -/
def TransactionElement.Sound {ι : Type} (e : TransactionElement ι) : Prop :=
  ∀ i m, e.content = some (i, m) → (m.message.state.register = false → HasKind m.message) ∧
    (m.neverLost = true → m.message.state.write = false)

namespace TransactionElement

variable {ι : Type}

variable {e : TransactionElement ι}

lemma claims_eq_false [DecidableEq ι] (h : e.holdsData = false) (i : ι) : e.claims i = false := by
  rw [holdsData, Option.any_eq_false] at h
  rw [claims, Option.any_eq_false]
  intro content hcontent
  simp [h content hcontent]

lemma sound_of_none (h : e.content = none) : e.Sound := by
  intro i m hcontent
  simp [h] at hcontent

end TransactionElement

namespace Transaction

variable {ι : Type} [DecidableEq ι]
  {e : TransactionElement ι} {t : Transaction ι} {claims : ι → ℤ} {r : DataReader ι}

variable {inst : Option ι} {m : TransactionMessage}

omit [DecidableEq ι] in
lemma mem_setElement {index : ℕ} {x : TransactionElement ι}
    (h : x ∈ (t.setElement index e).elements) : x = e ∨ x ∈ t.elements ∨ x = .empty := by
  rcases mem_or_eq_of_mem_set h with hmem | rfl
  · rcases mem_append.mp hmem with hold | hpad
    · exact .inr (.inl hold)
    · exact .inr (.inr (eq_of_mem_replicate hpad))
  · exact .inl rfl

omit [DecidableEq ι] in
lemma countP_setElement {p : TransactionElement ι → Bool} (hp : p .empty = false)
    (t : Transaction ι) (index : ℕ) (e : TransactionElement ι) :
    ((t.setElement index e).elements.countP p : ℤ) =
      t.elements.countP p + (if p e then 1 else 0) - if p (t.element index) then 1 else 0 := by
  have hlength : index < (t.elements ++ replicate (index + 1 - t.elements.length)
      empty).length := by
    rw [length_append, length_replicate]
    omega
  have hget : (t.elements ++ replicate (index + 1 - t.elements.length)
      empty)[index] = t.element index := by
    rw [element, getD_eq_getElem?_getD]
    by_cases hindex : index < t.elements.length
    · rw [getElem_append_left hindex, getElem?_eq_getElem hindex, getD_some]
    · rw [getElem_append_right (not_lt.mp hindex), getElem_replicate,
        getElem?_eq_none (not_lt.mp hindex), getD_none]
  have hpad : (replicate (index + 1 - t.elements.length)
      (empty : TransactionElement ι)).countP p = 0 := by
    simp [countP_replicate, hp]
  have hpos : p (t.element index) → 0 < t.elements.countP p := fun h ↦ by
    have hmem := getElem_mem hlength
    rw [hget, mem_append] at hmem
    refine countP_pos_iff.mpr ⟨_, hmem.resolve_right fun hpad ↦ ?_, h⟩
    simp [eq_of_mem_replicate hpad, hp] at h
  rw [setElement, countP_set hlength, hget, countP_append, hpad]
  split_ifs with hold he <;> first | have := hpos hold; omega | omega

lemma claims_abortElement (h : e.Sound) (i : ι) : (abortElement e).claims i = false := by
  rw [abortElement]
  split
  · rename_i hnone
    simp [claims, hnone]
  · rename_i j m hsome
    split_ifs with hlost
    · simp [claims, hsome, (h j m hsome).2 hlost]
    · simp [claims]

omit [DecidableEq ι] in
lemma sound_abortElement (h : e.Sound) : (abortElement e).Sound := by
  rw [abortElement]
  split
  · rename_i hnone
    intro i m hsome
    simp [hnone] at hsome
  · split_ifs
    · exact h
    · intro i m hsome
      simp at hsome

variable [Fintype ι]

/-- The loop of `v_transactionAbort` releases what the elements have claimed. -/
lemma booked_releaseElements (elements : List (TransactionElement ι))
    (hsound : ∀ e ∈ elements, e.Sound)
    (h : r.Booked fun i ↦ claims i + elements.countP (·.claims i)) :
    (releaseElements elements r).Booked claims := by
  induction elements generalizing r with
  | nil => exact h.congr fun i ↦ by simp
  | cons e _ ih =>
    refine ih (fun x hx ↦ hsound x (mem_cons_of_mem e hx)) ?_
    split
    · rename_i hnone
      refine h.congr fun i ↦ ?_
      simp [TransactionElement.claims, hnone]
    · rename_i j m hsome
      split_ifs with hdata
      · simp only [Bool.and_eq_true, Bool.not_eq_true'] at hdata
        refine (h.release j).congr fun i ↦ ?_
        by_cases hi : i = j
        · subst hi
          simp [TransactionElement.claims, hsome, hdata.2]
          omega
        · have hne : ¬j = i := fun heq ↦ hi heq.symm
          simp [TransactionElement.claims, hsome, hi, hne]
      · have hwrite : m.message.state.write = false := by
          by_cases hlost : m.neverLost
          · exact (hsound e mem_cons_self j m hsome).2 hlost
          · simpa [hlost] using hdata
        refine h.congr fun i ↦ ?_
        simp [TransactionElement.claims, hsome, hwrite]

lemma booked_abort (hsound : ∀ e ∈ t.elements, e.Sound)
    (h : r.Booked fun i ↦ claims i + t.elements.countP (·.claims i)) :
    (t.abort r).2.Booked (fun i ↦ claims i + (t.abort r).1.elements.countP (·.claims i)) ∧
      ∀ e ∈ (t.abort r).1.elements, e.Sound := by
  rw [abort]
  split_ifs
  · exact ⟨h, hsound⟩
  · refine ⟨(booked_releaseElements t.elements hsound h).congr fun i ↦ ?_, fun e he ↦ ?_⟩
    · have hnone : (t.elements.map abortElement).countP (·.claims i) = 0 := by
        rw [countP_eq_zero]
        intro e he
        obtain ⟨x, hx, rfl⟩ := mem_map.mp he
        simp [claims_abortElement (hsound x hx) i]
      simp [hnone]
    · obtain ⟨x, hx, rfl⟩ := mem_map.mp he
      exact sound_abortElement (hsound x hx)

variable (qos : ReaderQos) (abort : Bool)

/-- What the first part of `v_transactionInsertMessage` can do. -/
lemma claim_cases (inst : Option ι) (m : TransactionMessage) (abort : Bool) (t : Transaction ι)
    (r : DataReader ι) :
    ((inst = none ∨ m.neverLost) ∧ claim qos inst m abort t r = (.success, r)) ∨
    (∃ i st, inst = some i ∧ t.aborted = false ∧
      claimResource qos m.message .groupWrite (r.state i) = (.inserted, st) ∧
      claim qos inst m abort t r = (.success, r.update i st)) ∨
    ((claim qos inst m abort t r).1 ≠ .success ∧ (claim qos inst m abort t r).2 = r) := by
  unfold claim
  split
  case isTrue hnever =>
    rw [Bool.and_eq_true] at hnever
    exact .inl ⟨.inr hnever.1, rfl⟩
  split
  · exact .inr (.inr ⟨by simp, rfl⟩)
  rename_i haborted
  rw [Bool.or_eq_true, not_or, Bool.not_eq_true] at haborted
  cases inst with
  | none => exact .inl ⟨.inl rfl, rfl⟩
  | some i =>
    have hcases := claimResource_groupWrite qos m.message (r.state i)
    dsimp only
    rcases hclaim : claimResource qos m.message .groupWrite (r.state i) with ⟨res, st⟩
    rw [hclaim] at hcases
    rcases hcases with rfl | rfl | rfl
    · exact .inr (.inl ⟨i, st, rfl, haborted.1, hclaim, rfl⟩)
    · exact .inr (.inr ⟨by simp, rfl⟩)
    · refine .inr (.inr ⟨?_, rfl⟩)
      split_ifs <;> simp

lemma booked_claim (t : Transaction ι)
    (hlost : inst.isSome → m.neverLost → m.message.state.write = false)
    (h : r.Booked claims) :
    ((claim qos inst m abort t r).1 = .success ∧
      (claim qos inst m abort t r).2.Booked fun i ↦ claims i +
        if (⟨true, false, inst.map (·, m)⟩ : TransactionElement ι).claims i then 1 else 0) ∨
    ((claim qos inst m abort t r).1 ≠ .success ∧ (claim qos inst m abort t r).2.Booked claims) := by
  rcases claim_cases qos inst m abort t r with
    ⟨hfree, hclaim⟩ | ⟨i, st, rfl, -, hres, hclaim⟩ | ⟨hne, hr⟩
  · rw [hclaim]
    refine .inl ⟨rfl, h.congr fun i ↦ ?_⟩
    cases inst with
    | none => simp [TransactionElement.claims]
    | some => simp [TransactionElement.claims, hlost rfl (hfree.resolve_left (by simp))]
  · have hbooked := h.claimResource qos m.message i
    rw [hres] at hbooked
    rw [hclaim]
    refine .inl ⟨rfl, (hbooked rfl).congr fun j ↦ ?_⟩
    by_cases hj : j = i
    · subst hj
      simp [TransactionElement.claims]
    · have hne : ¬i = j := fun heq ↦ hj heq.symm
      simp [TransactionElement.claims, hj, hne]
  · exact .inr ⟨hne, by rwa [hr]⟩

/-- `v_transactionInsertMessage`, if the index of the message holds no data yet. -/
lemma booked_insertMessage
    (hm : inst.isSome → (m.message.state.register = false → HasKind m.message) ∧
      (m.neverLost → m.message.state.write = false))
    (hfree : (t.element (t.index m)).holdsData = false) (hsound : ∀ e ∈ t.elements, e.Sound)
    (h : r.Booked fun i ↦ claims i + t.elements.countP (·.claims i)) :
    (insertMessage qos inst m abort t r).2.2.Booked (fun i ↦ claims i +
        (insertMessage qos inst m abort t r).2.1.elements.countP (·.claims i)) ∧
      ∀ e ∈ (insertMessage qos inst m abort t r).2.1.elements, e.Sound := by
  have hclaim := booked_claim qos abort t (fun hi ↦ (hm hi).2) h
  rw [insertMessage]
  generalize claim qos inst m abort t r = out at hclaim ⊢
  obtain ⟨res, r'⟩ := out
  rcases hclaim with ⟨rfl, hbooked⟩ | ⟨hne, hbooked⟩
  · refine ⟨hbooked.congr fun i ↦ ?_, fun e he ↦ ?_⟩
    · dsimp only
      rw [countP_setElement (p := (·.claims i)) rfl, claims_eq_false hfree i,
        if_neg Bool.false_ne_true, sub_zero, add_assoc]
    · rcases mem_setElement he with rfl | hmem | rfl
      · intro i m' hcontent
        obtain ⟨j, hj, heq⟩ := map_eq_some_iff.mp hcontent
        obtain ⟨-, rfl⟩ := Prod.mk.inj heq
        exact hm (by simp [hj])
      · exact hsound e hmem
      · exact sound_of_none rfl
  · cases res with
    | success => exact absurd rfl hne
    | rejected => exact ⟨hbooked, hsound⟩
    | successNotStored => exact booked_abort (t := { t with count := t.count + 1 }) hsound hbooked

end Transaction

/-! ### Readers with transactions -/

namespace CoherentReader

open InstanceState

variable {ι : Type} [DecidableEq ι] {r : CoherentReader ι}

omit [DecidableEq ι] in
def openElements (r : CoherentReader ι) : List (TransactionElement ι) :=
  r.transactions.flatMap Transaction.elements ++ r.flushing

def claims (r : CoherentReader ι) (i : ι) : ℤ := r.openElements.countP (·.claims i)

/-- The number of the samples with data that an instance holds, with those of the open
transactions. -/
def held (r : CoherentReader ι) (i : ι) : ℤ :=
  (r.data.inst i).history.countP Sample.isWrite + (r.data.inst i).pending.countP Sample.isWrite +
    r.claims i

def resourcesKept (qos : ReaderQos) : CoherentOp ι → CoherentReader ι → Bool
  | .plain i op, r => instanceKept qos op (r.data.state i)
  | .insert _ m, r | .insertFiltered m _, r | .writeEOT m, r =>
    let t := (r.lookup m.message.writerGID m.transactionId).1
    !(t.element (t.index m)).holdsData
  | .abort _ _, _ => true
  | .complete writerGID transactionId, r =>
    ((r.lookup writerGID transactionId).1.elements.dropWhile fun e ↦ !e.endOfTransaction).all
      fun e ↦ !e.holdsData
  | .flushElement _, r =>
    (r.flushing.head?.bind TransactionElement.content).all fun (i, m) ↦
      insertKept qos m.message .transactionFlush (r.data.state i) &&
        (!m.message.state.write || (!r.data.reader.prepareDelete &&
          ((testOwnership m.message .transactionFlush (r.data.inst i)).1 ≠ .incompatibleQos &&
            (testOwnership m.message .transactionFlush (r.data.inst i)).1 ≠ .notOwner)))

/-- The accounts of a reader with transactions. -/
structure Accounted [Fintype ι] (r : CoherentReader ι) : Prop where
  booked : r.data.Booked r.claims
  elements : ∀ e ∈ r.openElements, e.Sound

omit [DecidableEq ι] in
lemma perm_lookup (writerGID : Gid) (transactionId : ℕ) (r : CoherentReader ι) :
    ((r.lookup writerGID transactionId).1.elements ++
      (r.lookup writerGID transactionId).2.flatMap elements).Perm
        (r.transactions.flatMap elements) := by
  rw [lookup]
  generalize (fun t : Transaction ι ↦
    decide (t.writerGID = writerGID) && decide (t.transactionId = transactionId)) = same
  split
  · rename_i t hfind
    obtain ⟨hsame, before, behind, happend, hother⟩ := find?_eq_some_iff_append.mp hfind
    rw [happend, eraseP_append_right _ (by simpa using hother), eraseP_cons_of_pos hsame]
    exact perm_middle.symm.flatMap_right elements
  · exact .refl _

variable [Fintype ι]

namespace Accounted

variable {r : CoherentReader ι} {m : TransactionMessage}

variable {flushing : List (TransactionElement ι)}

def others (transactions : List (Transaction ι)) (flushing : List (TransactionElement ι)) (i : ι) :
    ℤ :=
  (transactions.flatMap Transaction.elements ++ flushing).countP (·.claims i)

lemma put {r : DataReader ι} {t : Transaction ι} {transactions : List (Transaction ι)}
    (hbooked : r.Booked fun i ↦ others transactions flushing i + t.elements.countP (·.claims i))
    (ht : ∀ e ∈ t.elements, e.Sound)
    (hothers : ∀ e ∈ transactions.flatMap Transaction.elements ++ flushing, e.Sound) :
    Accounted ⟨r, t :: transactions, flushing⟩ := by
  refine ⟨hbooked.congr fun i ↦ ?_, fun e he ↦ ?_⟩
  · rw [claims, openElements, flatMap_cons, append_assoc, countP_append, others]
    push_cast
    omega
  · rw [openElements, flatMap_cons, append_assoc] at he
    exact (mem_append.mp he).elim (ht e) (hothers e)

lemma edits {r : CoherentReader ι} (h : r.Accounted) {qos : ReaderQos} {i : ι} {st : InstanceState}
    (hedits : Edits qos keepsAccounts ((r.data.state i).view (r.claims i)) (st.view (r.claims i))) :
    Accounted { r with data := r.data.update i st } := by
  refine ⟨(h.booked.edits hedits).congr fun j ↦ ?_, h.elements⟩
  rw [update_eq_self]
  rfl

section

variable (h : r.Accounted)
include h

/-- The accounts, as the transaction that has been looked up sees them. -/
lemma lookup (writerGID : Gid) (transactionId : ℕ) :
    r.data.Booked (fun i ↦ others (r.lookup writerGID transactionId).2 r.flushing i +
      (r.lookup writerGID transactionId).1.elements.countP (·.claims i)) ∧
    (∀ e ∈ (r.lookup writerGID transactionId).1.elements, e.Sound) ∧
    ∀ e ∈ (r.lookup writerGID transactionId).2.flatMap Transaction.elements ++ r.flushing,
      e.Sound := by
  have hperm := (perm_lookup writerGID transactionId r).append_right r.flushing
  rw [append_assoc] at hperm
  refine ⟨h.booked.congr fun i ↦ ?_, fun e he ↦ ?_, fun e he ↦ ?_⟩
  · rw [claims, openElements, ← hperm.countP_eq, countP_append, others]
    omega
  · exact h.elements e (hperm.subset (mem_append_left _ he))
  · exact h.elements e (hperm.subset (mem_append_right _ he))

lemma adminInsert (qos : ReaderQos) {inst : Option ι} (abort : Bool)
    (hm : inst.isSome → (m.message.state.register = false → HasKind m.message) ∧
      (m.neverLost → m.message.state.write = false))
    (hfree : ((r.lookup m.message.writerGID m.transactionId).1.element
      ((r.lookup m.message.writerGID m.transactionId).1.index m)).holdsData = false) :
    (r.adminInsert qos inst m abort).Accounted := by
  obtain ⟨hbooked, ht, hothers⟩ := h.lookup m.message.writerGID m.transactionId
  obtain ⟨hbooked', ht'⟩ := booked_insertMessage qos abort hm hfree ht hbooked
  exact put hbooked' ht' hothers

lemma storeMessageEOT (hfree : ((r.lookup m.message.writerGID m.transactionId).1.element
      ((r.lookup m.message.writerGID m.transactionId).1.index m)).holdsData = false) :
    Accounted { r with transactions :=
      (r.lookup m.message.writerGID m.transactionId).1.storeMessageEOT m ::
        (r.lookup m.message.writerGID m.transactionId).2 } := by
  obtain ⟨hbooked, ht, hothers⟩ := h.lookup m.message.writerGID m.transactionId
  generalize r.lookup m.message.writerGID m.transactionId = found at *
  rw [Transaction.storeMessageEOT]
  split
  · refine put (hbooked.congr fun i ↦ ?_) (fun e he ↦ ?_) hothers
    · simp only [countP_setElement (p := (·.claims i)) rfl,
        TransactionElement.claims_eq_false hfree i, if_neg Bool.false_ne_true, sub_zero]
      simp [TransactionElement.claims]
    · rcases mem_setElement he with rfl | hmem | rfl
      · exact TransactionElement.sound_of_none rfl
      · exact ht e hmem
      · exact TransactionElement.sound_of_none rfl
  · exact put hbooked ht hothers

/-- A transaction is taken out to be flushed, if no data is behind its end. -/
lemma complete {writerGID : Gid} {transactionId : ℕ}
    (hrest : ∀ e ∈ (r.lookup writerGID transactionId).1.elements.dropWhile
      (fun e ↦ !e.endOfTransaction), e.holdsData = false) :
    Accounted { r with
      transactions := (r.lookup writerGID transactionId).2
      flushing := r.flushing ++ (r.lookup writerGID transactionId).1.elements.takeWhile
        fun e ↦ !e.endOfTransaction } := by
  obtain ⟨hbooked, ht, hothers⟩ := h.lookup writerGID transactionId
  generalize r.lookup writerGID transactionId = found at *
  refine ⟨hbooked.congr fun i ↦ ?_, fun e he ↦ ?_⟩
  · have hsplit : found.1.elements.countP (·.claims i) =
        (found.1.elements.takeWhile fun e ↦ !e.endOfTransaction).countP (·.claims i) := by
      conv_lhs => rw [← takeWhile_append_dropWhile (p := fun e ↦ !e.endOfTransaction)
        (l := found.1.elements)]
      rw [countP_append, Nat.add_eq_left, countP_eq_zero]
      intro e he
      simp [claims_eq_false (hrest e he) i]
    rw [hsplit, claims, openElements, others]
    simp
    omega
  · rw [openElements, ← append_assoc] at he
    rcases mem_append.mp he with hold | hnew
    · exact hothers e hold
    · exact ht e (takeWhile_subset _ hnew)

lemma flushElement {qos : ReaderQos} {clock : Clock} {e : TransactionElement ι}
    (hflushing : r.flushing = e :: flushing) {i : ι} (hcontent : e.content = some (i, m))
    (hkept : insertKept qos m.message .transactionFlush (r.data.state i))
    (hsettled : m.message.state.write → r.data.reader.prepareDelete = false ∧
      (testOwnership m.message .transactionFlush (r.data.inst i)).1 ≠ .incompatibleQos ∧
      (testOwnership m.message .transactionFlush (r.data.inst i)).1 ≠ .notOwner) :
    Accounted { r with
      data := r.data.update i
        (instanceInsert qos clock m.message .transactionFlush (r.data.state i)).2
      flushing := flushing } := by
  have he : e ∈ r.openElements := by simp [openElements, hflushing]
  obtain ⟨hkind, hlost⟩ := h.elements e he i m hcontent
  have hedits : Edits qos keepsAccounts ((r.data.state i).view (r.claims i))
      ((instanceInsert qos clock m.message .transactionFlush (r.data.state i)).2.view
        (claimsLeft m.message .transactionFlush (r.claims i))) := by
    rcases Edits.instanceInsert qos keepsAccounts (r.claims i) hkind
        (insertKept_allowed hkept) (fun _ ↦ by simp [keepsAccounts]) with
      hleft | ⟨hsame, hunsettled⟩
    · exact hleft
    · by_cases hwrite : m.message.state.write
      · have hnot : m.neverLost = false := by
          by_contra hnever
          simp [hlost (by simpa using hnever)] at hwrite
        simp only [TransactionMessage.neverLost, Bool.or_eq_false_iff] at hnot
        obtain ⟨hdelete, hcompatible, howner⟩ := hsettled hwrite
        exact absurd ⟨hnot.1.1, hnot.1.2, hdelete, hcompatible, howner⟩ hunsettled
      · rwa [claimsLeft, if_neg fun hboth ↦ hwrite hboth.1]
  refine ⟨(h.booked.edits hedits).congr fun j ↦ ?_, fun x hx ↦ h.elements x ?_⟩
  · have hcount (j : ι) : r.claims j =
        (r.transactions.flatMap Transaction.elements ++ flushing).countP (·.claims j) +
          if e.claims j then 1 else 0 := by
      rw [claims, openElements, hflushing, countP_append, countP_cons, countP_append]
      split_ifs <;> push_cast <;> omega
    have hclaims (j : ι) : e.claims j = (decide (i = j) && m.message.state.write) := by
      simp [TransactionElement.claims, hcontent]
    change _ = ((r.transactions.flatMap Transaction.elements ++ flushing).countP (·.claims j) : ℤ)
    by_cases hj : j = i
    · subst hj
      rw [update_self, claimsLeft, hcount, hclaims]
      by_cases hwrite : m.message.state.write = true <;> simp [hwrite]
    · have hne : ¬i = j := fun heq ↦ hj heq.symm
      rw [update_of_ne hj, hcount, hclaims]
      simp [hne]
  · rw [openElements, hflushing]
    rcases mem_append.mp hx with hold | hnew
    · exact mem_append_left _ hold
    · exact mem_append_right _ (mem_cons_of_mem e hnew)

end

/-- Every operation that keeps the resources keeps the accounts. -/
lemma step {r r' : CoherentReader ι} (h : r.Accounted) {qos : ReaderQos} {op : CoherentOp ι}
    (hwf : WellFormed op) (hkept : resourcesKept qos op r)
    (happly : apply qos op r = some r') : r'.Accounted := by
  cases op with
  | plain i op =>
    obtain ⟨st, hst, rfl⟩ := map_eq_some_iff.mp happly
    have hallowed := instanceKept_allowed (h.booked.sound i) (h.booked.history i) hkept
    have hsound : ((r.data.state i).view (r.claims i)).Sound :=
      ⟨(h.booked.sound i).history, (h.booked.sound i).pending⟩
    have hop : op.WellFormed := by
      cases op <;> first | exact hwf.1 | trivial
    obtain ⟨left, hedits, hleft⟩ := hallowed.edits (r.claims i) hop hsound hst
    have hsame : left = r.claims i := by
      cases op with
      | insert =>
        rcases hleft with rfl | rfl
        · rfl
        · exact if_neg fun hboth ↦ hwf.2 hboth.2
      | _ => exact hleft
    rw [hsame] at hedits
    exact h.edits hedits
  | insert i m =>
    obtain rfl := some_inj.mp happly
    have hedits : Edits qos keepsAccounts ((r.data.state i).view (r.claims i))
        ((prepareInsert qos m.message .groupWrite (r.data.state i)).2.view (r.claims i)) :=
      Edits.prepareInsert qos keepsAccounts (r.claims i) fun _ ↦ by simp [keepsAccounts]
    refine (h.edits hedits).adminInsert qos false (fun _ ↦ hwf) ?_
    have hfree := (Bool.not_eq_true' _).mp hkept
    exact hfree
  | insertFiltered _ abort =>
    obtain rfl := some_inj.mp happly
    exact h.adminInsert qos abort (by simp) (by simpa [resourcesKept] using hkept)
  | writeEOT =>
    obtain rfl := some_inj.mp happly
    exact h.storeMessageEOT (by simpa [resourcesKept] using hkept)
  | abort writerGID transactionId =>
    obtain rfl := some_inj.mp happly
    obtain ⟨hbooked, ht, hothers⟩ := h.lookup writerGID transactionId
    obtain ⟨hbooked', ht'⟩ := booked_abort ht hbooked
    exact put hbooked' ht' hothers
  | complete =>
    obtain rfl := some_inj.mp happly
    refine h.complete fun e he ↦ ?_
    simpa using all_eq_true.mp hkept e he
  | flushElement =>
    simp only [apply] at happly
    split at happly
    · simp at happly
    rename_i e flushing hflushing
    split at happly
    · rename_i hnone
      obtain rfl := some_inj.mp happly
      refine ⟨h.booked.congr fun i ↦ ?_, fun x hx ↦ h.elements x ?_⟩
      · simp [claims, openElements, hflushing, countP_append, TransactionElement.claims, hnone]
      · simp only [openElements, hflushing, mem_append, mem_cons] at hx ⊢
        exact hx.imp_right Or.inr
    · rename_i i m hcontent
      obtain rfl := some_inj.mp happly
      simp only [resourcesKept, hflushing, head?_cons, bind_some, hcontent,
        all_some, Bool.and_eq_true, Bool.or_eq_true, Bool.not_eq_true', decide_eq_true_eq]
        at hkept
      refine h.flushElement hflushing hcontent hkept.1 fun hwrite ↦ ?_
      exact hkept.2.resolve_left (by simp [hwrite])

end Accounted

omit [DecidableEq ι] in
/-- A reader without samples and transactions. -/
structure Fresh (r : CoherentReader ι) : Prop where
  data : r.data.Fresh
  transactions : r.transactions = []
  flushing : r.flushing = []

lemma Fresh.accounted (h : r.Fresh) : r.Accounted := by
  have hnil : r.openElements = [] := by simp [openElements, h.transactions, h.flushing]
  refine ⟨⟨h.data.sound, fun i ↦ ?_, fun i ↦ ?_, ?_⟩, by simp [hnil]⟩
  · simp [View.historySlack, view, state, h.data.history i, h.data.historyCount i]
  · simp [View.resourceSlack, view, state, h.data.history i,
      h.data.pending i, h.data.instanceCount i, claims, hnil]
  · simp [h.data.resourceSampleCount, h.data.instanceCount]

lemma Reach.accounted {qos : ReaderQos} {r₀ : CoherentReader ι} (h₀ : r₀.Fresh)
    (h : Reach qos (resourcesKept qos · ·) r₀ r) : r.Accounted := by
  induction h with
  | refl => exact h₀.accounted
  | step _ _ hwf hP happly ih => exact ih.step hwf hP happly
  | other _ _ hview ih =>
    refine @Accounted.edits _ _ _ _ ih qos _ _ ?_
    rw [hview]

lemma Accounted.held_eq (h : r.Accounted) (i : ι) :
    (r.data.inst i).resourceSampleCount = r.held i := by
  have hmap (l : List Sample) :
      (l.map core).countP isWrite = l.countP isWrite := countP_map ..
  have hslack := h.booked.resources i
  simp only [View.resourceSlack, view, state, hmap] at hslack
  rw [held]
  omega

def init (exclusive : Bool) : CoherentReader ι := ⟨.init exclusive, [], []⟩

omit [DecidableEq ι] [Fintype ι] in
lemma fresh_init (exclusive : Bool) : (init exclusive : CoherentReader ι).Fresh :=
  ⟨DataReader.fresh_init exclusive, rfl, rfl⟩

def coherentWrite (writeTime : ℕ) (allocTime : ℤ) : TransactionMessage :=
  ⟨⟨writeTime, ⟨true, false, false, false, false, false⟩, allocTime, writeTime, ⟨1, 1, 1⟩,
    writeTime, none⟩, false, true, writeTime⟩

def coherentRun : List (CoherentOp Unit) :=
  [.plain () (DataReader.arrival true 1 100).2, .insert () (coherentWrite 20 200),
    .writeEOT { coherentWrite 20 200 with message :=
      { (coherentWrite 20 200).message with sequenceNumber := 21 } },
    .complete ⟨1, 1, 1⟩ 20, .flushElement ⟨0, 0⟩]

end CoherentReader

end OpenSplice.Kernel
