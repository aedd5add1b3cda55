import OpenSplice.Kernel.Reader.Insertion

/-!
# What the functions do to an instance

The functions of `v_dataReaderInstance.c` change the samples of an instance and their counters in
few ways. A `View` is the part of the state concerned, and an `Edit` one such change. The invariants
of the counters, of the bookmark and of the lifespan administration are proved once for each edit,
and that it is a series of edits once for each function.

Some edits have an effect that a result has to do without, most often because the code has it by
mistake. The parameter `ok` says which of these are allowed.
-/

set_option autoImplicit false

namespace OpenSplice.Kernel

open List

variable {qos : ReaderQos}

variable {older newer : List Sample}

def Sample.core (sample : Sample) : Sample :=
  { sample with readId := 0, disposeCount := 0, noWritersCount := 0 }

/-- The samples of an instance with the counters of the instance and its reader. The claims of the
open transactions on the instance are not part of its state. -/
structure View where
  history : List Sample
  pending : List Sample
  notReadCount : ℤ
  readerCount : ℤ
  instanceCount : ℤ
  historyCount : ℤ
  lastConsumed : Bookmark
  admin : List LifespanEntry
  nextId : ℕ
  claims : ℤ

def InstanceState.view (claims : ℤ) (st : InstanceState) : View where
  history := st.inst.history.map Sample.core
  pending := st.inst.pending.map Sample.core
  notReadCount := st.reader.notReadCount
  readerCount := st.reader.resourceSampleCount
  instanceCount := st.inst.resourceSampleCount
  historyCount := st.inst.historySampleCount
  lastConsumed := st.inst.lastConsumed
  admin := st.reader.lifespanAdmin
  nextId := st.reader.nextId
  claims := claims

namespace View

def remove (older : List Sample) (s : Sample) (newer : List Sample) (v : View) : View :=
  let counted := s.validData && !s.inMinSepTime
  { v with
    history := older ++ newer
    notReadCount := v.notReadCount - if s.accessed then 0 else 1
    readerCount := v.readerCount - if counted then 1 else 0
    instanceCount := v.instanceCount - if s.validData then 1 else 0
    historyCount := v.historyCount - if counted then 1 else 0
    lastConsumed := InstanceState.consume s.message v.lastConsumed
    admin := lifespanRemove s.id v.admin }

def pushOut (rest : List Sample) : List Sample → View → View
  | [], v => v
  | s :: pushed, v => pushOut rest pushed (v.remove [] s (pushed ++ rest))

def release (v : View) : View :=
  { v with readerCount := v.readerCount - 1, instanceCount := v.instanceCount - 1 }

def claim (message : Message) (context : MessageContext) (v : View) : View :=
  if message.state.write then
    if context = .transactionFlush then { v with claims := v.claims - 1 }
    else { v with readerCount := v.readerCount + 1, instanceCount := v.instanceCount + 1 }
  else v

def drop (s : Sample) (rest : List Sample) (v : View) : View :=
  if s.message.state.write then release { v with pending := rest } else { v with pending := rest }

def fresh (message : Message) (expiry : Option ℤ) (v : View) : Sample where
  id := v.nextId
  message := message
  validData := false
  read := false
  lazyRead := false
  inMinSepTime := false
  readId := 0
  disposeCount := 0
  noWritersCount := 0
  expiryTime := expiry

def create (expiry : Option ℤ) (v : View) : View :=
  { v with
    admin :=
      match expiry with
      | some time => lifespanInsert ⟨time, v.nextId⟩ v.admin
      | none => v.admin
    nextId := v.nextId + 1 }

def link (older : List Sample) (s : Sample) (read : Bool) (newer : List Sample) (v : View) : View :=
  { v with
    history := older ++ { s with
      validData := s.validData || s.message.state.write
      read := s.read || read
      inMinSepTime := false } :: newer
    notReadCount := v.notReadCount + if read then 0 else 1
    historyCount := v.historyCount + if s.message.state.write then 1 else 0 }

def hold (older : List Sample) (s : Sample) (newer : List Sample) (v : View) : View :=
  { v with history := older ++ { s with inMinSepTime := true } :: newer }

def mark (older : List Sample) (s : Sample) (read lazyRead : Bool) (newer : List Sample)
    (v : View) : View :=
  let s' := { s with read := read, lazyRead := lazyRead }
  { v with
    history := older ++ s' :: newer
    notReadCount :=
      v.notReadCount + (if s.accessed then 1 else 0) - if s'.accessed then 1 else 0 }

section Fields

variable (message : Message) (context : MessageContext) (rest pushed : List Sample) (s : Sample)
variable (v : View)

lemma pushOut_history (hist : v.history = pushed ++ rest) :
    (v.pushOut rest pushed).history = rest := by
  induction pushed generalizing v with
  | nil => exact hist
  | cons _ _ ih => exact ih _ rfl

@[simp]
lemma pushOut_pending : (v.pushOut rest pushed).pending = v.pending := by
  induction pushed generalizing v with
  | nil => rfl
  | cons _ _ ih => exact ih _

@[simp]
lemma pushOut_nextId : (v.pushOut rest pushed).nextId = v.nextId := by
  induction pushed generalizing v with
  | nil => rfl
  | cons _ _ ih => exact ih _

@[simp]
lemma pushOut_claims : (v.pushOut rest pushed).claims = v.claims := by
  induction pushed generalizing v with
  | nil => rfl
  | cons _ _ ih => exact ih _

lemma claim_eq : v.claim message context = { v with
    readerCount := (v.claim message context).readerCount
    instanceCount := (v.claim message context).instanceCount
    claims := (v.claim message context).claims } := by
  rw [claim]
  split_ifs <;> rfl

@[simp]
lemma claim_nextId : (v.claim message context).nextId = v.nextId := by
  rw [claim_eq]

@[simp]
lemma claim_history : (v.claim message context).history = v.history := by
  rw [claim_eq]

@[simp]
lemma claim_pending : (v.claim message context).pending = v.pending := by
  rw [claim_eq]

@[simp]
lemma claim_notReadCount : (v.claim message context).notReadCount = v.notReadCount := by
  rw [claim_eq]

@[simp]
lemma claim_historyCount : (v.claim message context).historyCount = v.historyCount := by
  rw [claim_eq]

@[simp]
lemma claim_lastConsumed : (v.claim message context).lastConsumed = v.lastConsumed := by
  rw [claim_eq]

@[simp]
lemma claim_admin : (v.claim message context).admin = v.admin := by
  rw [claim_eq]

/-- A pending sample is freed, which changes the counters of resources. -/
lemma drop_eq : v.drop s rest = { v with
    pending := rest
    readerCount := (v.drop s rest).readerCount
    instanceCount := (v.drop s rest).instanceCount } := by
  rw [drop]
  split_ifs <;> rfl

end Fields

end View

/-! ### Edits -/

inductive Effect
  /-- a sample that is held back is removed without its resource being released -/
  | removesHeldBack
  /-- the sample to be made available is pushed out itself -/
  | vanishes
  /-- pending data is pushed out, without a trace in the bookmark -/
  | losesPending
  /-- the bookmark is reset -/
  | resetsBookmark
  /-- a sample that is replaced stays in the lifespan administration -/
  | forgetsLifespan
  /-- a pending sample is in the lifespan administration -/
  | pendsLifespan
  /-- a sample is held back -/
  | holds
  /-- a sample becomes pending -/
  | pends
  /-- a pending sample is pushed out -/
  | dropsPending
  /-- the oldest pending sample leaves to become available -/
  | flushes
  /-- a sample is created for a message -/
  | admits (message : Message)
deriving DecidableEq

def HasKind (message : Message) : Prop :=
  message.state.write = true ∨ message.state.disposed = true ∨ message.state.unregister = true

/-- The place between the older and the newer samples is the one of the message. -/
structure Admissible (qos : ReaderQos) (message : Message) (lastConsumed : Bookmark)
    (older newer : List Sample) : Prop where
  fresh : qos.bySourceTime = true → compareMessageToBookmark message lastConsumed = .gt
  older : qos.bySourceTime = true →
    ∀ s, older.getLast? = some s → messageCompare message s.message = .gt
  newer : qos.bySourceTime = true → ∀ s ∈ newer, messageCompare message s.message = .lt

inductive Edit (qos : ReaderQos) (ok : Effect → Prop) : View → View → Prop
  /-- a sample is taken, purged, pushed out or expires -/
  | remove {v : View} (older : List Sample) (s : Sample) (newer : List Sample)
      (hist : v.history = older ++ s :: newer)
      (hok : s.inMinSepTime = true → ok .removesHeldBack) :
      Edit qos ok v (v.remove older s newer)
  /-- a sample is read -/
  | mark {v : View} (older : List Sample) (s : Sample) (read lazyRead : Bool) (newer : List Sample)
      (hist : v.history = older ++ s :: newer) (hheld : s.inMinSepTime = false) :
      Edit qos ok v (v.mark older s read lazyRead newer)
  /-- a sample that is held back is replaced -/
  | replace {v : View} (older : List Sample) (s : Sample) (newer : List Sample)
      (hist : v.history = older ++ s :: newer) (hheld : s.inMinSepTime = true)
      (hok : s.expiryTime ≠ none → ok .forgetsLifespan) :
      Edit qos ok v (View.release { v with history := older ++ newer })
  /-- a sample becomes available for a message, and others are pushed out -/
  | insert {v : View} (pushed older newer : List Sample) (message : Message)
      (context : MessageContext) (expiry : Option ℤ) (read : Bool) (hadmits : ok (.admits message))
      (hist : v.history = pushed ++ (older ++ newer))
      (hadm : Admissible qos message v.lastConsumed (pushed ++ older) newer)
      (hok : ∀ s ∈ pushed, s.inMinSepTime = true → ok .removesHeldBack) :
      Edit qos ok v
        ((((v.pushOut (older ++ newer) pushed).claim message context).create expiry).link older
          (v.fresh message expiry) read newer)
  /-- a sample is held back for a message -/
  | hold {v : View} (older newer : List Sample) (message : Message)
      (context : MessageContext) (expiry : Option ℤ) (hadmits : ok (.admits message))
      (hholds : ok .holds) (hist : v.history = older ++ newer)
      (hwrite : message.state.write = true)
      (hadm : Admissible qos message v.lastConsumed older newer) :
      Edit qos ok v
        (((v.claim message context).create expiry).hold older (v.fresh message expiry) newer)
  /-- a sample becomes pending -/
  | pend {v : View} (older newer : List Sample) (message : Message) (context : MessageContext)
      (expiry : Option ℤ) (hadmits : ok (.admits message)) (hkind : HasKind message)
      (hpends : ok .pends) (hist : v.pending = older ++ newer)
      (hok : expiry ≠ none → ok .pendsLifespan) :
      Edit qos ok v
        { (v.claim message context).create expiry with
          pending := older ++ v.fresh message expiry :: newer }
  /-- the oldest pending sample is pushed out, or rejected when it is to become available -/
  | drop {v : View} (s : Sample) (rest : List Sample) (hpend : v.pending = s :: rest)
      (hok : ok .flushes ∨ ok .dropsPending ∧ (s.message.state.write = true → ok .losesPending)) :
      Edit qos ok v (v.drop s rest)
  /-- the oldest pending sample becomes available, and others are pushed out -/
  | flush {v : View} (s : Sample) (rest pushed older newer : List Sample) (read : Bool)
      (hpend : v.pending = s :: rest) (hflush : ok .flushes)
      (hist : v.history = pushed ++ (older ++ newer))
      (hadm : Admissible qos s.message v.lastConsumed (pushed ++ older) newer)
      (hok : ∀ s ∈ pushed, s.inMinSepTime = true → ok .removesHeldBack) :
      Edit qos ok v
        ((View.pushOut (older ++ newer) pushed { v with pending := rest }).link older s read newer)
  /-- a sample that has been held back becomes available -/
  | expose {v : View} (pushed older : List Sample) (s : Sample) (newer : List Sample) (read : Bool)
      (hist : v.history = pushed ++ (older ++ s :: newer)) (hheld : s.inMinSepTime = true)
      (hok : ∀ s ∈ pushed, s.inMinSepTime = true → ok .removesHeldBack) :
      Edit qos ok v ((v.pushOut (older ++ s :: newer) pushed).link older s read newer)
  /-- a sample that is to become available is pushed out itself -/
  | vanish {v : View} (pushed rest : List Sample) (unread written : ℤ) (hwritten : 0 ≤ written)
      (hist : v.history = pushed ++ rest) (hok : ok .vanishes) :
      Edit qos ok v
        { v.pushOut rest pushed with
          notReadCount := (v.pushOut rest pushed).notReadCount + unread
          historyCount := (v.pushOut rest pushed).historyCount + written }
  /-- a message of a transaction has been rejected -/
  | reject {v : View} : Edit qos ok v { v.release with claims := v.claims - 1 }
  /-- the bookmark is reset when samples are replaced by a merge -/
  | reset {v : View} (hok : ok .resetsBookmark) :
      Edit qos ok v { v with lastConsumed := ⟨0, .nil, 0, false⟩ }

variable {ok : Effect → Prop}

variable {ok' : Effect → Prop} {v v' : View}

lemma Edit.mono (hok : ∀ e, ok e → ok' e) (h : Edit qos ok v v') : Edit qos ok' v v' := by
  cases h with
  | remove _ _ _ hist h => exact .remove _ _ _ hist fun hs ↦ hok _ (h hs)
  | mark _ _ _ _ _ hist h => exact .mark _ _ _ _ _ hist h
  | replace _ _ _ hist hheld h => exact .replace _ _ _ hist hheld fun hs ↦ hok _ (h hs)
  | insert _ _ _ _ _ _ _ hadmits hist hadm h =>
    exact .insert _ _ _ _ _ _ _ (hok _ hadmits) hist hadm fun s hs hheld ↦ hok _ (h s hs hheld)
  | hold _ _ _ _ _ hadmits hholds hist hwrite hadm =>
    exact .hold _ _ _ _ _ (hok _ hadmits) (hok _ hholds) hist hwrite hadm
  | pend _ _ _ _ _ hadmits hkind hpends hist h =>
    exact .pend _ _ _ _ _ (hok _ hadmits) hkind (hok _ hpends) hist fun he ↦ hok _ (h he)
  | drop _ _ hpend h =>
    exact .drop _ _ hpend (h.imp (hok _) fun h' ↦ ⟨hok _ h'.1, fun hs ↦ hok _ (h'.2 hs)⟩)
  | flush _ _ _ _ _ _ hpend hflush hist hadm h =>
    exact .flush _ _ _ _ _ _ hpend (hok _ hflush) hist hadm fun x hx hheld ↦ hok _ (h x hx hheld)
  | expose _ _ _ _ _ hist hheld h =>
    exact .expose _ _ _ _ _ hist hheld fun x hx hx' ↦ hok _ (h x hx hx')
  | vanish _ _ _ _ hwritten hist h => exact .vanish _ _ _ _ hwritten hist (hok _ h)
  | reject => exact .reject
  | reset h => exact .reset (hok _ h)

abbrev Edits (qos : ReaderQos) (ok : Effect → Prop) : View → View → Prop :=
  Relation.ReflTransGen (Edit qos ok)

lemma Edits.mono (hok : ∀ e, ok e → ok' e) (h : Edits qos ok v v') : Edits qos ok' v v' :=
  Relation.ReflTransGen.mono (fun _ _ ↦ Edit.mono hok) v v' h

lemma mem_insert (s : Sample) {x : Sample} (h : x ∈ older ++ newer) : x ∈ older ++ s :: newer := by
  rw [mem_append] at h ⊢
  exact h.imp_right (mem_cons_of_mem s)

lemma forall_mem_insert {s : Sample} {P : Sample → Prop} (h : ∀ x ∈ older ++ newer, P x)
    (hs : P s) : ∀ x ∈ older ++ s :: newer, P x := by
  obtain ⟨holder, hnewer⟩ := forall_mem_append.mp h
  exact forall_mem_append.mpr ⟨holder, forall_mem_cons.mpr ⟨hs, hnewer⟩⟩

/-- The effects of what is done to the other samples when one has been linked. -/
lemma Edits.quiet (hok : ∀ e, ok e → e = .removesHeldBack) (h : Edits qos ok v v') :
    v'.pending = v.pending ∧
      ((∀ s ∈ v.history, s.inMinSepTime = false) → ∀ s ∈ v'.history, s.inMinSepTime = false) := by
  induction h with
  | refl => exact ⟨rfl, id⟩
  | @tail v1 v2 _ hedit ih =>
    suffices hstep : v2.pending = v1.pending ∧ ((∀ s ∈ v1.history, s.inMinSepTime = false) →
        ∀ s ∈ v2.history, s.inMinSepTime = false) from
      ⟨hstep.1.trans ih.1, fun h ↦ hstep.2 (ih.2 h)⟩
    cases hedit with
    | mark _ _ _ _ _ hist hheld =>
      exact ⟨rfl, fun h ↦ forall_mem_insert (fun x hx ↦ h x (hist ▸ mem_insert _ hx)) hheld⟩
    | remove _ s _ hist
    | replace _ s _ hist => exact ⟨rfl, fun h x hx ↦ h x (hist ▸ mem_insert s hx)⟩
    | expose _ _ s _ _ hist hheld =>
      refine ⟨by simp [View.link], fun h ↦ absurd hheld ?_⟩
      simp [h s (by simp [hist])]
    | insert _ _ _ _ _ _ _ hadmits => exact absurd (hok _ hadmits) (by simp)
    | hold _ _ _ _ _ hadmits => exact absurd (hok _ hadmits) (by simp)
    | pend _ _ _ _ _ hadmits => exact absurd (hok _ hadmits) (by simp)
    | drop _ _ _ h => rcases h with h | ⟨h, -⟩ <;> exact absurd (hok _ h) (by simp)
    | flush _ _ _ _ _ _ _ hflush => exact absurd (hok _ hflush) (by simp)
    | vanish _ _ _ _ _ _ h => exact absurd (hok _ h) (by simp)
    | reject => exact ⟨rfl, id⟩
    | reset h => exact absurd (hok _ h) (by simp)

end OpenSplice.Kernel
