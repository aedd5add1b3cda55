import OpenSplice.Kernel.Reader.StepEdits

/-!
# The accounts of an instance

Three counters say how many samples there are: the not read count of the reader, the history count
of the instance, and the resource counts of both. The difference between a counter and the number of
samples it stands for is the same before and after every edit (`Edits.unreadSlack`,
`Edits.historySlack`, `Edits.resourceSlack`), unless the edit has one of the effects that the code
has by mistake. What this needs to know of a single sample is that it is `Sound`.
-/

set_option autoImplicit false

namespace OpenSplice.Kernel

open List View Sample

namespace Sample

def unread (s : Sample) : Bool := !s.accessed

def isWrite (s : Sample) : Bool := s.message.state.write

/-- The data of a sample is valid if it carries any and is not held back; only data that has not
been read is held back. -/
structure Sound (s : Sample) : Prop where
  valid : s.validData = (s.message.state.write && !s.inMinSepTime)
  write : s.inMinSepTime = true → s.message.state.write = true
  read : s.inMinSepTime = true → s.read = false
  lazyRead : s.inMinSepTime = true → s.lazyRead = false

/-- A pending sample has not been touched since it has been created. -/
structure Untouched (s : Sample) : Prop where
  kind : HasKind s.message
  valid : s.validData = false
  read : s.read = false
  lazyRead : s.lazyRead = false
  inMinSepTime : s.inMinSepTime = false

end Sample

namespace View

/-- The samples of the view are what they should be. -/
structure Sound (v : View) : Prop where
  history : ∀ s ∈ v.history, s.Sound
  pending : ∀ s ∈ v.pending, s.Untouched

def unreadSlack (v : View) : ℤ := v.notReadCount - v.history.countP Sample.unread

def historySlack (v : View) : ℤ := v.historyCount - v.history.countP Sample.validData

def resourceSlack (v : View) : ℤ :=
  v.instanceCount - v.history.countP Sample.isWrite - v.pending.countP Sample.isWrite - v.claims

def otherCount (v : View) : ℤ := v.readerCount - v.instanceCount

section Slack

variable {v : View} {pushed older newer rest : List Sample} {s : Sample} {read : Bool}
  (message : Message) (context : MessageContext)

lemma Sound.front (hv : v.Sound) (hist : v.history = pushed ++ rest) : ∀ s ∈ pushed, s.Sound :=
  fun s hs ↦ hv.history s (by simp [hist, hs])

/-! ### Removal -/

lemma countP_insert (p : Sample → Bool) (older : List Sample) (s : Sample) (newer : List Sample) :
    ((older ++ s :: newer).countP p : ℤ) = (older ++ newer).countP p + if p s then 1 else 0 := by
  rw [countP_append, countP_cons, countP_append]
  split_ifs <;> push_cast <;> omega

section

variable (hist : v.history = older ++ s :: newer)
include hist

lemma unreadSlack_remove : (v.remove older s newer).unreadSlack = v.unreadSlack := by
  have hbit : (if s.unread then (1 : ℤ) else 0) = if s.accessed then 0 else 1 := by
    cases h : s.accessed <;> simp [unread, h]
  simp only [unreadSlack, remove, hist, countP_insert, hbit]
  omega

lemma historySlack_remove (hs : s.Sound) :
    (v.remove older s newer).historySlack = v.historySlack := by
  have hbit : (s.validData && !s.inMinSepTime) = s.validData := by
    rw [hs.valid]
    cases s.inMinSepTime <;> simp
  simp only [historySlack, remove, hist, countP_insert, hbit]
  omega

lemma resourceSlack_remove (hs : s.Sound) (hheld : s.inMinSepTime = false) :
    (v.remove older s newer).resourceSlack = v.resourceSlack := by
  have hbit : s.validData = s.isWrite := by
    rw [hs.valid, hheld]
    exact Bool.and_true _
  simp only [resourceSlack, remove, hist, countP_insert, hbit]
  omega

lemma unreadSlack_cut (hheld : s.inMinSepTime) :
    ({ v with history := older ++ newer } : View).unreadSlack = v.unreadSlack := by
  have hbit : s.unread = false := by simp [unread, accessed, hheld]
  simp [unreadSlack, hist, hbit]

lemma historySlack_cut (hvalid : s.validData = false) :
    ({ v with history := older ++ newer } : View).historySlack = v.historySlack := by
  simp [historySlack, hist, hvalid]

lemma resourceSlack_cut (hwrite : s.isWrite) :
    ({ v with history := older ++ newer } : View).resourceSlack = v.resourceSlack + 1 := by
  simp [resourceSlack, hist, hwrite]
  omega

end

lemma otherCount_remove (hs : s.Sound) : (v.remove older s newer).otherCount = v.otherCount := by
  have hbit : (s.validData && !s.inMinSepTime) = s.validData := by
    rw [hs.valid]
    cases s.inMinSepTime <;> simp
  simp only [otherCount, remove, hbit]
  omega

section

variable (hist : v.history = pushed ++ rest)
include hist

lemma unreadSlack_pushOut : (v.pushOut rest pushed).unreadSlack = v.unreadSlack := by
  induction pushed generalizing v with
  | nil => rfl
  | cons _ _ ih => exact (ih rfl).trans (unreadSlack_remove hist)

lemma historySlack_pushOut (hs : ∀ s ∈ pushed, s.Sound) :
    (v.pushOut rest pushed).historySlack = v.historySlack := by
  induction pushed generalizing v with
  | nil => rfl
  | cons s _ ih =>
    exact (ih rfl fun x hx ↦ hs x (mem_cons_of_mem s hx)).trans
      (historySlack_remove hist (hs s mem_cons_self))

lemma resourceSlack_pushOut (hs : ∀ s ∈ pushed, s.Sound)
    (hheld : ∀ s ∈ pushed, s.inMinSepTime = false) :
    (v.pushOut rest pushed).resourceSlack = v.resourceSlack := by
  induction pushed generalizing v with
  | nil => rfl
  | cons s _ ih =>
    exact (ih rfl (fun x hx ↦ hs x (mem_cons_of_mem s hx))
      fun x hx ↦ hheld x (mem_cons_of_mem s hx)).trans
        (resourceSlack_remove hist (hs s mem_cons_self) (hheld s mem_cons_self))

end

lemma otherCount_pushOut (hs : ∀ s ∈ pushed, s.Sound) :
    (v.pushOut rest pushed).otherCount = v.otherCount := by
  induction pushed generalizing v with
  | nil => rfl
  | cons s _ ih =>
    exact (ih fun x hx ↦ hs x (mem_cons_of_mem s hx)).trans (otherCount_remove (hs s mem_cons_self))

section

variable (hist : v.history = older ++ newer)
include hist

lemma unreadSlack_link (hread : s.read = false) (hlazy : s.lazyRead = false) :
    (v.link older s read newer).unreadSlack = v.unreadSlack := by
  simp only [unreadSlack, link, hist, countP_insert]
  cases read with
  | false =>
    have hbit : ({ s with
        validData := s.validData || s.message.state.write
        read := s.read || false
        inMinSepTime := false } : Sample).unread := by
      simp [unread, accessed, hread, hlazy]
    rw [hbit]
    simp only [if_true, Bool.false_eq_true, if_false]
    omega
  | true => simp [unread, accessed]

lemma historySlack_link (hvalid : s.validData = false) :
    (v.link older s read newer).historySlack = v.historySlack := by
  simp only [historySlack, link, hist, countP_insert, hvalid, Bool.false_or]
  omega

lemma resourceSlack_link :
    (v.link older s read newer).resourceSlack = v.resourceSlack - if s.isWrite then 1 else 0 := by
  have hcount := countP_insert isWrite older ({ s with
    validData := s.validData || s.message.state.write
    read := s.read || read
    inMinSepTime := false }) newer
  have hbit : ({ s with
    validData := s.validData || s.message.state.write
    read := s.read || read
    inMinSepTime := false } : Sample).isWrite = s.isWrite := rfl
  rw [hbit] at hcount
  simp only [resourceSlack, link, hist]
  omega

end

section

variable (hist : v.history = older ++ s :: newer)
include hist

section

variable (hheld : s.inMinSepTime = true)
include hheld

lemma unreadSlack_expose (hs : s.Sound) :
    (v.link older s read newer).unreadSlack = v.unreadSlack := by
  have hlink : (({ v with history := older ++ newer } : View).link older s read newer).unreadSlack =
      _ := unreadSlack_link rfl (hs.read hheld) (hs.lazyRead hheld)
  exact hlink.trans (unreadSlack_cut hist hheld)

lemma historySlack_expose (hs : s.Sound) :
    (v.link older s read newer).historySlack = v.historySlack := by
  have hvalid : s.validData = false := by simp [hs.valid, hheld]
  have hlink :
      (({ v with history := older ++ newer } : View).link older s read newer).historySlack = _ :=
    historySlack_link rfl hvalid
  exact hlink.trans (historySlack_cut hist hvalid)

lemma resourceSlack_expose (hs : s.Sound) :
    (v.link older s read newer).resourceSlack = v.resourceSlack := by
  have hwrite : s.isWrite := hs.write hheld
  have hlink :
      (({ v with history := older ++ newer } : View).link older s read newer).resourceSlack = _ :=
    resourceSlack_link rfl
  rw [resourceSlack_cut hist hwrite, if_pos hwrite, Int.add_sub_cancel] at hlink
  exact hlink

end

end

/-! ### Resources -/

lemma resourceSlack_claim (v : View) :
    (v.claim message context).resourceSlack =
      v.resourceSlack + if message.state.write then 1 else 0 := by
  rw [claim]
  split_ifs
  · simp only [resourceSlack]
    omega
  · simp only [resourceSlack]
    omega
  · exact (Int.add_zero _).symm

lemma otherCount_claim (v : View) : (v.claim message context).otherCount = v.otherCount := by
  rw [claim]
  split_ifs
  · rfl
  · simp only [otherCount]
    omega
  · rfl

lemma resourceSlack_hold (hist : v.history = older ++ newer) :
    (v.hold older s newer).resourceSlack = v.resourceSlack - if s.isWrite then 1 else 0 := by
  have hcount := countP_insert isWrite older { s with inMinSepTime := true } newer
  have hbit : ({ s with inMinSepTime := true } : Sample).isWrite = s.isWrite := rfl
  rw [hbit] at hcount
  simp only [resourceSlack, hold, hist]
  omega

lemma resourceSlack_pend (hist : v.pending = older ++ newer) :
    ({ v with pending := older ++ s :: newer } : View).resourceSlack =
      v.resourceSlack - if s.isWrite then 1 else 0 := by
  have hcount := countP_insert isWrite older s newer
  simp only [resourceSlack, hist]
  omega

lemma resourceSlack_pop (hpend : v.pending = s :: rest) :
    ({ v with pending := rest } : View).resourceSlack =
      v.resourceSlack + if s.isWrite then 1 else 0 := by
  have hcount := countP_insert isWrite [] s rest
  simp only [nil_append] at hcount
  simp only [resourceSlack, hpend]
  omega

lemma resourceSlack_drop (hpend : v.pending = s :: rest) :
    (v.drop s rest).resourceSlack = v.resourceSlack := by
  have hpop := resourceSlack_pop hpend
  rw [drop]
  by_cases hw : s.message.state.write
  · rw [if_pos hw]
    rw [if_pos (show s.isWrite = true from hw)] at hpop
    simp only [resourceSlack, release] at hpop ⊢
    omega
  · rw [if_neg hw, hpop, if_neg (show ¬s.isWrite = true from hw), Int.add_zero]

end Slack

end View

lemma Sample.Sound.link {s : Sample} (hvalid : s.validData = false) (read : Bool) : ({ s with
      validData := s.validData || s.message.state.write
      read := s.read || read
      inMinSepTime := false } : Sample).Sound :=
  ⟨by simp [hvalid], by simp, by simp, by simp⟩

lemma View.Sound.edit {qos : ReaderQos} {ok : Effect → Prop} {v v' : View} (hv : v.Sound)
    (h : Edit qos ok v v') : v'.Sound := by
  cases h with
  | mark _ s _ _ _ hist hheld =>
    have hs := hv.history s (by simp [hist])
    exact ⟨forall_mem_insert (fun x hx ↦ hv.history x (hist ▸ mem_insert s hx))
      ⟨hs.valid, hs.write, by simp [hheld], by simp [hheld]⟩, hv.pending⟩
  | remove _ s _ hist
  | replace _ s _ hist => exact ⟨fun x hx ↦ hv.history x (hist ▸ mem_insert s hx), hv.pending⟩
  | insert _ _ _ _ _ _ read _ hist =>
    exact ⟨forall_mem_insert (fun x hx ↦ hv.history x (hist ▸ mem_append_right _ hx))
      (.link rfl read), by simpa [link, create] using hv.pending⟩
  | hold _ _ _ _ _ _ _ hist hwrite =>
    exact ⟨forall_mem_insert (fun x hx ↦ hv.history x (hist ▸ hx))
      ⟨by simp [fresh], fun _ ↦ hwrite, fun _ ↦ rfl, fun _ ↦ rfl⟩,
      by simpa [hold, create] using hv.pending⟩
  | pend _ _ _ _ _ _ hkind _ hist =>
    exact ⟨by simpa [create] using hv.history,
      forall_mem_insert (fun x hx ↦ hv.pending x (hist ▸ hx)) ⟨hkind, rfl, rfl, rfl, rfl⟩⟩
  | drop =>
    rw [drop_eq]
    exact ⟨hv.history, fun x hx ↦ hv.pending x (by simp_all)⟩
  | flush s _ _ _ _ read hpend _ hist =>
    refine ⟨forall_mem_insert (fun x hx ↦ hv.history x (hist ▸ mem_append_right _ hx))
      (.link (hv.pending s (by simp [hpend])).valid read), fun x hx ↦ ?_⟩
    simp only [link, pushOut_pending] at hx
    exact hv.pending x (by simp [hpend, hx])
  | expose _ _ s _ read hist hheld =>
    have hs := hv.history s (by simp [hist])
    exact ⟨forall_mem_insert (fun x hx ↦ hv.history x (hist ▸ mem_append_right _ (mem_insert s hx)))
      (.link (by simp [hs.valid, hheld]) read), by simpa [link] using hv.pending⟩
  | vanish pushed rest _ _ _ hist =>
    refine ⟨fun x hx ↦ ?_, by simpa using hv.pending⟩
    simp only [pushOut_history rest pushed v hist] at hx
    exact hv.history x (by simp [hist, hx])
  | reject | reset => exact ⟨hv.history, hv.pending⟩

/-! ### Edits keep the accounts -/

namespace Edit

variable {qos : ReaderQos} {ok : Effect → Prop} {v v' : View}

section

variable (hv : v.Sound)
include hv

lemma unreadSlack (hok : ¬ok .vanishes) (h : Edit qos ok v v') :
    v'.unreadSlack = v.unreadSlack := by
  cases h with
  | remove _ _ _ hist => exact View.unreadSlack_remove hist
  | mark _ _ _ _ _ hist =>
    have hbit : ∀ x : Sample,
        (if x.unread then (1 : ℤ) else 0) = 1 - if x.accessed then 1 else 0 := by
      intro x
      cases hx : x.accessed <;> simp [unread, hx]
    simp only [View.unreadSlack, View.mark, hist, View.countP_insert, hbit]
    omega
  | replace _ _ _ hist hheld => exact View.unreadSlack_cut hist hheld
  | insert _ _ _ _ _ _ _ _ hist =>
    rw [View.unreadSlack_link (by simp [View.create, View.pushOut_history _ _ _ hist]) rfl rfl]
    simp only [View.unreadSlack, View.create, View.claim_notReadCount, View.claim_history]
    exact View.unreadSlack_pushOut hist
  | hold _ _ _ _ _ _ _ hist =>
    simp only [View.unreadSlack, View.hold, View.create, View.claim_notReadCount, hist,
      View.countP_insert]
    simp [unread, accessed]
  | pend => simp [View.unreadSlack, View.create]
  | drop =>
    rw [View.drop_eq]
    rfl
  | flush s rest pushed older newer read hpend _ hist =>
    have hs := hv.pending s (by simp [hpend])
    have hist' : ({ v with pending := rest } : View).history = pushed ++ (older ++ newer) := hist
    exact (View.unreadSlack_link (View.pushOut_history _ _ _ hist') hs.read hs.lazyRead).trans
      (View.unreadSlack_pushOut hist')
  | expose _ _ s _ _ hist hheld =>
    have hs := hv.history s (by simp [hist])
    exact (View.unreadSlack_expose (View.pushOut_history _ _ _ hist) hheld hs).trans
      (View.unreadSlack_pushOut hist)
  | vanish _ _ _ _ _ _ h => exact absurd h hok
  | reject => rfl
  | reset => rfl

/-- The history count is right, or too large when a sample is pushed out that is to become
available. -/
lemma historySlack_cases (h : Edit qos ok v v') :
    v'.historySlack = v.historySlack ∨ ok .vanishes ∧ v.historySlack ≤ v'.historySlack := by
  cases h with
  | remove _ s _ hist => exact .inl (View.historySlack_remove hist (hv.history s (by simp [hist])))
  | mark _ _ _ _ _ hist =>
    left
    simp only [View.historySlack, View.mark, hist, View.countP_insert]
  | replace _ s _ hist hheld =>
    have hs := hv.history s (by simp [hist])
    exact .inl (View.historySlack_cut hist (by simp [hs.valid, hheld]))
  | insert _ _ _ _ _ _ _ _ hist =>
    left
    rw [View.historySlack_link (by simp [View.create, View.pushOut_history _ _ _ hist]) rfl]
    simp only [View.historySlack, View.create, View.claim_historyCount, View.claim_history]
    exact View.historySlack_pushOut hist (hv.front hist)
  | hold _ _ _ _ _ _ _ hist => simp [View.historySlack, View.hold, View.create, hist, View.fresh]
  | pend => simp [View.historySlack, View.create]
  | drop =>
    left
    rw [View.drop_eq]
    rfl
  | flush s rest pushed older newer _ hpend _ hist =>
    have hs := hv.pending s (by simp [hpend])
    have hist' : ({ v with pending := rest } : View).history = pushed ++ (older ++ newer) := hist
    exact .inl ((View.historySlack_link (View.pushOut_history _ _ _ hist') hs.valid).trans
      (View.historySlack_pushOut hist' (hv.front hist)))
  | expose _ _ s _ _ hist hheld =>
    have hs := hv.history s (by simp [hist])
    exact .inl ((View.historySlack_expose (View.pushOut_history _ _ _ hist) hheld hs).trans
      (View.historySlack_pushOut hist (hv.front hist)))
  | vanish _ _ _ _ _ hist h =>
    refine .inr ⟨h, ?_⟩
    have hpush := View.historySlack_pushOut hist (hv.front hist)
    simp only [View.historySlack] at hpush ⊢
    omega
  | reject => exact .inl rfl
  | reset => exact .inl rfl

lemma historySlack (hok : ¬ok .vanishes) (h : Edit qos ok v v') :
    v'.historySlack = v.historySlack :=
  (h.historySlack_cases hv).resolve_right fun hvanish ↦ hok hvanish.1

lemma historySlack_le (h : Edit qos ok v v') : v.historySlack ≤ v'.historySlack := by
  rcases h.historySlack_cases hv with heq | ⟨-, hle⟩
  · exact heq.ge
  · exact hle

lemma resourceSlack (hvanish : ¬ok .vanishes) (hheld : ¬ok .removesHeldBack)
    (h : Edit qos ok v v') : v'.resourceSlack = v.resourceSlack := by
  have hfree {s : Sample} (h : s.inMinSepTime → ok .removesHeldBack) : s.inMinSepTime = false := by
    by_contra hs
    exact hheld (h (by simpa using hs))
  cases h with
  | remove _ s _ hist h =>
    exact View.resourceSlack_remove hist (hv.history s (by simp [hist])) (hfree h)
  | mark _ _ _ _ _ hist =>
    simp only [View.resourceSlack, View.mark, hist, View.countP_insert]
    rfl
  | replace _ s _ hist hs =>
    have hcut := View.resourceSlack_cut hist ((hv.history s (by simp [hist])).write hs)
    simp only [View.resourceSlack, View.release] at hcut ⊢
    omega
  | insert _ _ _ message context _ _ _ hist _ h =>
    have hpush := View.resourceSlack_pushOut hist (hv.front hist)
      fun s hs ↦ hfree (h s hs)
    rw [View.resourceSlack_link (by simp [View.create, View.pushOut_history _ _ _ hist])]
    change (View.claim message context _).resourceSlack - (if message.state.write then 1 else 0) = _
    rw [View.resourceSlack_claim, Int.add_sub_cancel, hpush]
  | hold _ _ message context _ _ _ hist =>
    rw [View.resourceSlack_hold (by simp [View.create, hist])]
    change (View.claim message context v).resourceSlack - (if message.state.write then 1 else 0) = _
    rw [View.resourceSlack_claim, Int.add_sub_cancel]
  | pend older newer message context expiry _ _ _ hist =>
    have hpend := View.resourceSlack_pend (s := v.fresh message expiry)
      (show ((v.claim message context).create expiry).pending = older ++ newer by
        simp [View.create, hist])
    change _ = (View.claim message context v).resourceSlack -
      (if message.state.write then 1 else 0) at hpend
    rw [hpend, View.resourceSlack_claim, Int.add_sub_cancel]
  | drop _ _ hpend => exact View.resourceSlack_drop hpend
  | flush s rest pushed older newer _ hpend _ hist _ h =>
    have hist' : ({ v with pending := rest } : View).history = pushed ++ (older ++ newer) := hist
    have hpush := View.resourceSlack_pushOut hist' (hv.front hist)
      fun s hs ↦ hfree (h s hs)
    rw [View.resourceSlack_link (View.pushOut_history _ _ _ hist'), hpush,
      View.resourceSlack_pop hpend, Int.add_sub_cancel]
  | expose _ _ s _ _ hist hs h =>
    exact (View.resourceSlack_expose (View.pushOut_history _ _ _ hist) hs
      (hv.history s (by simp [hist]))).trans (View.resourceSlack_pushOut hist (hv.front hist)
          fun s hs ↦ hfree (h s hs))
  | vanish _ _ _ _ _ _ h => exact absurd h hvanish
  | reject =>
    simp only [View.resourceSlack, View.release]
    omega
  | reset => rfl

/-- What the reader has claimed for its other instances is not touched. -/
lemma otherCount (h : Edit qos ok v v') : v'.otherCount = v.otherCount := by
  cases h with
  | remove _ s _ hist => exact otherCount_remove (hv.history s (by simp [hist]))
  | mark => rfl
  | insert _ _ _ message context _ _ _ hist =>
    exact (otherCount_claim message context _).trans (otherCount_pushOut (hv.front hist))
  | hold | pend => exact otherCount_claim _ _ _
  | drop =>
    rw [View.drop]
    split_ifs
    · simp only [otherCount, release]
      omega
    · rfl
  | flush s _ _ _ _ _ _ _ hist | expose _ _ s _ _ hist hs | vanish _ _ _ _ _ hist =>
    exact otherCount_pushOut (hv.front hist)
  | replace | reject =>
    simp only [otherCount, release]
    omega
  | reset => rfl

end

end Edit

namespace Edits

variable {qos : ReaderQos} {ok : Effect → Prop} {v v' : View}

lemma sound (hv : v.Sound) (h : Edits qos ok v v') : v'.Sound := by
  induction h with
  | refl => exact hv
  | tail _ hedit ih => exact ih.edit hedit

/-- What each edit of a sound view keeps is kept by a series of edits. -/
lemma invariant {α : Type} (f : View → α)
    (hstep : ∀ v v', v.Sound → Edit qos ok v v' → f v' = f v) (hv : v.Sound)
    (h : Edits qos ok v v') : f v' = f v := by
  induction h with
  | refl => rfl
  | tail hpre hedit ih => exact (hstep _ _ (sound hv hpre) hedit).trans ih

variable (hv : v.Sound)
include hv

lemma unreadSlack (hok : ¬ok .vanishes) (h : Edits qos ok v v') : v'.unreadSlack = v.unreadSlack :=
  invariant View.unreadSlack (fun _ _ hv hedit ↦ hedit.unreadSlack hv hok) hv h

lemma historySlack (hok : ¬ok .vanishes) (h : Edits qos ok v v') :
    v'.historySlack = v.historySlack :=
  invariant View.historySlack (fun _ _ hv hedit ↦ hedit.historySlack hv hok) hv h

lemma historySlack_le (h : Edits qos ok v v') : v.historySlack ≤ v'.historySlack := by
  induction h with
  | refl => exact le_rfl
  | tail hpre hedit ih => exact ih.trans (hedit.historySlack_le (sound hv hpre))

lemma resourceSlack (hvanish : ¬ok .vanishes) (hheld : ¬ok .removesHeldBack)
    (h : Edits qos ok v v') : v'.resourceSlack = v.resourceSlack :=
  invariant View.resourceSlack (fun _ _ hv hedit ↦ hedit.resourceSlack hv hvanish hheld) hv h

lemma otherCount (h : Edits qos ok v v') : v'.otherCount = v.otherCount :=
  invariant View.otherCount (fun _ _ hv hedit ↦ hedit.otherCount hv) hv h

end Edits

end OpenSplice.Kernel
