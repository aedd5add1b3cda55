import OpenSplice.Kernel.Reader.NotRead

/-!
# The lifespan administration

A sample that expires enters the lifespan administration when it is created, and what expires is
unlinked from the history it is in (`lifespan_linked`). A sample that becomes pending is in no
history, and one that is replaced while it is held back is freed without being taken from the
administration (`lifespan_unlinked`).
-/

set_option autoImplicit false

namespace OpenSplice.Kernel

open List View InstanceState

variable {qos : ReaderQos} {ok : Effect → Prop} {v v' : View}

variable {entry : LifespanEntry} {older newer : List Sample} {elsewhere : LifespanEntry → Prop}
  {others : ℕ → Prop}

def LifespanEntry.Linked (entry : LifespanEntry) (samples : List Sample) : Prop :=
  ∃ s ∈ samples, s.id = entry.id ∧ s.expiryTime = some entry.expiryTime

lemma LifespanEntry.Linked.mono {samples samples' : List Sample} (h : entry.Linked samples)
    (hsub : ∀ s ∈ samples, s ∈ samples') : entry.Linked samples' := by
  obtain ⟨s, hs, hentry⟩ := h
  exact ⟨s, hsub s hs, hentry⟩

/-- A sample is changed in its place, but for its name and its expiry. -/
lemma LifespanEntry.Linked.change {s s' : Sample} (h : entry.Linked (older ++ s :: newer))
    (hid : s'.id = s.id) (hexpiry : s'.expiryTime = s.expiryTime) :
    entry.Linked (older ++ s' :: newer) := by
  simp only [Linked, mem_append, mem_cons] at h ⊢
  obtain ⟨x, hx | rfl | hx, hentry⟩ := h
  · exact ⟨x, .inl hx, hentry⟩
  · exact ⟨s', .inr (.inl rfl), hid ▸ hexpiry ▸ hentry⟩
  · exact ⟨x, .inr (.inr hx), hentry⟩

lemma mem_lifespanInsert {x : LifespanEntry} {admin : List LifespanEntry} :
    x ∈ lifespanInsert entry admin ↔ x = entry ∨ x ∈ admin := by
  induction admin with
  | nil => simp [lifespanInsert]
  | cons _ _ ih =>
    rw [lifespanInsert]
    split_ifs
    · rw [mem_cons, ih, mem_cons]
      tauto
    · rw [mem_cons]

lemma nodup_of_subperm {l l' : List ℕ} (h : l.Subperm l') (hl' : l'.Nodup) : l.Nodup := by
  obtain ⟨m, hperm, hsub⟩ := h
  exact hperm.nodup_iff.mp (hl'.sublist hsub)

namespace View

variable {v v' : View} {older newer : List Sample}

variable {s : Sample} (n : ℕ)

def ids (v : View) : List ℕ := (v.history ++ v.pending).map Sample.id

def Named (v v' : View) : Prop :=
  (v'.ids.Subperm v.ids ∧ v'.nextId = v.nextId) ∨
    (v'.ids.Subperm (v.nextId :: v.ids) ∧ v'.nextId = v.nextId + 1)

lemma ids_subperm_of_sublist (hhist : v'.history.Sublist v.history)
    (hpend : v'.pending.Sublist v.pending) : v'.ids.Subperm v.ids :=
  ((hhist.append hpend).map Sample.id).subperm

lemma ids_subperm_of_insert (hhist : v'.history = older ++ s :: newer) (hs : s.id = n)
    (hsub : (older ++ newer).Sublist v.history) (hpend : v'.pending = v.pending) :
    v'.ids.Subperm (n :: v.ids) := by
  have hperm : v'.ids.Perm (s.id :: ((older ++ newer) ++ v.pending).map Sample.id) := by
    rw [ids, hhist, hpend, append_assoc, cons_append, append_assoc, ← map_cons]
    exact perm_middle.map Sample.id
  rw [hperm.subperm_right, ← hs, subperm_cons]
  exact ((hsub.append (.refl v.pending)).map Sample.id).subperm

lemma ids_subperm_of_pend (hhist : v'.history = v.history)
    (hpend : v'.pending = older ++ s :: newer) (hs : s.id = n)
    (hpend' : v.pending = older ++ newer) : v'.ids.Subperm (n :: v.ids) := by
  have hperm : v'.ids.Perm (s.id :: v.ids) := by
    rw [ids, ids, hhist, hpend, hpend', ← append_assoc, ← append_assoc, ← map_cons]
    exact perm_middle.map Sample.id
  rw [← hs]
  exact hperm.subperm

lemma ids_subperm_of_flush {rest : List Sample} {s' : Sample} (hpend : v.pending = s :: rest)
    (hsub : (older ++ newer).Sublist v.history) (hhist : v'.history = older ++ s' :: newer)
    (hs' : s'.id = s.id) (hpend' : v'.pending = rest) : v'.ids.Subperm v.ids := by
  have hperm' : v'.ids.Perm (s.id :: ((older ++ newer) ++ rest).map Sample.id) := by
    rw [ids, hhist, hpend', append_assoc, cons_append, append_assoc, ← hs', ← map_cons]
    exact perm_middle.map Sample.id
  have hperm : v.ids.Perm (s.id :: (v.history ++ rest).map Sample.id) := by
    rw [ids, hpend, ← map_cons]
    exact perm_middle.map Sample.id
  rw [hperm'.subperm_right, hperm.subperm_left, subperm_cons]
  exact ((hsub.append (.refl rest)).map Sample.id).subperm

end View

lemma sublist_insert (s : Sample) : (older ++ newer).Sublist (older ++ s :: newer) :=
  (List.Sublist.refl older).append (sublist_cons_self s newer)

lemma Edit.named (h : Edit qos ok v v') : v.Named v' := by
  cases h with
  | mark older s read lazyRead newer hist =>
    refine .inl ⟨?_, rfl⟩
    have hids : (v.mark older s read lazyRead newer).ids = v.ids := by
      simp [View.ids, View.mark, hist]
    rw [hids]
  | remove _ s _ hist | replace _ s _ hist =>
    exact .inl ⟨View.ids_subperm_of_sublist (hist ▸ sublist_insert s) (.refl _), rfl⟩
  | insert pushed older newer _ _ _ _ _ hist =>
    have hsub : (older ++ newer).Sublist v.history := hist ▸ sublist_append_right pushed _
    exact .inr ⟨View.ids_subperm_of_insert v.nextId rfl rfl hsub (by simp [View.link, View.create]),
      by simp [View.link, View.create]⟩
  | hold older newer _ _ _ _ _ hist =>
    have hsub : (older ++ newer).Sublist v.history := by rw [hist]
    exact .inr ⟨View.ids_subperm_of_insert v.nextId rfl rfl hsub (by simp [View.hold, View.create]),
      by simp [View.hold, View.create]⟩
  | pend _ _ _ _ _ _ _ _ hist =>
    exact .inr ⟨View.ids_subperm_of_pend v.nextId (by simp [View.create]) rfl rfl hist,
      by simp [View.create]⟩
  | drop _ _ hpend =>
    rw [View.drop_eq]
    exact .inl ⟨View.ids_subperm_of_sublist (.refl _) (by simp [hpend]), rfl⟩
  | flush _ _ pushed older newer _ hpend _ hist =>
    have hsub : (older ++ newer).Sublist v.history := hist ▸ sublist_append_right pushed _
    exact .inl ⟨View.ids_subperm_of_flush hpend hsub rfl rfl (by simp [View.link]),
      by simp [View.link]⟩
  | expose pushed older s newer read hist =>
    refine .inl ⟨?_, by simp [View.link]⟩
    have hsub : (older ++ s :: newer).Sublist v.history := hist ▸ sublist_append_right pushed _
    have hids : ((v.pushOut (older ++ s :: newer) pushed).link older s read newer).ids =
        ((older ++ s :: newer) ++ v.pending).map Sample.id := by
      simp [View.ids, View.link]
    rw [hids]
    exact ((hsub.append (.refl v.pending)).map Sample.id).subperm
  | vanish _ _ _ _ _ hist =>
    refine .inl ⟨View.ids_subperm_of_sublist ?_ (by simp), by simp⟩
    simp [View.pushOut_history _ _ _ hist, hist]
  | reject | reset => exact .inl ⟨.refl _, rfl⟩

/-! ### The entries of the administration -/

namespace View

def AdminLinked (elsewhere : LifespanEntry → Prop) (v : View) : Prop :=
  ∀ e ∈ v.admin, elsewhere e ∨ e.Linked v.history

variable {elsewhere : LifespanEntry → Prop} {v : View}

section

variable (h : v.AdminLinked elsewhere)

variable {older newer : List Sample} {s : Sample}

include h

lemma AdminLinked.remove (hist : v.history = older ++ s :: newer) :
    (v.remove older s newer).AdminLinked elsewhere := by
  intro e he
  simp only [View.remove, lifespanRemove, mem_filter, ne_eq, decide_eq_true_eq] at he
  refine (h e he.1).imp_right ?_
  rintro ⟨x, hx, hid, hexpiry⟩
  refine ⟨x, ?_, hid, hexpiry⟩
  rw [hist, mem_append, mem_cons] at hx
  rw [View.remove, mem_append]
  rcases hx with hx | rfl | hx
  · exact .inl hx
  · exact absurd hid.symm he.2
  · exact .inr hx

lemma AdminLinked.pushOut {pushed rest : List Sample}
    (hist : v.history = pushed ++ rest) : (v.pushOut rest pushed).AdminLinked elsewhere := by
  induction pushed generalizing v with
  | nil => exact h
  | cons _ _ ih => exact ih (h.remove hist) rfl

lemma AdminLinked.mono {v' : View} (hadmin : v'.admin = v.admin)
    (hhist : ∀ s ∈ v.history, s ∈ v'.history) : v'.AdminLinked elsewhere := by
  intro e he
  rw [hadmin] at he
  exact (h e he).imp_right fun hlinked ↦ hlinked.mono hhist

lemma AdminLinked.create {v' w : View} {expiry : Option ℤ}
    (hist : v.history = older ++ newer) (hw : w.admin = v.admin)
    (hadmin : v'.admin = (w.create expiry).admin) (hist' : v'.history = older ++ s :: newer)
    (hid : s.id = w.nextId) (hexpiry : s.expiryTime = expiry) : v'.AdminLinked elsewhere := by
  have hmem : ∀ x ∈ v.history, x ∈ v'.history := by
    rw [hist, hist']
    exact fun x hx ↦ mem_insert s hx
  cases expiry with
  | none => exact h.mono (hadmin.trans hw) hmem
  | some =>
    intro e he
    rw [hadmin, View.create, mem_lifespanInsert, hw] at he
    rcases he with rfl | he
    · exact .inr ⟨s, by simp [hist'], hid, hexpiry⟩
    · exact (h e he).imp_right fun hlinked ↦ hlinked.mono hmem

end

end View

lemma Edit.adminLinked (hforget : ¬ok .forgetsLifespan) (hpend : ¬ok .pendsLifespan)
    (h : Edit qos ok v v') (hv : v.AdminLinked elsewhere) : v'.AdminLinked elsewhere := by
  cases h with
  | remove _ _ _ hist => exact hv.remove hist
  | mark _ _ _ _ _ hist =>
    intro e he
    exact (hv e he).imp_right fun hlinked ↦ (hist ▸ hlinked).change rfl rfl
  | replace _ s _ hist _ hok =>
    intro e he
    refine (hv e he).imp_right ?_
    rintro ⟨x, hx, hid, hexpiry⟩
    refine ⟨x, ?_, hid, hexpiry⟩
    have hs : s.expiryTime = none := by
      by_contra hs
      exact hforget (hok hs)
    rw [hist, mem_append, mem_cons] at hx
    rcases hx with hx | rfl | hx
    · exact mem_append_left _ hx
    · simp [hs] at hexpiry
    · exact mem_append_right _ hx
  | insert _ _ _ _ _ _ _ _ hist =>
    exact (hv.pushOut hist).create (pushOut_history _ _ _ hist) (claim_admin _ _ _) rfl rfl
      (by simp [fresh]) rfl
  | hold _ _ _ _ _ _ _ hist =>
    exact hv.create hist (claim_admin _ _ _) rfl rfl (by simp [fresh]) rfl
  | pend _ _ _ _ expiry _ _ _ _ hok =>
    have hexpiry : expiry = none := by
      by_contra hne
      exact hpend (hok hne)
    subst hexpiry
    exact hv.mono (by simp [create]) (by simp [create])
  | drop =>
    rw [drop_eq]
    exact hv
  | flush _ rest pushed older newer _ _ _ hist =>
    have hist' : ({ v with pending := rest } : View).history = pushed ++ (older ++ newer) := hist
    have hpush := View.AdminLinked.pushOut (v := { v with pending := rest }) hv hist'
    refine hpush.mono rfl ?_
    rw [pushOut_history _ _ _ hist']
    exact fun x hx ↦ mem_insert _ hx
  | expose _ _ _ _ _ hist =>
    intro e he
    exact (hv.pushOut hist e he).imp_right fun hlinked ↦
      (pushOut_history _ _ _ hist ▸ hlinked).change rfl rfl
  | vanish _ _ _ _ _ hist => exact hv.pushOut hist
  | reject => exact hv
  | reset => exact hv

/-! ### Names -/

/-- The names of the samples are their own: different from one another, from those of other samples
and from the next one. -/
structure View.NamesApart (others : ℕ → Prop) (v : View) : Prop where
  nodup : v.ids.Nodup
  below : ∀ n ∈ v.ids, n < v.nextId
  apart : ∀ n ∈ v.ids, ¬others n
  othersBelow : ∀ n, others n → n < v.nextId

lemma Edit.namesApart (h : Edit qos ok v v') (hv : v.NamesApart others) : v'.NamesApart others := by
  rcases h.named with ⟨hsub, hnext⟩ | ⟨hsub, hnext⟩
  · refine ⟨nodup_of_subperm hsub hv.nodup, fun n hn ↦ ?_, fun n hn ↦ hv.apart n (hsub.subset hn),
      fun n hn ↦ ?_⟩
    · rw [hnext]
      exact hv.below n (hsub.subset hn)
    · rw [hnext]
      exact hv.othersBelow n hn
  · have hfresh : v.nextId ∉ v.ids := fun hmem ↦ absurd (hv.below _ hmem) (lt_irrefl _)
    refine ⟨nodup_of_subperm hsub (nodup_cons.mpr ⟨hfresh, hv.nodup⟩), fun n hn ↦ ?_,
      fun n hn hothers ↦ ?_, fun n hn ↦ ?_⟩
    · rcases mem_cons.mp (hsub.subset hn) with rfl | hmem
      · omega
      · have := hv.below n hmem
        omega
    · rcases mem_cons.mp (hsub.subset hn) with rfl | hmem
      · exact absurd (hv.othersBelow _ hothers) (lt_irrefl _)
      · exact hv.apart n hmem hothers
    · have := hv.othersBelow n hn
      omega

lemma Edits.namesApart (h : Edits qos ok v v') (hv : v.NamesApart others) :
    v'.NamesApart others := by
  induction h with
  | refl => exact hv
  | tail _ hedit ih => exact hedit.namesApart ih

lemma Edits.adminLinked (hforget : ¬ok .forgetsLifespan) (hpend : ¬ok .pendsLifespan)
    (h : Edits qos ok v v') (hv : v.AdminLinked elsewhere) : v'.AdminLinked elsewhere := by
  induction h with
  | refl => exact hv
  | tail _ hedit ih => exact hedit.adminLinked hforget hpend ih

lemma findSample_isSome {id : ℕ} {history : List Sample} {s : Sample} (hs : s ∈ history)
    (hid : s.id = id) : ∃ older x newer,
      InstanceState.findSample id history = some (older, x, newer) := by
  induction history with
  | nil => simp at hs
  | cons y _ ih =>
    rw [findSample]
    split_ifs with hy
    · exact ⟨_, _, _, rfl⟩
    · rcases mem_cons.mp hs with rfl | hs
      · exact absurd hid hy
      · obtain ⟨older, x, newer, hfind⟩ := ih hs
        exact ⟨y :: older, x, newer, by rw [hfind]; rfl⟩

/-! ### Runs -/

namespace DataReader

variable {ι : Type} [DecidableEq ι] {r : DataReader ι} {st : InstanceState}

def ids (r : DataReader ι) (i : ι) : List ℕ :=
  ((r.inst i).history ++ (r.inst i).pending).map Sample.id

/-- The samples of a reader have names of their own, and those of its lifespan administration are in
the history of an instance. -/
structure Registered (r : DataReader ι) : Prop where
  nodup : ∀ i, (r.ids i).Nodup
  below : ∀ i, ∀ n ∈ r.ids i, n < r.reader.nextId
  apart : ∀ i j, i ≠ j → ∀ n ∈ r.ids i, n ∉ r.ids j
  linked : ∀ e ∈ r.reader.lifespanAdmin, ∃ i, e.Linked (r.inst i).history

omit [DecidableEq ι] in
lemma view_ids (r : DataReader ι) (i : ι) (claims : ℤ) :
    ((r.state i).view claims).ids = r.ids i := by
  simp [View.ids, ids, view, state, Function.comp_def]

lemma linked_core {e : LifespanEntry} {samples : List Sample} :
    e.Linked (samples.map Sample.core) ↔ e.Linked samples := by
  simp [LifespanEntry.Linked]

omit [DecidableEq ι] in
lemma Registered.view (h : r.Registered) (i : ι) :
    ((r.state i).view 0).NamesApart (fun n ↦ ∃ j, j ≠ i ∧ n ∈ r.ids j) ∧
      ((r.state i).view 0).AdminLinked (fun e ↦ ∃ j, j ≠ i ∧ e.Linked (r.inst j).history) := by
  refine ⟨⟨?_, ?_, ?_, ?_⟩, ?_⟩
  · rw [view_ids]
    exact h.nodup i
  · rw [view_ids]
    exact h.below i
  · rw [view_ids]
    rintro n hn ⟨j, hj, hmem⟩
    exact h.apart j i hj n hmem hn
  · rintro n ⟨j, -, hn⟩
    exact h.below j n hn
  · intro e he
    obtain ⟨j, hj⟩ := h.linked e he
    by_cases heq : j = i
    · subst heq
      exact .inr (linked_core.mpr hj)
    · exact .inl ⟨j, heq, hj⟩

lemma Registered.update {i : ι} {claims : ℤ} (hr : r.Registered)
    (hnames : (st.view claims).NamesApart (fun n ↦ ∃ j, j ≠ i ∧ n ∈ r.ids j))
    (hadmin : (st.view claims).AdminLinked (fun e ↦ ∃ j, j ≠ i ∧ e.Linked (r.inst j).history)) :
    (r.update i st).Registered := by
  have hself : (r.update i st).ids i = (st.view claims).ids := by
    rw [← view_ids _ i claims]
    simp [state, DataReader.update]
  have hother (j : ι) (hj : j ≠ i) : (r.update i st).ids j = r.ids j := by
    simp [ids, DataReader.update, hj]
  refine ⟨fun j ↦ ?_, fun j n hn ↦ ?_, fun j k hjk n hn hmem ↦ ?_, fun e he ↦ ?_⟩
  · by_cases hj : j = i
    · rw [hj, hself]
      exact hnames.nodup
    · rw [hother j hj]
      exact hr.nodup j
  · by_cases hj : j = i
    · rw [hj, hself] at hn
      exact hnames.below n hn
    · rw [hother j hj] at hn
      exact hnames.othersBelow n ⟨j, hj, hn⟩
  · by_cases hj : j = i
    · have hk : k ≠ i := fun hk ↦ hjk (hj.trans hk.symm)
      rw [hj, hself] at hn
      rw [hother k hk] at hmem
      exact hnames.apart n hn ⟨k, hk, hmem⟩
    · rw [hother j hj] at hn
      by_cases hk : k = i
      · rw [hk, hself] at hmem
        exact hnames.apart n hmem ⟨j, hj, hn⟩
      · rw [hother k hk] at hmem
        exact hr.apart j k hjk n hn hmem
  · rcases hadmin e he with ⟨j, hj, hlinked⟩ | hlinked
    · exact ⟨j, by simpa [DataReader.update, hj] using hlinked⟩
    · exact ⟨i, by simpa [DataReader.update] using linked_core.mp hlinked⟩

def lifespanKept (qos : ReaderQos) : InstanceOp → InstanceState → Bool
  | .insert clock message context, st =>
    ((InstanceState.replacedSample qos message st.inst).all fun s ↦ s.expiryTime.isNone) &&
      (¬InstanceState.goesPending qos context st || (expiryTime qos clock message).isNone)
  | _, _ => true

lemma lifespanKept_allowed {qos : ReaderQos} {op : InstanceOp} (h : lifespanKept qos op st) :
    op.Allowed qos (fun e ↦ e ≠ .forgetsLifespan ∧ e ≠ .pendsLifespan) st := by
  cases op with
  | insert =>
    simp only [lifespanKept, Bool.and_eq_true, Bool.or_eq_true, decide_eq_true_eq] at h
    refine ⟨⟨by simp, by simp, fun s hs hexpiry ↦ ?_, fun hgoes hexpiry ↦ ?_, by simp, by simp,
      by simp, by simp, by simp⟩, by simp⟩
    · rw [hs] at h
      exact absurd (by simpa using h.1) hexpiry
    · rcases h.2 with hnot | hnone
      · exact absurd hgoes hnot
      · exact absurd (Option.isNone_iff_eq_none.mp hnone) hexpiry
  | read => trivial
  | take => trivial
  | purge => exact fun _ _ _ _ ↦ by simp
  | checkSeparation => exact fun _ _ _ _ _ ↦ ⟨by simp, fun _ ↦ ⟨by simp, by simp⟩⟩
  | flushPending => exact ⟨by simp, fun _ ↦ .inl (by simp)⟩
  | expire => exact fun _ _ _ _ _ _ _ ↦ by simp

lemma Reach.registered {qos : ReaderQos} {r₀ : DataReader ι} (h₀ : r₀.Fresh)
    (h : Reach qos (lifespanKept qos · ·) r₀ r) : r.Registered := by
  have hids (i : ι) : r₀.ids i = [] := by simp [ids, h₀.history i, h₀.pending i]
  refine (h.invariant _ Registered h₀.sound ⟨?_, ?_, ?_, ?_⟩
    (fun r i op _ _ hP ↦ lifespanKept_allowed hP) ?_).2
  · simp [hids]
  · simp [hids]
  · simp [hids]
  · simp [h₀.lifespanAdmin]
  · intro r i st claims _ hr hedits
    obtain ⟨hnames, hadmin⟩ := hr.view i
    exact hr.update (hedits.namesApart hnames) (hedits.adminLinked (by simp) (by simp) hadmin)

omit [DecidableEq ι] in
lemma Registered.eq_of_id (h : r.Registered) {i j : ι} {x s : Sample}
    (hx : x ∈ (r.inst j).history ++ (r.inst j).pending)
    (hs : s ∈ (r.inst i).history ++ (r.inst i).pending) (hid : x.id = s.id) : j = i ∧ x = s := by
  have hji : j = i := by
    by_contra hne
    refine h.apart j i hne x.id (mem_map_of_mem hx) ?_
    rw [hid]
    exact mem_map_of_mem hs
  subst hji
  exact ⟨rfl, inj_on_of_nodup_map (h.nodup j) hx hs hid⟩

/-- The reader of `filterQos` with a lifespan. -/
def lifespanQos : ReaderQos := { filterQos with lifespanUsed := true, lifespan := some 1000 }

end DataReader

end OpenSplice.Kernel
