import Mathlib

/-!
# Missed deadlines

The list of `v_deadLineInstanceList.c`, for a finite duration. An instance that is updated goes to
the tail, whatever its timestamp. The check puts the expired instances at the head behind the
others, until it meets one that is not expired or has gone round once. `deadline_check` says when it
finds the missed deadlines. Times have no upper bound here, and a lease can always be registered.
-/

set_option autoImplicit false

namespace OpenSplice.Kernel

open Function List Option

/-- `v_deadLineInstance`, with its address. -/
structure DeadLineInstance where
  id : ℕ
  lastDeadlineResetTime : ℕ

/-- `v_deadLineInstanceList`. Of the lease, there is the time when it expires. -/
structure DeadLineInstanceList where
  leaseDuration : ℕ
  instances : List DeadLineInstance := []
  deadlineLease : Option ℕ := none

namespace DeadLineInstanceList

variable {x : DeadLineInstance}

/-- `v_deadLineInstanceListInsertInstance`. A new lease starts when the clock is read. -/
def insertInstance (clock : ℕ) (x : DeadLineInstance) (list : DeadLineInstanceList) :
    DeadLineInstanceList :=
  { list with
    instances := list.instances ++ [x]
    deadlineLease := list.deadlineLease.or (some (clock + list.leaseDuration)) }

def others (i : ℕ) (list : DeadLineInstanceList) : List DeadLineInstance :=
  list.instances.filter (·.id ≠ i)

/-- `v_deadLineInstanceListRemoveInstance`. -/
def removeInstance (i : ℕ) (list : DeadLineInstanceList) : DeadLineInstanceList :=
  { list with
    instances := list.others i
    deadlineLease := if list.others i = [] then none else list.deadlineLease }

/-- `v_deadLineInstanceListUpdate`. -/
def update (clock i timestamp : ℕ) (list : DeadLineInstanceList) : DeadLineInstanceList :=
  if ∃ x ∈ list.instances, x.id = i then
    { list with instances := list.others i ++ [⟨i, timestamp⟩] }
  else list.insertInstance clock ⟨i, timestamp⟩

/-- `os_timeECompare(latestExpired, listItem->lastDeadlineResetTime) != OS_LESS`. If `os_timeESub`
would go below zero it gives `OS_TIME_INVALID`, which is greater than every time. -/
def expired (d now : ℕ) (x : DeadLineInstance) : Bool :=
  now < d || x.lastDeadlineResetTime ≤ now - d

/-- The loop of `v_deadLineInstanceListCheckDeadlineMissed`, over the instances up to `lastItem`. It
ends with `missed`, the list and the time of `listItem`. -/
def checkLoop (d now : ℕ) (missed : List ℕ) (notified : List DeadLineInstance) :
    List DeadLineInstance → List ℕ × List DeadLineInstance × ℕ
  | [] => (missed, notified, now)
  | listItem :: next =>
    if expired d now listItem then
      checkLoop d now (missed ++ [listItem.id])
        (notified ++ [{ listItem with lastDeadlineResetTime := now }]) next
    else (missed, listItem :: next ++ notified, listItem.lastDeadlineResetTime)

/-- `v_deadLineInstanceListCheckDeadlineMissed`, where `v_leaseRenew` reads the clock. -/
def checkDeadlineMissed (d now clock : ℕ) (list : DeadLineInstanceList) :
    List ℕ × DeadLineInstanceList :=
  if list.instances = [] then ([], { list with deadlineLease := none })
  else
    let (missed, instances, time) := checkLoop d now [] [] list.instances
    (missed, { list with
      instances
      deadlineLease := list.deadlineLease.map fun _ ↦ clock + (time + d - now) })

/-- The states of a list. An instance is inserted only while it is in no list, as asserted. -/
inductive Reach : DeadLineInstanceList → Prop
  | new (leaseDuration : ℕ) : Reach { leaseDuration }
  | insertInstance {list : DeadLineInstanceList} {x : DeadLineInstance} (clock : ℕ) :
      Reach list → (∀ y ∈ list.instances, y.id ≠ x.id) → Reach (list.insertInstance clock x)
  | removeInstance {list : DeadLineInstanceList} (i : ℕ) :
      Reach list → Reach (list.removeInstance i)
  | update {list : DeadLineInstanceList} (clock i timestamp : ℕ) :
      Reach list → Reach (list.update clock i timestamp)
  | checkDeadlineMissed {list : DeadLineInstanceList} (d now clock : ℕ) :
      Reach list → Reach (list.checkDeadlineMissed d now clock).2

/-- The check has returned each instance that missed its deadline, once, and the lease expires no
later than any deadline to come. -/
structure Detects (d now : ℕ) (list : DeadLineInstanceList) (out : List ℕ × DeadLineInstanceList) :
    Prop where
  nodup : out.1.Nodup
  missed : ∀ i, i ∈ out.1 ↔ ∃ x ∈ list.instances, x.lastDeadlineResetTime + d ≤ now ∧ x.id = i
  lease : ∀ x ∈ out.2.instances, ∃ expiry, out.2.deadlineLease = some expiry ∧
    expiry ≤ x.lastDeadlineResetTime + d

/-- The clock still shows `now`, and the first instance that is not expired has the earliest time of
it and those behind it, and no later one than those that are notified now. -/
structure InTime (d now clock : ℕ) (list : DeadLineInstanceList) : Prop where
  past : d ≤ now
  clock : clock = now
  behind : ∀ x next, list.instances.dropWhile (expired d now) = x :: next →
    (∀ y ∈ next, x.lastDeadlineResetTime ≤ y.lastDeadlineResetTime) ∧
      (next.length + 1 < list.instances.length → x.lastDeadlineResetTime ≤ now)

variable {list : DeadLineInstanceList} {d now clock : ℕ}

lemma checkLoop_eq (missed : List ℕ) (notified l : List DeadLineInstance) :
    checkLoop d now missed notified l = (missed ++ (l.takeWhile (expired d now)).map (·.id),
        l.dropWhile (expired d now) ++ notified ++
          (l.takeWhile (expired d now)).map ({ · with lastDeadlineResetTime := now }),
        ((l.dropWhile (expired d now)).head?.map (·.lastDeadlineResetTime)).getD now) := by
  induction l generalizing missed notified with
  | nil => simp [checkLoop]
  | cons x l ih =>
    unfold checkLoop
    split_ifs with hx <;> simp [hx, ih]

lemma expired_iff : expired d now x ↔ now < d ∨ x.lastDeadlineResetTime + d ≤ now := by
  simp only [expired, Bool.or_eq_true, decide_eq_true_eq]
  omega

/-- What the check does to a list with a lease. The instances `p` at the head are expired. -/
lemma checkDeadlineMissed_eq (hne : list.instances ≠ []) {e : ℕ}
    (he : list.deadlineLease = some e) :
    ∃ p rest, list.instances = p ++ rest ∧ list.instances.dropWhile (expired d now) = rest ∧
      (∀ x ∈ p, now < d ∨ x.lastDeadlineResetTime + d ≤ now) ∧
      (∀ x ∈ rest.head?, ¬(now < d ∨ x.lastDeadlineResetTime + d ≤ now)) ∧
      list.checkDeadlineMissed d now clock = (p.map (·.id), { list with
        instances := rest ++ p.map ({ · with lastDeadlineResetTime := now })
        deadlineLease := some
          (clock + ((rest.head?.map (·.lastDeadlineResetTime)).getD now + d - now)) }) := by
  refine ⟨_, _, takeWhile_append_dropWhile.symm, rfl, fun x hx ↦ ?_, fun x hx ↦ ?_, ?_⟩
  · exact expired_iff.mp (mem_takeWhile_imp hx)
  · have hnot := head?_dropWhile_not (expired d now) list.instances
    rw [mem_def.mp hx] at hnot
    simpa [← expired_iff] using hnot
  · simp [checkDeadlineMissed, hne, checkLoop_eq, he]

/-- An instance is listed once, and there is a lease for the list. -/
structure Listed (list : DeadLineInstanceList) : Prop where
  nodup : (list.instances.map (·.id)).Nodup
  lease : list.instances ≠ [] → ∃ e, list.deadlineLease = some e

lemma nodup_concat {l : List DeadLineInstance} (h : (l.map (·.id)).Nodup)
    (hx : ∀ y ∈ l, y.id ≠ x.id) : ((l ++ [x]).map (·.id)).Nodup := by
  rw [map_append, map_singleton, nodup_middle, append_nil]
  exact nodup_cons.mpr ⟨by simpa using hx, h⟩

lemma Listed.insertInstance (h : Listed list) (hx : ∀ y ∈ list.instances, y.id ≠ x.id) :
    Listed (list.insertInstance clock x) := by
  refine ⟨nodup_concat h.nodup hx, fun _ ↦ ?_⟩
  cases he : list.deadlineLease <;> simp [DeadLineInstanceList.insertInstance, he]

lemma Reach.listed (h : Reach list) : Listed list := by
  induction h with
  | new => exact ⟨nodup_nil, fun hne ↦ absurd rfl hne⟩
  | insertInstance clock _ hx ih => exact ih.insertInstance hx
  | @removeInstance list i _ ih =>
    refine ⟨ih.nodup.sublist (filter_sublist.map _), fun hne ↦ ?_⟩
    obtain ⟨e, he⟩ := ih.lease fun hnil ↦ hne
      (by simp [DeadLineInstanceList.removeInstance, others, hnil])
    exact ⟨e, (if_neg hne).trans he⟩
  | @update list clock i timestamp _ ih =>
    unfold DeadLineInstanceList.update
    split_ifs with hi
    · obtain ⟨x, hx, -⟩ := hi
      have hothers : ((list.others i).map (·.id)).Nodup := ih.nodup.sublist (filter_sublist.map _)
      exact ⟨nodup_concat hothers (by simp [others]), fun _ ↦ ih.lease (ne_nil_of_mem hx)⟩
    · exact ih.insertInstance fun y hy heq ↦ hi ⟨y, hy, heq⟩
  | @checkDeadlineMissed list d now clock _ ih =>
    by_cases hne : list.instances = []
    · constructor <;> simp [DeadLineInstanceList.checkDeadlineMissed, hne]
    · obtain ⟨e, he⟩ := ih.lease hne
      obtain ⟨p, rest, happ, -, -, -, hout⟩ := checkDeadlineMissed_eq hne he
      rw [hout]
      refine ⟨?_, fun _ ↦ ⟨_, rfl⟩⟩
      have hnodup := ih.nodup
      rw [happ, map_append] at hnodup
      simpa [comp_def] using nodup_append_comm.mp hnodup

/-- The lease is renewed for the time `stop` of the instance where the loop stopped. -/
lemma InTime.first {p rest : List DeadLineInstance} {stop : ℕ} (h : InTime d now clock list)
    (happ : list.instances = p ++ rest) (hrest : list.instances.dropWhile (expired d now) = rest)
    (hhead : ∀ x ∈ rest.head?, ¬(now < d ∨ x.lastDeadlineResetTime + d ≤ now))
    (hstop : (rest.head?.map (·.lastDeadlineResetTime)).getD now = stop) :
    now ≤ stop + d ∧ (∀ y ∈ p, stop ≤ now) ∧
      ∀ y ∈ rest, stop ≤ y.lastDeadlineResetTime ∧ now < y.lastDeadlineResetTime + d := by
  rcases rest with - | ⟨x, next⟩
  · simp [← hstop]
  · obtain ⟨hnext, hearly⟩ := h.behind x next hrest
    have hx := hhead x rfl
    obtain rfl : x.lastDeadlineResetTime = stop := hstop
    refine ⟨by omega, fun y hy ↦ hearly ?_, fun y hy ↦ ?_⟩
    · have hpos := length_pos_of_mem hy
      simp [happ]
      omega
    · rcases mem_cons.mp hy with rfl | hy
      · omega
      · have hle := hnext y hy
        omega

/-- In every state of a list, the check detects the missed deadlines exactly if there is no instance
or they are in time. -/
theorem deadline_check (hreach : Reach list) (hclock : now ≤ clock) :
    Detects d now list (list.checkDeadlineMissed d now clock) ↔
      list.instances = [] ∨ InTime d now clock list := by
  by_cases hne : list.instances = []
  · refine iff_of_true ⟨?_, ?_, ?_⟩ (.inl hne) <;> simp [checkDeadlineMissed, hne]
  obtain ⟨hnodup, hlease⟩ := hreach.listed
  obtain ⟨e, he⟩ := hlease hne
  obtain ⟨p, rest, happ, hrest, hp, hhead, hout⟩ := checkDeadlineMissed_eq hne he
  rw [or_iff_right hne, hout]
  have hids : (p.map (·.id)).Nodup := (happ ▸ hnodup).sublist ((sublist_append_left p rest).map _)
  constructor
  · rintro ⟨-, hmissed, hexpiry⟩
    simp only [some_inj, exists_eq_left', mem_append, List.mem_map] at hexpiry hmissed
    have hnotified := fun x hx ↦ hexpiry _ (.inr ⟨x, hx, rfl⟩)
    rcases rest with - | ⟨x, next⟩
    · obtain ⟨x, hx⟩ := exists_mem_of_ne_nil p (by simpa [happ] using hne)
      obtain ⟨y, -, hy, -⟩ := (hmissed x.id).mp ⟨x, hx, rfl⟩
      have hle := hnotified x hx
      simp only [head?_nil, map_none, getD_none] at hle
      exact ⟨by omega, by omega, fun y next heq ↦ by simp [hrest] at heq⟩
    · have hx := hhead x rfl
      simp only [head?_cons, map_some, getD_some] at hexpiry hnotified
      have hle := hexpiry x (.inl mem_cons_self)
      refine ⟨by omega, by omega, fun y next' heq ↦ ?_⟩
      obtain ⟨rfl, rfl⟩ := cons.inj (hrest.symm.trans heq)
      refine ⟨fun z hz ↦ ?_, fun hlen ↦ ?_⟩
      · have hz := hexpiry z (.inl (mem_cons_of_mem _ hz))
        omega
      · obtain ⟨z, hz⟩ := exists_mem_of_length_pos (l := p) (by
          rw [happ, length_append, length_cons] at hlen
          omega)
        have hz := hnotified z hz
        omega
  · intro hintime
    obtain rfl := hintime.clock
    have hpast := hintime.past
    generalize hstop : (rest.head?.map (·.lastDeadlineResetTime)).getD clock = stop
    obtain ⟨hnow, hnotified, hlater⟩ := hintime.first happ hrest hhead hstop
    refine ⟨hids, fun i ↦ ?_, fun y hy ↦ ⟨_, rfl, ?_⟩⟩
    · rw [List.mem_map]
      constructor
      · rintro ⟨x, hx, rfl⟩
        exact ⟨x, happ ▸ mem_append_left rest hx, (hp x hx).resolve_left (not_lt.mpr hpast), rfl⟩
      · rintro ⟨x, hx, hle, rfl⟩
        rcases mem_append.mp (happ ▸ hx) with hx | hx
        · exact ⟨x, hx, rfl⟩
        · have hlt := (hlater x hx).2
          omega
    · rcases mem_append.mp hy with hy | hy
      · have hle := (hlater y hy).1
        omega
      · obtain ⟨x, hx, rfl⟩ := mem_map.mp hy
        have hle := hnotified x hx
        dsimp only
        omega

/-- At 12, an instance that was updated at 1 has missed its deadline of 10, and one that was updated
at 5 has not. -/
theorem deadline_check_of_updates : Detects 10 12
    ((({ leaseDuration := 10 } : DeadLineInstanceList).update 1 0 1).update 5 1 5)
    (((({ leaseDuration := 10 } : DeadLineInstanceList).update 1 0 1).update 5 1
      5).checkDeadlineMissed 10 12 12) := by
  refine (deadline_check (.update 5 1 5 (.update 1 0 1 (.new 10))) le_rfl).mpr
    (.inr ⟨by decide, rfl, ?_⟩)
  rintro x next heq
  obtain ⟨rfl, rfl⟩ : x = ⟨1, 5⟩ ∧ next = [] := by
    simpa [update, insertInstance, expired, eq_comm] using heq
  simp

/-- An instance that was updated with an earlier timestamp than the one before it is not found when
it has missed its deadline. -/
theorem deadline_missed_behind : ∃ list : DeadLineInstanceList, Reach list ∧
    ⟨1, 2⟩ ∈ list.instances ∧ 2 + 10 ≤ 12 ∧ (list.checkDeadlineMissed 10 12 12).1 = [] :=
  ⟨(({ leaseDuration := 10 } : DeadLineInstanceList).update 3 0 3).update 4 1 2,
    .update _ _ _ (.update _ _ _ (.new 10)), .tail _ (.head _), by decide, by decide⟩

end DeadLineInstanceList

end OpenSplice.Kernel
