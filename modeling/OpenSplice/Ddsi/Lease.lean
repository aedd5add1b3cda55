import OpenSplice.Utilities.Fibheap.Runs

/-!
# Leases and their expiry

The leases of `q_lease.c`. A lease ends at its time `tend`, and while it is on the heap it has a
time `tsched` at which `check_and_handle_lease_expiration` looks at it. A renewal moves `tend`
without touching the heap, so a lease may come up too early and is then put back for its new end.
The leases on the heap are a list here; `ut_fibheapMin` is called on any Fibonacci heap with these
leases (`LeaseHeap`).

`Scheduled` is what every call keeps up: a lease is on the heap exactly if it has a time `tsched`,
which is never later than its end, and a registered lease with an end is on the heap. One round of
the loop keeps it and leaves one lease less that is due (`handleLease_spec`), so the loop ends
(`expirationLoop_spec`).
-/

set_option autoImplicit false

namespace OpenSplice.Ddsi

open Utilities FibMem Function List Option

/-- `T_NEVER`. -/
def tNever : ℤ := 2 ^ 63 - 1

/-- `TSCHED_NOT_ON_HEAP`. -/
def tschedNotOnHeap : ℤ := -2 ^ 63

/-- `T_MILLISECOND`. -/
def tMillisecond : ℤ := 1000000

/-- `add_duration_to_etime`. -/
def addDurationToEtime (t d : ℤ) : ℤ := if tNever ≤ t + d then tNever else t + d

/-- `enum entity_kind`. -/
inductive EntityKind
  | participant
  | proxyParticipant
  | writer
  | proxyWriter
  | reader
  | proxyReader
deriving DecidableEq

/-- `struct lease`, with the kind of its entity. -/
structure Lease where
  tsched : ℤ
  tend : ℤ
  tdur : ℤ
  kind : EntityKind
deriving DecidableEq

/-- The leases by their addresses, and those that are on `gv.leaseheap`. -/
structure LeaseAdmin where
  lease : ℕ → Option Lease
  heap : List ℕ

/-- A Fibonacci heap for each list of leases and their times: its memory and its roots. Which of
the leases with the least time comes up depends on it. -/
structure LeaseHeap where
  mem : (ℕ → ℤ) → List ℕ → FibMem ℤ
  roots : (ℕ → ℤ) → List ℕ → Option ℕ
  heap : ∀ key l, l.Nodup → Heap compare (mem key l) (roots key l) l
  object : ∀ key l, (mem key l).object = key

namespace LeaseHeap

def min (heap : LeaseHeap) (key : ℕ → ℤ) (l : List ℕ) : Option ℕ := fibheapMin (heap.roots key l)

lemma min_spec (heap : LeaseHeap) (key : ℕ → ℤ) {l : List ℕ} (hl : l.Nodup) :
    (heap.min key l = none ∧ l = []) ∨
      ∃ x ∈ l, heap.min key l = some x ∧ ∀ y ∈ l, key x ≤ key y := by
  have h := heap.heap key l hl
  refine h.roots_eq.imp_right fun ⟨x, hx, hroots, _⟩ ↦ ⟨x, hx, hroots, fun y hy ↦ ?_⟩
  have hle := h.le_of_mem hroots hy
  rw [compareNodes, heap.object] at hle
  exact compare_le_iff_le.mp hle

def insertLease (out : FibMem ℤ × Option ℕ) (x : ℕ) : FibMem ℤ × Option ℕ :=
  out.1.fibheapInsert compare out.2 x

/-- `ut_fibheapInsert` for one lease after the other. -/
def insertAll (key : ℕ → ℤ) (l : List ℕ) : FibMem ℤ × Option ℕ :=
  l.foldl insertLease (⟨fun _ ↦ none, fun _ ↦ none, id, id, fun _ ↦ false, fun _ ↦ 0, key⟩, none)

lemma foldl_insertLease {l M : List ℕ} {out : FibMem ℤ × Option ℕ}
    (h : Heap compare out.1 out.2 M) (hl : (M ++ l).Nodup) :
    Heap compare (l.foldl insertLease out).1 (l.foldl insertLease out).2 (M ++ l) := by
  induction l generalizing M out with
  | nil => rwa [append_nil]
  | cons x l ih =>
    rw [append_cons] at hl ⊢
    have hx : x ∉ M := (nodup_append_comm.mp hl.of_append_left).notMem
    exact ih (h.insert hx).1 hl

lemma object_foldl_insertLease (l : List ℕ) (out : FibMem ℤ × Option ℕ) :
    (l.foldl insertLease out).1.object = out.1.object := by
  induction l generalizing out with
  | nil => rfl
  | cons x l ih =>
    rw [foldl_cons, ih, insertLease, fibheapInsert]
    cases out.2 <;> rfl

/-- The heap into which the leases have been inserted in the order of the list. -/
def ofInserts : LeaseHeap where
  mem key l := (insertAll key l).1
  roots key l := (insertAll key l).2
  heap _ _ hl := foldl_insertLease (M := []) (heap_nil compare _) hl
  object _ l := object_foldl_insertLease l _

end LeaseHeap

/-- What a check depends on besides the leases, for each round of its loop: the heap of the leases,
whether the privileged participant of a proxy participant is alive, and the leases
that the deletion of an entity frees. -/
structure CheckEnv where
  leaseheap : ℕ → LeaseHeap
  privilegedLive : ℕ → ℕ → Bool
  freed : ℕ → ℕ → List ℕ

namespace LeaseAdmin

def tsched (admin : LeaseAdmin) (l : ℕ) : ℤ := (admin.lease l).elim 0 Lease.tsched

def set (admin : LeaseAdmin) (l : ℕ) (lease : Lease) : LeaseAdmin :=
  { admin with lease := update admin.lease l (some lease) }

/-- `ut_fibheapInsert`. -/
def insertHeap (admin : LeaseAdmin) (l : ℕ) : LeaseAdmin := { admin with heap := l :: admin.heap }

/-- `lease_new`. -/
def leaseNew (admin : LeaseAdmin) (l : ℕ) (texpire tdur : ℤ) (kind : EntityKind) : LeaseAdmin :=
  admin.set l ⟨tschedNotOnHeap, texpire, tdur, kind⟩

/-- `lease_register`. -/
def leaseRegister (admin : LeaseAdmin) (l : ℕ) (lease : Lease) : LeaseAdmin :=
  if lease.tend ≠ tNever then (admin.set l { lease with tsched := lease.tend }).insertHeap l
  else admin

/-- `lease_free`. -/
def leaseFree (admin : LeaseAdmin) (l : ℕ) : LeaseAdmin :=
  match admin.lease l with
  | none => admin
  | some lease =>
    { lease := update admin.lease l none
      heap := if lease.tsched ≠ tschedNotOnHeap then admin.heap.erase l else admin.heap }

/-- `lease_renew`. -/
def leaseRenew (admin : LeaseAdmin) (l : ℕ) (lease : Lease) (tnow : ℤ) : LeaseAdmin :=
  let tendNew := addDurationToEtime tnow lease.tdur
  if tendNew ≤ lease.tend ∨ lease.tend ≤ tnow then admin
  else admin.set l { lease with tend := tendNew }

/-- `lease_set_expiry`. -/
def leaseSetExpiry (admin : LeaseAdmin) (l : ℕ) (lease : Lease) (when : ℤ) : LeaseAdmin :=
  if when < lease.tsched then
    -- `ut_fibheapDecreaseKey`: the heap has the same leases.
    admin.set l { lease with tend := when, tsched := when }
  else if lease.tsched = tschedNotOnHeap ∧ when < tNever then
    (admin.set l { lease with tend := when, tsched := when }).insertHeap l
  else admin.set l { lease with tend := when }

/-- A round of the loop of `check_and_handle_lease_expiration`, for the lease that has come up. -/
def handleLease (tnow : ℤ) (env : CheckEnv) (round : ℕ) (l : ℕ) (lease : Lease)
    (admin : LeaseAdmin) : LeaseAdmin × Bool :=
  let admin := { admin with heap := admin.heap.erase l }
  if tnow < lease.tend then
    if lease.tend = tNever then (admin.set l { lease with tsched := tschedNotOnHeap }, false)
    else ((admin.set l { lease with tsched := lease.tend }).insertHeap l, false)
  else if lease.kind = .proxyParticipant ∧ env.privilegedLive round l then
    let t := addDurationToEtime tnow (200 * tMillisecond)
    ((admin.set l { lease with tsched := t, tend := t }).insertHeap l, false)
  else
    ((env.freed round l).foldl leaseFree (admin.set l { lease with tsched := tschedNotOnHeap }),
      true)

/-- The loop of `check_and_handle_lease_expiration`, with the leases that expire and their ends at
that moment. A lease on the heap that does not exist is an error. -/
def expirationLoop (tnow : ℤ) (env : CheckEnv) :
    ℕ → ℕ → LeaseAdmin → Option (LeaseAdmin × List (ℕ × ℤ))
  | 0, _, _ => none
  | fuel + 1, round, admin =>
    match (env.leaseheap round).min admin.tsched admin.heap with
    | none => some (admin, [])
    | some l =>
      match admin.lease l with
      | none => none
      | some lease =>
        if lease.tsched ≤ tnow then do
          let out := handleLease tnow env round l lease admin
          let rest ← expirationLoop tnow env fuel (round + 1) out.1
          some (rest.1, if out.2 then (l, lease.tend) :: rest.2 else rest.2)
        else some (admin, [])

/-- `check_and_handle_lease_expiration`: no more rounds than there are leases on the heap. -/
def checkAndHandleLeaseExpiration (tnow : ℤ) (env : CheckEnv) (admin : LeaseAdmin) :
    Option (LeaseAdmin × List (ℕ × ℤ)) :=
  expirationLoop tnow env (admin.heap.length + 1) 0 admin

/-! ### What every call keeps up -/

/-- The leases on the heap are those with a time `tsched`, which is not later than their end, and
the leases that are `live` are on the heap if they have an end. -/
structure Scheduled (admin : LeaseAdmin) (live : ℕ → Prop) : Prop where
  nodup : admin.heap.Nodup
  on_heap : ∀ l ∈ admin.heap, ∃ lease, admin.lease l = some lease ∧
    lease.tsched ≠ tschedNotOnHeap ∧ lease.tsched ≤ lease.tend
  off_heap : ∀ l lease, admin.lease l = some lease → l ∉ admin.heap →
    lease.tsched = tschedNotOnHeap
  live_on_heap : ∀ l lease, admin.lease l = some lease → live l → lease.tend < tNever →
    l ∈ admin.heap
  nonneg : ∀ l lease, admin.lease l = some lease → 0 ≤ lease.tend ∧ 0 ≤ lease.tdur

lemma ne_notOnHeap {t : ℤ} (h : 0 ≤ t) : t ≠ tschedNotOnHeap := by
  unfold tschedNotOnHeap
  omega

lemma le_addDurationToEtime {t d : ℤ} (ht : 0 ≤ t) (hd : 0 ≤ d) (hnever : t < tNever) :
    0 ≤ addDurationToEtime t d ∧ t ≤ addDurationToEtime t d ∧
      (0 < d → t < addDurationToEtime t d) := by
  unfold addDurationToEtime
  split_ifs <;> omega

namespace Scheduled

variable {admin : LeaseAdmin} {live live' : ℕ → Prop} {l : ℕ} {lease : Lease}

variable (h : Scheduled admin live)
include h

lemma mono (hlive : ∀ x, live' x → live x) : Scheduled admin live' :=
  ⟨h.nodup, h.on_heap, h.off_heap, fun x lease hx hlive' ↦ h.live_on_heap x lease hx
    (hlive x hlive'), h.nonneg⟩

lemma of_set (heap : List ℕ) (hnodup : heap.Nodup)
    (hothers : ∀ x, x ≠ l → (x ∈ heap ↔ x ∈ admin.heap))
    (hnonneg : 0 ≤ lease.tend ∧ 0 ≤ lease.tdur)
    (hon : l ∈ heap → lease.tsched ≠ tschedNotOnHeap ∧ lease.tsched ≤ lease.tend)
    (hoff : l ∉ heap → lease.tsched = tschedNotOnHeap)
    (hlive : live' l → lease.tend < tNever → l ∈ heap) (hlive' : ∀ x, x ≠ l → live' x → live x) :
    Scheduled { lease := update admin.lease l (some lease), heap := heap } live' := by
  have hself : ∀ x lease', update admin.lease l (some lease) x = some lease' →
      (x = l ∧ lease' = lease) ∨ (x ≠ l ∧ admin.lease x = some lease') := by
    intro x lease' hx
    by_cases hxl : x = l
    · subst hxl
      rw [update_self] at hx
      exact .inl ⟨rfl, (some_inj.mp hx).symm⟩
    · rw [update_of_ne hxl] at hx
      exact .inr ⟨hxl, hx⟩
  refine ⟨hnodup, ?_, ?_, ?_, ?_⟩
  · intro x hx
    by_cases hxl : x = l
    · subst hxl
      exact ⟨lease, update_self _ _ _, hon hx⟩
    · obtain ⟨lease', hlease', hbounds⟩ := h.on_heap x ((hothers x hxl).mp hx)
      exact ⟨lease', (update_of_ne hxl _ _).trans hlease', hbounds⟩
  · intro x lease' hx hheap
    rcases hself x lease' hx with ⟨rfl, rfl⟩ | ⟨hxl, hx⟩
    · exact hoff hheap
    · exact h.off_heap x lease' hx (mt (hothers x hxl).mpr hheap)
  · intro x lease' hx hlivex hend
    rcases hself x lease' hx with ⟨rfl, rfl⟩ | ⟨hxl, hx⟩
    · exact hlive hlivex hend
    · exact (hothers x hxl).mpr (h.live_on_heap x lease' hx (hlive' x hxl hlivex) hend)
  · intro x lease' hx
    rcases hself x lease' hx with ⟨rfl, rfl⟩ | ⟨-, hx⟩
    · exact hnonneg
    · exact h.nonneg x lease' hx

lemma leaseFree (l : ℕ) : Scheduled (admin.leaseFree l) live := by
  unfold LeaseAdmin.leaseFree
  cases hl : admin.lease l with
  | none => exact h
  | some lease =>
    have hheap : ∀ x, x ∈ (if lease.tsched ≠ tschedNotOnHeap then admin.heap.erase l
        else admin.heap) ↔ x ≠ l ∧ x ∈ admin.heap := by
      intro x
      split_ifs with hsched
      · exact h.nodup.mem_erase_iff
      · refine ⟨fun hx ↦ ⟨?_, hx⟩, fun hx ↦ hx.2⟩
        rintro rfl
        obtain ⟨lease', hlease', hne, -⟩ := h.on_heap x hx
        rw [hl, some_inj] at hlease'
        exact hsched (hlease' ▸ hne)
    have hother : ∀ x lease', update admin.lease l none x = some lease' →
        x ≠ l ∧ admin.lease x = some lease' := by
      intro x lease' hx
      by_cases hxl : x = l
      · subst hxl
        simp at hx
      · exact ⟨hxl, by rwa [update_of_ne hxl] at hx⟩
    refine ⟨?_, ?_, ?_, ?_, ?_⟩
    · simp only
      split_ifs
      · exact h.nodup.erase l
      · exact h.nodup
    · intro x hx
      obtain ⟨hxl, hx⟩ := (hheap x).mp hx
      obtain ⟨lease', hlease', hbounds⟩ := h.on_heap x hx
      exact ⟨lease', (update_of_ne hxl _ _).trans hlease', hbounds⟩
    · intro x lease' hx hnot
      obtain ⟨hxl, hx⟩ := hother x lease' hx
      exact h.off_heap x lease' hx fun hmem ↦ hnot ((hheap x).mpr ⟨hxl, hmem⟩)
    · intro x lease' hx hlive hend
      obtain ⟨hxl, hx⟩ := hother x lease' hx
      exact (hheap x).mpr ⟨hxl, h.live_on_heap x lease' hx hlive hend⟩
    · exact fun x lease' hx ↦ h.nonneg x lease' (hother x lease' hx).2

end Scheduled

/-! ### The loop -/

def due (tnow : ℤ) (admin : LeaseAdmin) : ℕ := admin.heap.countP fun l ↦ admin.tsched l ≤ tnow

section Loop

variable {admin : LeaseAdmin} {live : ℕ → Prop} {tnow : ℤ} {l : ℕ} {lease : Lease} (env : CheckEnv)
  (round : ℕ)

/-- Fewer leases are due if some leave the heap and the others keep their time. -/
lemma due_le_of_sublist {admin' : LeaseAdmin} (hsub : admin'.heap.Sublist admin.heap)
    (hsame : ∀ x ∈ admin'.heap, admin'.tsched x = admin.tsched x) :
    due tnow admin' ≤ due tnow admin := by
  have hcongr : due tnow admin' = admin'.heap.countP fun x ↦ admin.tsched x ≤ tnow :=
    countP_congr fun x hx ↦ by rw [hsame x hx]
  rw [hcongr]
  exact hsub.countP_le

lemma due_insertHeap (hl : tnow < admin.tsched l) :
    due tnow (admin.insertHeap l) = due tnow admin := by
  have hnot : ¬decide (admin.tsched l ≤ tnow) := by simpa using hl
  exact countP_cons_of_neg hnot

section

variable (h : Scheduled admin live)
include h

lemma due_leaseFree_le (l : ℕ) : due tnow (admin.leaseFree l) ≤ due tnow admin := by
  have hfree := h.leaseFree l
  refine due_le_of_sublist ?_ fun x hx ↦ ?_
  · unfold leaseFree
    cases admin.lease l with
    | none => exact .refl _
    | some =>
      simp only
      split_ifs
      · exact erase_sublist
      · exact .refl _
  · obtain ⟨lease', hlease', -⟩ := hfree.on_heap x hx
    have hold : admin.lease x = some lease' := by
      unfold leaseFree at hlease'
      cases hl : admin.lease l with
      | none => rwa [hl] at hlease'
      | some =>
        simp only [hl] at hlease'
        by_cases hxl : x = l
        · subst hxl
          simp at hlease'
        · rwa [update_of_ne hxl] at hlease'
    rw [tsched, tsched, hlease', hold]

lemma due_erase_lt (hl : l ∈ admin.heap) (hdue : admin.tsched l ≤ tnow) (lease' : Lease) :
    due tnow (({ admin with heap := admin.heap.erase l } : LeaseAdmin).set l lease') <
      due tnow admin := by
  have hcount : due tnow admin =
      (admin.heap.erase l).countP (fun x ↦ admin.tsched x ≤ tnow) + 1 := by
    rw [due, (perm_cons_erase hl).countP_eq, countP_cons_of_pos (by simpa using hdue)]
  have hcongr : due tnow (({ admin with heap := admin.heap.erase l } : LeaseAdmin).set l lease') =
      (admin.heap.erase l).countP fun x ↦ admin.tsched x ≤ tnow := by
    refine countP_congr fun x hx ↦ ?_
    have hxl : x ≠ l := (h.nodup.mem_erase_iff.mp hx).1
    have hsame : (({ admin with heap := admin.heap.erase l } : LeaseAdmin).set l lease').tsched x =
        admin.tsched x := by
      simp [tsched, set, hxl]
    rw [hsame]
  omega

lemma putBack_spec (hl : l ∈ admin.heap) (hdue : admin.tsched l ≤ tnow)
    (lease' : Lease) (hnonneg : 0 ≤ lease'.tend ∧ 0 ≤ lease'.tdur)
    (hsched : lease'.tsched = lease'.tend) (hlater : tnow < lease'.tsched) :
    Scheduled ((({ admin with heap := admin.heap.erase l } : LeaseAdmin).set l lease').insertHeap l)
        live ∧
      due tnow ((({ admin with heap := admin.heap.erase l } : LeaseAdmin).set l lease').insertHeap
        l) < due tnow admin := by
  have hnot : l ∉ admin.heap.erase l := fun hmem ↦ (h.nodup.mem_erase_iff.mp hmem).1 rfl
  refine ⟨?_, ?_⟩
  · refine h.of_set (l :: admin.heap.erase l)
      (nodup_cons.mpr ⟨hnot, h.nodup.erase l⟩) ?_ hnonneg ?_ ?_ ?_ fun x _ hx ↦ hx
    · intro x hx
      simp [hx]
    · exact fun _ ↦ ⟨hsched ▸ ne_notOnHeap hnonneg.1, hsched.le⟩
    · exact fun hmem ↦ absurd mem_cons_self hmem
    · exact fun _ _ ↦ mem_cons_self
  · rw [due_insertHeap (by simpa [tsched, set])]
    exact due_erase_lt h hl hdue lease'

lemma takeOff_spec (hlease : admin.lease l = some lease)
    (live' : ℕ → Prop) (hlive : ∀ x, live' x → live x)
    (hgone : live' l → ¬lease.tend < tNever) :
    Scheduled (({ admin with heap := admin.heap.erase l } : LeaseAdmin).set l
      { lease with tsched := tschedNotOnHeap }) live' := by
  have hnot : l ∉ admin.heap.erase l := fun hmem ↦ (h.nodup.mem_erase_iff.mp hmem).1 rfl
  refine h.of_set (admin.heap.erase l) (h.nodup.erase l) ?_ (h.nonneg l lease hlease) ?_ ?_
    ?_ fun x _ hx ↦ hlive x hx
  · intro x hx
    simp [hx]
  · exact fun hmem ↦ absurd hmem hnot
  · exact fun _ ↦ rfl
  · exact fun hl' hend ↦ absurd hend (hgone hl')

end

lemma foldl_leaseFree_spec (tnow : ℤ) (h : Scheduled admin live) (freed : List ℕ) :
    Scheduled (freed.foldl leaseFree admin) live ∧
      due tnow (freed.foldl leaseFree admin) ≤ due tnow admin := by
  induction freed generalizing admin with
  | nil => exact ⟨h, le_rfl⟩
  | cons x _ ih =>
    obtain ⟨hrest, hle⟩ := ih (h.leaseFree x)
    exact ⟨hrest, hle.trans (due_leaseFree_le h x)⟩

/-- A round of the loop: one lease less is due, and a lease only stops being live by expiring after
its end. -/
lemma handleLease_spec (h : Scheduled admin live)
    (hl : l ∈ admin.heap) (hlease : admin.lease l = some lease) (hdue : lease.tsched ≤ tnow)
    (hpos : 0 ≤ tnow) (hfinite : tnow < tNever) :
    Scheduled (handleLease tnow env round l lease admin).1
        (fun x ↦ live x ∧ ((handleLease tnow env round l lease admin).2 → x ≠ l)) ∧
      due tnow (handleLease tnow env round l lease admin).1 < due tnow admin ∧
      ((handleLease tnow env round l lease admin).2 → lease.tend ≤ tnow) := by
  have hdue' : admin.tsched l ≤ tnow := by rwa [tsched, hlease]
  have hnonneg := h.nonneg l lease hlease
  unfold handleLease
  split
  case isTrue hlater =>
    split_ifs with hnever
    · refine ⟨takeOff_spec h hlease _ (fun x hx ↦ hx.1) fun _ ↦ ?_, due_erase_lt h hl hdue' _, ?_⟩
      · rw [hnever]
        exact lt_irrefl _
      · simp
    · obtain ⟨hsched, hlt⟩ := putBack_spec h hl hdue' { lease with tsched := lease.tend }
        hnonneg rfl hlater
      exact ⟨hsched.mono fun x hx ↦ hx.1, hlt, by simp⟩
  case isFalse hlater =>
    split_ifs with hpostpone
    · obtain ⟨hpos', -, hlt'⟩ := le_addDurationToEtime hpos
        (d := 200 * tMillisecond) (by decide) hfinite
      obtain ⟨hsched, hlt⟩ := putBack_spec h hl hdue' { lease with
        tsched := addDurationToEtime tnow (200 * tMillisecond)
        tend := addDurationToEtime tnow (200 * tMillisecond) } ⟨hpos', hnonneg.2⟩ rfl
        (hlt' (by decide))
      exact ⟨hsched.mono fun x hx ↦ hx.1, hlt, by simp⟩
    · have htake := takeOff_spec h hlease (fun x ↦ live x ∧ (true → x ≠ l))
        (fun x hx ↦ hx.1) fun hgone ↦ absurd rfl (hgone.2 rfl)
      obtain ⟨hsched, hle⟩ := foldl_leaseFree_spec tnow htake (env.freed round l)
      exact ⟨hsched, hle.trans_lt (due_erase_lt h hl hdue' _), fun _ ↦ not_lt.mp hlater⟩

/-- The loop ends with no lease that is due, and only leases after their ends have expired. -/
lemma expirationLoop_spec {fuel : ℕ} (h : Scheduled admin live)
    (hpos : 0 ≤ tnow) (hfinite : tnow < tNever) (hfuel : due tnow admin < fuel) :
    ∃ admin' expired, expirationLoop tnow env fuel round admin = some (admin', expired) ∧
      Scheduled admin' (fun x ↦ live x ∧ x ∉ expired.map Prod.fst) ∧
        (∀ e ∈ expired, e.2 ≤ tnow) ∧ ∀ x ∈ admin'.heap, tnow < admin'.tsched x := by
  induction fuel generalizing round admin live with
  | zero => omega
  | succ _ ih =>
    rw [expirationLoop]
    rcases (env.leaseheap round).min_spec admin.tsched h.nodup with
      ⟨hmin, hempty⟩ | ⟨l, hl, hmin, hle⟩
    · rw [hmin]
      exact ⟨admin, [], rfl, h.mono fun x hx ↦ hx.1, by simp, by simp [hempty]⟩
    · rw [hmin]
      obtain ⟨lease, hlease, -⟩ := h.on_heap l hl
      simp only [hlease]
      split
      case isTrue hdue =>
        obtain ⟨hsched, hlt, hend⟩ := handleLease_spec env round h hl hlease hdue hpos hfinite
        obtain ⟨admin', expired, hloop, hsched', hexpired, hlater⟩ :=
          ih (round + 1) hsched (by omega)
        refine ⟨admin', _, by rw [hloop]; rfl, hsched'.mono ?_, ?_, hlater⟩
        · rintro x ⟨hlive, hx⟩
          cases hout : (handleLease tnow env round l lease admin).2 with
          | true => simp_all
          | false => simp_all
        · intro e he
          cases hout : (handleLease tnow env round l lease admin).2 with
          | true =>
            simp only [hout, if_true, mem_cons] at he
            rcases he with rfl | he
            · exact hend hout
            · exact hexpired e he
          | false =>
            simp only [hout] at he
            exact hexpired e he
      case isFalse hdue =>
        refine ⟨admin, [], rfl, h.mono fun x hx ↦ hx.1, by simp, fun x hx ↦ ?_⟩
        refine lt_of_lt_of_le (not_le.mp hdue) (le_trans ?_ (hle x hx))
        rw [tsched, hlease]
        rfl

end Loop

end LeaseAdmin

/-! ### Runs -/

open LeaseAdmin

/-- The leases of a run, with those that have been registered and those that have expired. -/
structure LeaseRun where
  admin : LeaseAdmin
  registered : ℕ → Bool
  expired : ℕ → Bool

inductive LeaseCall
  | new (l : ℕ) (texpire tdur : ℤ) (kind : EntityKind)
  | register (l : ℕ)
  | renew (l : ℕ) (tnow : ℤ)
  | setExpiry (l : ℕ) (when : ℤ)
  | free (l : ℕ)
  | check (tnow : ℤ) (env : CheckEnv)

def leaseCall (run : LeaseRun) : LeaseCall → Option LeaseRun
  | .new l texpire tdur kind =>
    some ⟨run.admin.leaseNew l texpire tdur kind, update run.registered l false,
      update run.expired l false⟩
  | .register l => (run.admin.lease l).map fun lease ↦
    ⟨run.admin.leaseRegister l lease, update run.registered l true, update run.expired l false⟩
  | .renew l tnow => (run.admin.lease l).map fun lease ↦
    { run with admin := run.admin.leaseRenew l lease tnow }
  | .setExpiry l when => (run.admin.lease l).map fun lease ↦
    { run with admin := run.admin.leaseSetExpiry l lease when }
  | .free l => some { run with admin := run.admin.leaseFree l }
  | .check tnow env => (checkAndHandleLeaseExpiration tnow env run.admin).map fun out ↦
    { run with
      admin := out.1
      expired := fun l ↦ run.expired l || decide (l ∈ out.2.map Prod.fst) }

def Finite (t : ℤ) : Prop := 0 ≤ t ∧ t < tNever

instance (t : ℤ) : Decidable (Finite t) := inferInstanceAs (Decidable (_ ∧ _))

/-- What the callers see to: the address of a new lease is not in use, a lease is registered when it
is not on the heap, its expiry is set after that, and the times of calls are finite. -/
def LeaseCall.Permitted (run : LeaseRun) : LeaseCall → Prop
  | .new l texpire tdur _ => run.admin.lease l = none ∧ 0 ≤ texpire ∧ texpire ≤ tNever ∧ 0 ≤ tdur
  | .register l => ∀ lease, run.admin.lease l = some lease → lease.tsched = tschedNotOnHeap
  | .renew _ tnow => Finite tnow
  | .setExpiry l when => run.registered l = true ∧ 0 ≤ when ∧ when ≤ tNever
  | .free _ => True
  | .check tnow _ => Finite tnow

inductive LeaseReach : LeaseRun → Prop
  | init (registered expired : ℕ → Bool) : LeaseReach ⟨⟨fun _ ↦ none, []⟩, registered, expired⟩
  | call {run run' : LeaseRun} {c : LeaseCall} (h : LeaseReach run) (hpermitted : c.Permitted run)
    (hcall : leaseCall run c = some run') : LeaseReach run'

def LeaseRun.Live (run : LeaseRun) (l : ℕ) : Prop := run.registered l = true ∧ run.expired l = false

namespace LeaseAdmin.Scheduled

variable {admin : LeaseAdmin} {live live' : ℕ → Prop} {l : ℕ} {lease : Lease}

section

variable (h : Scheduled admin live)

include h

lemma leaseNew (hnew : admin.lease l = none) {texpire tdur : ℤ} (hexpire : 0 ≤ texpire)
    (hdur : 0 ≤ tdur) (kind : EntityKind) (hl : ¬live' l)
    (hothers : ∀ x, x ≠ l → live' x → live x) :
    Scheduled (admin.leaseNew l texpire tdur kind) live' := by
  have hnot : l ∉ admin.heap := fun hmem ↦ by
    obtain ⟨lease, hlease, -⟩ := h.on_heap l hmem
    rw [hnew] at hlease
    simp at hlease
  exact h.of_set admin.heap h.nodup (fun x _ ↦ Iff.rfl) ⟨hexpire, hdur⟩
    (fun hmem ↦ absurd hmem hnot)
    (fun _ ↦ rfl) (fun hlive ↦ absurd hlive hl) hothers

lemma insertHeap (hnot : l ∉ admin.heap) {lease' : Lease}
    (hnonneg : 0 ≤ lease'.tend ∧ 0 ≤ lease'.tdur) (hsched : lease'.tsched = lease'.tend)
    (hothers : ∀ x, x ≠ l → live' x → live x) :
    Scheduled ((admin.set l lease').insertHeap l) live' := by
  refine h.of_set (l :: admin.heap) (nodup_cons.mpr ⟨hnot, h.nodup⟩) ?_ hnonneg ?_ ?_ ?_ hothers
  · intro x hx
    simp [hx]
  · exact fun _ ↦ ⟨hsched ▸ ne_notOnHeap hnonneg.1, hsched.le⟩
  · exact fun hmem ↦ absurd mem_cons_self hmem
  · exact fun _ _ ↦ mem_cons_self

section

variable (hlease : admin.lease l = some lease)
include hlease

lemma tsched_le (hl : l ∈ admin.heap) : lease.tsched ≤ lease.tend := by
  obtain ⟨lease', hlease', -, hle⟩ := h.on_heap l hl
  rw [hlease, some_inj] at hlease'
  rwa [hlease']

lemma mem_heap_iff : l ∈ admin.heap ↔ lease.tsched ≠ tschedNotOnHeap := by
  refine ⟨fun hl ↦ ?_, fun hne ↦ by_contra fun hl ↦ hne (h.off_heap l lease hlease hl)⟩
  obtain ⟨lease', hlease', hne, -⟩ := h.on_heap l hl
  rw [hlease, some_inj] at hlease'
  rwa [hlease']

lemma leaseRegister (hsched : lease.tsched = tschedNotOnHeap)
    (hothers : ∀ x, x ≠ l → live' x → live x) :
    Scheduled (admin.leaseRegister l lease) live' := by
  have hnot : l ∉ admin.heap := fun hmem ↦ (h.mem_heap_iff hlease).mp hmem hsched
  unfold LeaseAdmin.leaseRegister
  split_ifs with hnever
  · exact h.insertHeap hnot (h.nonneg l lease hlease) rfl hothers
  · refine ⟨h.nodup, h.on_heap, h.off_heap, fun x lease' hx hlive hfinite ↦ ?_, h.nonneg⟩
    by_cases hxl : x = l
    · subst hxl
      rw [hlease, some_inj] at hx
      subst hx
      exact absurd hfinite.ne hnever
    · exact h.live_on_heap x lease' hx (hothers x hxl hlive) hfinite

lemma leaseRenew (tnow : ℤ) : Scheduled (admin.leaseRenew l lease tnow) live := by
  have hnonneg := h.nonneg l lease hlease
  unfold LeaseAdmin.leaseRenew
  by_cases hkeep : addDurationToEtime tnow lease.tdur ≤ lease.tend ∨ lease.tend ≤ tnow
  · simp only [if_pos hkeep]
    exact h
  · simp only [if_neg hkeep]
    have hlater : lease.tend < addDurationToEtime tnow lease.tdur :=
      not_le.mp fun hle ↦ hkeep (.inl hle)
    refine h.of_set admin.heap h.nodup (fun x _ ↦ Iff.rfl) ⟨hnonneg.1.trans hlater.le, hnonneg.2⟩
      ?_ ?_ ?_ fun x _ hx ↦ hx
    · exact fun hmem ↦ ⟨(h.mem_heap_iff hlease).mp hmem, (h.tsched_le hlease hmem).trans hlater.le⟩
    · exact fun hmem ↦ h.off_heap l lease hlease hmem
    · exact fun hlive hfinite ↦ h.live_on_heap l lease hlease hlive (hlater.trans hfinite)

lemma leaseSetExpiry {when : ℤ}
    (hwhen : 0 ≤ when) : Scheduled (admin.leaseSetExpiry l lease when) live := by
  have hdur := (h.nonneg l lease hlease).2
  unfold LeaseAdmin.leaseSetExpiry
  split
  case isTrue hearlier =>
    have hmem : l ∈ admin.heap :=
      (h.mem_heap_iff hlease).mpr (ne_notOnHeap (hwhen.trans hearlier.le))
    exact h.of_set admin.heap h.nodup (fun x _ ↦ Iff.rfl) ⟨hwhen, hdur⟩
      (fun _ ↦ ⟨ne_notOnHeap hwhen, le_rfl⟩) (fun hnot ↦ absurd hmem hnot) (fun _ _ ↦ hmem)
      fun x _ hx ↦ hx
  case isFalse hearlier =>
    split_ifs with hoff
    · have hnot : l ∉ admin.heap := fun hmem ↦ (h.mem_heap_iff hlease).mp hmem hoff.1
      exact h.insertHeap hnot ⟨hwhen, hdur⟩ rfl fun x _ hx ↦ hx
    · refine h.of_set admin.heap h.nodup (fun x _ ↦ Iff.rfl) ⟨hwhen, hdur⟩ ?_ ?_ ?_ fun x _ hx ↦ hx
      · exact fun hmem ↦ ⟨(h.mem_heap_iff hlease).mp hmem, not_lt.mp hearlier⟩
      · exact fun hmem ↦ h.off_heap l lease hlease hmem
      · exact fun _ hfinite ↦ (h.mem_heap_iff hlease).mpr fun hsched ↦ hoff ⟨hsched, hfinite⟩

end

lemma checkAndHandleLeaseExpiration {tnow : ℤ} (hnow : Finite tnow) (env : CheckEnv) :
    ∃ admin' expired,
      LeaseAdmin.checkAndHandleLeaseExpiration tnow env admin = some (admin', expired) ∧
        Scheduled admin' (fun x ↦ live x ∧ x ∉ expired.map Prod.fst) ∧
          (∀ e ∈ expired, e.2 ≤ tnow) ∧ ∀ x ∈ admin'.heap, tnow < admin'.tsched x :=
  expirationLoop_spec env 0 h hnow.1 hnow.2 (Nat.lt_succ_of_le countP_le_length)

end

end LeaseAdmin.Scheduled

lemma LeaseReach.scheduled {run : LeaseRun} (h : LeaseReach run) :
    Scheduled run.admin run.Live := by
  induction h with
  | init => exact ⟨nodup_nil, by simp, by simp, by simp, by simp⟩
  | @call _ _ c _ hpermitted hcall ih =>
    cases c with
    | new _ _ _ kind =>
      obtain rfl := some_inj.mp hcall
      obtain ⟨hnew, hexpire, -, hdur⟩ := hpermitted
      refine ih.leaseNew hnew hexpire hdur kind ?_ fun x hx hlive ↦ ?_
      · simp [LeaseRun.Live]
      · simpa [LeaseRun.Live, hx] using hlive
    | register =>
      obtain ⟨lease, hlease, rfl⟩ := map_eq_some_iff.mp hcall
      refine ih.leaseRegister hlease (hpermitted lease hlease) fun x hx hlive ↦ ?_
      simpa [LeaseRun.Live, hx] using hlive
    | renew _ tnow =>
      obtain ⟨lease, hlease, rfl⟩ := map_eq_some_iff.mp hcall
      exact ih.leaseRenew hlease tnow
    | setExpiry =>
      obtain ⟨lease, hlease, rfl⟩ := map_eq_some_iff.mp hcall
      exact ih.leaseSetExpiry hlease hpermitted.2.1
    | free l =>
      obtain rfl := some_inj.mp hcall
      exact ih.leaseFree l
    | check _ env =>
      obtain ⟨admin', expired, hcheck, hsched, -⟩ := ih.checkAndHandleLeaseExpiration hpermitted env
      rw [leaseCall, hcheck] at hcall
      obtain rfl := some_inj.mp hcall
      refine hsched.mono fun x hlive ↦ ?_
      simp only [LeaseRun.Live, Bool.or_eq_false_iff, decide_eq_false_iff_not] at hlive ⊢
      exact ⟨⟨hlive.1, hlive.2.1⟩, hlive.2.2⟩

/-- The heap has all leases inserted in order, no participant is privileged, and the deletion of an
entity frees no lease. -/
def plainCheck : CheckEnv := ⟨fun _ ↦ .ofInserts, fun _ _ ↦ false, fun _ _ ↦ []⟩

end OpenSplice.Ddsi
