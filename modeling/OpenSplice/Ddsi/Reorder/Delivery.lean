import OpenSplice.Ddsi.Reorder.Steps

/-!
# Runs of the reorder administration

Any sequence of calls of `nnReorderRsample` and `nnReorderGap` on a new administration in normal
mode keeps the representation invariant (`reorderRun_inv`).

`Accounts` is what the administration is for: the numbers delivered so far increase, and every
number that is no longer expected, or in a stored interval, was delivered, is stored, or lies in a
gap the writer announced. One operation can break this. When the administration is full,
`delete_last_sample` drops the last sample and the last number of the last interval; if a gap has
widened that interval, the number dropped is the gap's, and that of the sample stays
(`losesSample`). A run that never meets this keeps the account (`reorderRun_accounts`).
-/

set_option autoImplicit false

namespace OpenSplice.Ddsi

open Library List Option Bool Reorder IntervalList KeyedList

variable {F : Type} {r : Reorder F} {s : RsampleReorder F} {tree : List (RsampleReorder F)}
  {lateAckMode full : Bool} {min maxp1 : ℤ} {r' : Reorder F} {sc : List (RsampleChainElem F)}
  {G : ℤ → Prop} {out : List ℤ}

variable {stored post : List (RsampleReorder F)}

/-- A call of `nn_reorder_rsample` or `nn_reorder_gap`. -/
inductive ReorderOp (F : Type)
  | rsample (fragchain : F) (sampleinfo : RsampleInfo) (deliveryQueueFull : Bool)
  | gap (rdata : F) (min maxp1 : ℤ)
  deriving DecidableEq

def ReorderOp.Ranged : ReorderOp F → Prop
  | .rsample _ _ _ => True
  | .gap _ min maxp1 => min < maxp1 ∨ maxp1 ≤ 1

def ReorderOp.declares (x : ℤ) : ReorderOp F → Prop
  | .rsample _ _ _ => False
  | .gap _ min maxp1 => min ≤ x ∧ x < maxp1

def reorderStep (lateAckMode : Bool) (r : Reorder F) :
    ReorderOp F → Reorder F × List (RsampleChainElem F)
  | .rsample fragchain info full =>
    let out := nnReorderRsample lateAckMode r (reorderRsampleNew fragchain info) full
    (out.1, out.2.1.chain)
  | .gap rdata min maxp1 =>
    let out := nnReorderGap r rdata min maxp1
    (out.1, out.2.1.chain)

def reorderRun (lateAckMode : Bool) (r : Reorder F) :
    List (ReorderOp F) → Reorder F × List (RsampleChainElem F)
  | [] => (r, [])
  | op :: ops =>
    let out := reorderStep lateAckMode r op
    let rest := reorderRun lateAckMode out.1 ops
    (rest.1, out.2 ++ rest.2)

/-! ### The representation invariant along a run -/

lemma rsampleEvicts_lt (h : rsampleEvicts lateAckMode r s full) : r.nextSeq < s.min := by
  simp only [rsampleEvicts, and_eq_true, decide_eq_true_eq] at h
  exact h.1.1.1.1

lemma gapEvicts_lt (h : gapEvicts r min maxp1) : r.nextSeq < min := by
  simp only [gapEvicts, and_eq_true, decide_eq_true_eq] at h
  exact h.1.1.1

section

variable (h : ReorderInv r)
include h

lemma ReorderInv.store (hok : IntervalOk s) (hone : s.sc.length = 1)
    (hlt : r.nextSeq < s.min) (hroom : r.nSamples < r.maxSamples)
    (hs : Stores s r.sampleivtree tree) :
    ReorderInv { r.withTree tree with nSamples := r.nSamples + 1 } where
  mode := h.mode
  pos := h.pos
  intervals := hs.intervals hok h.intervals
  separated := hs.separated h.separated
  above := hs.above hlt h.above
  max := rfl
  count := by
    have := hs.storedCount
    have := h.count
    simp only [withTree]
    omega
  bounded := hroom

lemma ReorderInv.storeEvict (hok : IntervalOk s) (hone : s.sc.length = 1)
    (hlt : r.nextSeq < s.min) (hs : Stores s r.sampleivtree stored) (he : Evicts stored tree) :
    ReorderInv (r.withTree tree) where
  mode := h.mode
  pos := h.pos
  intervals := he.intervals (hs.intervals hok h.intervals)
  separated := he.separated (hs.separated h.separated)
  above := he.above (hs.above hlt h.above)
  max := rfl
  count := by
    have := hs.storedCount
    have := he.storedCount (hs.intervals hok h.intervals)
    have := h.count
    simp only [withTree]
    omega
  bounded := h.bounded

/-- The first intervals leave the administration, which now expects a number before the rest. -/
lemma ReorderInv.advance (gone : List (RsampleReorder F))
    (htree : r.sampleivtree = gone ++ post) {next : ℤ} (hpos : 1 ≤ next)
    (hnext : ∀ b ∈ post, next < b.min) {n : ℕ} (hn : n = r.nSamples - storedCount gone) :
    ReorderInv { r.withTree post with nextSeq := next, nSamples := n } where
  mode := h.mode
  pos := hpos
  intervals := fun a ha ↦ h.intervals a (htree ▸ mem_append_right gone ha)
  separated := by
    have hsep := h.separated
    rw [htree] at hsep
    exact (separated_append.mp hsep).2.1
  above := hnext
  max := rfl
  count := by
    have hcount := h.count
    rw [htree, storedCount_append] at hcount
    simp only [withTree]
    omega
  bounded := by
    have := h.bounded
    simp only [withTree]
    omega

lemma RsampleStep.inv (hok : IntervalOk s) (hone : s.sc.length = 1)
    (hstep : RsampleStep lateAckMode r s full r' sc) : ReorderInv r' := by
  have hlt := hok.lt
  have hpos := h.pos
  cases hstep with
  | keep => exact h
  | deliver _ hfar =>
    have hadv := h.advance [] rfl (by omega : 1 ≤ s.maxp1) hfar (n := r.nSamples) (by simp)
    rwa [h.withTree_self] at hadv
  | @deliverJoin m _ _ htree hm =>
    have hm := h.intervals m (by simp [htree])
    have hsep := h.separated
    rw [htree] at hsep
    have hmlt := hm.lt
    exact h.advance [m] htree (by omega) (separated_cons.mp hsep).1 (by simp [hm.count])
  | store hlt hroom hs => exact h.store hok hone hlt hroom hs
  | storeEvict hevicts hs he => exact h.storeEvict hok hone (rsampleEvicts_lt hevicts) hs he

lemma GapStep.inv {rdata : F} (hstep : GapStep r rdata min maxp1 r' sc) : ReorderInv r' := by
  have hpos := h.pos
  cases hstep with
  | keep => exact h
  | skip _ _ hfar =>
    have hadv := h.advance [] rfl (by omega : 1 ≤ maxp1) hfar (n := r.nSamples) (by simp)
    rwa [h.withTree_self] at hadv
  | @skipDeliver first mid _ _ htouch =>
    have hok := htouch.coalesced_ok h.separated h.intervals
    have hsep := htouch.separated h.separated
    refine h.advance (first :: mid) htouch.split ?_ (separated_cons.mp hsep).1 ?_
    · have hend := (coalesced_maxp1 min maxp1 first mid).1
      have hstart := htouch.start first mem_cons_self
      have habove := h.above first (by simp [htouch.split])
      omega
    · rw [hok.count, coalesced_sc_length]
  | store hrange hlt hroom hs => exact h.store (intervalOk_gap rdata hrange) rfl hlt hroom hs
  | storeEvict hrange hevicts hs he =>
    exact h.storeEvict (intervalOk_gap rdata hrange) rfl (gapEvicts_lt hevicts) hs he
  | @widen _ _ _ _ hlt htouch =>
    refine ⟨h.mode, h.pos, htouch.intervals h.separated h.intervals, htouch.separated h.separated,
      ?_, rfl, ?_, h.bounded⟩
    · have habove := h.above
      rw [htouch.split] at habove
      simp only [withTree, forall_mem_append, forall_mem_cons] at habove ⊢
      refine ⟨habove.1, ?_, habove.2.2⟩
      rw [coalesced_min]
      exact lt_min hlt habove.2.1.1
    · have hcount := h.count
      rw [htouch.split] at hcount
      simp only [withTree, storedCount_append, storedCount_cons, coalesced_sc_length] at hcount ⊢
      omega

end

variable {op : ReorderOp F}

lemma reorderStep_inv (lateAckMode : Bool) (h : ReorderInv r) (hop : op.Ranged) :
    ReorderInv (reorderStep lateAckMode r op).1 := by
  cases op with
  | rsample fragchain info full =>
    exact (nnReorderRsample_step h lateAckMode (intervalOk_rsampleNew fragchain info) rfl rfl
      full).inv h (intervalOk_rsampleNew fragchain info) rfl
  | gap rdata => exact (nnReorderGap_step h rdata hop).inv h

variable {ops : List (ReorderOp F)} {k : ℤ}

lemma reorderRun_inv (lateAckMode : Bool) :
    ∀ {r : Reorder F}, ReorderInv r → (∀ op ∈ ops, op.Ranged) →
      ReorderInv (reorderRun lateAckMode r ops).1 := by
  induction ops with
  | nil => exact fun h _ ↦ h
  | cons op _ ih =>
    intro r h hops
    exact ih (reorderStep_inv lateAckMode h (hops op mem_cons_self))
      fun op' hop' ↦ hops op' (mem_cons_of_mem op hop')

/-- In every state that calls of `nn_reorder_rsample` and `nn_reorder_gap` reach from a new
administration in normal mode, the intervals are non-empty, separated and above `next_seq`,
`max_sampleiv` is the last of them, the counts are the chain lengths, and each chain is in order
within its interval.

Assumes: the gap ranges are as the callers pass them. -/
theorem reorder_representation (lateAckMode : Bool) (maxSamples : ℕ) (ops : List (ReorderOp F))
    (hops : ∀ op ∈ ops, op.Ranged) :
    let r := (reorderRun lateAckMode (nnReorderNew .normal maxSamples) ops).1
    (∀ s ∈ r.sampleivtree, s.min < s.maxp1) ∧
    r.sampleivtree.Pairwise (fun a b ↦ a.maxp1 < b.min) ∧
    (∀ s ∈ r.sampleivtree, r.nextSeq < s.min) ∧
    (r.maxSampleiv = none ↔ r.sampleivtree = []) ∧
    (∀ k, r.maxSampleiv = some k →
      ∃ last ∈ r.sampleivtree, last.min = k ∧ ∀ s ∈ r.sampleivtree, s.min ≤ k) ∧
    r.nSamples = (r.sampleivtree.map fun s ↦ s.sc.length).sum ∧
    (∀ s ∈ r.sampleivtree, s.nSamples = s.sc.length ∧ s.nSamples ≤ s.maxp1 - s.min) ∧
    (∀ s ∈ r.sampleivtree, (chainSeqs s.sc).Pairwise (· < ·) ∧
      ∀ x ∈ chainSeqs s.sc, s.min ≤ x ∧ x < s.maxp1) ∧
    r.nSamples ≤ r.maxSamples := by
  intro r
  have h : ReorderInv r := reorderRun_inv lateAckMode (reorderInv_new maxSamples) hops
  refine ⟨fun s hs ↦ (h.intervals s hs).lt, h.separated, h.above, ?_, fun k hk ↦ ?_, h.count,
    fun s hs ↦ ⟨(h.intervals s hs).count, ?_⟩, fun s hs ↦ (h.intervals s hs).fits.chainSeqs,
    h.bounded⟩
  · rw [h.max]
    simp [lastKey]
  · rw [h.max] at hk
    obtain ⟨last, hlast, rfl⟩ := map_eq_some_iff.mp hk
    obtain ⟨pre, htree⟩ := getLast?_eq_some_iff.mp hlast
    refine ⟨last, by simp [htree], rfl, fun s hs ↦ ?_⟩
    obtain ⟨-, -, hbefore, -⟩ := ordered_append_cons.mp (htree ▸ h.ordered)
    rw [htree] at hs
    rcases mem_append.mp hs with hs | hs
    · exact (hbefore s hs).le
    · rw [mem_singleton.mp hs]
  · have := (h.intervals s hs).count
    have := (h.intervals s hs).fits.length_le
    omega

/-- A sample ahead of the next one, a gap that touches it and the missing sample. -/
theorem reorder_representation_run :
    let ops : List (ReorderOp Unit) :=
      [.rsample () ⟨3, 4, 4⟩ false, .gap () 4 6, .rsample () ⟨1, 4, 4⟩ false]
    (reorderRun false (nnReorderNew .normal 2) ops).1.nSamples ≤ 2 :=
  (reorder_representation false 2
    [.rsample () ⟨3, 4, 4⟩ false, .gap () 4 6, .rsample () ⟨1, 4, 4⟩ false]
    (by simp [ReorderOp.Ranged])).2.2.2.2.2.2.2.2

/-! ### The account of the sequence numbers -/

/-- Every number the interval claims is that of a sample in its chain, or in `G`. -/
def Knows (G : ℤ → Prop) (s : RsampleReorder F) : Prop :=
  ∀ x, s.min ≤ x → x < s.maxp1 → x ∈ chainSeqs s.sc ∨ G x

/-- The account of a run so far: `out` are the numbers delivered, `G` those given up. -/
structure Accounts (G : ℤ → Prop) (out : List ℤ) (r : Reorder F) : Prop where
  sorted : out.Pairwise (· < ·)
  below : ∀ x ∈ out, x < r.nextSeq
  delivered : ∀ x, 1 ≤ x → x < r.nextSeq → x ∈ out ∨ G x
  stored : ∀ s ∈ r.sampleivtree, Knows G s

lemma accounts_new (G : ℤ → Prop) (mode : ReorderMode) (maxSamples : ℕ) :
    Accounts G [] (nnReorderNew mode maxSamples : Reorder F) where
  sorted := .nil
  below := by simp
  delivered := fun x hpos hlt ↦ absurd hlt (by simp only [nnReorderNew]; omega)
  stored := by simp [nnReorderNew]

section Knows

variable {G : ℤ → Prop} {s : RsampleReorder F} {tree tree' : List (RsampleReorder F)}

lemma knows_rsampleNew (G : ℤ → Prop) (fragchain : F) (info : RsampleInfo) :
    Knows G (reorderRsampleNew fragchain info) := by
  intro x hmin hmax
  simp only [reorderRsampleNew] at hmin hmax
  have hx : x = info.seq := by omega
  simp [reorderRsampleNew, chainSeqs, RsampleChainElem.seq?, hx]

lemma Knows.append {a b : RsampleReorder F} (ha : Knows G a) (hb : Knows G b)
    (hbetween : ∀ x, a.maxp1 ≤ x → x < b.min → G x) : Knows G (appendRsampleInterval a b) := by
  intro x hmin hmax
  simp only [appendRsampleInterval, chainSeqs_append, mem_append] at hmin hmax ⊢
  by_cases hxa : x < a.maxp1
  · have := ha x hmin hxa
    tauto
  by_cases hxb : x < b.min
  · exact .inr (hbetween x (by omega) hxb)
  · have := hb x (by omega) hmax
    tauto

lemma Stores.knows (h : Stores s tree tree') (hs : Knows G s)
    (htree : ∀ a ∈ tree, Knows G a) : ∀ a ∈ tree', Knows G a := by
  cases h <;> simp only [forall_mem_append, forall_mem_cons] at htree ⊢
  case new => exact ⟨htree.1, hs, htree.2⟩
  case append hp hpost =>
    exact ⟨htree.1, htree.2.1.append hs fun x hle hlt ↦ absurd hlt (by omega), htree.2.2⟩
  case prepend hpre hm =>
    exact ⟨htree.1, hs.append htree.2.1 fun x hle hlt ↦ absurd hlt (by omega), htree.2.2⟩
  case join p m post hp hm =>
    have hps := htree.2.1.append hs fun x hle hlt ↦ absurd hlt (by omega)
    refine ⟨htree.1, hps.append htree.2.2.1 fun x hle hlt ↦ absurd hlt ?_, htree.2.2.2⟩
    simp only [appendRsampleInterval] at hle
    omega

def stretched (s : RsampleReorder F) : Bool :=
  s.sc.getLast?.any fun e ↦ e.seq?.any fun x ↦ x + 1 < s.maxp1

lemma chainSeqs_dropLast {sc : List (RsampleChainElem F)} {e : RsampleChainElem F}
    (hlast : sc.getLast? = some e) : chainSeqs sc = chainSeqs sc.dropLast ++ e.seq?.toList := by
  obtain ⟨init, rfl⟩ := getLast?_eq_some_iff.mp hlast
  cases hseq : e.seq? <;> simp [chainSeqs, hseq]

/-- Dropping the last element of an interval that is not stretched gives up no other number. -/
lemma Knows.dropLastSample (h : Knows G s) (hstretched : stretched s = false) :
    Knows G (dropLastSample s) := by
  intro x hmin hmax
  simp only [Ddsi.dropLastSample] at hmin hmax ⊢
  rcases h x hmin (by omega) with hx | hx
  · left
    cases hlast : s.sc.getLast? with
    | none =>
      rw [getLast?_eq_none_iff] at hlast
      simp [hlast] at hx
    | some e =>
      rw [chainSeqs_dropLast hlast, mem_append] at hx
      refine hx.resolve_right fun hseq ↦ ?_
      have hseq : e.seq? = some x := by simpa using hseq
      simp only [stretched, hlast, hseq, any_some, decide_eq_false_iff_not] at hstretched
      omega
  · exact .inr hx

lemma Evicts.knows (h : Evicts tree tree') (htree : ∀ a ∈ tree, Knows G a)
    (hlast : ∀ last, tree.getLast? = some last → last.sc.length ≠ 1 → stretched last = false) :
    ∀ a ∈ tree', Knows G a := by
  cases h with
  | interval => exact fun a ha ↦ htree a (mem_append_left _ ha)
  | @element _ last hlen =>
    simp only [forall_mem_append, forall_mem_singleton] at htree ⊢
    exact ⟨htree.1, htree.2.dropLastSample (hlast last (by simp) hlen)⟩

/-- Storing ahead of the last interval leaves its end as it is: the last interval of the new list
ends with the same element at the same number, and has more than one only if the old one had, or
was grown at its head. -/
lemma Stores.getLast? (h : Stores s tree tree') (htree : ∀ a ∈ tree, IntervalOk a)
    {last : RsampleReorder F} (hlast : tree.getLast? = some last) (hlt : s.min < last.min) :
    ∃ last', tree'.getLast? = some last' ∧ last'.maxp1 = last.maxp1 ∧
      last'.sc.getLast? = last.sc.getLast? ∧
      (last'.sc.length ≠ 1 → 2 ≤ last.sc.length ∨ s.maxp1 = last.min) := by
  have hok := htree last (mem_of_getLast? hlast)
  have hlen : last.sc.length ≠ 1 → 2 ≤ last.sc.length ∨ s.maxp1 = last.min := fun hne ↦ by
    have := length_pos_iff.mpr hok.chain_ne
    omega
  have hmax := hok.lt
  have hend : ∀ sc, (sc ++ last.sc).getLast? = last.sc.getLast? :=
    fun sc ↦ getLast?_append_of_ne_nil sc hok.chain_ne
  cases h with
  | @new _ post hpre =>
    rcases eq_nil_or_concat' post with rfl | ⟨init, b, rfl⟩
    · have := hpre last (mem_of_getLast? (by simpa using hlast))
      omega
    · exact ⟨last, by simpa [getLast?_cons] using hlast, rfl, rfl, hlen⟩
  | @append _ post p =>
    rcases eq_nil_or_concat' post with rfl | ⟨init, b, rfl⟩
    · obtain rfl : p = last := by simpa using hlast
      omega
    · exact ⟨last, by simpa [getLast?_cons] using hlast, rfl, rfl, hlen⟩
  | @prepend _ post m _ hm =>
    rcases eq_nil_or_concat' post with rfl | ⟨init, b, rfl⟩
    · obtain rfl : m = last := by simpa using hlast
      exact ⟨_, getLast?_concat, rfl, hend s.sc, fun _ ↦ .inr hm.symm⟩
    · exact ⟨last, by simpa [getLast?_cons] using hlast, rfl, rfl, hlen⟩
  | @join _ post p m _ hm =>
    rcases eq_nil_or_concat' post with rfl | ⟨init, b, rfl⟩
    · obtain rfl : m = last := by simpa using hlast
      exact ⟨_, getLast?_concat, rfl, hend (p.sc ++ s.sc), fun _ ↦ .inr hm.symm⟩
    · exact ⟨last, by simpa [getLast?_cons] using hlast, rfl, rfl, hlen⟩

end Knows

/-! ### The eviction that loses a sample -/

/-- The call makes a full administration drop its last sample, and a gap has widened the last
interval beyond that sample. The interval is not dropped with the sample: it holds another one, or
the new sample, right before it, has just become part of it. -/
def losesSample (lateAckMode : Bool) (r : Reorder F) : ReorderOp F → Bool
  | .rsample fragchain info full =>
    rsampleEvicts lateAckMode r (reorderRsampleNew fragchain info) full &&
      r.maxIv.any fun last ↦
        stretched last && (decide (2 ≤ last.sc.length) || decide (info.seq + 1 = last.min))
  | .gap _ min maxp1 =>
    gapEvicts r min maxp1 &&
      r.maxIv.any fun last ↦ stretched last && decide (2 ≤ last.sc.length)

def neverLoses (lateAckMode : Bool) (r : Reorder F) : List (ReorderOp F) → Bool
  | [] => true
  | op :: ops =>
    !losesSample lateAckMode r op && neverLoses lateAckMode (reorderStep lateAckMode r op).1 ops

lemma rsampleEvicts_last (h : ReorderInv r) (hevicts : rsampleEvicts lateAckMode r s full) :
    ∃ last, r.sampleivtree.getLast? = some last ∧ s.min < last.min := by
  simp only [rsampleEvicts, and_eq_true, decide_eq_true_eq, Option.any_eq_true] at hevicts
  obtain ⟨⟨⟨-, last, hlast, hreach⟩, -⟩, hwant⟩ := hevicts
  rw [h.maxIv_eq] at hlast
  refine ⟨last, hlast, ?_⟩
  by_contra hle
  unfold nnReorderWantsample at hwant
  split_ifs at hwant with hold
  simp only [Option.all_eq_true, decide_eq_true_eq] at hwant
  have := maxp1_le_of_unknown h.separated h.ordered hwant (mem_of_getLast? hlast) (by omega)
  omega

lemma gapEvicts_last (h : ReorderInv r) (hrange : min < maxp1) (hevicts : gapEvicts r min maxp1) :
    ∃ last, r.sampleivtree.getLast? = some last ∧ maxp1 < last.min := by
  simp only [gapEvicts, and_eq_true, decide_eq_true_eq, Option.any_eq_true,
    isNone_iff_eq_none] at hevicts
  obtain ⟨⟨-, hfirst⟩, last, hlast, hreach⟩ := hevicts
  rw [h.maxIv_eq] at hlast
  refine ⟨last, hlast, ?_⟩
  rcases coalesceIntervalsTouchingRange_cases h.separated h.intervals hrange.le with
    ⟨-, -, hfar⟩ | ⟨pre, first, mid, post, valuable, htouch, hsome⟩
  · have := hfar last (mem_of_getLast? hlast)
    omega
  · simp [coalesceIntervalsTouchingRange, hfirst] at hsome

/-- Storing and evicting keeps what the intervals know, unless the last one is stretched and not
dropped as a whole. -/
lemma knows_storeEvict (h : ReorderInv r) (hs : Stores s r.sampleivtree stored)
    (he : Evicts stored tree) (hknows : Knows G s) (hall : ∀ a ∈ r.sampleivtree, Knows G a)
    {last : RsampleReorder F} (hlast : r.sampleivtree.getLast? = some last) (hlt : s.min < last.min)
    (hsafe : stretched last → ¬ (2 ≤ last.sc.length ∨ s.maxp1 = last.min)) :
    ∀ a ∈ tree, Knows G a := by
  refine he.knows (hs.knows hknows hall) fun last' hlast' hlen ↦ ?_
  obtain ⟨last'', hlast'', hmax, hend, hone⟩ := hs.getLast? h.intervals hlast hlt
  obtain rfl : last'' = last' := some.inj (hlast''.symm.trans hlast')
  have hsame : stretched last'' = stretched last := by
    unfold stretched
    rw [hmax, hend]
  rw [hsame]
  by_contra hstretched
  exact hsafe (by simpa using hstretched) (hone hlen)

/-! ### The account along a run -/

/-- A delivery: the administration goes on to `next` and hands over `new`, which has every number
from the one it expected so far, except those given up. -/
lemma Accounts.advance {new : List ℤ} (h : Accounts G out r) (hle : r.nextSeq ≤ r'.nextSeq)
    (htree : ∀ s ∈ r'.sampleivtree, s ∈ r.sampleivtree) (hsorted : new.Pairwise (· < ·))
    (hnew : ∀ x ∈ new, r.nextSeq ≤ x ∧ x < r'.nextSeq)
    (hall : ∀ x, r.nextSeq ≤ x → x < r'.nextSeq → x ∈ new ∨ G x) :
    Accounts G (out ++ new) r' where
  sorted := by
    refine pairwise_append.mpr ⟨h.sorted, hsorted, fun x hx y hy ↦ ?_⟩
    have := h.below x hx
    have := hnew y hy
    omega
  below := by
    intro x hx
    rcases mem_append.mp hx with hx | hx
    · exact lt_of_lt_of_le (h.below x hx) hle
    · exact (hnew x hx).2
  delivered := by
    intro x hpos hlt
    rw [mem_append]
    by_cases hx : x < r.nextSeq
    · have := h.delivered x hpos hx
      tauto
    · have := hall x (by omega) hlt
      tauto
  stored := fun s hs ↦ h.stored s (htree s hs)

/-- A call that delivers nothing and keeps what the intervals know. -/
lemma Accounts.keep (h : Accounts G out r) {n : ℕ} (htree : ∀ s ∈ tree, Knows G s) :
    Accounts G out { r.withTree tree with nSamples := n } where
  sorted := h.sorted
  below := h.below
  delivered := h.delivered
  stored := htree

/-- The delivery of an interval that starts at the expected number. -/
lemma Accounts.deliver (h : Accounts G out r) {c : RsampleReorder F} (hok : IntervalOk c)
    (hknows : Knows G c) (hmin : c.min = r.nextSeq) (hnext : r'.nextSeq = c.maxp1)
    (htree : ∀ s ∈ r'.sampleivtree, s ∈ r.sampleivtree) :
    Accounts G (out ++ chainSeqs c.sc) r' := by
  have hlt := hok.lt
  obtain ⟨hsorted, hrange⟩ := hok.fits.chainSeqs
  refine h.advance (by omega) htree hsorted (fun x hx ↦ ?_) fun x hle hlt ↦ ?_
  · have := hrange x hx
    omega
  · exact hknows x (by omega) (by omega)

lemma RsampleStep.accounts {fragchain : F} {info : RsampleInfo} (h : ReorderInv r)
    (hacc : Accounts G out r)
    (hsafe : losesSample lateAckMode r (.rsample fragchain info full) = false)
    (hstep : RsampleStep lateAckMode r (reorderRsampleNew fragchain info) full r' sc) :
    Accounts G (out ++ chainSeqs sc) r' := by
  have hok := intervalOk_rsampleNew fragchain info
  have hknows := knows_rsampleNew G fragchain info
  cases hstep with
  | keep => simpa using hacc
  | deliver hnext => exact hacc.deliver hok hknows hnext rfl fun s hs ↦ hs
  | @deliverJoin m _ hnext htree hm =>
    have hmem : m ∈ r.sampleivtree := by simp [htree]
    exact hacc.deliver (hok.append (h.intervals m hmem) (le_of_eq hm.symm))
      (hknows.append (hacc.stored m hmem) fun x hle hlt ↦ absurd hlt (by omega)) hnext rfl
      fun s hs ↦ htree ▸ mem_cons_of_mem m hs
  | store _ _ hs =>
    rw [chainSeqs_nil, append_nil]
    exact hacc.keep (hs.knows hknows hacc.stored)
  | storeEvict hevicts hs he =>
    rw [chainSeqs_nil, append_nil]
    obtain ⟨last, hlast, hlt⟩ := rsampleEvicts_last h hevicts
    refine hacc.keep (n := r.nSamples) (knows_storeEvict h hs he hknows hacc.stored hlast hlt ?_)
    rintro hstretched hlen
    simp only [losesSample, hevicts, h.maxIv_eq, hlast, hstretched, any_some,
      Bool.true_and, or_eq_false_iff, decide_eq_false_iff_not] at hsafe
    exact hlen.elim hsafe.1 hsafe.2

/-- Intervals that touch a range given up from `k` on are joined over numbers given up. -/
lemma knows_foldl_append (hgap : ∀ x, min ≤ x → x < maxp1 → k ≤ x → G x)
    (mid : List (RsampleReorder F)) :
    ∀ first, (∀ a ∈ first :: mid, Knows G a) →
      (∀ a ∈ first :: mid, min ≤ a.maxp1 ∧ k ≤ a.maxp1) → (∀ a ∈ mid, a.min ≤ maxp1) →
      Knows G (mid.foldl appendRsampleInterval first) := by
  induction mid with
  | nil => exact fun first hall _ _ ↦ hall first (by simp)
  | cons _ _ ih =>
    intro first hall hstop hstart
    simp only [forall_mem_cons] at hall hstop hstart
    obtain ⟨hfirst, ht, hmid⟩ := hall
    refine ih _ (forall_mem_cons.mpr ⟨hfirst.append ht fun x hle hlt ↦ ?_, hmid⟩)
      (forall_mem_cons.mpr ⟨hstop.2.1, hstop.2.2⟩) hstart.2
    exact hgap x (by omega) (by omega) (by omega)

/-- What the coalesced interval of a gap knows, from a number `k` before its intervals on. -/
lemma coalesced_knows {pre mid : List (RsampleReorder F)} {first : RsampleReorder F}
    (htouch : Touching tree min maxp1 pre first mid post) (hall : ∀ a ∈ tree, Knows G a)
    (habove : ∀ a ∈ tree, k < a.min) (hok : ∀ a ∈ tree, IntervalOk a)
    (hgap : ∀ x, min ≤ x → x < maxp1 → k ≤ x → G x) {x : ℤ} (hk : k ≤ x)
    (hmin : (coalesced min maxp1 first mid).min ≤ x)
    (hmax : x < (coalesced min maxp1 first mid).maxp1) :
    x ∈ chainSeqs (coalesced min maxp1 first mid).sc ∨ G x := by
  have hmem : ∀ a ∈ first :: mid, a ∈ tree := fun a ha ↦
    htouch.split ▸ mem_append_right pre (mem_append_left post ha)
  have hjoined := knows_foldl_append hgap mid first (fun a ha ↦ hall a (hmem a ha))
    (fun a ha ↦ ⟨htouch.stop a ha, by
      have := habove a (hmem a ha)
      have := (hok a (hmem a ha)).lt
      omega⟩) fun a ha ↦ htouch.start a (mem_cons_of_mem first ha)
  obtain ⟨a, ha, hend⟩ := foldl_append_maxp1 mid first
  have hstart := htouch.start first mem_cons_self
  have hstop := htouch.stop a ha
  rw [coalesced_min] at hmin
  simp only [coalesced, growRange] at hmax ⊢
  by_cases hlow : x < first.min
  · refine .inr (hgap x ?_ (by omega) hk)
    exact (min_le_iff.mp hmin).resolve_right (by omega)
  by_cases hhigh : x < (mid.foldl appendRsampleInterval first).maxp1
  · exact hjoined x (by rw [foldl_append_min]; omega) hhigh
  · refine .inr (hgap x (by omega) ?_ hk)
    split_ifs at hmax <;> omega

lemma GapStep.accounts (lateAckMode : Bool) {rdata : F} (h : ReorderInv r)
    (hacc : Accounts G out r) (hgap : ∀ x, min ≤ x → x < maxp1 → r.nextSeq ≤ x → G x)
    (hsafe : losesSample lateAckMode r (.gap rdata min maxp1) = false)
    (hstep : GapStep r rdata min maxp1 r' sc) : Accounts G (out ++ chainSeqs sc) r' := by
  have hnew : r.nextSeq < min → Knows G (gapInterval rdata min maxp1) := fun hlt x hle hltx ↦
    .inr (hgap x hle hltx (by simp only [gapInterval] at hle; omega))
  cases hstep with
  | keep => simpa using hacc
  | skip _ hmax =>
    refine hacc.advance hmax.le (fun s hs ↦ hs) .nil (by simp) fun x hle hlt ↦ ?_
    exact .inr (hgap x (by omega) hlt hle)
  | @skipDeliver first mid _ _ htouch =>
    have hmem : first ∈ r.sampleivtree := by simp [htouch.split]
    have habove := h.above first hmem
    have hstart := htouch.start first mem_cons_self
    have hend := (coalesced_maxp1 min maxp1 first mid).1
    obtain ⟨hsorted, hrange⟩ := htouch.chainSeqs_coalesced h.separated h.intervals
    refine hacc.advance ?_ (fun s hs ↦ ?_) hsorted (fun x hx ↦ ?_) fun x hle hlt ↦ ?_
    · show r.nextSeq ≤ (coalesced min maxp1 first mid).maxp1
      omega
    · rw [htouch.split]
      exact mem_append_right (first :: mid) hs
    · have := hrange x hx
      show r.nextSeq ≤ x ∧ x < (coalesced min maxp1 first mid).maxp1
      omega
    · refine coalesced_knows htouch hacc.stored h.above h.intervals hgap hle ?_ hlt
      rw [coalesced_min]
      exact min_le_iff.mpr (.inl (by omega))
  | store _ hlt _ hs =>
    rw [chainSeqs_nil, append_nil]
    exact hacc.keep (hs.knows (hnew hlt) hacc.stored)
  | storeEvict hrange hevicts hs he =>
    rw [chainSeqs_nil, append_nil]
    obtain ⟨last, hlast, hlt⟩ := gapEvicts_last h hrange hevicts
    refine hacc.keep (n := r.nSamples) (knows_storeEvict h hs he (hnew (gapEvicts_lt hevicts))
      hacc.stored hlast (lt_trans hrange hlt) ?_)
    rintro hstretched hlen
    simp only [losesSample, hevicts, h.maxIv_eq, hlast, hstretched, any_some,
      Bool.true_and, decide_eq_false_iff_not] at hsafe
    exact hlen.elim hsafe fun hadj ↦ hlt.ne hadj
  | @widen _ _ _ first _ htouch =>
    rw [chainSeqs_nil, append_nil]
    refine hacc.keep (n := r.nSamples) fun s hs ↦ ?_
    have hall := hacc.stored
    rw [htouch.split] at hall
    simp only [forall_mem_append, forall_mem_cons] at hall
    rcases mem_middle.mp hs with hs | rfl | hs
    · exact hall.1 s hs
    · intro x hmin hmax
      refine coalesced_knows htouch hacc.stored h.above h.intervals hgap ?_ hmin hmax
      have habove := h.above first (by simp [htouch.split])
      rw [coalesced_min] at hmin
      rcases min_le_iff.mp hmin with hmin | hmin <;> omega
    · exact hall.2.2 s hs

lemma reorderStep_accounts (h : ReorderInv r) (hacc : Accounts G out r) (hop : op.Ranged)
    (hgap : ∀ x, op.declares x → r.nextSeq ≤ x → G x)
    (hsafe : losesSample lateAckMode r op = false) :
    Accounts G (out ++ chainSeqs (reorderStep lateAckMode r op).2)
      (reorderStep lateAckMode r op).1 := by
  cases op with
  | rsample fragchain info full =>
    exact (nnReorderRsample_step h lateAckMode (intervalOk_rsampleNew fragchain info) rfl rfl
      full).accounts h hacc hsafe
  | gap rdata =>
    exact (nnReorderGap_step h rdata hop).accounts lateAckMode h hacc
      (fun x hmin hmax ↦ hgap x ⟨hmin, hmax⟩) hsafe

lemma reorderRun_accounts : ∀ {out : List ℤ} {r : Reorder F}, ReorderInv r → Accounts G out r →
      (∀ op ∈ ops, op.Ranged) → (∀ op ∈ ops, ∀ x, op.declares x → G x) →
      neverLoses lateAckMode r ops →
      Accounts G (out ++ chainSeqs (reorderRun lateAckMode r ops).2)
        (reorderRun lateAckMode r ops).1 := by
  induction ops with
  | nil =>
    intro out r _ hacc _ _ _
    simpa [reorderRun] using hacc
  | cons _ _ ih =>
    intro out r h hacc hops hgap hsafe
    simp only [neverLoses, and_eq_true, not_eq_true'] at hsafe
    obtain ⟨hop, hops⟩ := forall_mem_cons.mp hops
    obtain ⟨hgapop, hgap⟩ := forall_mem_cons.mp hgap
    have hstep := reorderStep_accounts h hacc hop (fun x hx _ ↦ hgapop x hx) hsafe.1
    have hrun := ih (reorderStep_inv lateAckMode h hop) hstep hops hgap hsafe.2
    simpa [reorderRun] using hrun

/-- In every run of the administration in which no call loses a sample, the delivered samples are
strictly increasing, and every number below the next expected one was delivered exactly once or lies
in a range declared a gap.

Assumes: the gap ranges are as the callers pass them. -/
theorem reorder_delivers_every_number (lateAckMode : Bool) (maxSamples : ℕ)
    (ops : List (ReorderOp F)) (hops : ∀ op ∈ ops, op.Ranged)
    (hsafe : neverLoses lateAckMode (nnReorderNew .normal maxSamples) ops = true) :
    let out := reorderRun lateAckMode (nnReorderNew .normal maxSamples) ops
    (chainSeqs out.2).Pairwise (· < ·) ∧
    ∀ x, 1 ≤ x → x < out.1.nextSeq → (chainSeqs out.2).count x = 1 ∨ ∃ op ∈ ops, op.declares x := by
  intro out
  have hacc : Accounts (fun x ↦ ∃ op ∈ ops, op.declares x) ([] ++ chainSeqs out.2) out.1 :=
    reorderRun_accounts (reorderInv_new maxSamples) (accounts_new _ .normal maxSamples) hops
      (fun op hop x hx ↦ ⟨op, hop, hx⟩) hsafe
  rw [nil_append] at hacc
  refine ⟨hacc.sorted, fun x hpos hlt ↦ ?_⟩
  rcases hacc.delivered x hpos hlt with hx | hx
  · exact .inl (count_eq_one_of_mem (hacc.sorted.imp fun hxy ↦ hxy.ne) hx)
  · exact .inr hx

/-- A full administration that evicts a sample from an interval no gap has widened. -/
theorem reorder_delivers_every_number_evicting :
    let ops : List (ReorderOp Unit) :=
      [.rsample () ⟨5, 4, 4⟩ false, .rsample () ⟨6, 4, 4⟩ false, .rsample () ⟨3, 4, 4⟩ false,
        .gap () 1 3, .rsample () ⟨4, 4, 4⟩ false]
    let out := reorderRun false (nnReorderNew .normal 2) ops
    out.1.nextSeq = 6 ∧ (chainSeqs out.2).Pairwise (· < ·) :=
  ⟨by decide, (reorder_delivers_every_number false 2
    [.rsample () ⟨5, 4, 4⟩ false, .rsample () ⟨6, 4, 4⟩ false, .rsample () ⟨3, 4, 4⟩ false,
      .gap () 1 3, .rsample () ⟨4, 4, 4⟩ false]
    (by simp [ReorderOp.Ranged]) (by decide)).1⟩

/-- Samples 5 and 6 are stored, a gap at 7 widens their interval, and sample 3 evicts sample 6. The
interval still claims 6, so the retransmitted sample 6 is rejected, and delivery passes over it. -/
theorem reorder_loses_evicted_sample :
    let ops : List (ReorderOp Unit) :=
      [.rsample () ⟨5, 4, 4⟩ false, .rsample () ⟨6, 4, 4⟩ false, .gap () 7 8,
        .rsample () ⟨3, 4, 4⟩ false, .rsample () ⟨6, 4, 4⟩ false, .rsample () ⟨1, 4, 4⟩ false,
        .rsample () ⟨2, 4, 4⟩ false, .rsample () ⟨4, 4, 4⟩ false]
    let out := reorderRun false (nnReorderNew .normal 2) ops
    out.1.nextSeq = 7 ∧ chainSeqs out.2 = [1, 2, 3, 4, 5] ∧ ¬ ∃ op ∈ ops, op.declares 6 := by
  refine ⟨by decide, by decide, ?_⟩
  simp [ReorderOp.declares]

end OpenSplice.Ddsi
