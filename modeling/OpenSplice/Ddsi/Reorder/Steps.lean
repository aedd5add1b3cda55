import OpenSplice.Ddsi.Reorder.Edits

/-!
# What the reorder operations can do

`nnReorderRsample_step` and `nnReorderGap_step` say that `RsampleStep` and `GapStep` list all
outcomes of the two operations on an administration that satisfies its invariant; every property of
the administration is proved from these and not from the code of the operations. The cached maximum
is recomputed in each outcome (`Reorder.withTree`), which is what the assignments of the source
amount to.
-/

set_option autoImplicit false

namespace OpenSplice.Ddsi

open Library KeyedList List RsampleReorder

variable {F : Type} {r : Reorder F} {s : RsampleReorder F} {min maxp1 : ℤ}

/-! ### Adding a sample -/

/-- `nn_reorder_rsample` takes its last branch with a full administration: it stores the sample and
drops the last one. -/
def rsampleEvicts (lateAckMode : Bool) (reorder : Reorder F) (s : RsampleReorder F)
    (deliveryQueueFull : Bool) : Bool :=
  decide (reorder.nextSeq < s.min) && decide (reorder.maxSamples ≤ reorder.nSamples) &&
    reorder.maxIv.any (fun last ↦ s.min < last.maxp1) && !(lateAckMode && deliveryQueueFull) &&
    nnReorderWantsample reorder s.min

/-- The outcomes of adding the sample `s`: nothing happens, the sample and what follows it are
delivered, or the sample is stored, at the cost of the last one if there is no room. -/
inductive RsampleStep (lateAckMode : Bool) (r : Reorder F) (s : RsampleReorder F)
    (deliveryQueueFull : Bool) : Reorder F → List (RsampleChainElem F) → Prop
  | keep : RsampleStep lateAckMode r s deliveryQueueFull r []
  | deliver (hnext : s.min = r.nextSeq) (hfar : ∀ b ∈ r.sampleivtree, s.maxp1 < b.min) :
      RsampleStep lateAckMode r s deliveryQueueFull { r with nextSeq := s.maxp1 } s.sc
  | deliverJoin {m : RsampleReorder F} {post : List (RsampleReorder F)}
      (hnext : s.min = r.nextSeq) (htree : r.sampleivtree = m :: post) (hm : m.min = s.maxp1) :
      RsampleStep lateAckMode r s deliveryQueueFull
        { r.withTree post with nextSeq := m.maxp1, nSamples := r.nSamples - m.nSamples }
        (s.sc ++ m.sc)
  | store {tree : List (RsampleReorder F)} (hlt : r.nextSeq < s.min)
      (hroom : r.nSamples < r.maxSamples) (hs : Stores s r.sampleivtree tree) :
      RsampleStep lateAckMode r s deliveryQueueFull
        { r.withTree tree with nSamples := r.nSamples + 1 } []
  | storeEvict {stored tree : List (RsampleReorder F)}
      (hevicts : rsampleEvicts lateAckMode r s deliveryQueueFull = true)
      (hs : Stores s r.sampleivtree stored) (he : Evicts stored tree) :
      RsampleStep lateAckMode r s deliveryQueueFull (r.withTree tree) []

section

variable (h : ReorderInv r)
include h

/-- What the delivering branch of `nn_reorder_rsample` joins to the sample: the first interval, if
it starts right behind it. -/
lemma reorderTryAppendAndDiscard_first (hs : s.maxp1 = s.min + 1) (hnext : s.min = r.nextSeq) :
    ((∀ b ∈ r.sampleivtree, s.maxp1 < b.min) ∧
      reorderTryAppendAndDiscard r r.sampleivtree s r.sampleivtree.head? =
        (r.sampleivtree, s, false)) ∨
    ∃ m post, r.sampleivtree = m :: post ∧ m.min = s.maxp1 ∧
      reorderTryAppendAndDiscard r r.sampleivtree s r.sampleivtree.head? =
        (post, appendRsampleInterval s m, decide (post = [])) := by
  cases htree : r.sampleivtree with
  | nil => exact .inl ⟨by simp, rfl⟩
  | cons m post =>
    have hmax := h.max
    have hord := h.ordered
    have habove := h.above m (by simp [htree])
    rw [htree] at hmax hord
    by_cases hadj : m.min = s.maxp1
    · refine .inr ⟨m, post, rfl, hadj, ?_⟩
      have hjoin := reorderTryAppendAndDiscard_join s (nil_append (m :: post) ▸ hord) hmax hadj
      have hlast := lastKey_eq_iff (nil_append (m :: post) ▸ hord)
      simp only [nil_append] at hjoin hlast
      rw [head?_cons, hjoin, decide_eq_decide.mpr hlast]
    · have hlt : s.maxp1 < m.min := by omega
      refine .inl ⟨fun b hb ↦ ?_, ?_⟩
      · rcases mem_cons.mp hb with rfl | hb
        · exact hlt
        · have := (pairwise_cons.mp hord).1 b hb
          omega
      · simp [reorderTryAppendAndDiscard, hlt]

variable (lateAckMode : Bool)

lemma nnReorderRsample_deliver (hs : s.maxp1 = s.min + 1)
    (hn : s.nSamples = 1) (hnext : s.min = r.nextSeq) :
    let result := nnReorderRsample lateAckMode r s false
    RsampleStep lateAckMode r s false result.1 result.2.1.chain := by
  -- with an empty tree the source skips the attempt, which would fail
  have hskip : (if r.maxSampleiv.isSome then
      reorderTryAppendAndDiscard r r.sampleivtree s r.sampleivtree.head?
      else (r.sampleivtree, s, false)) =
      reorderTryAppendAndDiscard r r.sampleivtree s r.sampleivtree.head? := by
    split_ifs with hsome
    · rfl
    · rw [h.max] at hsome
      have hnil : r.sampleivtree = [] := by simpa [lastKey] using hsome
      simp [hnil, reorderTryAppendAndDiscard]
  unfold nnReorderRsample
  rw [if_pos (.inl hnext), if_neg (by simp), hskip]
  rcases reorderTryAppendAndDiscard_first h hs hnext with ⟨hfar, htry⟩ | ⟨m, post, htree, hm, htry⟩
  · rw [htry]
    simp only [Bool.false_eq_true, if_false, hn, Nat.sub_self, Nat.sub_zero]
    exact .deliver hnext hfar
  · rw [htry]
    have hmax : (if post = [] then none else r.maxSampleiv) = lastKey min post := by
      rw [h.max, htree, show m :: post = [] ++ m :: post from rfl, lastKey_split]
      split_ifs with hpost
      · simp [hpost, lastKey]
      · obtain ⟨init, last, rfl⟩ := (eq_nil_or_concat' post).resolve_left hpost
        rw [lastKey_concat, Option.some_or]
    simp only [decide_eq_true_eq, hmax, appendRsampleInterval, hn, Nat.add_sub_cancel_left]
    exact .deliverJoin hnext htree hm

lemma insert_last (hbehind : ∀ a ∈ r.sampleivtree, a.maxp1 < s.min) :
    Stores s r.sampleivtree (r.sampleivtree ++ [s]) ∧
      insert RsampleReorder.min s r.sampleivtree = r.sampleivtree ++ [s] := by
  have hmin : ∀ a ∈ r.sampleivtree, a.min < s.min := fun a ha ↦
    lt_trans (h.intervals a ha).lt (hbehind a ha)
  have hstores : Stores s (r.sampleivtree ++ []) (r.sampleivtree ++ [s]) := .new hbehind (by simp)
  have hinsert : insert min s (r.sampleivtree ++ []) =
      r.sampleivtree ++ [s] := insert_split hmin (by simp)
  rw [append_nil] at hstores hinsert
  exact ⟨hstores, hinsert⟩

/-- The last branch of `nn_reorder_rsample`, with the adjustment of the count. -/
lemma reorderCountOrEvict_step {lateAckMode full : Bool}
    {last : RsampleReorder F} (hok : IntervalOk s) (hs : s.maxp1 = s.min + 1)
    (hlast : r.maxIv = some last) (hnext : r.nextSeq < s.min) (hlt : s.min < last.maxp1)
    (hlate : ¬ (lateAckMode ∧ full))
    (hunknown : ∀ p, lookupPredEq RsampleReorder.min s.min r.sampleivtree = some p →
      p.maxp1 ≤ s.min) :
    RsampleStep lateAckMode r s full (reorderCountOrEvict (reorderInsertHard r s
        (lookupPredEq RsampleReorder.min s.min r.sampleivtree)
        (lookup RsampleReorder.min s.maxp1 r.sampleivtree))) [] := by
  have hmem : last ∈ r.sampleivtree := mem_of_getLast? (h.maxIv_eq ▸ hlast)
  obtain ⟨stored, hstores, hinsert⟩ := reorderInsertHard_stores h hs hmem hlt hunknown
  rw [hinsert]
  unfold reorderCountOrEvict
  split_ifs with hroom
  · exact .store hnext hroom hstores
  · have hsep := hstores.separated h.separated
    have hord := hsep.ordered fun a ha ↦ le_of_lt (hstores.intervals hok h.intervals a ha).lt
    obtain ⟨tree, hevicts, hdelete⟩ := deleteLastSample_evicts (r := r.withTree stored) hord rfl
      hstores.ne_nil
    rw [hdelete]
    refine .storeEvict ?_ hstores hevicts
    have hfull : r.maxSamples ≤ r.nSamples := by
      simp only [Reorder.withTree] at hroom
      omega
    have hwant : nnReorderWantsample r s.min := by
      unfold nnReorderWantsample
      rw [if_neg (by omega), Option.all_eq_true]
      exact fun p hp ↦ decide_eq_true (hunknown p hp)
    have hlate' : (lateAckMode && full) = false := Bool.eq_false_iff.mpr (by simpa using hlate)
    simp [rsampleEvicts, hnext, hfull, hlast, hlt, hwant, hlate']

lemma nnReorderRsample_step (hok : IntervalOk s)
    (hs : s.maxp1 = s.min + 1) (hn : s.nSamples = 1) (full : Bool) :
    let result := nnReorderRsample lateAckMode r s full
    RsampleStep lateAckMode r s full result.1 result.2.1.chain := by
  by_cases hnext : s.min = r.nextSeq
  · cases full with
    | false => exact nnReorderRsample_deliver h lateAckMode hs hn hnext
    | true =>
      unfold nnReorderRsample
      rw [if_pos (.inl hnext), if_pos rfl]
      exact .keep
  unfold nnReorderRsample
  rw [if_neg (by simp [hnext, h.mode])]
  by_cases hold : s.min < r.nextSeq
  · rw [if_pos hold]
    exact .keep
  have hlt : r.nextSeq < s.min := by omega
  by_cases hempty : r.sampleivtree = []
  · rw [if_pos hempty]
    split_ifs with hzero
    · exact .keep
    · obtain ⟨hstores, hinsert⟩ := insert_last h (s := s) (by simp [hempty])
      rw [hinsert, show some s.min = lastKey min (r.sampleivtree ++ [s]) from
        (lastKey_concat _ _).symm]
      have hcount := h.count
      rw [hempty, storedCount_nil] at hcount
      exact .store hlt (by omega) hstores
  obtain ⟨pre, last, htree⟩ := (eq_nil_or_concat' r.sampleivtree).resolve_left hempty
  have hiv : r.maxIv = some last := by rw [h.maxIv_eq, htree, getLast?_concat]
  rw [hiv]
  dsimp only
  by_cases hend : s.min = last.maxp1
  · rw [if_pos hend]
    split_ifs with hfull hroom
    · exact .keep
    · have hstores : Stores s r.sampleivtree (pre ++ [appendRsampleInterval last s]) :=
        htree ▸ .append hend.symm (by simp)
      have hmax : r.maxSampleiv = lastKey min (pre ++ [appendRsampleInterval last s]) := by
        rw [h.max, htree, lastKey_concat, lastKey_concat]
        rfl
      rw [htree, update_split (htree ▸ h.ordered), hmax]
      exact .store hlt hroom hstores
    · exact .keep
  by_cases hbehind : last.maxp1 < s.min
  · rw [if_pos hbehind]
    split_ifs with hfull hroom
    · exact .keep
    · obtain ⟨hstores, hinsert⟩ := insert_last h (s := s) fun a ha ↦
        lt_of_le_of_lt (h.maxp1_le_last htree ha) hbehind
      rw [hinsert, show some s.min = lastKey min (r.sampleivtree ++ [s]) from
        (lastKey_concat _ _).symm]
      exact .store hlt hroom hstores
    · exact .keep
  split_ifs with hlate hknown
  · exact .keep
  · exact .keep
  · refine reorderCountOrEvict_step h hok hs hiv hlt (by omega) hlate fun p hp ↦ ?_
    obtain ⟨-, -, -, hpmin, -⟩ := lookupPredEq_eq_some h.ordered hp
    rw [hp] at hknown
    simp only [Option.any_some, decide_eq_true_eq, not_and, not_lt] at hknown
    exact hknown hpmin

end

/-! ### Adding a gap -/

/-- `nn_reorder_gap` stores the gap as an interval of its own in a full administration, and drops
the last sample. -/
def gapEvicts (reorder : Reorder F) (min maxp1 : ℤ) : Bool :=
  decide (reorder.nextSeq < min) && decide (reorder.maxSamples ≤ reorder.nSamples) &&
    (firstTouching min maxp1 reorder.sampleivtree).isNone &&
    reorder.maxIv.any (fun last ↦ min ≤ last.maxp1)

/-- The outcomes of adding the gap `[min, maxp1)`: nothing happens, the gap is skipped, with or
without the delivery of stored samples, or the gap is stored, as an interval of its own or in those
it touches. -/
inductive GapStep (r : Reorder F) (rdata : F) (min maxp1 : ℤ) :
    Reorder F → List (RsampleChainElem F) → Prop
  | keep : GapStep r rdata min maxp1 r []
  | skip (hmin : min ≤ r.nextSeq) (hmax : r.nextSeq < maxp1)
      (hfar : ∀ b ∈ r.sampleivtree, maxp1 < b.min) :
      GapStep r rdata min maxp1 { r with nextSeq := maxp1 } []
  | skipDeliver {first : RsampleReorder F} {mid post : List (RsampleReorder F)}
      (hmin : min ≤ r.nextSeq) (htouch : Touching r.sampleivtree min maxp1 [] first mid post) :
      GapStep r rdata min maxp1
        { r.withTree post with
          nextSeq := (coalesced min maxp1 first mid).maxp1
          nSamples := r.nSamples - (coalesced min maxp1 first mid).nSamples }
        (coalesced min maxp1 first mid).sc
  | store {tree : List (RsampleReorder F)} (hrange : min < maxp1) (hlt : r.nextSeq < min)
      (hroom : r.nSamples < r.maxSamples)
      (hs : Stores (gapInterval rdata min maxp1) r.sampleivtree tree) :
      GapStep r rdata min maxp1 { r.withTree tree with nSamples := r.nSamples + 1 } []
  | storeEvict {stored tree : List (RsampleReorder F)} (hrange : min < maxp1)
      (hevicts : gapEvicts r min maxp1 = true)
      (hs : Stores (gapInterval rdata min maxp1) r.sampleivtree stored)
      (he : Evicts stored tree) : GapStep r rdata min maxp1 (r.withTree tree) []
  | widen {pre mid post : List (RsampleReorder F)} {first : RsampleReorder F}
      (hlt : r.nextSeq < min) (htouch : Touching r.sampleivtree min maxp1 pre first mid post) :
      GapStep r rdata min maxp1 (r.withTree (pre ++ coalesced min maxp1 first mid :: post)) []

lemma intervalOk_gap (rdata : F) (h : min < maxp1) :
    IntervalOk (gapInterval rdata min maxp1) where
  chain_ne := by simp [gapInterval]
  count := rfl
  fits := ⟨min, le_rfl, by simp, h⟩

variable (h : ReorderInv r)
include h

variable (rdata : F)

/-- A gap that touches no interval is stored between those before and those behind it. -/
lemma reorderInsertGap_stores (hlt : min < maxp1)
    (hfar : ∀ a ∈ r.sampleivtree, a.maxp1 < min ∨ maxp1 < a.min) :
    Stores (gapInterval rdata min maxp1) r.sampleivtree
      (reorderInsertGap r.sampleivtree rdata min maxp1) ∧
    ∀ last ∈ r.sampleivtree, maxp1 < last.min →
      lastKey RsampleReorder.min (reorderInsertGap r.sampleivtree rdata min maxp1) =
        lastKey RsampleReorder.min r.sampleivtree := by
  obtain ⟨pre, post, htree, hpre, hpost⟩ := h.ordered.exists_split min
  rw [htree] at hfar ⊢
  have hbefore : ∀ a ∈ pre, a.maxp1 < min := fun a ha ↦ by
    have := hpre a ha
    have := hfar a (mem_append_left post ha)
    omega
  have hafter : ∀ b ∈ post, maxp1 < b.min := fun b hb ↦ by
    have := hpost b hb
    have := (h.intervals b (by simp [htree, hb])).lt
    have := hfar b (mem_append_right pre hb)
    omega
  have hpre' : ∀ a ∈ pre, a.min < (gapInterval rdata min maxp1).min := fun a ha ↦
    lt_trans (h.intervals a (by simp [htree, ha])).lt (hbefore a ha)
  unfold reorderInsertGap
  rw [insert_split hpre' hpost]
  refine ⟨.new hbefore hafter, fun last hlast hbehind ↦ ?_⟩
  have hmem : last ∈ post := (mem_append.mp hlast).resolve_left fun hmem ↦ by
    have := hpre last hmem
    omega
  obtain ⟨init, max, rfl⟩ := (eq_nil_or_concat' post).resolve_left (ne_nil_of_mem hmem)
  rw [lastKey_split, lastKey_concat, ← append_assoc, lastKey_concat]
  rfl

lemma nnReorderGap_insert (hlt : min < maxp1)
    (hnext : r.nextSeq < min) (hfirst : firstTouching min maxp1 r.sampleivtree = none)
    (hfar : ∀ a ∈ r.sampleivtree, a.maxp1 < min ∨ maxp1 < a.min)
    (hfull : ¬ (r.nSamples = r.maxSamples ∧ (r.maxIv.all fun last ↦ decide (last.maxp1 < min)))) :
    GapStep r rdata min maxp1 ((reorderCountOrEvict
        { r with sampleivtree := reorderInsertGap r.sampleivtree rdata min maxp1 }).withTree
        (reorderCountOrEvict
          { r with sampleivtree := reorderInsertGap r.sampleivtree rdata min maxp1 }).sampleivtree)
        [] := by
  obtain ⟨hstores, hmax⟩ := reorderInsertGap_stores h rdata hlt hfar
  unfold reorderCountOrEvict
  split_ifs with hroom
  · exact .store hlt hnext hroom hstores
  · have hcount : r.nSamples = r.maxSamples := le_antisymm h.bounded (not_lt.mp hroom)
    -- the gap is not behind the last interval, so the cached maximum is right when it is used
    obtain ⟨last, hlast, hreach⟩ : ∃ last, r.maxIv = some last ∧ min ≤ last.maxp1 := by
      have hall : ¬ (r.maxIv.all fun last ↦ decide (last.maxp1 < min)) := fun hall ↦
        hfull ⟨hcount, hall⟩
      cases hiv : r.maxIv with
      | none => simp [hiv] at hall
      | some last => exact ⟨last, rfl, by simpa [hiv] using hall⟩
    have hmem : last ∈ r.sampleivtree := mem_of_getLast? (h.maxIv_eq ▸ hlast)
    have hbehind : maxp1 < last.min := by
      have := hfar last hmem
      omega
    have hord := (hstores.separated h.separated).ordered fun a ha ↦
      le_of_lt (hstores.intervals (intervalOk_gap rdata hlt) h.intervals a ha).lt
    obtain ⟨tree, hevicts, hdelete⟩ := deleteLastSample_evicts
      (r := { r with sampleivtree := reorderInsertGap r.sampleivtree rdata min maxp1 }) hord
      (h.max.trans (hmax last hmem hbehind).symm) hstores.ne_nil
    rw [hdelete]
    refine .storeEvict hlt ?_ hstores hevicts
    simp [gapEvicts, hnext, hcount, hfirst, hlast, hreach]

lemma nnReorderGap_step (hrange : min < maxp1 ∨ maxp1 ≤ 1) :
    let result := nnReorderGap r rdata min maxp1
    GapStep r rdata min maxp1 result.1 result.2.1.chain := by
  have hpos := h.pos
  unfold nnReorderGap
  by_cases hold : maxp1 ≤ r.nextSeq
  · rw [if_pos hold]
    exact .keep
  have hlt : min < maxp1 := by omega
  rw [if_neg hold, if_neg (by simp [h.mode])]
  rcases coalesceIntervalsTouchingRange_cases h.separated h.intervals hlt.le with
    ⟨hnone, hfirst, hfar⟩ | ⟨pre, first, mid, post, valuable, htouch, hsome⟩
  · rw [hnone]
    rw [← h.max]
    split_ifs with hskip hfull
    · refine .skip hskip (by omega) fun b hb ↦ ?_
      have := hfar b hb
      have := h.above b hb
      have := (h.intervals b hb).lt
      omega
    · exact .keep
    · exact nnReorderGap_insert h rdata hlt (by omega) hfirst hfar hfull
  · rw [hsome]
    dsimp only
    rw [coalesced_min]
    have habove := h.above first (by simp [htouch.split])
    split_ifs with hskip hvaluable
    · have hmin : min ≤ r.nextSeq := by omega
      have hpre : pre = [] := by
        refine eq_nil_iff_forall_not_mem.mpr fun a ha ↦ ?_
        have := htouch.before a ha
        have := h.above a (by simp [htouch.split, ha])
        have := (h.intervals a (by simp [htouch.split, ha])).lt
        omega
      subst hpre
      have hord := (htouch.separated h.separated).ordered fun a ha ↦
        le_of_lt (htouch.intervals h.separated h.intervals a ha).lt
      rw [← coalesced_min min maxp1 first mid, delete_split hord, nil_append]
      exact .skipDeliver hmin htouch
    all_goals
      have hmin : r.nextSeq < min := by omega
      exact .widen hmin htouch

end OpenSplice.Ddsi
