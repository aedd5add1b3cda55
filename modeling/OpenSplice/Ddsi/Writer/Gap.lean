import OpenSplice.Ddsi.Writer.DropPoint

/-!
# What a Gap declares

A reader that receives a Gap never asks again for the samples it declares unavailable, so the Gap of
`handle_AckNack` may only declare samples that are not in the cache, and should declare the first
one missing. The loop collects the missing samples as a range and bits behind it (`GapScan`).

The range is then extended up to the next sample in the cache, or up to what was transmitted. If the
next sample is not transmitted yet, `grow_gap_to_next_seq` returns the last number transmitted
instead of the one behind it (`growGapToNextSeq_spec`). This takes the last number off the range, or
if it is the only one declares the number before it (`CollectedGap.makeGap_clamped`).
-/

set_option autoImplicit false

namespace OpenSplice.Ddsi

open Library Library.Neighbour List Option Bool Prod

def Gap.Declares (gap : Gap) (n : ℤ) : Prop :=
  gap.gapStart ≤ n ∧ n < gap.bitmapBase ∨
    ∃ i : ℕ, gap.bits[i]? = some true ∧ n = gap.bitmapBase + i

/-- The loop of `handle_AckNack` gets to a place: it is one of those that are considered, its sample
was transmitted, and no retransmit before it was refused. -/
def Reply.Reaches (reply : Reply) (env : RexmitEnv) (msg : AckNack) (whc : Whc) (seqXmit : ℤ)
    (i : ℕ) : Prop :=
  i < reply.numbits ∧ reply.seqbase + i ≤ seqXmit ∧ ∀ j < i, requested msg j = true →
    reply.seqbase + j ∈ whc.seqs → env.refuses reply.merging (reply.seqbase + j) = false

def Reply.FoundMissing (reply : Reply) (env : RexmitEnv) (msg : AckNack) (whc : Whc) (seqXmit : ℤ)
    (n : ℤ) : Prop :=
  ∃ i : ℕ, n = reply.seqbase + i ∧ reply.Reaches env msg whc seqXmit i ∧ requested msg i = true ∧
    n ∉ whc.seqs

/-- The numbers from `seqbase` on that are asked for and not in `S`. -/
def Missing (msg : AckNack) (seqbase : ℤ) (S : Set ℤ) (n : ℤ) : Prop :=
  ∃ i : ℕ, n = seqbase + i ∧ requested msg i = true ∧ n ∉ S

/-! ### Collecting the missing samples -/

/-- The gap of the missing numbers below `cur`, once there is one: a range from the first one on,
and bits for others behind it. -/
structure CollectedGap (M : ℤ → Prop) (cur : ℤ) (rs : RexmitState) : Prop where
  pos : 0 < rs.gapstart
  lt : rs.gapstart < rs.gapend
  le_cur : rs.gapend ≤ cur
  first : ∀ n < rs.gapstart, ¬ M n
  range : ∀ n, rs.gapstart ≤ n → n < rs.gapend → M n
  stop : rs.gapend < cur → ¬ M rs.gapend
  length : rs.gapbits.length = 256
  numbits_pos : 0 < rs.gapnumbits → rs.gapend < cur
  bits : ∀ i, rs.gapbits[i]? = some true →
    i < rs.gapnumbits ∧ rs.gapend + i < cur ∧ M (rs.gapend + i)

/-- The missing numbers below `cur` were collected. -/
inductive GapScan (M : ℤ → Prop) (cur : ℤ) (rs : RexmitState) : Prop
  | none (hstart : rs.gapstart = -1) (hnum : rs.gapnumbits = 0)
      (hbits : rs.gapbits = List.replicate 256 false) (hnone : ∀ n < cur, ¬ M n)
  | some (hgap : CollectedGap M cur rs)

section Scan

variable {M : ℤ → Prop} {cur : ℤ} {rs : RexmitState}

open GapScan

lemma CollectedGap.setBit (h : CollectedGap M cur rs) (hcur : M cur) (hlt : rs.gapend < cur) :
    CollectedGap M (cur + 1) { rs with
      gapnumbits := (cur - rs.gapend).toNat + 1
      gapbits := rs.gapbits.set (cur - rs.gapend).toNat true } := by
  have hidx : rs.gapend + ((cur - rs.gapend).toNat : ℤ) = cur := by omega
  refine ⟨h.pos, h.lt, by simp only; omega, h.first, h.range, fun _ ↦ h.stop hlt, ?_, fun _ ↦ ?_,
    fun i hi ↦ ?_⟩
  · simp only [length_set]
    exact h.length
  · simp only
    omega
  · simp only [getElem?_set] at hi
    split_ifs at hi with heq hbound
    · subst heq
      refine ⟨Nat.lt_succ_self _, ?_, ?_⟩
      · simp only
        omega
      · simp only [hidx]
        exact hcur
    · obtain ⟨-, hbelow, hM⟩ := h.bits i hi
      refine ⟨?_, ?_, hM⟩ <;> simp only <;> omega

variable (h : GapScan M cur rs)
include h

lemma GapScan.skip (hcur : ¬ M cur) : GapScan M (cur + 1) rs := by
  cases h with
  | none hstart hnum hbits hnone =>
    refine none hstart hnum hbits fun n hn ↦ ?_
    rcases (Int.lt_add_one_iff.mp hn).lt_or_eq with hlt | rfl
    · exact hnone n hlt
    · exact hcur
  | some hgap =>
    refine some { hgap with
      le_cur := hgap.le_cur.trans (by omega)
      stop := fun hlt ↦ ?_
      numbits_pos := fun hpos ↦ (hgap.numbits_pos hpos).trans (by omega)
      bits := fun i hi ↦ ?_ }
    · rcases (Int.lt_add_one_iff.mp hlt).lt_or_eq with hlt | heq
      · exact hgap.stop hlt
      · exact heq ▸ hcur
    · obtain ⟨hnum, hlt, hM⟩ := hgap.bits i hi
      exact ⟨hnum, by omega, hM⟩

lemma GapScan.of_eq {rs' : RexmitState}
    (hstart : rs'.gapstart = rs.gapstart) (hend : rs'.gapend = rs.gapend)
    (hnum : rs'.gapnumbits = rs.gapnumbits) (hbits : rs'.gapbits = rs.gapbits) :
    GapScan M cur rs' := by
  cases h with
  | none hs hn hb hnone =>
    exact none (hstart.trans hs) (hnum.trans hn) (hbits.trans hb) hnone
  | some hgap =>
    obtain ⟨hpos, hlt, hle, hfirst, hrange, hstop, hlen, hnumpos, hb⟩ := hgap
    refine some ⟨?_, ?_, ?_, ?_, ?_, ?_, ?_, ?_, ?_⟩ <;>
      simp only [hstart, hend, hnum, hbits] <;> assumption

lemma GapScan.noteMissing (hpos : 0 < cur) (hcur : M cur) :
    GapScan M (cur + 1) (noteMissing cur rs) := by
  unfold Ddsi.noteMissing
  cases h with
  | none hstart hnum hbits hnone =>
    rw [if_pos hstart]
    refine some ⟨hpos, by simp only; omega, le_refl _, hnone, fun n hlo hhi ↦ ?_,
      fun hlt ↦ absurd hlt (lt_irrefl _), ?_, fun hzero ↦ ?_, fun i hi ↦ ?_⟩
    · simp only at hlo hhi
      obtain rfl : n = cur := by omega
      exact hcur
    · rw [hbits]
      exact length_replicate
    · exact absurd hzero (by simp; omega)
    · simp only [hbits, getElem?_replicate] at hi
      split_ifs at hi
      simp at hi
  | some hgap =>
    have hfresh : rs.gapstart ≠ -1 := by
      have := hgap.pos
      omega
    rw [if_neg hfresh]
    split_ifs with hext hnear
    · -- the range grows, and there are no bits yet
      have hnobits : ¬ 0 < rs.gapnumbits := fun hnum ↦ by
        have := hgap.numbits_pos hnum
        omega
      refine some ⟨hgap.pos, by simp only; have := hgap.lt; omega, le_refl _, hgap.first,
        fun n hlo hhi ↦ ?_, fun hlt ↦ absurd hlt (lt_irrefl _), hgap.length,
        fun hnum ↦ absurd hnum hnobits, fun i hi ↦ ?_⟩
      · simp only at hhi
        by_cases hn : n < rs.gapend
        · exact hgap.range n hlo hn
        · obtain rfl : n = cur := by omega
          exact hcur
      · exact absurd (Nat.zero_lt_of_lt (hgap.bits i hi).1) hnobits
    · have hlt : rs.gapend < cur := lt_of_le_of_ne hgap.le_cur (Ne.symm hext)
      exact some (hgap.setBit hcur hlt)
    · have hlt : rs.gapend < cur := lt_of_le_of_ne hgap.le_cur (Ne.symm hext)
      refine some { hgap with
        le_cur := hgap.le_cur.trans (by omega)
        stop := fun _ ↦ hgap.stop hlt
        numbits_pos := fun _ ↦ by omega
        bits := fun i hi ↦ ?_ }
      obtain ⟨hnum, hbelow, hM⟩ := hgap.bits i hi
      exact ⟨hnum, by omega, hM⟩

end Scan

section Loop

variable {env : RexmitEnv} {wr : Writer} {rn : WrPrdMatch} {merging : Bool} {msg : AckNack}
  {seqbase last : ℤ} {rs : RexmitState} {i : ℕ}

/-- One sample that is still there: the gap does not change, and the loop goes on unless the
retransmit is refused. -/
lemma rexmitFound_spec (whcn : WhcNode) (rs : RexmitState) :
    (rexmitFound env rn merging whcn rs).enqueued = (rs.enqueued && !env.refuses merging whcn.seq) ∧
      (rexmitFound env rn merging whcn rs).gapstart = rs.gapstart ∧
      (rexmitFound env rn merging whcn rs).gapend = rs.gapend ∧
      (rexmitFound env rn merging whcn rs).gapnumbits = rs.gapnumbits ∧
      (rexmitFound env rn merging whcn rs).gapbits = rs.gapbits := by
  unfold rexmitFound RexmitEnv.refuses
  by_cases hrecent : (merging && env.recent whcn.seq)
  · simp [hrecent]
  · rw [if_neg hrecent]
    by_cases hroom : env.enqueue whcn.seq
    · simp [hroom]
    · rw [not_eq_true] at hrecent hroom
      simp [hrecent, hroom]

lemma noteMissing_enqueued (seq : ℤ) (rs : RexmitState) :
    (noteMissing seq rs).enqueued = rs.enqueued := by
  unfold noteMissing
  split_ifs <;> rfl

lemma GapScan.place (h : GapScan (Missing msg seqbase wr.whc.seqs) (seqbase + i) rs)
    (hpos : 0 < seqbase) (henq : rs.enqueued) {rs' : RexmitState}
    (hrs' : rs' =
      if requested msg i then rexmitOne env wr.whc rn merging (seqbase + i) rs else rs) :
    GapScan (Missing msg seqbase wr.whc.seqs) (seqbase + i + 1) rs' ∧
      (rs'.enqueued ↔ (requested msg i → seqbase + i ∈ wr.whc.seqs →
        env.refuses merging (seqbase + i) = false)) := by
  by_cases hreq : requested msg i
  · rw [if_pos hreq, rexmitOne] at hrs'
    cases hfind : whcFindseq wr.whc (seqbase + i) with
    | none =>
      have hmissing := findseq_eq_none.mp hfind
      simp only [hfind] at hrs'
      rw [hrs']
      refine ⟨h.noteMissing (by omega) ⟨i, rfl, hreq, hmissing⟩, ?_⟩
      simp [noteMissing_enqueued, henq, hmissing]
    | some whcn =>
      obtain ⟨hmem, hseq⟩ := findseq_eq_some hfind
      obtain ⟨henq', hstart, hend, hnum, hbits⟩ := rexmitFound_spec whcn rs
      have hthere : seqbase + i ∈ wr.whc.seqs := hseq ▸ Whc.mem_seqs hmem
      simp only [hfind] at hrs'
      rw [hrs']
      refine ⟨(h.skip fun ⟨j, _, _, hnot⟩ ↦ hnot hthere).of_eq hstart hend hnum hbits, ?_⟩
      rw [henq', henq, hseq]
      simp [hreq, hthere]
  · rw [if_neg hreq] at hrs'
    rw [hrs']
    refine ⟨h.skip fun ⟨j, hj, hreq', _⟩ ↦ hreq ?_, by simp [henq, hreq]⟩
    obtain rfl : i = j := by omega
    exact hreq'

lemma rexmitLoop_stopped (k i : ℕ) (henq : rs.enqueued = false) :
    rexmitLoop env wr rn merging msg seqbase k i rs = rs := by
  cases k with
  | zero => rfl
  | succ => simp [rexmitLoop, henq]

/-- The loop collects the missing numbers of the places it gets to, which are the first `e` ones. -/
lemma rexmitLoop_scan (reply : Reply) (hpos : 0 < reply.seqbase) (k : ℕ)
    (hnum : reply.numbits = i + k)
    (h : GapScan (Missing msg reply.seqbase wr.whc.seqs) (reply.seqbase + i) rs)
    (henq : rs.enqueued)
    (hclear : ∀ j < i, requested msg j → reply.seqbase + j ∈ wr.whc.seqs →
      env.refuses reply.merging (reply.seqbase + j) = false)
    (hxmit : ∀ j < i, reply.seqbase + j ≤ wr.seqXmit) :
    ∃ e : ℕ, GapScan (Missing msg reply.seqbase wr.whc.seqs) (reply.seqbase + e)
        (rexmitLoop env wr rn reply.merging msg reply.seqbase k i rs) ∧
      ∀ j, reply.Reaches env msg wr.whc wr.seqXmit j ↔ j < e := by
  -- the first `i` places have been looked at, and nothing has stopped the loop so far
  have hbelow : ∀ j < i, reply.Reaches env msg wr.whc wr.seqXmit j :=
    fun j hj ↦ ⟨by omega, hxmit j hj, fun l hl ↦ hclear l (hl.trans hj)⟩
  induction k generalizing i rs with
  | zero =>
    refine ⟨i, h, fun j ↦ ⟨fun hj ↦ ?_, hbelow j⟩⟩
    have := hj.1
    omega
  | succ k ih =>
    rw [rexmitLoop]
    by_cases hle : reply.seqbase + i ≤ wr.seqXmit
    · rw [if_pos ⟨hle, henq⟩]
      obtain ⟨hscan, henq'⟩ := h.place hpos henq rfl
      have hreach : reply.Reaches env msg wr.whc wr.seqXmit i := ⟨by omega, hle, hclear⟩
      have hbelow' : ∀ j < i + 1, reply.Reaches env msg wr.whc wr.seqXmit j := by
        intro j hj
        rcases Nat.lt_succ_iff_lt_or_eq.mp hj with hj | rfl
        · exact hbelow j hj
        · exact hreach
      rw [show reply.seqbase + (i : ℤ) + 1 = reply.seqbase + ((i + 1 : ℕ) : ℤ) by push_cast; ring]
        at hscan
      set rs' := if requested msg i then
          rexmitOne env wr.whc rn reply.merging (reply.seqbase + ↑i) rs else rs
      cases hgo : rs'.enqueued with
      | true =>
        refine ih (by omega) hscan hgo (fun j hj ↦ ?_) (fun j hj ↦ (hbelow' j hj).2.1) hbelow'
        rcases Nat.lt_succ_iff_lt_or_eq.mp hj with hj | rfl
        · exact hclear j hj
        · exact henq'.mp hgo
      | false =>
        rw [rexmitLoop_stopped k (i + 1) hgo]
        refine ⟨i + 1, hscan, fun j ↦ ⟨fun hj ↦ not_le.mp fun hij ↦ ?_, hbelow' j⟩⟩
        exact absurd (henq'.mpr (hj.2.2 i hij)) (by rw [hgo]; simp)
    · rw [if_neg fun hcond ↦ hle hcond.1]
      refine ⟨i, h, fun j ↦ ⟨fun hj ↦ not_le.mp fun hij ↦ hle ?_, hbelow j⟩⟩
      have := hj.2.1
      omega

end Loop

section Message

variable {wr : Writer} {msg : AckNack} {rs : RexmitState} {M : ℤ → Prop} {cur last seqbase : ℤ}

/-- A gap may grow up to the next sample in the cache, but it stops one short of the last number
transmitted if there is a sample behind that. -/
lemma growGapToNextSeq_spec (h : CacheOk last wr.whc) {seq : ℤ} (hseq : seq ≤ wr.seqXmit + 1) :
    (∀ n, seq ≤ n → n < growGapToNextSeq wr seq → n ∉ wr.whc.seqs ∧ n ≤ wr.seqXmit) ∧
      (seq ≤ growGapToNextSeq wr seq ∨ seq = wr.seqXmit + 1 ∧ growGapToNextSeq wr seq = wr.seqXmit ∧
          ∃ x ∈ wr.whc.seqs, wr.seqXmit < x) := by
  have hnext := h.whcNextSeq_spec (seq - 1)
  unfold growGapToNextSeq
  cases hfind : whcNextSeq wr.whc (seq - 1) with
  | none =>
    rw [hfind] at hnext
    refine ⟨fun n hlo hhi ↦ ⟨fun hn ↦ ?_, by simp only at hhi; omega⟩, .inl hseq⟩
    have := hnext n hn
    omega
  | some next =>
    rw [hfind] at hnext
    obtain ⟨hmem, hgt, hleast⟩ := hnext
    have hclear : ∀ n, seq ≤ n → n < next → n ∉ wr.whc.seqs := fun n hlo hhi hn ↦ by
      have := hleast n hn (by omega)
      omega
    simp only
    split_ifs with hbeyond
    · refine ⟨fun n hlo hhi ↦ ⟨hclear n hlo (by omega), by omega⟩, ?_⟩
      rcases hseq.lt_or_eq with hlt | heq
      · exact .inl (by omega)
      · exact .inr ⟨heq, rfl, next, hmem, hbeyond⟩
    · exact ⟨fun n hlo hhi ↦ ⟨hclear n hlo hhi, by omega⟩, .inl (by omega)⟩

/-- The only missing number is the last one transmitted, the bitmap ends with it, and the cache has
a sample that was not transmitted yet. -/
def Clamped (wr : Writer) (msg : AckNack) (seqbase : ℤ) (rs : RexmitState) : Prop :=
  rs.gapstart = wr.seqXmit ∧ rs.gapend = seqbase + msg.bits.length ∧
    ∃ x ∈ wr.whc.seqs, wr.seqXmit < x

lemma declares_singleBit {start base n : ℤ} :
    (Gap.mk start base [true]).Declares n ↔ start ≤ n ∧ n < base ∨ n = base := by
  constructor
  · rintro (hrange | ⟨i, hi, rfl⟩)
    · exact .inl hrange
    · cases i with
      | zero => exact .inr (by simp)
      | succ => simp at hi
  · rintro (hrange | rfl)
    · exact .inl hrange
    · exact .inr ⟨0, rfl, by simp⟩

variable (h : CollectedGap M cur rs)
include h

lemma CollectedGap.singleBit : (rs.gapbits.set 0 true).take 1 = [true] := by
  have hlen := h.length
  cases hbits : rs.gapbits with
  | nil => simp [hbits] at hlen
  | cons => rfl

variable (hok : CacheOk last wr.whc) (hcur : cur ≤ wr.seqXmit + 1)
include hok hcur

namespace CollectedGap

/-- If a gap that is asked about beyond the bitmap has bits, it ends at a sample. -/
lemma grownGapend_of_bits (hbehind : ∀ n, seqbase + msg.bits.length ≤ n → n ∉ wr.whc.seqs → M n)
    (hnum : 0 < rs.gapnumbits) : grownGapend wr msg seqbase rs = rs.gapend := by
  unfold grownGapend
  split_ifs with hgrow
  · have hlt := h.numbits_pos hnum
    have hmem : rs.gapend ∈ wr.whc.seqs := by_contra fun hnot ↦ h.stop hlt (hbehind _ hgrow.ge hnot)
    obtain ⟨hclear, hge | ⟨heq, -⟩⟩ := growGapToNextSeq_spec hok
      (show rs.gapend ≤ wr.seqXmit + 1 by omega)
    · refine le_antisymm (not_lt.mp fun hlt' ↦ ?_) hge
      exact (hclear rs.gapend le_rfl hlt').1 hmem
    · omega
  · rfl

lemma grown_range (hM : ∀ n, M n → n ∉ wr.whc.seqs) (hno : ¬ Clamped wr msg seqbase rs) :
    rs.gapstart < grownGapend wr msg seqbase rs ∧
      ∀ n, rs.gapstart ≤ n → n < grownGapend wr msg seqbase rs →
        n ∉ wr.whc.seqs ∧ n ≤ wr.seqXmit := by
  have hlt := h.lt
  have hle := h.le_cur
  have hrange : ∀ n, rs.gapstart ≤ n → n < rs.gapend → n ∉ wr.whc.seqs ∧ n ≤ wr.seqXmit :=
    fun n hlo hhi ↦ ⟨hM n (h.range n hlo hhi), by omega⟩
  unfold grownGapend
  split_ifs with hgrow
  · obtain ⟨hclear, hside⟩ := growGapToNextSeq_spec hok (show rs.gapend ≤ wr.seqXmit + 1 by omega)
    refine ⟨?_, fun n hlo hhi ↦ ?_⟩
    · rcases hside with hge | ⟨heq, hval, hbeyond⟩
      · omega
      · rw [hval]
        refine lt_of_le_of_ne (by omega) fun hstart ↦ hno ⟨hstart, hgrow, hbeyond⟩
    · by_cases hn : n < rs.gapend
      · exact hrange n hlo hn
      · exact hclear n (not_lt.mp hn) hhi
  · exact ⟨hlt, hrange⟩

/-- The Gap declares only missing samples, the first one among them. -/
lemma makeGap_sound (hM : ∀ n, M n → n ∉ wr.whc.seqs)
    (hbehind : ∀ n, seqbase + msg.bits.length ≤ n → n ∉ wr.whc.seqs → M n)
    (hno : ¬ Clamped wr msg seqbase rs) {gap : Gap} (hgap : makeGap wr msg seqbase rs = some gap) :
    (∀ n, gap.Declares n → n ∉ wr.whc.seqs ∧ n ≤ wr.seqXmit) ∧ gap.Declares rs.gapstart := by
  obtain ⟨hlt, hrange⟩ := h.grown_range hok hcur hM hno
  simp only [makeGap, if_pos h.pos] at hgap
  split_ifs at hgap with hnum
  · rw [h.singleBit, some_inj] at hgap
    subst hgap
    refine ⟨fun n hn ↦ ?_, declares_singleBit.mpr (by omega)⟩
    rcases declares_singleBit.mp hn with ⟨hlo, hhi⟩ | heq
    · exact hrange n hlo (by omega)
    · exact hrange n (by omega) (by omega)
  · obtain rfl := some_inj.mp hgap
    have hend := h.grownGapend_of_bits hok hcur hbehind (Nat.pos_of_ne_zero hnum)
    refine ⟨fun n hn ↦ ?_, .inl ⟨le_rfl, hlt⟩⟩
    rcases hn with ⟨hlo, hhi⟩ | ⟨i, hi, rfl⟩
    · exact hrange n hlo hhi
    · have hbit : rs.gapbits[i]? = some true := by
        simp only [getElem?_take] at hi
        split_ifs at hi
        exact hi
      obtain ⟨-, hbelow, hmiss⟩ := h.bits i hbit
      simp only [hend]
      exact ⟨hM _ hmiss, by omega⟩

lemma makeGap_clamped (hclamped : Clamped wr msg seqbase rs) :
    makeGap wr msg seqbase rs = some ⟨wr.seqXmit, wr.seqXmit - 1, [true]⟩ := by
  obtain ⟨hstart, hend, x, hx, hbeyond⟩ := hclamped
  have hlt := h.lt
  have hle := h.le_cur
  have hnum : rs.gapnumbits = 0 := by
    by_contra hne
    have := h.numbits_pos (Nat.pos_of_ne_zero hne)
    omega
  have hgrown : grownGapend wr msg seqbase rs = wr.seqXmit := by
    rw [grownGapend, if_pos hend]
    have hnext := hok.whcNextSeq_spec (rs.gapend - 1)
    unfold growGapToNextSeq
    cases hfind : whcNextSeq wr.whc (rs.gapend - 1) with
    | none =>
      rw [hfind] at hnext
      have := hnext x hx
      omega
    | some =>
      rw [hfind] at hnext
      have := hnext.2.1
      exact if_pos (by omega)
  have hpos := h.pos
  rw [hstart] at hpos
  simp only [makeGap, if_pos hnum, h.singleBit, hgrown, hstart, if_pos hpos]

end CollectedGap

end Message

/-! ### The reply -/

/-- Every number that the Gap of a reply declares unavailable is not in the cache and was
transmitted, and the lowest number that was found missing is among them. -/
def Reply.GapSound (reply : Reply) (env : RexmitEnv) (msg : AckNack) (whc : Whc) (seqXmit : ℤ) :
    Prop :=
  ∀ gap, reply.gap = some gap →
    (∀ n, gap.Declares n → n ∉ whc.seqs ∧ n ≤ seqXmit) ∧
      ∀ n, reply.FoundMissing env msg whc seqXmit n →
        (∀ m, reply.FoundMissing env msg whc seqXmit m → n ≤ m) → gap.Declares n

/-- The bitmap of an AckNack ends with the last number transmitted, that is the only sample asked
for that is missing, no retransmit before it is refused, and the cache has a sample that was not
transmitted yet. -/
def OnlyLastMissing (env : RexmitEnv) (merging : Bool) (msg : AckNack) (whc : Whc) (seqXmit : ℤ) :
    Prop :=
  ∃ k : ℕ, msg.bits.length = k + 1 ∧ msg.bitmapBase + k = seqXmit ∧ msg.bits[k]? = some true ∧
    seqXmit ∉ whc.seqs ∧ (∃ x ∈ whc.seqs, seqXmit < x) ∧
    ∀ j < k, msg.bits[j]? = some true →
      msg.bitmapBase + j ∈ whc.seqs ∧ env.refuses merging (msg.bitmapBase + j) = false

lemma requested_of_lt {msg : AckNack} {i : ℕ} (hi : i < msg.bits.length) :
    requested msg i ↔ msg.bits[i]? = some true := by
  simp [requested, getD_eq_getElem?_getD, getElem?_eq_getElem hi, not_le.mpr hi]

section Reply

variable {env : RexmitEnv} {wr : Writer} {rn : WrPrdMatch} {msg : AckNack} {reply : Reply}
  {last : ℤ}

lemma Reply.loop_scan (reply : Reply) (hpos : 0 < reply.seqbase) :
    ∃ e : ℕ, GapScan (Missing msg reply.seqbase wr.whc.seqs) (reply.seqbase + e)
        (reply.loop env wr rn msg) ∧
      ∀ j, reply.Reaches env msg wr.whc wr.seqXmit j ↔ j < e := by
  refine rexmitLoop_scan reply hpos reply.numbits (by omega) ?_ rfl
    (fun j hj ↦ absurd hj (Nat.not_lt_zero j)) fun j hj ↦ absurd hj (Nat.not_lt_zero j)
  refine GapScan.none rfl rfl rfl fun n hn hmissing ↦ ?_
  obtain ⟨i, rfl, -⟩ := hmissing
  omega

/-- Once something is missing, the loop has got to a place, and all its places were transmitted. -/
lemma CollectedGap.cur_le {e : ℕ} {rs : RexmitState}
    (h : CollectedGap (Missing msg reply.seqbase wr.whc.seqs) (reply.seqbase + e) rs)
    (hreach : ∀ j, reply.Reaches env msg wr.whc wr.seqXmit j ↔ j < e) :
    reply.seqbase + e ≤ wr.seqXmit + 1 := by
  obtain ⟨i, hi, -⟩ := h.range rs.gapstart le_rfl h.lt
  have hlt := h.lt
  have hle := h.le_cur
  have hlast := ((hreach (e - 1)).mpr (by omega)).2.1
  omega

lemma Reply.gapSound_iff (hok : CacheOk last wr.whc) (hpos : 0 < reply.seqbase)
    (hgap : reply.gap = makeGap wr msg reply.seqbase (reply.loop env wr rn msg)) :
    reply.GapSound env msg wr.whc wr.seqXmit ↔ ¬ (0 < (reply.loop env wr rn msg).gapstart ∧
        Clamped wr msg reply.seqbase (reply.loop env wr rn msg)) := by
  obtain ⟨e, hscan, hreach⟩ := @Reply.loop_scan env wr rn msg reply hpos
  cases hscan with
  | none =>
    constructor
    · rintro - ⟨hgt, -⟩
      omega
    · intro _ gap hsome
      rw [hgap, makeGap, if_neg (by omega)] at hsome
      simp at hsome
  | some hcoll =>
    have hcur := hcoll.cur_le hreach
    have hM : ∀ n, Missing msg reply.seqbase wr.whc.seqs n → n ∉ wr.whc.seqs :=
      fun n ⟨_, _, _, hn⟩ ↦ hn
    obtain ⟨i, hi, hreq, hnot⟩ := hcoll.range _ le_rfl hcoll.lt
    have hfound : reply.FoundMissing env msg wr.whc wr.seqXmit
        (reply.loop env wr rn msg).gapstart :=
      ⟨i, hi, (hreach i).mpr (by have := hcoll.lt; have := hcoll.le_cur; omega), hreq, hnot⟩
    have hlowest : ∀ m, reply.FoundMissing env msg wr.whc wr.seqXmit m →
        (reply.loop env wr rn msg).gapstart ≤ m :=
      fun m ⟨j, hj, _, hjreq, hjnot⟩ ↦ not_lt.mp fun hlt ↦ hcoll.first m hlt ⟨j, hj, hjreq, hjnot⟩
    constructor
    · rintro hsound ⟨-, hclamped⟩
      have hmake := hcoll.makeGap_clamped hok hcur hclamped
      have hdecl := (hsound _ (hgap.trans hmake)).2 _ hfound hlowest
      rw [declares_singleBit, hclamped.1] at hdecl
      omega
    · intro hno gap hsome
      have hbehind : ∀ n, reply.seqbase + msg.bits.length ≤ n → n ∉ wr.whc.seqs →
          Missing msg reply.seqbase wr.whc.seqs n := by
        refine fun n hn hnot ↦ ⟨(n - reply.seqbase).toNat, by omega, ?_, hnot⟩
        rw [requested, or_eq_true]
        exact .inl (decide_eq_true (by omega))
      obtain ⟨hsound, hdecl⟩ := hcoll.makeGap_sound hok hcur hM hbehind
        (fun hclamped ↦ hno ⟨hcoll.pos, hclamped⟩) (hgap.symm.trans hsome)
      refine ⟨hsound, fun n hn hleast ↦ ?_⟩
      rwa [le_antisymm (hleast _ hfound) (hlowest n hn)]

/-- The gap is clamped if the last number transmitted is the only one missing. -/
lemma Reply.clamped_iff (hpos : 0 < reply.seqbase) (hbase : reply.seqbase = msg.bitmapBase)
    (hnum : msg.bits.length ≤ reply.numbits) :
    (0 < (reply.loop env wr rn msg).gapstart ∧
        Clamped wr msg reply.seqbase (reply.loop env wr rn msg)) ↔
      OnlyLastMissing env reply.merging msg wr.whc wr.seqXmit := by
  obtain ⟨e, hscan, hreach⟩ := @Reply.loop_scan env wr rn msg reply hpos
  constructor
  · rintro ⟨hgt, hstart, hend, hbeyond⟩
    cases hscan with
    | none => omega
    | some hcoll =>
      have hcur := hcoll.cur_le hreach
      have hlt := hcoll.lt
      have hle := hcoll.le_cur
      obtain ⟨i, hi, hreq, hnot⟩ := hcoll.range _ le_rfl hcoll.lt
      have hlen : msg.bits.length = i + 1 := by omega
      refine ⟨i, hlen, by omega, (requested_of_lt (by omega)).mp hreq, hstart ▸ hnot, hbeyond,
        fun j hj hbit ↦ ?_⟩
      have hjreq := (requested_of_lt (by omega)).mpr hbit
      rw [← hbase]
      have hthere : reply.seqbase + j ∈ wr.whc.seqs :=
        by_contra fun hno ↦ hcoll.first _ (by omega) ⟨j, rfl, hjreq, hno⟩
      exact ⟨hthere, ((hreach i).mpr (by omega)).2.2 j hj hjreq hthere⟩
  · rintro ⟨k, hlen, hlast, hbit, hnot, hbeyond, hbefore⟩
    rw [← hbase] at hlast
    have hkreq : requested msg k := (requested_of_lt (by omega)).mpr hbit
    have hkreach : reply.Reaches env msg wr.whc wr.seqXmit k := by
      refine ⟨by omega, hlast.le, fun j hj hjreq _ ↦ ?_⟩
      rw [hbase]
      exact (hbefore j hj ((requested_of_lt (by omega)).mp hjreq)).2
    have hkmissing : Missing msg reply.seqbase wr.whc.seqs wr.seqXmit :=
      ⟨k, hlast.symm, hkreq, hnot⟩
    have hke := (hreach k).mp hkreach
    cases hscan with
    | none _ _ _ hnone => exact absurd hkmissing (hnone _ (by omega))
    | some hcoll =>
      have hcur := hcoll.cur_le hreach
      have hlt := hcoll.lt
      have hle := hcoll.le_cur
      obtain ⟨i, hi, hreq, hno⟩ := hcoll.range _ le_rfl hcoll.lt
      have hstart : (reply.loop env wr rn msg).gapstart = wr.seqXmit := by
        refine le_antisymm (not_lt.mp fun hgt ↦ hcoll.first _ hgt hkmissing)
          (not_lt.mp fun hbelow ↦ ?_)
        have hik : i < k := by omega
        refine hno ?_
        rw [hi, hbase]
        exact (hbefore i hik ((requested_of_lt (by omega)).mp hreq)).1
      exact ⟨hcoll.pos, hstart, by omega, hbeyond⟩

end Reply

/-! ### The Gap of `handle_AckNack` -/

/-- An AckNack is accepted that asks for the last number transmitted, the only one missing, while
the cache has a sample that was not transmitted yet. -/
def RequestsOnlyLast (cfg : Config) (env : RexmitEnv) (wr : Writer) (prd : ProxyReader)
    (msg : AckNack) : Prop :=
  ∃ rn, acceptAckNack env wr prd msg = some rn ∧
    OnlyLastMissing env (decide (cfg.retransmitMerging ≠ .never) && rn.assumedInSync) msg wr.whc
      wr.seqXmit

section Handle

variable {cfg : Config} {env : RexmitEnv} {prd : ProxyReader} {msg : AckNack} {wr wr₁ wr' : Writer}
  {merging : Bool} {rn : WrPrdMatch} {reply : Reply} {kind : AckKind} {seqXmit last : ℤ}

lemma OnlyLastMissing.congr {whc whc' : Whc}
    (hmem : ∀ n, msg.bitmapBase ≤ n → (n ∈ whc'.seqs ↔ n ∈ whc.seqs)) :
    OnlyLastMissing env merging msg whc' seqXmit ↔ OnlyLastMissing env merging msg whc seqXmit := by
  refine exists_congr fun k ↦ and_congr_right fun _ ↦ and_congr_right fun hlast ↦
    and_congr_right fun _ ↦ and_congr (not_congr (hmem _ (by omega))) (and_congr ?_ ?_)
  · exact exists_congr fun x ↦ and_congr_left fun hx ↦ hmem x (by omega)
  · exact forall_congr' fun j ↦ forall_congr' fun _ ↦ forall_congr' fun _ ↦
      and_congr_left fun _ ↦ hmem _ (by omega)

lemma not_mem_bits_of_not_nack (hpure : acknackIsNack msg = false) (i : ℕ) :
    msg.bits[i]? ≠ some true := by
  intro hi
  have hany : acknackIsNack msg := any_eq_true.mpr ⟨true, mem_of_getElem? hi, rfl⟩
  rw [hpure] at hany
  simp at hany

/-- A message without a set bit asks for nothing within its bitmap. -/
lemma not_onlyLastMissing_of_not_nack {whc : Whc}
    (hpure : acknackIsNack msg = false) : ¬ OnlyLastMissing env merging msg whc seqXmit :=
  fun ⟨k, _, _, hbit, _⟩ ↦ not_mem_bits_of_not_nack hpure k hbit

/-- In the answer to a message without a set bit the gap is not clamped. -/
lemma not_clamped_of_not_nack (hpos : 0 < reply.seqbase) (hpure : acknackIsNack msg = false) :
    ¬ (0 < (reply.loop env wr rn msg).gapstart ∧
      Clamped wr msg reply.seqbase (reply.loop env wr rn msg)) := by
  rintro ⟨hgt, hstart, hend, -⟩
  obtain ⟨e, hscan, hreach⟩ := @Reply.loop_scan env wr rn msg reply hpos
  cases hscan with
  | none => omega
  | some hcoll =>
    have hcur := hcoll.cur_le hreach
    have hlt := hcoll.lt
    have hle := hcoll.le_cur
    obtain ⟨i, hi, hreq, -⟩ := hcoll.range _ le_rfl hcoll.lt
    exact not_mem_bits_of_not_nack hpure i ((requested_of_lt (by omega)).mp hreq)

lemma rexmitLoop_unrequested {seqbase : ℤ} {k : ℕ} {i : ℕ} {rs : RexmitState}
    (hno : ∀ j, j < i + k → requested msg j = false) :
    rexmitLoop env wr rn merging msg seqbase k i rs = rs := by
  induction k generalizing i with
  | zero => rfl
  | succ _ ih =>
    rw [rexmitLoop, hno i (by omega), if_neg Bool.false_ne_true]
    split_ifs
    · exact ih fun j hj ↦ hno j (by omega)
    · rfl

/-- The answer to a pre-emptive acknowledgement has a sound Gap, if any. -/
lemma NackShape.gapSound_of_preemptive
    (h : NackShape cfg env prd kind msg wr rn wr₁ wr' reply) (hok : CacheOk last wr.whc)
    (hpre : kind.isPreemptiveAck) (hpure : acknackIsNack msg = false) :
    reply.GapSound env msg wr'.whc wr.seqXmit := by
  have hwhc1 : wr₁.whc = wr.whc := h.beat₁.whc
  have hrange := h.range
  rw [rexmitRange, if_pos hpre] at hrange
  by_cases hempty : whcEmpty wr.whc
  · -- the bitmap asks for nothing, and nothing else is considered
    rw [if_pos hempty, some_inj, mk.injEq] at hrange
    have hloop : reply.loop env wr₁ (noteReply kind msg rn) msg = {} := by
      refine rexmitLoop_unrequested fun j hj ↦ ?_
      have hlt : j < msg.bits.length := by omega
      rw [eq_false_iff]
      exact fun hreq ↦ not_mem_bits_of_not_nack hpure j ((requested_of_lt hlt).mp hreq)
    intro gap hgap
    rw [h.gap, hloop] at hgap
    simp [makeGap] at hgap
  · rw [if_neg hempty] at hrange
    obtain ⟨s, hs, hbase⟩ := map_eq_some_iff.mp hrange
    obtain ⟨s', hs', hmem, -⟩ := hok.whcMinSeq_spec (by simpa using hempty)
    obtain rfl := mem_unique hs hs'
    have hpos : 0 < reply.seqbase := by
      rw [← (mk.inj hbase).1]
      exact hok.ok.seqOk.pos _ hmem
    have hxmit : wr₁.seqXmit = wr.seqXmit := by
      rcases h.beat₁.seq with ⟨-, hsame⟩ | ⟨⟨-, hno⟩, -⟩
      · exact hsame
      · exact absurd hno hempty
    rw [h.beat₂.whc, ← hxmit]
    exact (Reply.gapSound_iff (hwhc1 ▸ hok) hpos h.gap).mpr (not_clamped_of_not_nack hpos hpure)

/-- A reply to any other AckNack has a sound Gap unless only the last number is missing. -/
lemma NackShape.gapSound_iff
    (h : NackShape cfg env prd kind msg wr rn wr₁ wr' reply) (hok : CacheOk last wr.whc)
    (hpre : kind.isPreemptiveAck = false) (hpos : 0 < msg.bitmapBase) :
    reply.GapSound env msg wr'.whc wr.seqXmit ↔
      ¬ OnlyLastMissing env reply.merging msg wr.whc wr.seqXmit := by
  have hwr1 : wr₁ = wr.setReader (noteReply kind msg rn) := by
    have hanswer := h.answer
    rw [answerPreemptive, hpre] at hanswer
    exact (mk.inj (some_inj.mp hanswer)).1.symm
  have hrange := h.range
  rw [rexmitRange, hpre, if_neg Bool.false_ne_true, some_inj, mk.injEq] at hrange
  have hnum : msg.bits.length ≤ reply.numbits := by
    rw [← hrange.2, acceleratedNumbits]
    split_ifs
    · exact le_rfl
    · exact le_max_left _ _
  have hwhc1 : wr₁.whc = wr.whc := h.beat₁.whc
  have hxmit : wr₁.seqXmit = wr.seqXmit := by rw [hwr1]; rfl
  have hbase : 0 < reply.seqbase := hrange.1 ▸ hpos
  rw [h.beat₂.whc, ← hxmit, Reply.gapSound_iff (hwhc1 ▸ hok) hbase h.gap,
    Reply.clamped_iff hbase hrange.1.symm hnum, hwhc1]

/-- The Gap of `handle_AckNack` declares only samples that are not in the cache and were
transmitted, the lowest one that was found missing among them, unless the AckNack asks for the last
number transmitted, this is the only one missing, and the cache has a sample that was not
transmitted yet. -/
theorem handleAckNack_gap_sound_iff {wr : Writer} (hwhc : WhcInv wr.seq wr.whc) (cfg : Config)
    (env : RexmitEnv) (prd : ProxyReader) {msg : AckNack} (hvalid : validAckNack msg) :
    ∃ wr' reply, handleAckNack cfg env wr prd msg = some (wr', reply) ∧
      (reply.GapSound env msg wr'.whc wr.seqXmit ↔ ¬ RequestsOnlyLast cfg env wr prd msg) := by
  rcases handleAckNack_spec hwhc cfg env prd msg with ⟨hnone, hrun⟩ |
    ⟨rn, wr₁, rn₁, wr₂, rn₂, wr₃, wr', reply, hacc, hrun, hshape⟩
  · refine ⟨wr, {}, hrun, iff_of_true (fun gap hgap ↦ absurd hgap (by simp)) ?_⟩
    rintro ⟨rn, hacc, -⟩
    rw [hnone] at hacc
    simp at hacc
  · refine ⟨wr', reply, hrun, ?_⟩
    obtain ⟨hmem, -⟩ := acceptAckNack_eq_some hacc
    obtain ⟨-, hxmit₁, hsync₁⟩ := hshape.ack.frame
    obtain ⟨-, hxmit₂, hsync₂⟩ := hshape.respond.frame
    have hxmit : wr₂.seqXmit = wr.seqXmit := hxmit₂.trans hxmit₁
    have hok₁ : CacheOk wr.seq wr₁.whc := hshape.ack.cacheOk hwhc.cacheOk
    have hok₂ : CacheOk wr.seq wr₂.whc := hshape.respond.whc ▸ hok₁
    -- the samples that the message does not acknowledge are those from before
    have hsame : ∀ n, msg.bitmapBase ≤ n → (n ∈ wr₂.whc.seqs ↔ n ∈ wr.whc.seqs) := by
      intro n hn
      rw [hshape.respond.whc]
      exact hshape.ack.mem_iff hwhc.cacheOk (Writer.mem_setReader hmem rfl) hn
    have hrequest : RequestsOnlyLast cfg env wr prd msg ↔
        OnlyLastMissing env (decide (cfg.retransmitMerging ≠ .never) && rn.assumedInSync) msg
          wr₂.whc wr.seqXmit := by
      rw [OnlyLastMissing.congr hsame, RequestsOnlyLast]
      constructor
      · rintro ⟨rn', hacc', hlast⟩
        rwa [mem_unique hacc hacc']
      · exact fun hlast ↦ ⟨rn, hacc, hlast⟩
    rw [hrequest, ← hxmit]
    cases hpre : (ackKind rn msg).isPreemptiveAck with
    | true =>
      have hpure : acknackIsNack msg = false := by
        rw [ackKind, and_eq_true, not_eq_true'] at hpre
        exact hpre.2
      exact iff_of_true (hshape.nack.gapSound_of_preemptive hok₂ hpre hpure)
        (not_onlyLastMissing_of_not_nack hpure)
    | false =>
      have hpos : 0 < msg.bitmapBase := by
        by_contra hle
        rcases hvalid with ⟨hpos, -⟩ | hlen
        · exact hle hpos
        · have hnil := length_eq_zero_iff.mp hlen
          rw [ackKind, acknackIsNack, hnil] at hpre
          simp only [any_nil, Bool.not_false, Bool.and_true, decide_eq_false_iff_not] at hpre
          omega
      rw [hshape.nack.gapSound_iff hok₂ hpre hpos]
      by_cases hpure : acknackIsNack msg = false
      · exact iff_of_true (not_onlyLastMissing_of_not_nack hpure)
          (not_onlyLastMissing_of_not_nack hpure)
      · -- a message that asks for something changes nothing about merging
        have hmerging : reply.merging =
            (decide (cfg.retransmitMerging ≠ .never) && rn.assumedInSync) := by
          have hnack : acknackIsNack msg := by simpa using hpure
          rw [hshape.nack.merging, noteReply, hsync₂, hsync₁]
          simp [ackKind, hnack, WrPrdMatch.accepted]
        rw [hmerging]

end Handle

/-! ### A Gap that declares an available sample -/

/-- A writer has transmitted five samples, and has written a sixth one that takes the place of the
fifth one. -/
def overwriting : List WriterEvent :=
  [.addConnection reliableReader, .write (sampleOf 1), .write (sampleOf 2), .write (sampleOf 3),
    .write (sampleOf 4), .write (sampleOf 5), .transmitted 5, .write (sampleOf 5)]

def overwrittenWriter : Option Writer :=
  overwriting.foldlM (writerEvent defaultConfig) (newWriter true false false (whcNew false 1 0 0 1))

/-- The reader asks for the fourth and the fifth sample. The Gap in the reply declares the fourth
one unavailable, which is in the cache, and not the fifth one, which is missing. -/
theorem gap_declares_available :
    ∃ wr, overwrittenWriter = some wr ∧ ∃ wr' reply gap,
      handleAckNack defaultConfig calmEnv wr reliableReader ⟨4, [true, true], 1, true⟩ =
        some (wr', reply) ∧ reply.gap = some gap ∧ gap.Declares 4 ∧ 4 ∈ wr'.whc.seqs ∧
        ¬ gap.Declares 5 ∧ 5 ∉ wr'.whc.seqs ∧ wr.seqXmit = 5 := by
  have hrun : (overwrittenWriter.any fun wr ↦
      decide (wr.seqXmit = 5) && (handleAckNack defaultConfig calmEnv wr reliableReader
        ⟨4, [true, true], 1, true⟩).any fun out ↦
          decide (out.2.gap = some ⟨5, 4, [true]⟩) && (whcFindseq out.1.whc 4).isSome &&
            (whcFindseq out.1.whc 5).isNone) := by
    decide +kernel
  obtain ⟨wr, hwr, hrest⟩ := (any_eq_true _ _).mp hrun
  obtain ⟨hxmit, hreply⟩ := and_eq_true_iff.mp hrest
  obtain ⟨⟨wr', reply⟩, hreply, hgap⟩ := (any_eq_true _ _).mp hreply
  simp only [and_eq_true, decide_eq_true_eq, isSome_iff_exists, isNone_iff_eq_none] at hgap hxmit
  obtain ⟨⟨hgap, w, hw⟩, hnone⟩ := hgap
  obtain ⟨hmem, hseq⟩ := findseq_eq_some hw
  refine ⟨wr, hwr, wr', reply, _, hreply, hgap, declares_singleBit.mpr (by omega),
    hseq ▸ Whc.mem_seqs hmem, ?_, findseq_eq_none.mp hnone, hxmit⟩
  rw [declares_singleBit]
  omega

/-- If the reader asks for the sixth sample as well, which was not transmitted yet, the gap is not
grown, and the Gap is sound. -/
theorem gap_sound_not_grown :
    ∃ wr wr' reply, overwrittenWriter = some wr ∧
      handleAckNack defaultConfig calmEnv wr reliableReader ⟨4, [true, true, true], 1, true⟩ =
        some (wr', reply) ∧
      reply.GapSound calmEnv ⟨4, [true, true, true], 1, true⟩ wr'.whc wr.seqXmit := by
  have hrun : (overwrittenWriter.any fun wr ↦ decide (wr.seqXmit = 5)) := by decide +kernel
  obtain ⟨wr, hwr, hxmit⟩ := (any_eq_true _ _).mp hrun
  rw [decide_eq_true_eq] at hxmit
  have hcalm : ∀ ev ∈ overwriting, ∀ wr, WriterEvent.Regains wr ev := by
    simp [overwriting, WriterEvent.Regains]
  have hinv := (WriterReach.of_events overwriting hcalm hwr .start).inv
    (writerInv_new true false false (whcInv_new false 1 0 0 1) rfl)
  obtain ⟨wr', reply, hreply, hsound⟩ := handleAckNack_gap_sound_iff hinv.whc defaultConfig calmEnv
    reliableReader (show validAckNack ⟨4, [true, true, true], 1, true⟩ by decide)
  refine ⟨wr, wr', reply, hwr, hreply, hsound.mpr ?_⟩
  rintro ⟨rn, -, k, hlen, hlast, -⟩
  simp only [length_cons, length_nil] at hlen hlast
  omega

end OpenSplice.Ddsi
