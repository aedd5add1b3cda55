import OpenSplice.Ddsi.Whc.Runs
import OpenSplice.Ddsi.Writer.Model

/-!
# What the steps of a writer do

One lemma for each part of `handle_AckNack`. The acknowledgement moves one reader and takes
acknowledged samples out of the cache (`ackPart_spec`), a reader that responds again is waited for
from then on (`respondAgain_spec`), and the rest leaves the cache and the acknowledged numbers as
they are (`nackPart_spec`). Heartbeats change no more than their counter, but for a writer without
samples that gives out its first number (`Beat`).
-/

set_option autoImplicit false

namespace OpenSplice.Ddsi

open Library Library.Neighbour KeyedList List Option Writer Whc

variable {wr wr₁ : Writer} {rn rn₁ : WrPrdMatch} {seqbase : ℤ} {prd : ProxyReader}

/-! ### Reading the cache -/

/-- The cache in order, as far as the samples go. This does not depend on the drop point. -/
structure CacheOk (last : ℤ) (whc : Whc) : Prop where
  ok : WhcOk last whc
  sized : Sized 0 whc
  maxseq : Greatest whc.seqs whc.maxseqNode

section Cache

variable {last m : ℤ} {whc whc' : Whc}

lemma WhcInv.cacheOk (h : WhcInv last whc) : CacheOk last whc := ⟨h.ok, h.sized, h.maxseq⟩

lemma WhcInv.mono (h : WhcInv last whc) {last' : ℤ} (hle : last ≤ last') : WhcInv last' whc :=
  { h with
    ok := ⟨h.ok.seqOk.mono hle, h.ok.idxOk⟩
    last_nonneg := h.last_nonneg.trans hle }

lemma CacheOk.whcEmpty_iff (h : CacheOk last whc) : whcEmpty whc ↔ whc.seqs = ∅ := by
  have hsize := h.sized
  rw [whcEmpty, decide_eq_true_eq, hsize, Nat.add_zero, length_eq_zero_iff,
    Set.eq_empty_iff_forall_notMem]
  constructor
  · intro hnil x hx
    obtain ⟨w, hw, -⟩ := mem_seqs_iff.mp hx
    rw [hnil] at hw
    exact absurd hw (not_mem_nil)
  · intro hempty
    rw [eq_nil_iff_forall_not_mem]
    exact fun w hw ↦ hempty w.seq (seq_mem hw)

lemma CacheOk.whcMinSeq_spec (h : CacheOk last whc) (hne : whcEmpty whc = false) :
    ∃ s, whcMinSeq whc = some s ∧ s ∈ whc.seqs ∧ ∀ x ∈ whc.seqs, s ≤ x := by
  have hok := h.ok.seqOk.intv
  have hexists : ∃ x, x ∈ whc.seqs := by
    rw [← Set.nonempty_def, Set.nonempty_iff_ne_empty]
    exact fun hempty ↦ absurd (h.whcEmpty_iff.mpr hempty) (by rw [hne]; simp)
  obtain ⟨x, hx⟩ := hexists
  unfold whcMinSeq
  cases hseq : whc.seq with
  | nil =>
    obtain ⟨iv, hiv, -⟩ := (hok.covers x).mpr hx
    rw [hseq] at hiv
    exact absurd hiv not_mem_nil
  | cons iv =>
    rw [hseq] at hok
    have hfirst : ∀ y ∈ whc.seqs, iv.min ≤ y := by
      intro y hy
      obtain ⟨c, hc, hlo, -⟩ := (hok.covers y).mpr hy
      rcases mem_cons.mp hc with rfl | hc
      · exact hlo
      · exact ((pairwise_cons.mp hok.ordered).1 c hc).le.trans hlo
    refine ⟨iv.min, rfl, hok.mem_of_bounds (mem_cons_self ..) le_rfl ?_, hfirst⟩
    -- were the first interval empty, it would be the open one and the only one
    refine lt_of_le_of_ne (hok.min_le_maxp1 (mem_cons_self ..)) fun hvacant ↦ ?_
    obtain ⟨c, hc, hlo, hhi⟩ := (hok.covers x).mpr hx
    rcases mem_cons.mp hc with rfl | hc
    · omega
    · obtain ⟨pre, post, rfl⟩ := append_of_mem hc
      have hfill := (show IntvOk ((iv :: pre) ++ c :: post) whc.openIntv whc.seqs from hok)
        |>.filled_of_before (mem_cons_self ..)
      exact absurd hvacant hfill.1.ne

lemma CacheOk.whcNextSeq_spec (h : CacheOk last whc) (s : ℤ) :
    Follows whc.seqs s (whcNextSeq whc s) :=
  (h.ok.seqOk.findNextseqIntv_spec s).1

section

variable (h : Removed last m whc whc')
include h

lemma Removed.cacheOk : CacheOk last whc' := ⟨h.ok, h.sized, h.maxseq⟩

lemma Removed.subset {x : ℤ} (hx : x ∈ whc'.seqs) : x ∈ whc.seqs := by
  obtain ⟨w, hw, rfl⟩ := mem_seqs_iff.mp hx
  obtain ⟨v, hv, hseq, -⟩ := h.back hw
  exact mem_seqs_iff.mpr ⟨v, hv, hseq⟩

lemma Removed.mem_iff (hok : CacheOk last whc) {x : ℤ}
    (hx : m < x) : x ∈ whc'.seqs ↔ x ∈ whc.seqs := by
  refine ⟨h.subset, fun hmem ↦ ?_⟩
  obtain ⟨v, hv, rfl⟩ := mem_seqs_iff.mp hmem
  obtain ⟨st, hedits, hstore⟩ := h.edits
  obtain ⟨w, hw, hseq⟩ := StoreEdits.above hedits hok.ok.storeOk hv hx
  have hsamples : whc'.samples = st.samples := congrArg WhcStore.samples hstore
  exact mem_seqs_iff.mpr ⟨w, hsamples ▸ hw, hseq⟩

end

lemma WhcInv.removeAckedMessages_any (h : WhcInv last whc) (m : ℤ) :
    ∃ whc', whcRemoveAckedMessages whc m = some whc' ∧ (whc' = whc ∨ Removed last m whc whc') := by
  by_cases hkeep : whc.isTransientLocal ∧ whc.tldepth = 0
  · exact ⟨whc, by simp [whcRemoveAckedMessages, hkeep], .inl rfl⟩
  · obtain ⟨whc', hrun, hdone⟩ := h.removed hkeep
    exact ⟨whc', hrun, .inr hdone⟩

end Cache

section DropPoint

variable {wr : Writer} {rn rn' : WrPrdMatch} {s : ℤ}

lemma Writer.mem_acked {wr : Writer} : s ∈ wr.acked ↔ ∃ rn ∈ wr.readers, rn.seq = some s := by
  simp [acked, mem_filterMap]

/-- The drop point is the smallest number that a reader has acknowledged, or the last one given
out if no reader is waited for. -/
lemma writerMaxDropSeq_cases (wr : Writer) : (wr.acked = [] ∧ writerMaxDropSeq wr = wr.seq) ∨
      (writerMaxDropSeq wr ∈ wr.acked ∧ ∀ s ∈ wr.acked, writerMaxDropSeq wr ≤ s) := by
  unfold writerMaxDropSeq
  cases hmin : wr.acked.min? with
  | none => exact .inl ⟨min?_eq_none_iff.mp hmin, rfl⟩
  | some => exact .inr (min?_eq_some_iff.mp hmin)

lemma writerMaxDropSeq_le (hs : s ∈ wr.acked) : writerMaxDropSeq wr ≤ s := by
  rcases writerMaxDropSeq_cases wr with ⟨hnil, -⟩ | ⟨-, hle⟩
  · rw [hnil] at hs
    exact absurd hs not_mem_nil
  · exact hle s hs

/-- After the match with a reader was changed, the numbers are those of the other readers and its
own. -/
lemma Writer.mem_acked_setReader (hs : s ∈ (wr.setReader rn).acked) :
    rn.seq = some s ∨ s ∈ wr.acked := by
  obtain ⟨rn', hrn', hseq⟩ := mem_acked.mp hs
  rcases mem_update.mp hrn' with ⟨rfl, -⟩ | ⟨hrn', -⟩
  · exact .inl hseq
  · exact .inr (mem_acked.mpr ⟨rn', hrn', hseq⟩)

lemma Writer.mem_setReader (hmem : rn' ∈ wr.readers)
    (hguid : rn'.prdGuid = rn.prdGuid) : rn ∈ (wr.setReader rn).readers :=
  mem_update.mpr (.inl ⟨rfl, rn', hmem, hguid⟩)

end DropPoint

/-! ### Heartbeats -/

/-- The writer after it has sent heartbeats, or nothing. -/
structure Beat (wr wr' : Writer) : Prop where
  whc : wr'.whc = wr.whc
  readers : wr'.readers = wr.readers
  reliable : wr'.reliable = wr.reliable
  transientLocal : wr'.handleAsTransientLocal = wr.handleAsTransientLocal
  startupMode : wr'.startupMode = wr.startupMode
  seq : wr'.seq = wr.seq ∧ wr'.seqXmit = wr.seqXmit ∨
    (wr.seq ≤ 0 ∧ whcEmpty wr.whc = true) ∧ wr'.seq = 1 ∧ wr'.seqXmit = 1

section Beat

variable {wr wr₁ wr₂ : Writer} {last : ℤ}

lemma Beat.refl (wr : Writer) : Beat wr wr := ⟨rfl, rfl, rfl, rfl, rfl, .inl ⟨rfl, rfl⟩⟩

lemma Beat.count (wr : Writer) : Beat wr { wr with hbcount := wr.hbcount + 1 } :=
  ⟨rfl, rfl, rfl, rfl, rfl, .inl ⟨rfl, rfl⟩⟩

lemma Beat.trans (h1 : Beat wr wr₁) (h2 : Beat wr₁ wr₂) : Beat wr wr₂ := by
  refine ⟨h2.whc.trans h1.whc, h2.readers.trans h1.readers, h2.reliable.trans h1.reliable,
    h2.transientLocal.trans h1.transientLocal, h2.startupMode.trans h1.startupMode, ?_⟩
  rcases h1.seq with ⟨hseq1, hxmit1⟩ | ⟨hzero, hseq1, hxmit1⟩
  · rcases h2.seq with ⟨hseq2, hxmit2⟩ | ⟨⟨hle, hempty⟩, hone⟩
    · exact .inl ⟨hseq2.trans hseq1, hxmit2.trans hxmit1⟩
    · exact .inr ⟨⟨hseq1 ▸ hle, h1.whc ▸ hempty⟩, hone⟩
  · rcases h2.seq with ⟨hseq2, hxmit2⟩ | ⟨⟨hle, -⟩, -⟩
    · exact .inr ⟨hzero, hseq2.trans hseq1, hxmit2.trans hxmit1⟩
    · omega

lemma Beat.acked (h : Beat wr wr₁) : wr₁.acked = wr.acked := by
  rw [Writer.acked, h.readers, Writer.acked]

lemma Beat.seq_le (h : Beat wr wr₁) : wr.seq ≤ wr₁.seq := by
  rcases h.seq with ⟨heq, -⟩ | ⟨⟨hle, -⟩, heq, -⟩ <;> omega

open Beat

lemma Writer.pretendWritten_beat (hempty : whcEmpty wr.whc) : Beat wr wr.pretendWritten := by
  unfold pretendWritten
  split_ifs with hpos
  · exact refl wr
  · exact ⟨rfl, rfl, rfl, rfl, rfl, .inr ⟨⟨not_lt.mp hpos, hempty⟩, rfl, rfl⟩⟩

variable (h : CacheOk last wr.whc)
include h

variable (cfg : Config)

lemma CacheOk.heartbeatRange_isSome (issync : Bool) :
    ∃ range, heartbeatRange cfg wr issync = some range := by
  unfold heartbeatRange
  cases hempty : whcEmpty wr.whc with
  | true => exact ⟨_, rfl⟩
  | false =>
    obtain ⟨s, hs, -⟩ := h.whcMinSeq_spec hempty
    rw [hs]
    exact ⟨_, rfl⟩

lemma CacheOk.addHeartbeat_spec (hbansreq : Bool) (dst : Option ℕ) (issync : Bool) :
    ∃ range, heartbeatRange cfg wr issync = some range ∧
      addHeartbeat cfg wr hbansreq dst issync = some ({ wr with hbcount := wr.hbcount + 1 },
        .heartbeat ⟨range.1, range.2, wr.hbcount + 1, !hbansreq⟩ dst) := by
  obtain ⟨range, hrange⟩ := h.heartbeatRange_isSome cfg issync
  exact ⟨range, hrange, by rw [addHeartbeat, hrange]; rfl⟩

lemma CacheOk.forceHeartbeatToPeer_spec (prd : ProxyReader) (hbansreq : Bool) :
    ∃ wr' msgs, forceHeartbeatToPeer cfg wr prd hbansreq = some (wr', msgs) ∧ Beat wr wr' := by
  unfold forceHeartbeatToPeer
  split_ifs with haddr hfake
  · exact ⟨wr, [], rfl, refl wr⟩
  · have hbeat := pretendWritten_beat hfake.1
    have hok : CacheOk last wr.pretendWritten.whc := hbeat.whc ▸ h
    obtain ⟨range, -, hrun⟩ := hok.addHeartbeat_spec cfg hbansreq (some prd.guid) true
    rw [hrun]
    exact ⟨_, _, rfl, hbeat.trans (count _)⟩
  · obtain ⟨range, -, hrun⟩ := h.addHeartbeat_spec cfg hbansreq (some prd.guid) false
    rw [hrun]
    exact ⟨_, _, rfl, count _⟩

end Beat

/-! ### The parts of `handle_AckNack` -/

section Parts

variable {wr : Writer} {rn : WrPrdMatch} {last : ℤ}

inductive AckShape (seqbase : ℤ) (wr : Writer) (rn : WrPrdMatch) : Writer → WrPrdMatch → Prop
  | old (hseq : ∀ s, rn.seq = some s → seqbase - 1 ≤ s) : AckShape seqbase wr rn wr rn
  | new {s : ℤ} {rn' : WrPrdMatch} {whc : Whc} (hseq : rn.seq = some s) (hlt : s < seqbase - 1)
      (hrn : rn' = { rn with seq := some (min (seqbase - 1) wr.seq) })
      (hwhc : whc = wr.whc ∨
        Removed wr.seq (writerMaxDropSeq (wr.setReader rn')) wr.whc whc) :
      AckShape seqbase wr rn { wr.setReader rn' with whc := whc } rn'

lemma ackPart_spec (h : WhcInv wr.seq wr.whc) (rn : WrPrdMatch) (seqbase : ℤ) :
    ∃ wr' rn', ackPart wr rn seqbase = some (wr', rn') ∧ AckShape seqbase wr rn wr' rn' := by
  unfold ackPart ackReader
  split_ifs with hnew
  · obtain ⟨s, hseq, hlt⟩ := (any_eq_true _ _).mp hnew
    obtain ⟨whc, hrun, hwhc⟩ := h.removeAckedMessages_any
      (writerMaxDropSeq (wr.setReader { rn with seq := some (min (seqbase - 1) wr.seq) }))
    refine ⟨_, _, ?_, AckShape.new hseq (of_decide_eq_true hlt) rfl hwhc⟩
    have hsame : (wr.setReader { rn with seq := some (min (seqbase - 1) wr.seq) }).whc = wr.whc :=
      rfl
    simp [removeAckedMessages, hsame, hrun]
  · refine ⟨wr, rn, rfl, AckShape.old fun s hs ↦ ?_⟩
    rw [hs] at hnew
    simpa using hnew

def respondSeq (wr : Writer) (seqbase : ℤ) : Option ℤ :=
  (if whcEmpty wr.whc then some wr.seq else whcMaxSeq wr.whc).map fun oldestSeq ↦
    min (max (seqbase - 1) oldestSeq) wr.seq

inductive RespondShape (prd : ProxyReader) (seqbase : ℤ) (wr : Writer) (rn : WrPrdMatch) :
    Writer → WrPrdMatch → Prop
  | same (hno : ¬ (rn.seq = none ∧ prd.reliable = true)) : RespondShape prd seqbase wr rn wr rn
  | again {s : ℤ} {rn' : WrPrdMatch} (hseq : rn.seq = none) (hreliable : prd.reliable = true)
      (hs : respondSeq wr seqbase = some s)
      (hrn : rn' = { rn with hasRepliedToHb := true, seq := some s }) :
      RespondShape prd seqbase wr rn (wr.setReader rn') rn'

open RespondShape

lemma CacheOk.respondAgain_spec (h : CacheOk last wr.whc) (prd : ProxyReader) (rn : WrPrdMatch)
    (seqbase : ℤ) :
    ∃ wr' rn', respondAgain wr prd rn seqbase = some (wr', rn') ∧
      RespondShape prd seqbase wr rn wr' rn' := by
  unfold respondAgain
  split
  case isTrue hagain =>
    have holdest : ∃ o, (if whcEmpty wr.whc then some wr.seq else whcMaxSeq wr.whc) = some o := by
      cases hempty : whcEmpty wr.whc with
      | true => exact ⟨wr.seq, by simp⟩
      | false =>
        have hmax := h.maxseq
        rw [whcMaxSeq]
        cases hseq : wr.whc.maxseqNode with
        | none =>
          rw [hseq] at hmax
          exact absurd (h.whcEmpty_iff.mpr hmax) (by rw [hempty]; simp)
        | some o => exact ⟨o, by simp⟩
    obtain ⟨o, ho⟩ := holdest
    rw [ho]
    exact ⟨_, _, rfl, again hagain.1 hagain.2 (by rw [respondSeq, ho]; rfl) rfl⟩
  case isFalse hagain =>
    exact ⟨wr, rn, rfl, same hagain⟩

/-- The loop of `handle_AckNack`, for a reply. -/
def Reply.loop (reply : Reply) (env : RexmitEnv) (wr : Writer) (rn : WrPrdMatch) (msg : AckNack) :
    RexmitState :=
  rexmitLoop env wr rn reply.merging msg reply.seqbase reply.numbits 0 {}

/-- How a reply comes about. The writer `wr₁` has answered a pre-emptive acknowledgement. -/
structure NackShape (cfg : Config) (env : RexmitEnv) (prd : ProxyReader) (kind : AckKind)
    (msg : AckNack) (wr : Writer) (rn : WrPrdMatch) (wr₁ wr' : Writer) (reply : Reply) : Prop where
  answer : answerPreemptive cfg (wr.setReader (noteReply kind msg rn)) prd kind =
    some (wr₁, reply.answer)
  beat₁ : Beat (wr.setReader (noteReply kind msg rn)) wr₁
  range : rexmitRange cfg wr rn kind msg = some (reply.seqbase, reply.numbits)
  merging : reply.merging =
    (decide (cfg.retransmitMerging ≠ .never) && (noteReply kind msg rn).assumedInSync)
  rexmits : reply.rexmits = (reply.loop env wr₁ (noteReply kind msg rn) msg).msgs
  gap : reply.gap =
    makeGap wr₁ msg reply.seqbase (reply.loop env wr₁ (noteReply kind msg rn) msg)
  closing : closingHeartbeat cfg wr₁ prd msg kind.isPreemptiveAck
    (reply.loop env wr₁ (noteReply kind msg rn) msg) reply.gap = some (wr', reply.closing)
  beat₂ : Beat wr₁ wr'

section

variable (h : CacheOk last wr.whc)
include h

variable (cfg : Config)

lemma CacheOk.answerPreemptive_spec (prd : ProxyReader) (kind : AckKind) :
    ∃ wr' msgs, answerPreemptive cfg wr prd kind = some (wr', msgs) ∧ Beat wr wr' := by
  unfold answerPreemptive
  split_ifs
  · exact h.forceHeartbeatToPeer_spec cfg prd false
  · exact ⟨wr, [], rfl, Beat.refl wr⟩

lemma CacheOk.rexmitRange_isSome (rn : WrPrdMatch) (kind : AckKind) (msg : AckNack) :
    ∃ seqbase numbits, rexmitRange cfg wr rn kind msg = some (seqbase, numbits) := by
  unfold rexmitRange
  split_ifs with hpre hempty
  · exact ⟨_, _, rfl⟩
  · obtain ⟨s, hs, -⟩ := h.whcMinSeq_spec (by simpa using hempty)
    exact ⟨_, _, by rw [hs]; rfl⟩
  · exact ⟨_, _, rfl⟩

lemma CacheOk.closingHeartbeat_spec (prd : ProxyReader) (msg : AckNack) (hbSent : Bool)
    (rs : RexmitState) (gap : Option Gap) :
    ∃ wr' msgs, closingHeartbeat cfg wr prd msg hbSent rs gap = some (wr', msgs) ∧ Beat wr wr' := by
  unfold closingHeartbeat
  split_ifs
  · exact h.forceHeartbeatToPeer_spec cfg prd true
  · exact h.forceHeartbeatToPeer_spec cfg prd false
  · exact ⟨wr, [], rfl, Beat.refl wr⟩

lemma CacheOk.nackPart_spec (env : RexmitEnv) (prd : ProxyReader) (rn : WrPrdMatch)
    (kind : AckKind) (msg : AckNack) :
    ∃ wr₁ wr' reply, nackPart cfg env wr prd rn kind msg = some (wr', reply) ∧
      NackShape cfg env prd kind msg wr rn wr₁ wr' reply := by
  have hset : CacheOk last (wr.setReader (noteReply kind msg rn)).whc := h
  obtain ⟨wr₁, answer, hanswer, hbeat1⟩ := hset.answerPreemptive_spec cfg prd kind
  obtain ⟨seqbase, numbits, hrange⟩ := h.rexmitRange_isSome cfg rn kind msg
  set merging := decide (cfg.retransmitMerging ≠ .never) && (noteReply kind msg rn).assumedInSync
    with hmerging
  set rs := rexmitLoop env wr₁ (noteReply kind msg rn) merging msg seqbase numbits 0 {} with hrs
  have hok1 : CacheOk last wr₁.whc := hbeat1.whc ▸ h
  obtain ⟨wr', closing, hclosing, hbeat2⟩ := hok1.closingHeartbeat_spec cfg prd msg
    kind.isPreemptiveAck rs (makeGap wr₁ msg seqbase rs)
  refine ⟨wr₁, wr', ⟨answer, seqbase, numbits, merging, rs.msgs, makeGap wr₁ msg seqbase rs,
    closing⟩, ?_, ⟨hanswer, hbeat1, hrange, hmerging, rfl, rfl, hclosing, hbeat2⟩⟩
  unfold nackPart
  simp only [bind_eq_bind, hanswer, bind_some, hrange]
  rw [← hmerging, ← hrs, hclosing, bind_some]

end

end Parts

/-! ### The whole of `handle_AckNack` -/

/-- What `handle_AckNack` does with an AckNack that it accepts: the states in between, and the
reply. -/
structure HandleShape (cfg : Config) (env : RexmitEnv) (prd : ProxyReader) (msg : AckNack)
    (wr : Writer) (rn : WrPrdMatch) (wr₁ : Writer) (rn₁ : WrPrdMatch) (wr₂ : Writer)
    (rn₂ : WrPrdMatch) (wr₃ wr' : Writer) (reply : Reply) : Prop where
  ackRun : ackPart (wr.setReader (rn.accepted env msg)) (rn.accepted env msg) msg.bitmapBase =
    some (wr₁, rn₁)
  ack : AckShape msg.bitmapBase (wr.setReader (rn.accepted env msg)) (rn.accepted env msg) wr₁ rn₁
  respond : RespondShape prd msg.bitmapBase wr₁ rn₁ wr₂ rn₂
  nack : NackShape cfg env prd (ackKind rn msg) msg wr₂ rn₂ wr₃ wr' reply

lemma RespondShape.whc (h : RespondShape prd seqbase wr rn wr₁ rn₁) : wr₁.whc = wr.whc := by
  cases h <;> rfl

section

variable (h : AckShape seqbase wr rn wr₁ rn₁)
include h

lemma AckShape.cacheOk (hok : CacheOk wr.seq wr.whc) : CacheOk wr.seq wr₁.whc := by
  cases h with
  | old => exact hok
  | new _ _ _ hwhc =>
    rcases hwhc with rfl | hdone
    · exact hok
    · exact hdone.cacheOk

lemma AckShape.frame :
    wr₁.seq = wr.seq ∧ wr₁.seqXmit = wr.seqXmit ∧ rn₁.assumedInSync = rn.assumedInSync := by
  cases h with
  | old => exact ⟨rfl, rfl, rfl⟩
  | new _ _ hrn => exact ⟨rfl, rfl, by rw [hrn]⟩

/-- An acknowledgement takes no sample out of the cache that it does not acknowledge. -/
lemma AckShape.mem_iff {n : ℤ} (hok : CacheOk wr.seq wr.whc)
    (hrn : rn ∈ wr.readers) (hn : seqbase ≤ n) : n ∈ wr₁.whc.seqs ↔ n ∈ wr.whc.seqs := by
  cases h with
  | old => rfl
  | new _ _ hrn' hwhc =>
    rcases hwhc with rfl | hdone
    · rfl
    · refine hdone.mem_iff hok ?_
      have hmem := mem_setReader hrn (show rn.prdGuid = rn₁.prdGuid by rw [hrn'])
      have := writerMaxDropSeq_le (mem_acked.mpr ⟨rn₁, hmem, by rw [hrn']⟩)
      omega

end

lemma RespondShape.frame (h : RespondShape prd seqbase wr rn wr₁ rn₁) :
    wr₁.seq = wr.seq ∧ wr₁.seqXmit = wr.seqXmit ∧ rn₁.assumedInSync = rn.assumedInSync := by
  cases h with
  | same => exact ⟨rfl, rfl, rfl⟩
  | again _ _ _ hrn => exact ⟨rfl, rfl, by rw [hrn]⟩

lemma handleAckNack_spec (h : WhcInv wr.seq wr.whc) (cfg : Config) (env : RexmitEnv)
    (prd : ProxyReader) (msg : AckNack) :
    (acceptAckNack env wr prd msg = none ∧ handleAckNack cfg env wr prd msg = some (wr, {})) ∨
      ∃ rn wr₁ rn₁ wr₂ rn₂ wr₃ wr' reply, acceptAckNack env wr prd msg = some rn ∧
        handleAckNack cfg env wr prd msg = some (wr', reply) ∧
        HandleShape cfg env prd msg wr rn wr₁ rn₁ wr₂ rn₂ wr₃ wr' reply := by
  unfold handleAckNack
  cases hacc : acceptAckNack env wr prd msg with
  | none => exact .inl ⟨rfl, rfl⟩
  | some rn =>
    have hset : WhcInv (wr.setReader (rn.accepted env msg)).seq
        (wr.setReader (rn.accepted env msg)).whc := h
    obtain ⟨wr₁, rn₁, hrun1, hack⟩ := ackPart_spec hset (rn.accepted env msg) msg.bitmapBase
    have hok1 : CacheOk wr.seq wr₁.whc := hack.cacheOk hset.cacheOk
    obtain ⟨wr₂, rn₂, hrun2, hrespond⟩ := hok1.respondAgain_spec prd rn₁ msg.bitmapBase
    have hok2 : CacheOk wr.seq wr₂.whc := hrespond.whc ▸ hok1
    obtain ⟨wr₃, wr', reply, hrun3, hnack⟩ :=
      hok2.nackPart_spec cfg env prd rn₂ (ackKind rn msg) msg
    refine .inr ⟨rn, wr₁, rn₁, wr₂, rn₂, wr₃, wr', reply, rfl, ?_, hrun1, hack, hrespond, hnack⟩
    simp [hrun1, hrun2, hrun3]

lemma acceptAckNack_eq_some {env : RexmitEnv} {msg : AckNack}
    (h : acceptAckNack env wr prd msg = some rn) : rn ∈ wr.readers ∧ rn.prdGuid = prd.guid := by
  unfold acceptAckNack at h
  split_ifs at h
  exact lookup_eq_some (filter_eq_some_iff.mp h).1

end OpenSplice.Ddsi
