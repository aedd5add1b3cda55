import OpenSplice.Ddsi.Writer.Steps

/-!
# The drop point of a writer

A writer hands the smallest acknowledged number to its cache whenever it inserts a sample and
whenever samples may have been acknowledged, and the cache asserts that this drop point does not go
back. Runs of a writer are sequences of `WriterEvent`s; `Writer.calling` is the writer at the moment
it calls its cache. `WriterInv` says that the drop point of the cache is below all acknowledged
numbers. Every event keeps it (`WriterInv.event`), but for one: a reader that responds again is
taken to have acknowledged all but the last sample in the cache, which may be an old one that is
only kept for late joiners (`responds_below_drop_point`). A volatile cache with its whole history
(`KeepsAll`) has no such samples.
-/

set_option autoImplicit false

namespace OpenSplice.Ddsi

open Library Option Writer

inductive WriterEvent where
  | write (serdata : WhcSerdata)
  | transmitted (seq : ℤ)
  | ackNack (env : RexmitEnv) (prd : ProxyReader) (msg : AckNack)
  | addConnection (prd : ProxyReader)
  | dropConnection (guid : ℕ)
  | throttle

def writerEvent (cfg : Config) (wr : Writer) : WriterEvent → Option Writer
  | .write serdata => (writeSample wr serdata).map Prod.fst
  | .transmitted seq => some (noteTransmitted wr seq)
  | .ackNack env prd msg => (handleAckNack cfg env wr prd msg).map Prod.fst
  | .addConnection prd => some (writerAddConnection cfg wr prd)
  | .dropConnection guid => writerDropConnection wr guid
  | .throttle => throttleWriter wr

/-- The writer as it is when, at an event, it passes `writer_max_drop_seq` to its cache. -/
def Writer.calling (wr : Writer) : WriterEvent → Option Writer
  | .write _ => if wr.nextSeq.doInsert then some wr.nextSeq else none
  | .transmitted _ => none
  | .ackNack env prd msg =>
    (acceptAckNack env wr prd msg).bind fun rn ↦
      (ackReader wr (rn.accepted env msg) msg.bitmapBase).map fun rn' ↦
        (wr.setReader (rn.accepted env msg)).setReader rn'
  | .addConnection _ => none
  | .dropConnection guid =>
    (KeyedList.lookup WrPrdMatch.prdGuid guid wr.readers).map fun _ ↦ wr.deleteReader guid
  | .throttle => some wr.throttleReaders

/-- The states of the runs from `start` whose events meet a condition. -/
inductive WriterReach (cfg : Config) (P : Writer → WriterEvent → Prop) (start : Writer) :
    Writer → Prop
  | start : WriterReach cfg P start start
  | event {wr wr' : Writer} {ev : WriterEvent} (hreach : WriterReach cfg P start wr)
      (hev : P wr ev) (hrun : writerEvent cfg wr ev = some wr') : WriterReach cfg P start wr'

/-- When a reader responds again, the cache is empty, or the last sample in it or the
acknowledgement of the reader reaches up to the drop point. -/
def WriterEvent.Regains (wr : Writer) : WriterEvent → Prop
  | .ackNack env prd msg =>
    ∀ rn, acceptAckNack env wr prd msg = some rn → rn.seq = none → prd.reliable = true →
      whcEmpty wr.whc = true ∨ (∃ s, whcMaxSeq wr.whc = some s ∧ wr.whc.maxDropSeq ≤ s) ∨
        wr.whc.maxDropSeq ≤ msg.bitmapBase - 1
  | _ => True

/-! ### The invariant -/

/-- The cache is in order, and its drop point is below all numbers that readers have
acknowledged. -/
structure WriterInv (wr : Writer) : Prop where
  whc : WhcInv wr.seq wr.whc
  acked_le : ∀ s ∈ wr.acked, s ≤ wr.seq
  drop_le : wr.whc.maxDropSeq ≤ wr.seq
  drop_acked : ∀ s ∈ wr.acked, wr.whc.maxDropSeq ≤ s

/-- The cache of a volatile writer that keeps its whole history. The sample `n` is in it, or is
below the drop point, where no sample is. -/
structure KeepsAll (n : ℤ) (whc : Whc) : Prop where
  settings : whc.isTransientLocal = false ∧ whc.hdepth = 0 ∧ whc.tldepth = 0
  tidy : Tidy whc
  settled : n ∈ whc.seqs ∨ n ≤ whc.maxDropSeq

section KeepsAll

variable {n m last : ℤ} {whc whc' : Whc} (h : KeepsAll n whc) (hinv : WhcInv last whc)
include h hinv

lemma KeepsAll.removed (hm : whc.maxDropSeq ≤ m) (hdone : Removed last m whc whc') :
    KeepsAll n whc' := by
  have hkeep : ¬ (whc.isTransientLocal ∧ whc.tldepth = 0) := by simp [h.settings]
  refine ⟨by rw [hdone.settings]; exact h.settings, h.tidy.removed hinv hkeep hdone, ?_⟩
  rw [hdone.maxDropSeq]
  by_cases hlt : m < n
  · exact h.settled.imp (hdone.mem_iff hinv.cacheOk hlt).mpr fun hle ↦ hle.trans hm
  · exact .inr (not_lt.mp hlt)

lemma KeepsAll.insert {s : ℤ} {d : WhcSerdata} (hs : whc.maxDropSeq < s)
    (hshape : InsertShape m s d whc.store whc'.store) : KeepsAll n whc' := by
  have hsettings : whc'.toWhcSettings = whc.toWhcSettings := hshape.settings
  refine ⟨by rw [hsettings]; exact h.settings, h.tidy.insert hinv hs hshape, ?_⟩
  rw [hsettings]
  refine h.settled.imp_left fun hn ↦ ?_
  obtain ⟨w, hw, rfl⟩ := Whc.mem_seqs_iff.mp hn
  have hidx : whc.store.admin.idxdepth = 0 := hinv.depth.trans (by simp [h.settings])
  have hsamples : whc'.samples = (whc.store.insertSeq m s d).samples :=
    congrArg WhcStore.samples (hshape.eq_insertSeq hidx)
  exact Whc.mem_seqs_iff.mpr ⟨w, hsamples ▸ WhcStore.mem_insertSeq.mpr (.inl hw), rfl⟩

end KeepsAll

section Invariant

variable {wr : Writer} {cfg : Config} {rn rn' : WrPrdMatch} {seqbase s : ℤ}

lemma writerInv_new (reliable handleAsTransientLocal startupMode : Bool) {whc : Whc}
    (hwhc : WhcInv 0 whc) (hdrop : whc.maxDropSeq = 0) :
    WriterInv (newWriter reliable handleAsTransientLocal startupMode whc) := by
  refine ⟨hwhc, fun s hs ↦ ?_, hdrop.le, fun s hs ↦ ?_⟩
  · simp [acked, newWriter] at hs
  · simp [acked, newWriter] at hs

section

variable (h : WriterInv wr) {wr' : Writer}

include h

namespace WriterInv

lemma drop_le_max : wr.whc.maxDropSeq ≤ writerMaxDropSeq wr := by
  rcases writerMaxDropSeq_cases wr with ⟨-, heq⟩ | ⟨hmem, -⟩
  · exact heq ▸ h.drop_le
  · exact h.drop_acked _ hmem

lemma max_le_seq : writerMaxDropSeq wr ≤ wr.seq := by
  rcases writerMaxDropSeq_cases wr with ⟨-, heq⟩ | ⟨hmem, -⟩
  · exact heq.le
  · exact h.acked_le _ hmem

/-- `remove_acked_messages` moves the drop point up to the acknowledged numbers. -/
lemma removeAcked : ∃ wr', removeAckedMessages wr = some wr' ∧ WriterInv wr' ∧
    ∀ n, KeepsAll n wr.whc → KeepsAll n wr'.whc := by
  by_cases hkeep : wr.whc.isTransientLocal ∧ wr.whc.tldepth = 0
  · refine ⟨wr, ?_, h, fun _ hn ↦ hn⟩
    simp only [removeAckedMessages, whcRemoveAckedMessages, if_pos hkeep, map_some]
  · obtain ⟨whc', hrun, hdone, hinv⟩ := h.whc.removeAcked h.drop_le_max hkeep
    refine ⟨{ wr with whc := whc' }, by rw [removeAckedMessages, hrun]; rfl,
      ⟨hinv, h.acked_le, ?_, ?_⟩, fun _ hn ↦ hn.removed h.whc h.drop_le_max hdone⟩
    · exact hdone.maxDropSeq.trans_le h.max_le_seq
    · exact fun s hs ↦ hdone.maxDropSeq.trans_le (writerMaxDropSeq_le hs)

/-- The invariant only depends on the cache, the last number and the acknowledged ones. -/
lemma of_acked (hwhc : wr'.whc = wr.whc) (hseq : wr.seq ≤ wr'.seq)
    (hacked : ∀ s ∈ wr'.acked, s ∈ wr.acked ∨ wr.whc.maxDropSeq ≤ s ∧ s ≤ wr'.seq) :
    WriterInv wr' := by
  refine ⟨hwhc ▸ h.whc.mono hseq, fun s hs ↦ ?_, hwhc ▸ h.drop_le.trans hseq, fun s hs ↦ ?_⟩
  · exact (hacked s hs).elim (fun hold ↦ (h.acked_le s hold).trans hseq) fun hnew ↦ hnew.2
  · rw [hwhc]
    exact (hacked s hs).elim (h.drop_acked s) fun hnew ↦ hnew.1

/-- The match with a reader is changed, and its number stays within the bounds. -/
lemma setReader (hrn : ∀ s, rn.seq = some s → wr.whc.maxDropSeq ≤ s ∧ s ≤ wr.seq) :
    WriterInv (wr.setReader rn) :=
  h.of_acked rfl le_rfl fun s hs ↦
    (mem_acked_setReader hs).elim (fun hself ↦ .inr (hrn s hself)) .inl

lemma bounds (hrn : rn ∈ wr.readers) (s : ℤ) (hs : rn.seq = some s) :
    wr.whc.maxDropSeq ≤ s ∧ s ≤ wr.seq :=
  ⟨h.drop_acked s (mem_acked.mpr ⟨rn, hrn, hs⟩), h.acked_le s (mem_acked.mpr ⟨rn, hrn, hs⟩)⟩

lemma setReader_of_seq_eq (hrn : rn ∈ wr.readers)
    (hseq : rn'.seq = rn.seq) : WriterInv (wr.setReader rn') :=
  h.setReader fun s hs ↦ h.bounds hrn s (hseq.symm.trans hs)

lemma nextSeq : WriterInv wr.nextSeq :=
  h.of_acked rfl (show wr.seq ≤ wr.seq + 1 by omega) fun _ hs ↦ .inl hs

lemma beat (hbeat : Beat wr wr') : WriterInv wr' :=
  h.of_acked hbeat.whc hbeat.seq_le fun _ hs ↦ .inl (hbeat.acked ▸ hs)

end WriterInv

end

lemma Writer.acked_throttleReaders (wr : Writer) (hs : s ∈ wr.throttleReaders.acked) :
    s ∈ wr.acked := by
  obtain ⟨rn', hrn', hseq⟩ := mem_acked.mp hs
  obtain ⟨rn, hrn, rfl⟩ := List.mem_map.mp hrn'
  unfold throttleHelper at hseq
  split_ifs at hseq with hlate
  · exact mem_acked.mpr ⟨rn, hrn, hseq⟩

lemma Writer.acked_deleteReader (wr : Writer) (guid : ℕ)
    (hs : s ∈ (wr.deleteReader guid).acked) : s ∈ wr.acked := by
  obtain ⟨rn, hrn, hseq⟩ := mem_acked.mp hs
  exact mem_acked.mpr ⟨rn, (KeyedList.mem_delete.mp hrn).1, hseq⟩

/-- The number of a reader that responds again is within the bounds. -/
lemma WriterInv.respondSeq_bounds (h : WriterInv wr)
    (hregain : whcEmpty wr.whc ∨ (∃ s, whcMaxSeq wr.whc = some s ∧ wr.whc.maxDropSeq ≤ s) ∨
      wr.whc.maxDropSeq ≤ seqbase - 1) (hs : respondSeq wr seqbase = some s) :
    wr.whc.maxDropSeq ≤ s ∧ s ≤ wr.seq := by
  obtain ⟨o, ho, rfl⟩ := map_eq_some_iff.mp hs
  refine ⟨le_min (le_max_iff.mpr ?_) h.drop_le, min_le_right _ _⟩
  rcases hregain with hempty | ⟨o', ho', hle⟩ | hle
  · rw [if_pos hempty] at ho
    exact .inr (some_inj.mp ho ▸ h.drop_le)
  · by_cases hempty : whcEmpty wr.whc
    · rw [if_pos hempty] at ho
      exact .inr (some_inj.mp ho ▸ h.drop_le)
    · rw [if_neg hempty, ho'] at ho
      exact .inr (some_inj.mp ho ▸ hle)
  · exact .inl hle

lemma ackReader_eq_some (h : ackReader wr rn seqbase = some rn') :
    rn'.prdGuid = rn.prdGuid ∧ ∃ s, rn.seq = some s ∧ s < seqbase - 1 ∧
      rn'.seq = some (min (seqbase - 1) wr.seq) := by
  unfold ackReader at h
  split_ifs at h with hnew
  obtain rfl := some_inj.mp h
  cases hseq : rn.seq with
  | none => simp [hseq] at hnew
  | some s => exact ⟨rfl, s, rfl, by simpa [hseq] using hnew, rfl⟩

section

variable (h : WriterInv wr)

variable {rn1 : WrPrdMatch} {prd : ProxyReader} {ev : WriterEvent}

include h

section

variable (hrn : rn ∈ wr.readers)
include hrn

lemma WriterInv.ackReader
    (hack : ackReader wr rn seqbase = some rn') : WriterInv (wr.setReader rn') := by
  obtain ⟨-, s, hs, hlt, hs'⟩ := ackReader_eq_some hack
  obtain ⟨hlo, hhi⟩ := h.bounds hrn s hs
  refine h.setReader fun t ht ↦ ?_
  obtain rfl := mem_unique hs' ht
  exact ⟨le_min (hlo.trans hlt.le) (hlo.trans hhi), min_le_right _ _⟩

variable {wr1 : Writer}

lemma WriterInv.ackPart
    (hrun : ackPart wr rn seqbase = some (wr1, rn1)) : WriterInv wr1 ∧ rn1 ∈ wr1.readers ∧
      ∀ n, KeepsAll n wr.whc → KeepsAll n wr1.whc := by
  unfold Ddsi.ackPart at hrun
  cases hack : Ddsi.ackReader wr rn seqbase with
  | none =>
    rw [hack] at hrun
    obtain ⟨rfl, rfl⟩ := Prod.mk.inj (some_inj.mp hrun)
    exact ⟨h, hrn, fun _ hn ↦ hn⟩
  | some =>
    rw [hack] at hrun
    obtain ⟨wr', hwr', heq⟩ := map_eq_some_iff.mp hrun
    obtain ⟨rfl, rfl⟩ := Prod.mk.inj heq
    obtain ⟨wr'', hwr'', hinv, hkeeps⟩ := (h.ackReader hrn hack).removeAcked
    obtain rfl := mem_unique hwr' hwr''
    refine ⟨hinv, ?_, hkeeps⟩
    have hmem := mem_setReader hrn (ackReader_eq_some hack).1.symm
    obtain ⟨whc, -, rfl⟩ := map_eq_some_iff.mp hwr'
    exact hmem

/-- A reader that responds again keeps the invariant, if its number reaches the drop point. -/
lemma WriterInv.respond (hregain : rn.seq = none → prd.reliable → whcEmpty wr.whc ∨
      (∃ s, whcMaxSeq wr.whc = some s ∧ wr.whc.maxDropSeq ≤ s) ∨ wr.whc.maxDropSeq ≤ seqbase - 1)
    (hshape : RespondShape prd seqbase wr rn wr1 rn1) : WriterInv wr1 ∧ rn1 ∈ wr1.readers := by
  cases hshape with
  | same => exact ⟨h, hrn⟩
  | again hnone hreliable hs hrn' =>
    subst hrn'
    refine ⟨h.setReader fun t ht ↦ ?_, mem_setReader hrn rfl⟩
    obtain rfl := some_inj.mp ht
    exact h.respondSeq_bounds (hregain hnone hreliable) hs

end

namespace WriterInv

/-- `handle_AckNack` keeps the invariant, if a reader that responds again reaches the drop
point. -/
lemma handleAckNack {env : RexmitEnv} {msg : AckNack}
    (hregain : (WriterEvent.ackNack env prd msg).Regains wr) :
    ∃ wr' reply, handleAckNack cfg env wr prd msg = some (wr', reply) ∧ WriterInv wr' ∧
      ∀ n, KeepsAll n wr.whc → KeepsAll n wr'.whc := by
  rcases handleAckNack_spec h.whc cfg env prd msg with ⟨-, hrun⟩ |
    ⟨rn, wr1, rn1, wr2, rn2, wr3, wr', reply, hacc, hrun, hshape⟩
  · exact ⟨wr, {}, hrun, h, fun _ hn ↦ hn⟩
  · obtain ⟨hmem, -⟩ := acceptAckNack_eq_some hacc
    have hset : WriterInv (wr.setReader (rn.accepted env msg)) := h.setReader_of_seq_eq hmem rfl
    obtain ⟨hinv1, hmem1, hkeeps⟩ := hset.ackPart (mem_setReader hmem rfl) hshape.ackRun
    have hregain1 : rn1.seq = none → prd.reliable → whcEmpty wr1.whc ∨
        (∃ s, whcMaxSeq wr1.whc = some s ∧ wr1.whc.maxDropSeq ≤ s) ∨
          wr1.whc.maxDropSeq ≤ msg.bitmapBase - 1 := by
      intro hnone hreliable
      -- a reader that is not waited for acknowledges nothing, so this is the cache from before
      cases hshape.ack with
      | old => exact hregain rn hacc hnone hreliable
      | new _ _ hrn => simp [hrn] at hnone
    obtain ⟨hinv2, hmem2⟩ := hinv1.respond hmem1 hregain1 hshape.respond
    have hnote : WriterInv (wr2.setReader (noteReply (ackKind rn msg) msg rn2)) :=
      hinv2.setReader_of_seq_eq hmem2 rfl
    have hwhc : wr'.whc = wr1.whc :=
      hshape.nack.beat₂.whc.trans (hshape.nack.beat₁.whc.trans hshape.respond.whc)
    exact ⟨wr', reply, hrun, (hnote.beat hshape.nack.beat₁).beat hshape.nack.beat₂,
      fun n hn ↦ hwhc ▸ hkeeps n hn⟩

lemma writeSample (serdata : WhcSerdata) :
    ∃ wr' msgs, writeSample wr serdata = some (wr', msgs) ∧ WriterInv wr' ∧
      ∀ n, KeepsAll n wr.whc → KeepsAll n wr'.whc := by
  unfold Ddsi.writeSample insertSampleInWhc
  split_ifs
  · obtain ⟨whc', hrun, hinv, hshape⟩ := whcInsert_spec h.whc
      (show wr.seq < wr.nextSeq.seq from lt_add_one wr.seq) (writerMaxDropSeq wr.nextSeq) serdata
    have hsettings : whc'.toWhcSettings = wr.whc.toWhcSettings := hshape.settings
    have hdrop : whc'.maxDropSeq = wr.whc.maxDropSeq := congrArg WhcSettings.maxDropSeq hsettings
    have hwhc : wr.nextSeq.whc = wr.whc := rfl
    rw [hwhc, hrun]
    exact ⟨_, _, rfl, ⟨hinv, h.nextSeq.acked_le, hdrop.trans_le h.nextSeq.drop_le,
      fun s hs ↦ hdrop.trans_le (h.nextSeq.drop_acked s hs)⟩,
      fun _ hn ↦ hn.insert h.whc (Int.lt_add_one_of_le h.drop_le) hshape⟩
  · exact ⟨_, _, rfl, h.nextSeq, fun _ hn ↦ hn⟩

lemma writerAddConnection (prd : ProxyReader) : WriterInv (writerAddConnection cfg wr prd) := by
  unfold Ddsi.writerAddConnection
  split
  · exact h
  · refine h.of_acked rfl le_rfl fun s hs ↦ ?_
    obtain ⟨rn, hrn, hseq⟩ := mem_acked.mp hs
    rcases KeyedList.mem_insert.mp hrn with rfl | hrn
    · simp only [newWrPrdMatch] at hseq
      split_ifs at hseq
      obtain rfl := some_inj.mp hseq
      exact .inr ⟨h.drop_le, le_rfl⟩
    · exact .inl (mem_acked.mpr ⟨rn, hrn, hseq⟩)

lemma deleteReader (guid : ℕ) : WriterInv (wr.deleteReader guid) :=
  h.of_acked rfl le_rfl fun _ hs ↦ .inl (wr.acked_deleteReader guid hs)

lemma throttleReaders : WriterInv wr.throttleReaders :=
  h.of_acked rfl le_rfl fun _ hs ↦ .inl (wr.acked_throttleReaders hs)

lemma event (hregain : ev.Regains wr) :
    ∃ wr', writerEvent cfg wr ev = some wr' ∧ WriterInv wr' ∧
      ∀ n, KeepsAll n wr.whc → KeepsAll n wr'.whc := by
  cases ev with
  | write serdata =>
    obtain ⟨wr', msgs, hrun, hdone⟩ := h.writeSample serdata
    exact ⟨wr', by rw [writerEvent, hrun]; rfl, hdone⟩
  | transmitted =>
    refine ⟨_, rfl, ?_⟩
    unfold noteTransmitted
    split_ifs
    · exact ⟨h.of_acked rfl le_rfl fun _ hs ↦ .inl hs, fun _ hn ↦ hn⟩
    · exact ⟨h, fun _ hn ↦ hn⟩
  | ackNack =>
    obtain ⟨wr', reply, hrun, hdone⟩ := h.handleAckNack hregain
    exact ⟨wr', by rw [writerEvent, hrun]; rfl, hdone⟩
  | addConnection prd =>
    refine ⟨_, rfl, h.writerAddConnection prd, fun _ hn ↦ ?_⟩
    unfold Ddsi.writerAddConnection
    split <;> exact hn
  | dropConnection guid =>
    simp only [writerEvent, writerDropConnection]
    split
    · exact ⟨wr, rfl, h, fun _ hn ↦ hn⟩
    · exact (h.deleteReader guid).removeAcked
  | throttle => exact h.throttleReaders.removeAcked

/-- The drop point of the cache is below the one that a writer passes to it. -/
lemma calling {w : Writer} (hcall : wr.calling ev = some w) :
    w.whc.maxDropSeq ≤ writerMaxDropSeq w := by
  cases ev with
  | write =>
    simp only [calling] at hcall
    split_ifs at hcall
    exact some_inj.mp hcall ▸ h.nextSeq.drop_le_max
  | ackNack env _ msg =>
    obtain ⟨rn, hacc, hack⟩ := bind_eq_some_iff.mp hcall
    obtain ⟨rn', hack', rfl⟩ := map_eq_some_iff.mp hack
    obtain ⟨hmem, -⟩ := acceptAckNack_eq_some hacc
    have hset : WriterInv (wr.setReader (rn.accepted env msg)) := h.setReader_of_seq_eq hmem rfl
    exact (hset.ackReader (mem_setReader hmem rfl) hack').drop_le_max
  | transmitted | addConnection => simp [calling] at hcall
  | dropConnection guid =>
    obtain ⟨rn, -, rfl⟩ := map_eq_some_iff.mp hcall
    exact (h.deleteReader guid).drop_le_max
  | throttle => exact some_inj.mp hcall ▸ h.throttleReaders.drop_le_max

end WriterInv

end

end Invariant

section Runs

variable {cfg : Config} {start wr : Writer}

lemma WriterReach.inv (hstart : WriterInv start)
    (hreach : WriterReach cfg (fun wr ev ↦ ev.Regains wr) start wr) : WriterInv wr := by
  induction hreach with
  | start => exact hstart
  | event _ hev hrun ih =>
    obtain ⟨wr', hrun', hinv, -⟩ := ih.event hev
    obtain rfl := mem_unique hrun hrun'
    exact hinv

/-- Whenever a writer calls its cache, the drop point it passes is not below that of the cache, and
no reader that is waited for has acknowledged a sample that was not written. This holds in all runs
in which the readers that respond again reach the drop point. -/
theorem writer_drop_point (cfg : Config)
    (handleAsTransientLocal startupMode isTransientLocal : Bool)
    (hdepth tldepth sampleOverhead fragmentSize : ℕ) {wr : Writer}
    (hreach : WriterReach cfg (fun wr ev ↦ ev.Regains wr)
      (newWriter true handleAsTransientLocal startupMode
        (whcNew isTransientLocal hdepth tldepth sampleOverhead fragmentSize)) wr) :
    (∀ ev w, wr.calling ev = some w → w.whc.maxDropSeq ≤ writerMaxDropSeq w) ∧
      ∀ rn ∈ wr.readers, ∀ s, rn.seq = some s → s ≤ wr.seq := by
  have hinv := hreach.inv (writerInv_new true handleAsTransientLocal startupMode
    (whcInv_new isTransientLocal hdepth tldepth sampleOverhead fragmentSize) rfl)
  exact ⟨fun ev w hcall ↦ hinv.calling hcall, fun rn hrn s hs ↦ (hinv.bounds hrn s hs).2⟩

lemma WriterReach.of_events {P : Writer → WriterEvent → Prop} (evs : List WriterEvent)
    (hevs : ∀ ev ∈ evs, ∀ wr, P wr ev) (hrun : evs.foldlM (writerEvent cfg) start = some wr)
    {start' : Writer} (hstart : WriterReach cfg P start' start) : WriterReach cfg P start' wr := by
  induction evs generalizing start with
  | nil => exact some_inj.mp hrun ▸ hstart
  | cons ev _ ih =>
    obtain ⟨wr1, hrun1, hrest⟩ := bind_eq_some_iff.mp hrun
    exact ih (fun ev' hev' ↦ hevs ev' (List.mem_cons_of_mem _ hev')) hrest
      (hstart.event (hevs ev (List.mem_cons_self ..) start) hrun1)

end Runs

/-! ### Nothing is lost -/

section KeepAll

variable {cfg : Config} {wr : Writer} {n : ℤ} (h : KeepsAll n wr.whc) (hinv : WriterInv wr)
include h hinv

/-- What is left in the cache is above the drop point. -/
lemma KeepsAll.regains (ev : WriterEvent) : ev.Regains wr := by
  cases ev with
  | ackNack =>
    intro _ _ _ _
    have hmax := hinv.whc.maxseq
    cases hseq : wr.whc.maxseqNode with
    | none =>
      rw [hseq] at hmax
      exact .inl (hinv.whc.cacheOk.whcEmpty_iff.mpr hmax)
    | some s =>
      rw [hseq] at hmax
      exact .inr (.inl ⟨s, hseq, (h.tidy.above h.settings.1 h.settings.2.2 s hmax.1).le⟩)
  | _ => trivial

lemma KeepsAll.run (evs : List WriterEvent) :
    ∃ wr', evs.foldlM (writerEvent cfg) wr = some wr' ∧ WriterInv wr' ∧ KeepsAll n wr'.whc := by
  induction evs generalizing wr with
  | nil => exact ⟨wr, rfl, hinv, h⟩
  | cons ev evs ih =>
    obtain ⟨wr₁, hrun, hinv₁, hkeeps⟩ := hinv.event (h.regains hinv ev)
    obtain ⟨wr', hrest, hdone⟩ := ih (hkeeps n h) hinv₁
    exact ⟨wr', by rw [List.foldlM_cons, hrun]; exact hrest, hdone⟩

end KeepAll

/-- In every run of a reliable volatile writer that keeps its whole history each event comes to an
end and leaves the cache in order, and a sample that was in the cache at any time is still there as
long as there is a reader that has not acknowledged it. -/
theorem keepAll_writer_loses_nothing (cfg : Config) (handleAsTransientLocal startupMode : Bool)
    (sampleOverhead fragmentSize : ℕ) (evs evs' : List WriterEvent) :
    ∃ wr wr', evs.foldlM (writerEvent cfg) (newWriter true handleAsTransientLocal startupMode
        (whcNew false 0 0 sampleOverhead fragmentSize)) = some wr ∧
      evs'.foldlM (writerEvent cfg) wr = some wr' ∧ WhcRep wr'.whc ∧
      ∀ n ∈ wr.whc.seqs, n ∈ wr'.whc.seqs ∨ ∀ rn ∈ wr'.readers, ∀ s, rn.seq = some s → n ≤ s := by
  have hnew : KeepsAll 0 (whcNew false 0 0 sampleOverhead fragmentSize) :=
    ⟨⟨rfl, rfl, rfl⟩, tidy_new .., .inr le_rfl⟩
  obtain ⟨wr, hrun, hinv, hkeeps⟩ := hnew.run (writerInv_new true handleAsTransientLocal startupMode
    (whcInv_new false 0 0 sampleOverhead fragmentSize) rfl) evs
  obtain ⟨wr', hrun', hinv', -⟩ := hkeeps.run hinv evs'
  refine ⟨wr, wr', hrun, hrun', hinv'.whc.rep, fun n hn ↦ ?_⟩
  have hn' : KeepsAll n wr.whc := ⟨hkeeps.settings, hkeeps.tidy, .inl hn⟩
  obtain ⟨wr₂, hrun₂, -, hdone⟩ := hn'.run hinv evs'
  obtain rfl := mem_unique hrun' hrun₂
  exact hdone.settled.imp_right fun hle rn hrn s hs ↦ hle.trans (hinv'.bounds hrn s hs).1

/-! ### A reader that responds again -/

def defaultConfig : Config := ⟨0, false, .never⟩

def reliableReader : ProxyReader := ⟨7, true, false, true⟩

/-- A sample of an instance, and the message that unregisters the instance. -/
def sampleOf (key : ℕ) : WhcSerdata := ⟨key, [0], false, false⟩

@[inherit_doc sampleOf]
def unregisterOf (key : ℕ) : WhcSerdata := ⟨key, [0], false, true⟩

def calmEnv : RexmitEnv := ⟨0, fun _ ↦ false, fun _ ↦ true⟩

/-- A transient-local writer that keeps all samples for its readers writes to two instances and
unregisters the second one, and its reader does not respond until all of this was acknowledged in
its name. -/
def lateResponse : List WriterEvent :=
  [.addConnection reliableReader, .write (sampleOf 1), .write (sampleOf 2), .write (unregisterOf 2),
    .throttle, .ackNack calmEnv reliableReader ⟨1, [true], 1, true⟩]

/-- The drop point of the cache is then at the third sample. The only sample left in the cache is
the first one, and that is where the reader starts again: the next time the writer calls its cache,
it passes a drop point from before. -/
theorem responds_below_drop_point :
    ∃ wr, WriterReach defaultConfig (fun _ _ ↦ True)
        (newWriter true true false (whcNew true 0 1 0 1)) wr ∧
      ∃ w, wr.calling (.write (sampleOf 1)) = some w ∧ writerMaxDropSeq w = 1 ∧
        w.whc.maxDropSeq = 3 := by
  have hrun : ((lateResponse.foldlM (writerEvent defaultConfig)
      (newWriter true true false (whcNew true 0 1 0 1))).any fun wr ↦
        (wr.calling (.write (sampleOf 1))).any fun w ↦
          decide (writerMaxDropSeq w = 1 ∧ w.whc.maxDropSeq = 3)) := by
    decide +kernel
  obtain ⟨wr, hwr, hcall⟩ := (any_eq_true _ _).mp hrun
  obtain ⟨w, hw, hdrop⟩ := (any_eq_true _ _).mp hcall
  exact ⟨wr, WriterReach.of_events lateResponse (fun _ _ _ ↦ trivial) hwr .start, w, hw,
    of_decide_eq_true hdrop⟩

/-- The same reader responds again to a writer that keeps nothing for late joiners. The cache is
empty then, and the drop point goes up. -/
theorem writer_drop_point_volatile :
    ∃ wr, WriterReach defaultConfig (fun wr ev ↦ ev.Regains wr)
        (newWriter true false false (whcNew false 0 0 0 1)) wr ∧
      wr.acked = [1] ∧ ∀ ev w, wr.calling ev = some w → w.whc.maxDropSeq ≤ writerMaxDropSeq w := by
  have hrun : (([.addConnection reliableReader, .write (sampleOf 1), .throttle].foldlM
      (writerEvent defaultConfig) (newWriter true false false (whcNew false 0 0 0 1))).any fun wr ↦
        whcEmpty wr.whc && (writerEvent defaultConfig wr
          (.ackNack calmEnv reliableReader ⟨1, [true], 1, true⟩)).any fun wr' ↦
            decide (wr'.acked = [1])) := by
    decide +kernel
  obtain ⟨wr, hwr, hrest⟩ := (any_eq_true _ _).mp hrun
  obtain ⟨hempty, hack⟩ := Bool.and_eq_true_iff.mp hrest
  obtain ⟨wr', hwr', hacked⟩ := (any_eq_true _ _).mp hack
  have hcalm : ∀ ev ∈ [.addConnection reliableReader, .write (sampleOf 1), .throttle],
      ∀ wr, WriterEvent.Regains wr ev := by
    simp [WriterEvent.Regains]
  have hregain : (WriterEvent.ackNack calmEnv reliableReader ⟨1, [true], 1, true⟩).Regains wr :=
    fun _ _ _ _ ↦ .inl hempty
  have hreach := (WriterReach.of_events _ hcalm hwr .start).event hregain hwr'
  exact ⟨wr', hreach, of_decide_eq_true hacked,
    (writer_drop_point defaultConfig false false false 0 0 0 1 hreach).1⟩

end OpenSplice.Ddsi
