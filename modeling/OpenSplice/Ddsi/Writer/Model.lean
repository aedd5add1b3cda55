import OpenSplice.Ddsi.Whc.Model

/-!
# The writer's side of the protocol

A reliable writer keeps the samples its readers may still ask for in a history cache. It remembers
for every matched reader up to where that reader has acknowledged, and the smallest of these numbers
is the drop point of the cache (`writer_max_drop_seq`). `handle_AckNack` of `q_receive.c` takes the
acknowledgement of a reader, retransmits what it asks for, and tells it with a Gap which of this is
no longer there.

A reader that is best-effort or did not respond in time has `MAX_SEQ_NUMBER` for a number, which is
`none` here. The tree of readers is a list in the order of their identifiers. `RexmitEnv` has the
time, which samples were retransmitted just before, and where the queue for retransmits is full.
Statistics, latency estimates, and the flag for adapting the high-water mark are left out.
-/

set_option autoImplicit false

namespace OpenSplice.Ddsi

open Library

/-- `AckNack_t`: all samples below `bitmapBase` are acknowledged, and those with their bit set are
asked for. -/
structure AckNack where
  bitmapBase : ℤ
  bits : List Bool
  count : ℤ
  final : Bool
  deriving DecidableEq

/-- `Gap_t`: the samples from `gapStart` up to `bitmapBase`, and those with their bit set, are not
available. -/
structure Gap where
  gapStart : ℤ
  bitmapBase : ℤ
  bits : List Bool
  deriving DecidableEq

/-- `Heartbeat_t`. -/
structure Heartbeat where
  firstSN : ℤ
  lastSN : ℤ
  count : ℤ
  final : Bool
  deriving DecidableEq

/-- A message of a writer, with the reader it is for, or for all of them. -/
inductive WriterMsg where
  | data (seq : ℤ) (serdata : WhcSerdata) (dst : Option ℕ)
  | gap (gap : Gap) (dst : ℕ)
  | heartbeat (hb : Heartbeat) (dst : Option ℕ)
  deriving DecidableEq

/-- `valid_AckNack`, with the base of the bitmap not checked if there are no bits. -/
def validAckNack (msg : AckNack) : Prop :=
  0 < msg.bitmapBase ∧ 0 < msg.bits.length ∧ msg.bits.length ≤ 256 ∨ msg.bits.length = 0

instance (msg : AckNack) : Decidable (validAckNack msg) := inferInstanceAs (Decidable (_ ∨ _))

/-- `acknack_is_nack`. -/
def acknackIsNack (msg : AckNack) : Bool := msg.bits.any id

/-! ### The state of a writer -/

/-- `enum retransmit_merging`. -/
inductive RetransmitMerging where
  | never
  | adaptive
  | always
  deriving DecidableEq

/-- The settings of the service that a writer reads. -/
structure Config where
  accelerateRexmitBlockSize : ℕ
  respondToRtiInitZeroAckWithInvalidHeartbeat : Bool
  retransmitMerging : RetransmitMerging
  deriving DecidableEq

/-- What a writer reads of a `struct proxy_reader`. -/
structure ProxyReader where
  guid : ℕ
  reliable : Bool
  deleting : Bool
  hasAddress : Bool
  deriving DecidableEq

/-- `struct wr_prd_match`. -/
structure WrPrdMatch where
  prdGuid : ℕ
  seq : Option ℤ
  isReliable : Bool
  assumedInSync : Bool
  hasRepliedToHb : Bool
  nextAcknack : ℤ
  tAcknackAccepted : ℤ
  deriving DecidableEq

/-- `struct writer`. -/
structure Writer where
  seq : ℤ
  seqXmit : ℤ
  hbcount : ℤ
  reliable : Bool
  handleAsTransientLocal : Bool
  startupMode : Bool
  whc : Whc
  readers : List WrPrdMatch
  deriving DecidableEq

/-- `new_writer`: nothing was written yet, and no reader is matched. -/
def newWriter (reliable handleAsTransientLocal startupMode : Bool) (whc : Whc) : Writer where
  seq := 0
  seqXmit := 0
  hbcount := 0
  reliable := reliable
  handleAsTransientLocal := handleAsTransientLocal
  startupMode := startupMode
  whc := whc
  readers := []

def Writer.acked (wr : Writer) : List ℤ := wr.readers.filterMap WrPrdMatch.seq

/-- `writer_max_drop_seq`. -/
def writerMaxDropSeq (wr : Writer) : ℤ := wr.acked.min?.getD wr.seq

/-- `have_reliable_subs`. -/
def haveReliableSubs (wr : Writer) : Bool := !wr.acked.isEmpty

def Writer.setReader (wr : Writer) (rn : WrPrdMatch) : Writer :=
  { wr with readers := KeyedList.update WrPrdMatch.prdGuid rn.prdGuid rn wr.readers }

/-- `remove_acked_messages`. -/
def removeAckedMessages (wr : Writer) : Option Writer :=
  (whcRemoveAckedMessages wr.whc (writerMaxDropSeq wr)).map fun whc ↦ { wr with whc := whc }

/-- Whether `insert_sample_in_whc` inserts samples. -/
def Writer.doInsert (wr : Writer) : Bool :=
  wr.reliable && haveReliableSubs wr || (wr.handleAsTransientLocal || wr.startupMode)

/-- `insert_sample_in_whc`. -/
def insertSampleInWhc (wr : Writer) (seq : ℤ) (serdata : WhcSerdata) : Option Writer :=
  if wr.doInsert then
    (whcInsert wr.whc (writerMaxDropSeq wr) seq serdata).map fun whc ↦ { wr with whc := whc }
  else some wr

def Writer.nextSeq (wr : Writer) : Writer := { wr with seq := wr.seq + 1 }

/-- `write_sample`, which is not held up because the cache is too full. -/
def writeSample (wr : Writer) (serdata : WhcSerdata) : Option (Writer × List WriterMsg) :=
  (insertSampleInWhc wr.nextSeq wr.nextSeq.seq serdata).map fun wr' ↦
    (wr', [.data wr'.seq serdata none])

/-- The part of `nn_xmsg_chain_release` that notes how far the samples were transmitted. -/
def noteTransmitted (wr : Writer) (seq : ℤ) : Writer :=
  if wr.seqXmit < seq then { wr with seqXmit := seq } else wr

/-- `throttle_helper`: a reader that has not acknowledged everything is no longer waited for. -/
def throttleHelper (wr : Writer) (rn : WrPrdMatch) : WrPrdMatch :=
  if rn.seq.any fun s ↦ s < wr.seq then { rn with seq := none, hasRepliedToHb := false } else rn

/-- The walk of `throttle_writer` over the readers. -/
def Writer.throttleReaders (wr : Writer) : Writer :=
  { wr with readers := wr.readers.map (throttleHelper wr) }

/-- The end of `throttle_writer`, when the cache did not shrink in time. -/
def throttleWriter (wr : Writer) : Option Writer := removeAckedMessages wr.throttleReaders

/-- `DDSI_COUNT_MIN`. -/
def ddsiCountMin : ℤ := -2147483648

/-- The match that `writer_add_connection` makes. -/
def newWrPrdMatch (cfg : Config) (wr : Writer) (prd : ProxyReader) : WrPrdMatch where
  prdGuid := prd.guid
  seq := if prd.deleting ∨ ¬ prd.reliable then none else some wr.seq
  isReliable := prd.reliable
  assumedInSync := cfg.retransmitMerging = .always
  hasRepliedToHb := !prd.reliable
  nextAcknack := ddsiCountMin
  tAcknackAccepted := 0

/-- `writer_add_connection`. -/
def writerAddConnection (cfg : Config) (wr : Writer) (prd : ProxyReader) : Writer :=
  match KeyedList.lookup WrPrdMatch.prdGuid prd.guid wr.readers with
  | some _ => wr
  | none =>
    { wr with
      readers := KeyedList.insert WrPrdMatch.prdGuid (newWrPrdMatch cfg wr prd) wr.readers }

def Writer.deleteReader (wr : Writer) (guid : ℕ) : Writer :=
  { wr with readers := KeyedList.delete WrPrdMatch.prdGuid guid wr.readers }

/-- `writer_drop_connection`. -/
def writerDropConnection (wr : Writer) (guid : ℕ) : Option Writer :=
  match KeyedList.lookup WrPrdMatch.prdGuid guid wr.readers with
  | none => some wr
  | some _ => removeAckedMessages (wr.deleteReader guid)

def heartbeatRange (cfg : Config) (wr : Writer) (issync : Bool) : Option (ℤ × ℤ) :=
  if whcEmpty wr.whc then
    some (if cfg.respondToRtiInitZeroAckWithInvalidHeartbeat then wr.seq + 1 else wr.seq, wr.seq)
  else
    (whcMinSeq wr.whc).map fun min ↦
      if !issync ∧ wr.seqXmit < wr.seq ∧ !wr.handleAsTransientLocal then
        if min ≤ wr.seqXmit then (min, wr.seqXmit)
        else if cfg.respondToRtiInitZeroAckWithInvalidHeartbeat then (min, min - 1)
        else (min, min)
      else (min, wr.seq)

/-- `add_Heartbeat`. -/
def addHeartbeat (cfg : Config) (wr : Writer) (hbansreq : Bool) (dst : Option ℕ) (issync : Bool) :
    Option (Writer × WriterMsg) :=
  (heartbeatRange cfg wr issync).map fun range ↦
    ({ wr with hbcount := wr.hbcount + 1 },
      .heartbeat ⟨range.1, range.2, wr.hbcount + 1, !hbansreq⟩ dst)

/-- The sequence number that stands for a writer without samples. If nothing was written yet, one is
given out that no sample will have. -/
def Writer.pretendWritten (wr : Writer) : Writer :=
  if 0 < wr.seq then wr else { wr with seq := 1, seqXmit := 1 }

/-- `force_heartbeat_to_peer`. -/
def forceHeartbeatToPeer (cfg : Config) (wr : Writer) (prd : ProxyReader) (hbansreq : Bool) :
    Option (Writer × List WriterMsg) :=
  if !prd.hasAddress then some (wr, [])
  else if whcEmpty wr.whc ∧ !cfg.respondToRtiInitZeroAckWithInvalidHeartbeat then
    (addHeartbeat cfg wr.pretendWritten hbansreq (some prd.guid) true).map fun out ↦
      (out.1, [.gap ⟨out.1.seq, out.1.seq + 1, [false]⟩ prd.guid, out.2])
  else
    (addHeartbeat cfg wr hbansreq (some prd.guid) false).map fun out ↦ (out.1, [out.2])

/-! ### Retransmitting -/

/-- What `handle_AckNack` depends on besides the writer and the message. -/
structure RexmitEnv where
  /-- The time of the message. -/
  tnow : ℤ
  /-- The retransmits that are merged with one that went to all readers just before. -/
  recent : ℤ → Bool
  /-- The retransmits that the queue has room for. -/
  enqueue : ℤ → Bool

/-- The variables of the loop in `handle_AckNack`. -/
structure RexmitState where
  enqueued : Bool := true
  msgs : List WriterMsg := []
  maxSeqInReply : ℤ := 0
  gapstart : ℤ := -1
  gapend : ℤ := -1
  gapnumbits : ℕ := 0
  gapbits : List Bool := List.replicate 256 false
  deriving DecidableEq

def RexmitEnv.refuses (env : RexmitEnv) (merging : Bool) (seq : ℤ) : Bool :=
  !(merging && env.recent seq) && !env.enqueue seq

/-- A sample that is still there is retransmitted. If retransmits are merged they are for all
readers, and there is none if there was one just before. -/
def rexmitFound (env : RexmitEnv) (rn : WrPrdMatch) (merging : Bool) (whcn : WhcNode)
    (rs : RexmitState) : RexmitState :=
  if merging && env.recent whcn.seq then rs
  else if env.enqueue whcn.seq then
    { rs with
      msgs := rs.msgs ++ [.data whcn.seq whcn.serdata (if merging then none else some rn.prdGuid)]
      maxSeqInReply := whcn.seq }
  else { rs with enqueued := false }

/-- A sample that is no longer there is added to the gap: the gap starts with it, grows by it, or
has a bit for it. -/
def noteMissing (seq : ℤ) (rs : RexmitState) : RexmitState :=
  if rs.gapstart = -1 then { rs with gapstart := seq, gapend := seq + 1 }
  else if seq = rs.gapend then { rs with gapend := seq + 1 }
  else if seq - rs.gapend < 256 then
    { rs with
      gapnumbits := (seq - rs.gapend).toNat + 1
      gapbits := rs.gapbits.set (seq - rs.gapend).toNat true }
  else rs

def rexmitOne (env : RexmitEnv) (whc : Whc) (rn : WrPrdMatch) (merging : Bool) (seq : ℤ)
    (rs : RexmitState) : RexmitState :=
  match whcFindseq whc seq with
  | some whcn => rexmitFound env rn merging whcn rs
  | none => noteMissing seq rs

def requested (msg : AckNack) (i : ℕ) : Bool := msg.bits.length ≤ i || msg.bits.getD i false

/-- The loop of `handle_AckNack` over the next `k` places, from `i` on. -/
def rexmitLoop (env : RexmitEnv) (wr : Writer) (rn : WrPrdMatch) (merging : Bool) (msg : AckNack)
    (seqbase : ℤ) : ℕ → ℕ → RexmitState → RexmitState
  | 0, _, rs => rs
  | k + 1, i, rs =>
    if seqbase + i ≤ wr.seqXmit ∧ rs.enqueued then
      rexmitLoop env wr rn merging msg seqbase k (i + 1)
        (if requested msg i then rexmitOne env wr.whc rn merging (seqbase + i) rs else rs)
    else rs

/-- `grow_gap_to_next_seq`. -/
def growGapToNextSeq (wr : Writer) (seq : ℤ) : ℤ :=
  match whcNextSeq wr.whc (seq - 1) with
  | none => wr.seqXmit + 1
  | some nextSeq => if wr.seqXmit < nextSeq then wr.seqXmit else nextSeq

def grownGapend (wr : Writer) (msg : AckNack) (seqbase : ℤ) (rs : RexmitState) : ℤ :=
  if rs.gapend = seqbase + msg.bits.length then growGapToNextSeq wr rs.gapend else rs.gapend

/-- The Gap message of `handle_AckNack`, if some of the samples are missing. If there are no bits
the last number of the gap is given as a bit, because the bitmap may not be empty. -/
def makeGap (wr : Writer) (msg : AckNack) (seqbase : ℤ) (rs : RexmitState) : Option Gap :=
  if 0 < rs.gapstart then
    let gapend := grownGapend wr msg seqbase rs
    if rs.gapnumbits = 0 then some ⟨rs.gapstart, gapend - 1, (rs.gapbits.set 0 true).take 1⟩
    else some ⟨rs.gapstart, gapend, rs.gapbits.take rs.gapnumbits⟩
  else none

/-! ### Acknowledgements -/

/-- `accept_ack_or_hb_w_timeout`, for what it returns. -/
def acceptAckOrHbWTimeout (newCount expCount tnow tLastAccepted : ℤ) (forceAccept : Bool) : Bool :=
  !(decide (newCount < expCount) && decide (tnow - tLastAccepted < 2 * 1000000000) && !forceAccept)

/-- The match with a reader that acknowledges more than before, though nothing that was not
written. -/
def ackReader (wr : Writer) (rn : WrPrdMatch) (seqbase : ℤ) : Option WrPrdMatch :=
  if rn.seq.any fun s ↦ s < seqbase - 1 then
    some { rn with seq := some (min (seqbase - 1) wr.seq) }
  else none

/-- The part of `handle_AckNack` for the acknowledgement. -/
def ackPart (wr : Writer) (rn : WrPrdMatch) (seqbase : ℤ) : Option (Writer × WrPrdMatch) :=
  match ackReader wr rn seqbase with
  | none => some (wr, rn)
  | some rn => (removeAckedMessages (wr.setReader rn)).map fun wr ↦ (wr, rn)

/-- The part of `handle_AckNack` for a reader that responds again. It is taken to have acknowledged
all but the last sample in the cache. -/
def respondAgain (wr : Writer) (prd : ProxyReader) (rn : WrPrdMatch) (seqbase : ℤ) :
    Option (Writer × WrPrdMatch) :=
  if rn.seq = none ∧ prd.reliable then
    (if whcEmpty wr.whc then some wr.seq else whcMaxSeq wr.whc).map fun oldestSeq ↦
      let rn := { rn with
        hasRepliedToHb := true
        seq := some (min (max (seqbase - 1) oldestSeq) wr.seq) }
      (wr.setReader rn, rn)
  else some (wr, rn)

/-- How an AckNack is classified: as a pure acknowledgement of samples that are not historical ones,
and as one that a reader sends on start-up. -/
structure AckKind where
  isPureNonhistAck : Bool
  isPreemptiveAck : Bool
  deriving DecidableEq

def ackKind (rn : WrPrdMatch) (msg : AckNack) : AckKind where
  isPureNonhistAck := !acknackIsNack msg && rn.seq.any fun s ↦ s ≤ msg.bitmapBase - 1
  isPreemptiveAck := decide (msg.bitmapBase ≤ 1) && !acknackIsNack msg

def noteReply (kind : AckKind) (msg : AckNack) (rn : WrPrdMatch) : WrPrdMatch :=
  { rn with
    hasRepliedToHb := rn.hasRepliedToHb || decide (1 < msg.bitmapBase) && kind.isPureNonhistAck
    assumedInSync := rn.assumedInSync || !kind.isPreemptiveAck && kind.isPureNonhistAck }

/-- How many samples are considered for retransmission to a reader that has not sent a pure
acknowledgement before. -/
def acceleratedNumbits (cfg : Config) (rn : WrPrdMatch) (kind : AckKind) (msg : AckNack) : ℕ :=
  if rn.assumedInSync ∨ kind.isPureNonhistAck then msg.bits.length
  else max msg.bits.length cfg.accelerateRexmitBlockSize

def lastInReply (rs : RexmitState) : Option Gap → ℤ
  | none => rs.maxSeqInReply
  | some gap => max rs.maxSeqInReply (gap.bitmapBase - 1 + gap.bits.length)

/-- The heartbeat at the end of `handle_AckNack`: one that asks for an answer if more was
transmitted than the reply tells of, and one that does not if the reader expects a heartbeat. -/
def closingHeartbeat (cfg : Config) (wr : Writer) (prd : ProxyReader) (msg : AckNack)
    (hbSent : Bool) (rs : RexmitState) (gap : Option Gap) : Option (Writer × List WriterMsg) :=
  if (rs.msgs ≠ [] ∨ gap.isSome) ∧ lastInReply rs gap < wr.seqXmit then
    forceHeartbeatToPeer cfg wr prd true
  else if !msg.final ∧ !hbSent then forceHeartbeatToPeer cfg wr prd false
  else some (wr, [])

def gapMsgs (prd : ProxyReader) (gap : Option Gap) : List WriterMsg :=
  if prd.hasAddress then gap.toList.map fun gap ↦ .gap gap prd.guid else []

/-- What `handle_AckNack` sends to a reader: the answer to a pre-emptive acknowledgement, the
samples of the `numbits` numbers from `seqbase` on that are asked for and still there, a Gap for
those that are not, and a heartbeat. `merging` says that the retransmits are for all readers. -/
structure Reply where
  answer : List WriterMsg := []
  seqbase : ℤ := 0
  numbits : ℕ := 0
  merging : Bool := false
  rexmits : List WriterMsg := []
  gap : Option Gap := none
  closing : List WriterMsg := []
  deriving DecidableEq

def Reply.msgs (reply : Reply) (prd : ProxyReader) : List WriterMsg :=
  reply.answer ++ reply.rexmits ++ gapMsgs prd reply.gap ++ reply.closing

/-- What `handle_AckNack` considers for retransmission: the numbers asked for, or those of the
oldest samples for a reader that has just started. -/
def rexmitRange (cfg : Config) (wr : Writer) (rn : WrPrdMatch) (kind : AckKind) (msg : AckNack) :
    Option (ℤ × ℕ) :=
  if kind.isPreemptiveAck then
    if whcEmpty wr.whc then some (msg.bitmapBase, msg.bits.length)
    else (whcMinSeq wr.whc).map fun seqbase ↦ (seqbase, cfg.accelerateRexmitBlockSize)
  else some (msg.bitmapBase, acceleratedNumbits cfg rn kind msg)

def answerPreemptive (cfg : Config) (wr : Writer) (prd : ProxyReader) (kind : AckKind) :
    Option (Writer × List WriterMsg) :=
  if kind.isPreemptiveAck then forceHeartbeatToPeer cfg wr prd false else some (wr, [])

/-- The part of `handle_AckNack` for the samples a reader asks for. -/
def nackPart (cfg : Config) (env : RexmitEnv) (wr : Writer) (prd : ProxyReader) (rn : WrPrdMatch)
    (kind : AckKind) (msg : AckNack) : Option (Writer × Reply) := do
  let rn' := noteReply kind msg rn
  let merging := decide (cfg.retransmitMerging ≠ .never) && rn'.assumedInSync
  let (wr₁, answer) ← answerPreemptive cfg (wr.setReader rn') prd kind
  let (seqbase, numbits) ← rexmitRange cfg wr rn kind msg
  let rs := rexmitLoop env wr₁ rn' merging msg seqbase numbits 0 {}
  let gap := makeGap wr₁ msg seqbase rs
  let (wr₂, closing) ← closingHeartbeat cfg wr₁ prd msg kind.isPreemptiveAck rs gap
  some (wr₂, ⟨answer, seqbase, numbits, merging, rs.msgs, gap, closing⟩)

def acceptAckNack (env : RexmitEnv) (wr : Writer) (prd : ProxyReader) (msg : AckNack) :
    Option WrPrdMatch :=
  if wr.reliable then
    (KeyedList.lookup WrPrdMatch.prdGuid prd.guid wr.readers).filter fun rn ↦
      acceptAckOrHbWTimeout msg.count rn.nextAcknack env.tnow rn.tAcknackAccepted
        (ackKind rn msg).isPreemptiveAck
  else none

def WrPrdMatch.accepted (rn : WrPrdMatch) (env : RexmitEnv) (msg : AckNack) : WrPrdMatch :=
  { rn with nextAcknack := msg.count + 1, tAcknackAccepted := env.tnow }

/-- `handle_AckNack`, for a writer and a reader that exist. -/
def handleAckNack (cfg : Config) (env : RexmitEnv) (wr : Writer) (prd : ProxyReader)
    (msg : AckNack) : Option (Writer × Reply) :=
  match acceptAckNack env wr prd msg with
  | none => some (wr, {})
  | some rn => do
    let (wr₁, rn₁) ←
      ackPart (wr.setReader (rn.accepted env msg)) (rn.accepted env msg) msg.bitmapBase
    let (wr₂, rn₂) ← respondAgain wr₁ prd rn₁ msg.bitmapBase
    nackPart cfg env wr₂ prd rn₂ (ackKind rn msg) msg

end OpenSplice.Ddsi
