import OpenSplice.Library.IntervalList
import OpenSplice.Library.Ring

/-!
# The writer history cache

`struct whc` of `q_whc.c`. A cache holds the samples of a writer by sequence number in a hash table,
in a doubly linked list in the order of the numbers, and as a tree of intervals of consecutive
numbers, the last of which is open for the next sample. An index has for every instance a ring of
its latest samples.

Pointers are names: a sample goes by its sequence number, an interval by its `min`, and an index
node by a number that is never given out twice. The hash tables are lists in the order of their
names; an index node is filed under the key of its samples. An operation returns nothing where the
source would follow a null pointer or one to freed memory. Assertions are not evaluated. The list of
free nodes, the property lists and the time stamps for retransmission are left out. `unacked_bytes`
is an integer, which shows a wrap around.
-/

set_option autoImplicit false

namespace OpenSplice.Ddsi

open Library

/-! ### The cache -/

/-- What the cache reads of a `serdata`: the key value of its instance, the serialized sample,
whether it is empty (as a commit message is), and `NN_STATUSINFO_UNREGISTER`. -/
structure WhcSerdata where
  key : ℕ
  data : List UInt8
  isEmpty : Bool
  unregister : Bool
  deriving DecidableEq

/-- `struct whc_node` without its links. -/
structure WhcSample where
  seq : ℤ
  idxnode : Option ℕ
  idxnodePos : ℕ
  unacked : Bool
  serdata : WhcSerdata
  deriving DecidableEq

/-- `struct whc_node`. -/
structure WhcNode extends WhcSample where
  nextSeq : Option ℤ
  prevSeq : Option ℤ
  deriving DecidableEq

/-- `struct whc_intvnode`. -/
structure WhcIntvnode where
  min : ℤ
  maxp1 : ℤ
  first : Option ℤ
  last : Option ℤ
  deriving DecidableEq

/-- `struct whc_idxnode`. -/
structure WhcIdxnode where
  name : ℕ
  key : ℕ
  pruneSeq : ℤ
  headidx : ℕ
  hist : List (Option ℤ)
  deriving DecidableEq

/-- The settings of a cache, and how far its samples were acknowledged. -/
structure WhcSettings where
  isTransientLocal : Bool
  hdepth : ℕ
  tldepth : ℕ
  idxdepth : ℕ
  sampleOverhead : ℕ
  fragmentSize : ℕ
  maxDropSeq : ℤ
  deriving DecidableEq

/-- The part of a cache that does not depend on how the samples are stored, with the index. -/
structure WhcAdmin extends WhcSettings where
  unackedBytes : ℤ
  idxHash : List WhcIdxnode
  nextIdxnode : ℕ
  deriving DecidableEq

/-- `struct whc`. -/
structure Whc extends WhcAdmin where
  seqSize : ℕ
  openIntv : ℤ
  maxseqNode : Option ℤ
  seqHash : List WhcNode
  seq : List WhcIntvnode
  deriving DecidableEq

/-- `whc_new`. The size of a fragment is part of the configuration. -/
def whcNew (isTransientLocal : Bool) (hdepth tldepth sampleOverhead fragmentSize : ℕ) : Whc where
  isTransientLocal := isTransientLocal
  hdepth := hdepth
  tldepth := tldepth
  idxdepth := if tldepth < hdepth then hdepth else tldepth
  sampleOverhead := sampleOverhead
  fragmentSize := fragmentSize
  maxDropSeq := 0
  unackedBytes := 0
  idxHash := []
  nextIdxnode := 0
  seqSize := 0
  openIntv := 1
  maxseqNode := none
  seqHash := []
  seq := [⟨1, 1, none, none⟩]

/-- `whc_findseq`. -/
def whcFindseq (whc : Whc) (seq : ℤ) : Option WhcNode :=
  KeyedList.lookup (fun w ↦ w.seq) seq whc.seqHash

/-- `whc_empty`. -/
def whcEmpty (whc : Whc) : Bool := whc.seqSize = 0

/-- `whc_min_seq`. -/
def whcMinSeq (whc : Whc) : Option ℤ := whc.seq.head?.map WhcIntvnode.min

/-- `whc_max_seq`. -/
def whcMaxSeq (whc : Whc) : Option ℤ := whc.maxseqNode

/-- `whc_findmax_procedurally`. -/
def whcFindmaxProcedurally (whc : Whc) : Option ℤ :=
  if whc.seqSize = 0 then none
  else
    match KeyedList.lookup WhcIntvnode.min whc.openIntv whc.seq with
    | none => none
    | some intv =>
      if intv.first.isSome then intv.last
      else (whc.seq.filter fun i ↦ i.min < whc.openIntv).getLast?.bind WhcIntvnode.last

/-- `find_nextseq_intv`: the first sample behind `seq`, and the interval it is in. -/
def findNextseqIntv (whc : Whc) (seq : ℤ) : Option (ℤ × Option ℤ) :=
  match whcFindseq whc seq with
  | none =>
    match KeyedList.lookupSuccEq WhcIntvnode.min seq whc.seq with
    | none => none
    | some intv =>
      if intv.min < intv.maxp1 then intv.first.map fun n ↦ (n, some intv.min) else none
  | some n =>
    n.nextSeq.map fun next ↦
      (next, (KeyedList.lookupPredEq WhcIntvnode.min next whc.seq).map WhcIntvnode.min)

/-- `whc_next_seq`, which gives `MAX_SEQ_NUMBER` for nothing. -/
def whcNextSeq (whc : Whc) (seq : ℤ) : Option ℤ := (findNextseqIntv whc seq).map Prod.fst

def WhcAdmin.findIdxnode (admin : WhcAdmin) (name : ℕ) : Option WhcIdxnode :=
  KeyedList.lookup WhcIdxnode.name name admin.idxHash

def WhcAdmin.findKey (admin : WhcAdmin) (key : ℕ) : Option WhcIdxnode :=
  admin.idxHash.find? fun n ↦ n.key = key

def WhcAdmin.setIdxnode (admin : WhcAdmin) (idxn : WhcIdxnode) : WhcAdmin :=
  { admin with idxHash := KeyedList.update WhcIdxnode.name idxn.name idxn admin.idxHash }

def WhcAdmin.freeIdxnode (admin : WhcAdmin) (name : ℕ) : WhcAdmin :=
  { admin with idxHash := KeyedList.delete WhcIdxnode.name name admin.idxHash }

def WhcIdxnode.clear (n : WhcIdxnode) (pos : ℕ) : WhcIdxnode :=
  { n with hist := n.hist.set pos none }

/-- `delete_one_sample_from_idx`, for a sample that may not be in the index. -/
def deleteOneSampleFromIdx (admin : WhcAdmin) (whcn : WhcSample) : Option WhcAdmin :=
  match whcn.idxnode with
  | none => some admin
  | some name =>
    (admin.findIdxnode name).map fun idxn ↦
      if whcn.idxnodePos ≠ idxn.headidx then
        admin.setIdxnode (idxn.clear whcn.idxnodePos)
      else admin.freeIdxnode name

/-- `whcn_in_tlidx`. -/
def whcnInTlidx (admin : WhcAdmin) (whcn : WhcSample) : Option Bool :=
  match whcn.idxnode with
  | none => some false
  | some name =>
    (admin.findIdxnode name).map fun idxn ↦
      decide (Ring.age admin.idxdepth idxn.headidx whcn.idxnodePos < admin.tldepth)

/-! ### Samples by sequence number -/

/-- `whcn_size`. -/
def whcnSize (settings : WhcSettings) (serdata : WhcSerdata) : ℕ :=
  let sz := serdata.data.length
  sz + (sz + settings.fragmentSize - 1) / settings.fragmentSize * settings.sampleOverhead

/-- A sample is no longer counted in `unacked_bytes`. -/
def WhcAdmin.uncount (admin : WhcAdmin) (whcn : WhcSample) : WhcAdmin :=
  if whcn.unacked then
    { admin with unackedBytes := admin.unackedBytes - whcnSize admin.toWhcSettings whcn.serdata }
  else admin

def WhcSample.acked (w : WhcSample) : WhcSample := { w with unacked := false }

def WhcSample.released (w : WhcSample) : WhcSample := { w with idxnode := none }

def WhcSample.joined (name pos : ℕ) (w : WhcSample) : WhcSample :=
  { w with idxnode := some name, idxnodePos := pos }

def WhcNode.modify (w : WhcNode) (f : WhcSample → WhcSample) : WhcNode :=
  { w with toWhcSample := f w.toWhcSample }

def Whc.modify (whc : Whc) (seq : ℤ) (f : WhcSample → WhcSample) : Whc :=
  { whc with seqHash := KeyedList.modify (fun w ↦ w.seq) seq (fun w ↦ w.modify f) whc.seqHash }

def Whc.ack (whc : Whc) (whcn : WhcSample) : Whc :=
  { whc.modify whcn.seq WhcSample.acked with toWhcAdmin := whc.toWhcAdmin.uncount whcn }

def unlinkNode (whcn : WhcNode) (nodes : List WhcNode) : List WhcNode :=
  (KeyedList.delete (fun w ↦ w.seq) whcn.seq nodes).map fun w ↦
    { w with
      nextSeq := if whcn.prevSeq = some w.seq then whcn.nextSeq else w.nextSeq
      prevSeq := if whcn.nextSeq = some w.seq then whcn.prevSeq else w.prevSeq }

/-- The part of `whc_delete_one_intv` that takes a sample out of its interval: the intervals
afterwards, the open one, and the one of the next sample. -/
def cutInterval (intvs : List WhcIntvnode) (openIntv : ℤ) (intv : WhcIntvnode) (whcn : WhcNode) :
    List WhcIntvnode × ℤ × Option ℤ :=
  let succ := (KeyedList.findSucc WhcIntvnode.min intv.min intvs).map WhcIntvnode.min
  if intv.first = some whcn.seq then
    if intv.last = some whcn.seq ∧ intv.min ≠ openIntv then
      (KeyedList.delete WhcIntvnode.min intv.min intvs, openIntv, succ)
    else
      (KeyedList.update WhcIntvnode.min intv.min
          { intv with first := whcn.nextSeq, min := intv.min + 1 } intvs,
        if intv.min = openIntv then intv.min + 1 else openIntv, some (intv.min + 1))
  else if intv.last = some whcn.seq then
    (KeyedList.update WhcIntvnode.min intv.min
        { intv with last := whcn.prevSeq, maxp1 := intv.maxp1 - 1 } intvs, openIntv, succ)
  else
    -- somewhere in the middle: the interval is split
    (KeyedList.insert WhcIntvnode.min
        ⟨whcn.seq + 1, intv.maxp1, whcn.nextSeq, intv.last⟩
        (KeyedList.update WhcIntvnode.min intv.min
          { intv with last := whcn.prevSeq, maxp1 := whcn.seq } intvs),
      if intv.min = openIntv then whcn.seq + 1 else openIntv, some (whcn.seq + 1))

/-- `whc_delete_one_intv`: the cache afterwards, with the interval and the sample that follow. -/
def whcDeleteOneIntv (whc : Whc) (pIntv : Option ℤ) (seq : ℤ) :
    Option (Whc × Option ℤ × Option ℤ) := do
  let intv ← pIntv.bind fun k ↦ KeyedList.lookup WhcIntvnode.min k whc.seq
  let whcn ← whcFindseq whc seq
  let admin ← deleteOneSampleFromIdx whc.toWhcAdmin whcn.toWhcSample
  let cut := cutInterval whc.seq whc.openIntv intv whcn
  some ({ whc with
      toWhcAdmin := admin.uncount whcn.toWhcSample
      seqHash := unlinkNode whcn whc.seqHash
      seq := cut.1
      openIntv := cut.2.1 }, cut.2.2, whcn.nextSeq)

/-- `whc_delete_one`. -/
def whcDeleteOne (whc : Whc) (seq : ℤ) : Option Whc :=
  (whcDeleteOneIntv whc
      ((KeyedList.lookupPredEq WhcIntvnode.min seq whc.seq).map WhcIntvnode.min) seq).map
    fun out ↦ { out.1 with seqSize := out.1.seqSize - 1 }

/-! ### Removing acknowledged samples -/

/-- The first loop of `whc_remove_acked_messages`, over at most `fuel` samples: those that are not
in the transient-local part of the index go. The last result is `ndropped`. -/
def removeAckedLoop (maxDropSeq : ℤ) :
    ℕ → Whc → ℕ → Option ℤ → Option ℤ → Option (Whc × ℕ)
  | _, whc, ndropped, _, none => some (whc, ndropped)
  | 0, _, _, _, some _ => none
  | fuel + 1, whc, ndropped, intv, some seq =>
    if maxDropSeq < seq then some (whc, ndropped)
    else do
      let whcn ← whcFindseq whc seq
      let keep ← whcnInTlidx whc.toWhcAdmin whcn.toWhcSample
      if keep then do
        let whc' := whc.ack whcn.toWhcSample
        let intvn ← intv.bind fun k ↦ KeyedList.lookup WhcIntvnode.min k whc.seq
        let intv' :=
          if intvn.last = some seq then
            (KeyedList.findSucc WhcIntvnode.min intvn.min whc.seq).map WhcIntvnode.min
          else intv
        removeAckedLoop maxDropSeq fuel whc' ndropped intv' whcn.nextSeq
      else do
        let out ← whcDeleteOneIntv whc intv seq
        removeAckedLoop maxDropSeq fuel out.1 (ndropped + 1) out.2.1 out.2.2

def pruneLoop (name : ℕ) : ℕ → ℕ → Whc → Option Whc
  | 0, _, whc => some whc
  | cnt + 1, idx, whc => do
    let idx := Ring.next whc.idxdepth idx
    let idxn ← whc.findIdxnode name
    match idxn.hist[idx]?.join with
    | none => pruneLoop name cnt idx whc
    | some oldn => do
      let whc' ← whcDeleteOne whc oldn
      pruneLoop name cnt idx whc'

/-- The second loop of `whc_remove_acked_messages`: the instances of the samples that were kept are
pruned. -/
def pruneAckedLoop (maxDropSeq : ℤ) : ℕ → Whc → Option ℤ → Option Whc
  | _, whc, none => some whc
  | 0, _, some _ => none
  | fuel + 1, whc, some seq =>
    if maxDropSeq < seq then some whc
    else do
      let whcn ← whcFindseq whc seq
      let name ← whcn.idxnode
      let idxn ← whc.findIdxnode name
      if idxn.pruneSeq = maxDropSeq then pruneAckedLoop maxDropSeq fuel whc whcn.nextSeq
      else do
        let whc' := { whc with
          toWhcAdmin := whc.toWhcAdmin.setIdxnode { idxn with pruneSeq := maxDropSeq } }
        let whc'' ← pruneLoop name (whc.idxdepth - whc.tldepth) idxn.headidx whc'
        let whcn ← whcFindseq whc'' seq
        pruneAckedLoop maxDropSeq fuel whc'' whcn.nextSeq

/-- `whc_remove_acked_messages`. -/
def whcRemoveAckedMessages (whc : Whc) (maxDropSeq : ℤ) : Option Whc :=
  if whc.isTransientLocal ∧ whc.tldepth = 0 then some whc
  else do
    let start := findNextseqIntv whc whc.maxDropSeq
    let out ← removeAckedLoop maxDropSeq whc.seqHash.length whc 0 (start.bind Prod.snd)
      (start.map Prod.fst)
    let whc' ←
      if 0 < whc.tldepth ∧ whc.tldepth < whc.idxdepth then
        pruneAckedLoop maxDropSeq out.1.seqHash.length out.1
          ((findNextseqIntv out.1 whc.maxDropSeq).map Prod.fst)
      else some out.1
    let whc' := { whc' with seqSize := whc'.seqSize - out.2 }
    some { whc' with maxseqNode := whcFindmaxProcedurally whc', maxDropSeq := maxDropSeq }

/-! ### Inserting -/

/-- One place of the loop of `free_one_instance_from_idx`: the sample is let go, and it is deleted
if everyone has acknowledged it. -/
def freeSample (maxDropSeq : ℤ) (whc : Whc) (oldn : ℤ) : Option Whc :=
  if oldn ≤ maxDropSeq then whcDeleteOne (whc.modify oldn WhcSample.released) oldn
  else some (whc.modify oldn WhcSample.released)

/-- `free_one_instance_from_idx`, over the places of the ring. -/
def freeOneInstanceFromIdx (maxDropSeq : ℤ) : List (Option ℤ) → Whc → Option Whc
  | [], whc => some whc
  | none :: hist, whc => freeOneInstanceFromIdx maxDropSeq hist whc
  | some oldn :: hist, whc => do
    let whc' ← freeSample maxDropSeq whc oldn
    freeOneInstanceFromIdx maxDropSeq hist whc'

/-- `delete_one_instance_from_idx`. -/
def deleteOneInstanceFromIdx (whc : Whc) (maxDropSeq : ℤ) (idxn : WhcIdxnode) : Option Whc :=
  freeOneInstanceFromIdx maxDropSeq idxn.hist
    { whc with toWhcAdmin := whc.toWhcAdmin.freeIdxnode idxn.name }

/-- The sample that `whc_insert_seq` makes. It is not in the index yet. -/
def newSample (maxDropSeq seq : ℤ) (serdata : WhcSerdata) : WhcSample :=
  ⟨seq, none, 0, decide (maxDropSeq < seq), serdata⟩

/-- A sample comes to be counted in `unacked_bytes`. -/
def WhcAdmin.count (admin : WhcAdmin) (whcn : WhcSample) : WhcAdmin :=
  if whcn.unacked then
    { admin with unackedBytes := admin.unackedBytes + whcnSize admin.toWhcSettings whcn.serdata }
  else admin

def linkNode (maxseqNode : Option ℤ) (whcn : WhcSample) (nodes : List WhcNode) : List WhcNode :=
  nodes.map (fun w ↦
    { w with nextSeq := if maxseqNode = some w.seq then some whcn.seq else w.nextSeq }) ++
    [{ whcn with nextSeq := none, prevSeq := maxseqNode }]

/-- The part of `whc_insert_seq` that adds a number to the intervals: the intervals afterwards, and
the open one. -/
def growInterval (intvs : List WhcIntvnode) (openIntv : WhcIntvnode) (seq : ℤ) :
    List WhcIntvnode × ℤ :=
  if openIntv.first = none then
    -- the open interval is empty, and starts anew
    (KeyedList.update WhcIntvnode.min openIntv.min ⟨seq, seq + 1, some seq, some seq⟩ intvs, seq)
  else if openIntv.maxp1 = seq then
    (KeyedList.update WhcIntvnode.min openIntv.min
      { openIntv with last := some seq, maxp1 := openIntv.maxp1 + 1 } intvs, openIntv.min)
  else
    (KeyedList.insert WhcIntvnode.min ⟨seq, seq + 1, some seq, some seq⟩ intvs, seq)

/-- `whc_insert_seq`. -/
def whcInsertSeq (whc : Whc) (maxDropSeq seq : ℤ) (serdata : WhcSerdata) : Option Whc :=
  (KeyedList.lookup WhcIntvnode.min whc.openIntv whc.seq).map fun openIntv ↦
    let newn := newSample maxDropSeq seq serdata
    { whc with
      toWhcAdmin := whc.toWhcAdmin.count newn
      seqHash := linkNode whc.maxseqNode newn whc.seqHash
      maxseqNode := some seq
      seq := (growInterval whc.seq openIntv seq).1
      openIntv := (growInterval whc.seq openIntv seq).2
      seqSize := whc.seqSize + 1 }

def deleteNewn (whc : Whc) (maxDropSeq seq : ℤ) : Option Whc :=
  if seq ≤ maxDropSeq then do
    let newn ← whcFindseq whc seq
    let whc' ← whcDeleteOne whc seq
    some { whc' with maxseqNode := newn.prevSeq }
  else some whc

def WhcIdxnode.push (n : WhcIdxnode) (depth : ℕ) (s : ℤ) : WhcIdxnode :=
  { n with
    headidx := Ring.next depth n.headidx
    hist := n.hist.set (Ring.next depth n.headidx) (some s) }

def Whc.releaseOld (whc : Whc) : Option ℤ → Whc
  | none => whc
  | some oldn => whc.modify oldn WhcSample.released

def joinRing (whc : Whc) (seq : ℤ) (idxn : WhcIdxnode) : Whc :=
  let headidx := Ring.next whc.idxdepth idxn.headidx
  { (whc.releaseOld idxn.hist[headidx]?.join).modify seq (WhcSample.joined idxn.name headidx) with
    toWhcAdmin := whc.toWhcAdmin.setIdxnode (idxn.push whc.idxdepth seq) }

/-- The branch of `whc_insert` for a sample of a known instance: it overwrites the oldest sample of
the ring, which goes unless it may still have to be retransmitted. -/
def pushSample (whc : Whc) (maxDropSeq seq : ℤ) (idxn : WhcIdxnode) : Option Whc :=
  match idxn.hist[Ring.next whc.idxdepth idxn.headidx]?.join with
  | none => some (joinRing whc seq idxn)
  | some oldn =>
    if 0 < whc.hdepth ∨ oldn ≤ maxDropSeq then whcDeleteOne (joinRing whc seq idxn) oldn
    else some (joinRing whc seq idxn)

/-- The sample right behind the transient-local history goes if the new sample needs no
acknowledgement. -/
def pruneBehindTl (whc : Whc) (maxDropSeq seq : ℤ) (name : ℕ) : Option Whc :=
  if seq ≤ maxDropSeq ∧ 0 < whc.tldepth ∧ whc.tldepth < whc.idxdepth then do
    let idxn ← whc.findIdxnode name
    match idxn.hist[Ring.place whc.idxdepth idxn.headidx whc.tldepth]?.join with
    | none => some whc
    | some oldn => whcDeleteOne whc oldn
  else some whc

def newIdxnode (name key depth : ℕ) (s : ℤ) : WhcIdxnode :=
  ⟨name, key, 0, 0, some s :: List.replicate (depth - 1) none⟩

def WhcAdmin.addIdxnode (admin : WhcAdmin) (s : ℤ) (key : ℕ) : WhcAdmin :=
  { admin with
    idxHash := admin.idxHash ++ [newIdxnode admin.nextIdxnode key admin.idxdepth s]
    nextIdxnode := admin.nextIdxnode + 1 }

def addIdxnode (whc : Whc) (seq : ℤ) (key : ℕ) : Whc :=
  { whc.modify seq (WhcSample.joined whc.nextIdxnode 0) with
    toWhcAdmin := whc.toWhcAdmin.addIdxnode seq key }

/-- `whc_insert`. -/
def whcInsert (whc : Whc) (maxDropSeq seq : ℤ) (serdata : WhcSerdata) : Option Whc := do
  let whc ← whcInsertSeq whc maxDropSeq seq serdata
  if serdata.isEmpty ∨ whc.idxdepth = 0 then some whc
  else
    match whc.findKey serdata.key with
    | some idxn =>
      if serdata.unregister then do
        let whc ← deleteOneInstanceFromIdx whc maxDropSeq idxn
        deleteNewn whc maxDropSeq seq
      else do
        let whc ← pushSample whc maxDropSeq seq idxn
        pruneBehindTl whc maxDropSeq seq idxn.name
    | none =>
      if serdata.unregister then deleteNewn whc maxDropSeq seq
      else some (addIdxnode whc seq serdata.key)

/-- The loop of `whc_downgrade_to_volatile` over the index: all samples are taken out of it, and
none is removed. -/
def freeIndex : List WhcIdxnode → Whc → Option Whc
  | [], whc => some whc
  | idxn :: idxHash, whc => do
    let whc ← freeOneInstanceFromIdx 0 idxn.hist whc
    freeIndex idxHash whc

/-- The part of `whc_downgrade_to_volatile` that does away with the transient-local history. The
index goes with it if it serves no other purpose. -/
def dropTlHistory (whc : Whc) : Option Whc :=
  if 0 < whc.tldepth then
    if whc.hdepth = 0 then
      (freeIndex whc.idxHash { whc with tldepth := 0 }).map fun whc ↦
        { whc with idxdepth := 0, idxHash := [] }
    else some { whc with tldepth := 0 }
  else some whc

/-- `whc_downgrade_to_volatile`. The drop point is set back, so that everything is looked at. -/
def whcDowngradeToVolatile (whc : Whc) : Option Whc := do
  let whc ← dropTlHistory whc
  whcRemoveAckedMessages { whc with maxDropSeq := 0 } whc.maxDropSeq

end OpenSplice.Ddsi
