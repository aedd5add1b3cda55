import OpenSplice.Ddsi.Rsample
import OpenSplice.Utilities.Avl

/-!
# The defragmenter

`struct nn_defrag` of `q_radmin.c` and the records of the samples it is putting together. A record
keeps the bytes received so far as a tree of intervals, each with the chain of its fragments, and a
sentinel `[0, 0)` without any until the first byte arrives. The tree is an `Avl`, because
`isComplete` looks at its root. Pointers to nodes are keys, and a node that gets another key in
place keeps its position.

Assertions are not evaluated. An operation returns nothing where the source would follow a null
pointer: `lastfrag` or the predecessor of a fragment missing, or an insertion under a key that is
taken, for which `ut_avlLookupIPath` has invalidated the path. The reference counts of the receive
buffers are left out.
-/

set_option autoImplicit false

namespace OpenSplice.Ddsi

open Library Utilities

/-- `struct nn_defrag_iv`. -/
structure DefragIv where
  min : ℕ
  maxp1 : ℕ
  frags : List Rdata
  deriving DecidableEq

/-- `struct nn_rsample_defrag`. -/
structure RsampleDefrag where
  fragtree : Avl DefragIv
  lastfrag : Option ℕ
  sampleinfo : RsampleInfo
  seq : ℤ
  deriving DecidableEq

/-! ### One sample -/

/-- `defrag_try_merge_with_succ`: the record and the node afterwards, and whether to try again. -/
def defragTryMergeWithSucc (sample : RsampleDefrag) (node : DefragIv) :
    RsampleDefrag × DefragIv × Bool :=
  if sample.lastfrag = some node.min then (sample, node, false)
  else
    match KeyedList.findSucc DefragIv.min node.min sample.fragtree.toList with
    | none => (sample, node, false)
    | some succ =>
      if node.maxp1 < succ.min then (sample, node, false)
      else
        let node' := { node with frags := node.frags ++ succ.frags, maxp1 := succ.maxp1 }
        ({ sample with
            fragtree := Avl.update DefragIv.min node.min node'
              (Avl.delete DefragIv.min succ.min sample.fragtree)
            lastfrag :=
              if sample.lastfrag = some succ.min then some node.min else sample.lastfrag },
          node', decide (succ.maxp1 < node'.maxp1))

/-- The loop `while (defrag_try_merge_with_succ (..))`, for at most `fuel` rounds. -/
def defragMergeLoop : ℕ → RsampleDefrag → DefragIv → RsampleDefrag
  | 0, sample, _ => sample
  | fuel + 1, sample, node =>
    let out := defragTryMergeWithSucc sample node
    if out.2.2 then defragMergeLoop fuel out.1 out.2.1 else out.1

/-- `defrag_rsample_addiv`. -/
def defragRsampleAddiv (sample : RsampleDefrag) (rdata : Rdata) : RsampleDefrag :=
  { sample with
    fragtree := Avl.insert DefragIv.min ⟨rdata.min, rdata.maxp1, [rdata]⟩ sample.fragtree
    lastfrag :=
      match sample.lastfrag with
      | none => some rdata.min
      | some last => if last < rdata.min then some rdata.min else some last }

/-- `defrag_rsample_new`. -/
def defragRsampleNew (rdata : Rdata) (sampleinfo : RsampleInfo) : RsampleDefrag :=
  defragRsampleAddiv
    { fragtree := if 0 < rdata.min then Avl.insert DefragIv.min ⟨0, 0, []⟩ .nil else .nil
      lastfrag := none
      sampleinfo := sampleinfo
      seq := sampleinfo.seq } rdata

/-- `is_complete`. -/
def isComplete (sample : RsampleDefrag) : Bool :=
  sample.fragtree.root.any fun iv ↦ iv.min = 0 ∧ sample.sampleinfo.size ≤ iv.maxp1

/-- The branch of `defrag_add_fragment` that appends the fragment to `predeq`. The first fragment of
the sentinel's chain brings the sample info that will be used. -/
def defragGrowPredeq (sample : RsampleDefrag) (predeq : DefragIv) (rdata : Rdata)
    (sampleinfo : RsampleInfo) : RsampleDefrag :=
  let predeq' := { predeq with frags := predeq.frags ++ [rdata], maxp1 := rdata.maxp1 }
  defragMergeLoop sample.fragtree.toList.length
    { sample with
      fragtree := Avl.update DefragIv.min predeq.min predeq' sample.fragtree
      sampleinfo := if predeq.frags = [] then sampleinfo else sample.sampleinfo } predeq'

/-- The branch of `defrag_add_fragment` that extends `succ` at its head, and perhaps its end. -/
def defragExtendSucc (sample : RsampleDefrag) (succ : DefragIv) (rdata : Rdata) : RsampleDefrag :=
  let succ' := { succ with frags := rdata :: succ.frags, min := rdata.min }
  let sample' := { sample with
    fragtree := Avl.update DefragIv.min succ.min succ' sample.fragtree
    lastfrag := if sample.lastfrag = some succ.min then some rdata.min else sample.lastfrag }
  if succ.maxp1 < rdata.maxp1 then
    let succ'' := { succ' with maxp1 := rdata.maxp1 }
    defragMergeLoop sample.fragtree.toList.length
      { sample' with
        fragtree := Avl.update DefragIv.min rdata.min succ'' sample'.fragtree } succ''
  else sample'

/-- The interval `defrag_add_fragment` compares a fragment with: the last one that starts at or
before it, found without a search if it is `lastfrag`. -/
def defragPredeq (sample : RsampleDefrag) (rdata : Rdata) : Option DefragIv :=
  (sample.lastfrag.bind fun k ↦ KeyedList.lookup DefragIv.min k sample.fragtree.toList).bind
    fun last ↦
      if last.min ≤ rdata.min then some last
      else KeyedList.lookupPredEq DefragIv.min rdata.min sample.fragtree.toList

/-- `defrag_add_fragment`: the record afterwards, and whether the fragment completed the sample. -/
def defragAddFragment (sample : RsampleDefrag) (rdata : Rdata) (sampleinfo : RsampleInfo) :
    Option (RsampleDefrag × Bool) :=
  match defragPredeq sample rdata with
  | none => none
  | some predeq =>
    if rdata.maxp1 ≤ predeq.maxp1 then some (sample, false)
    else if rdata.min ≤ predeq.maxp1 then
      let sample' := defragGrowPredeq sample predeq rdata sampleinfo
      some (sample', isComplete sample')
    else
      let succ :=
        if sample.lastfrag = some predeq.min then none
        else KeyedList.findSucc DefragIv.min predeq.min sample.fragtree.toList
      match succ.filter fun succ ↦ succ.min ≤ rdata.maxp1 with
      | some succ => some (defragExtendSucc sample succ rdata, false)
      | none =>
        if (KeyedList.lookup DefragIv.min rdata.min sample.fragtree.toList).isSome then none
        else some (defragRsampleAddiv sample rdata, false)

/-- `rsample_convert_defrag_to_reorder`. -/
def rsampleConvertDefragToReorder (sample : RsampleDefrag) :
    Option (RsampleReorder (List Rdata)) :=
  sample.fragtree.root.map fun iv ↦
    { min := sample.seq
      maxp1 := sample.seq + 1
      nSamples := 1
      sc := [⟨iv.frags, some sample.sampleinfo⟩] }

/-! ### All samples of a writer -/

/-- `enum nn_defrag_drop_mode`. -/
inductive DefragDropMode
  | dropLatest
  | dropOldest
  deriving DecidableEq

/-- `struct nn_defrag`. -/
structure Defrag where
  sampletree : List RsampleDefrag
  maxSample : Option ℤ
  nSamples : ℕ
  maxSamples : ℕ
  dropMode : DefragDropMode
  deriving DecidableEq

/-- `nn_defrag_new`. -/
def nnDefragNew (dropMode : DefragDropMode) (maxSamples : ℕ) : Defrag where
  sampletree := []
  maxSample := none
  nSamples := 0
  maxSamples := maxSamples
  dropMode := dropMode

/-- `defrag_rsample_drop`. -/
def defragRsampleDrop (defrag : Defrag) (seq : ℤ) : Defrag :=
  { defrag with
    sampletree := KeyedList.delete RsampleDefrag.seq seq defrag.sampletree
    nSamples := defrag.nSamples - 1 }

/-- `nn_rdata_is_fragment`. -/
def nnRdataIsFragment (rdata : Rdata) (sampleinfo : RsampleInfo) : Bool :=
  !(decide (rdata.min = 0) && decide (rdata.maxp1 = sampleinfo.size))

/-- The sample `defrag_limit_samples` drops to make room for the number `seq`, none if it is the new
one, by the drop mode. -/
def sampleToDrop (defrag : Defrag) (seq : ℤ) : Option (Option ℤ) :=
  match defrag.dropMode with
  | .dropLatest => defrag.maxSample.map fun max ↦ if max < seq then none else some max
  | .dropOldest => defrag.sampletree.head?.map fun s ↦ if seq < s.seq then none else some s.seq

/-- The sample with the number `k` is dropped, and `max_seq` is corrected if it was that of `k`. -/
def defragDropForRoom (defrag : Defrag) (k maxSeq : ℤ) : Defrag × ℤ :=
  let dropped := defragRsampleDrop defrag k
  if defrag.maxSample = some k then
    let max := KeyedList.lastKey RsampleDefrag.seq dropped.sampletree
    ({ dropped with maxSample := max }, max.getD 0)
  else (dropped, maxSeq)

/-- `defrag_limit_samples`: the defragmenter, `max_seq`, and whether to go on with the sample. -/
def defragLimitSamples (defrag : Defrag) (seq maxSeq : ℤ) : Option (Defrag × ℤ × Bool) :=
  if defrag.nSamples < defrag.maxSamples then some (defrag, maxSeq, true)
  else
    match sampleToDrop defrag seq with
    | none => none
    | some none => some (defrag, maxSeq, false)
    | some (some k) =>
      some ((defragDropForRoom defrag k maxSeq).1, (defragDropForRoom defrag k maxSeq).2, true)

/-- The end of `nn_defrag_rsample`: a completed sample leaves the defragmenter. -/
def defragFinish (defrag : Defrag) (sample : RsampleDefrag) (complete : Bool) :
    Option (Defrag × Option (RsampleReorder (List Rdata))) :=
  if complete then
    let tree := KeyedList.delete RsampleDefrag.seq sample.seq defrag.sampletree
    (rsampleConvertDefragToReorder sample).map fun result ↦
      ({ defrag with
          sampletree := tree
          nSamples := defrag.nSamples - 1
          maxSample :=
            if defrag.maxSample = some sample.seq then KeyedList.lastKey RsampleDefrag.seq tree
            else defrag.maxSample },
        some result)
  else
    some ({ defrag with
      sampletree := KeyedList.update RsampleDefrag.seq sample.seq sample defrag.sampletree }, none)

def defragAddTo (defrag : Defrag) (sample : RsampleDefrag) (rdata : Rdata)
    (sampleinfo : RsampleInfo) : Option (Defrag × Option (RsampleReorder (List Rdata))) :=
  (defragAddFragment sample rdata sampleinfo).bind fun out ↦ defragFinish defrag out.1 out.2

def defragAddNew (defrag : Defrag) (maxSample : Option ℤ) (rdata : Rdata)
    (sampleinfo : RsampleInfo) : Defrag :=
  { defrag with
    sampletree :=
      KeyedList.insert RsampleDefrag.seq (defragRsampleNew rdata sampleinfo) defrag.sampletree
    maxSample := maxSample
    nSamples := defrag.nSamples + 1 }

/-- `nn_defrag_rsample`. -/
def nnDefragRsample (defrag : Defrag) (rdata : Rdata) (sampleinfo : RsampleInfo) :
    Option (Defrag × Option (RsampleReorder (List Rdata))) :=
  let maxSeq := defrag.maxSample.getD 0
  if !nnRdataIsFragment rdata sampleinfo then
    some (defrag, some (reorderRsampleNew [rdata] sampleinfo))
  else if sampleinfo.seq = maxSeq then
    (defrag.maxSample.bind fun k ↦ KeyedList.lookup RsampleDefrag.seq k defrag.sampletree).bind
      fun max ↦ defragAddTo defrag max rdata sampleinfo
  else
    match defragLimitSamples defrag sampleinfo.seq maxSeq with
    | none => none
    | some (defrag, maxSeq, goOn) =>
      if !goOn then some (defrag, none)
      else if maxSeq < sampleinfo.seq then
        some (defragAddNew defrag (some sampleinfo.seq) rdata sampleinfo, none)
      else
        match KeyedList.lookup RsampleDefrag.seq sampleinfo.seq defrag.sampletree with
        | none => some (defragAddNew defrag defrag.maxSample rdata sampleinfo, none)
        | some sample => defragAddTo defrag sample rdata sampleinfo

end OpenSplice.Ddsi
