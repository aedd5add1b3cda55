import OpenSplice.Ddsi.Rsample

/-!
# The reorder administration

`struct nn_reorder` of `q_radmin.c` and its operations. The administration of a proxy writer holds
the samples that arrived ahead of the next deliverable one, as intervals of sequence numbers, each
with the chain of its samples. `nnReorderRsample` adds a sample, `nnReorderGap` a range of numbers
that will not arrive; each returns the chain of samples that became deliverable, if any.

The interval tree is kept as its in-order list (`Library.KeyedList`, keyed on `min`), and a pointer
to a node is its key. A node that is changed in place keeps its position, and the cached
`max_sampleiv` is assigned exactly where the source assigns it. The reference count adjustment is
the number by which it is incremented. Allocation does not fail.
-/

set_option autoImplicit false

namespace OpenSplice.Ddsi

open Library

/-- `enum nn_reorder_mode`. -/
inductive ReorderMode
  | normal
  | monotonicallyIncreasing
  | alwaysDeliver
  deriving DecidableEq

/-- `nn_reorder_result_t`: a rejection, an acceptance, or the chain of deliverable samples. -/
inductive ReorderResult (F : Type)
  | tooOld
  | reject
  | accept
  | deliver (sc : List (RsampleChainElem F))
  deriving DecidableEq

/-- `struct nn_reorder`. -/
structure Reorder (F : Type) where
  sampleivtree : List (RsampleReorder F)
  maxSampleiv : Option ℤ
  nextSeq : ℤ
  mode : ReorderMode
  maxSamples : ℕ
  nSamples : ℕ
  deriving DecidableEq

variable {F : Type}

def ReorderResult.chain : ReorderResult F → List (RsampleChainElem F)
  | .deliver sc => sc
  | _ => []

/-- `nn_reorder_new`. -/
def nnReorderNew (mode : ReorderMode) (maxSamples : ℕ) : Reorder F where
  sampleivtree := []
  maxSampleiv := none
  nextSeq := 1
  mode := mode
  maxSamples := maxSamples
  nSamples := 0

namespace Reorder

/-- The interval `max_sampleiv` points to. -/
def maxIv (reorder : Reorder F) : Option (RsampleReorder F) :=
  reorder.maxSampleiv.bind fun k ↦ KeyedList.lookup RsampleReorder.min k reorder.sampleivtree

end Reorder

/-- `append_rsample_interval`. -/
def appendRsampleInterval (a b : RsampleReorder F) : RsampleReorder F :=
  { a with
    sc := a.sc ++ b.sc
    maxp1 := b.maxp1
    nSamples := a.nSamples + b.nSamples }

/-- The growth of an interval at its head in `nn_reorder_rsample`: `s` takes the place of `m` in the
tree, with the samples of both. -/
def prependRsampleInterval (s m : RsampleReorder F) : RsampleReorder F :=
  { m with
    sc := s.sc ++ m.sc
    min := s.min
    nSamples := m.nSamples + s.nSamples }

/-- The removal of the last element of a chain of at least two in `delete_last_sample`. -/
def dropLastSample (last : RsampleReorder F) : RsampleReorder F :=
  { last with
    sc := last.sc.dropLast
    maxp1 := last.maxp1 - 1
    nSamples := last.nSamples - 1 }

/-- `reorder_try_append_and_discard`: the tree without `todiscard`, the grown `appendto`, and
whether `todiscard` was the cached maximum. The caller stores `appendto` if it is in the tree. -/
def reorderTryAppendAndDiscard (reorder : Reorder F) (tree : List (RsampleReorder F))
    (appendto : RsampleReorder F) (todiscard : Option (RsampleReorder F)) :
    List (RsampleReorder F) × RsampleReorder F × Bool :=
  match todiscard with
  | none => (tree, appendto, false)
  | some d =>
    if appendto.maxp1 < d.min then (tree, appendto, false)
    else
      (KeyedList.delete RsampleReorder.min d.min tree, appendRsampleInterval appendto d,
        decide (reorder.maxSampleiv = some d.min))

/-- `delete_last_sample`: drops the last element of the chain of the last interval. -/
def deleteLastSample (reorder : Reorder F) : Reorder F :=
  match reorder.maxIv with
  | none => reorder
  | some last =>
    if last.sc.length = 1 then
      let tree := KeyedList.delete RsampleReorder.min last.min reorder.sampleivtree
      { reorder with
        sampleivtree := tree, maxSampleiv := KeyedList.lastKey RsampleReorder.min tree }
    else
      { reorder with
        sampleivtree := KeyedList.update RsampleReorder.min last.min (dropLastSample last)
          reorder.sampleivtree }

/-- The insertion of the last branch of `nn_reorder_rsample`, before the count is adjusted: `s`
extends its predecessor (and perhaps joins it to its successor), or its immediate successor at the
head, or becomes an interval of its own. -/
def reorderInsertHard (reorder : Reorder F) (s : RsampleReorder F)
    (predeq immsucc : Option (RsampleReorder F)) : Reorder F :=
  match predeq.filter (fun p ↦ s.min = p.maxp1), immsucc with
  | some p, _ =>
    let (tree, joined, wasMax) := reorderTryAppendAndDiscard reorder reorder.sampleivtree
      (appendRsampleInterval p s) immsucc
    { reorder with
      sampleivtree := KeyedList.update RsampleReorder.min p.min joined tree
      maxSampleiv := if wasMax then some p.min else reorder.maxSampleiv }
  | none, some m =>
    { reorder with
      sampleivtree := KeyedList.update RsampleReorder.min m.min (prependRsampleInterval s m)
        reorder.sampleivtree
      maxSampleiv := if reorder.maxSampleiv = some m.min then some s.min else reorder.maxSampleiv }
  | none, none =>
    { reorder with sampleivtree := KeyedList.insert RsampleReorder.min s reorder.sampleivtree }

/-- The count adjustment that ends an insertion: the administration never grows beyond
`max_samples`, so a full one drops its last sample. -/
def reorderCountOrEvict (reorder : Reorder F) : Reorder F :=
  if reorder.nSamples < reorder.maxSamples then
    { reorder with nSamples := reorder.nSamples + 1 }
  else deleteLastSample reorder

/-- `nn_reorder_rsample`. -/
def nnReorderRsample (lateAckMode : Bool) (reorder : Reorder F) (s : RsampleReorder F)
    (deliveryQueueFull : Bool) : Reorder F × ReorderResult F × ℕ :=
  if s.min = reorder.nextSeq ∨
      (reorder.nextSeq < s.min ∧ reorder.mode = .monotonicallyIncreasing) ∨
      reorder.mode = .alwaysDeliver then
    if deliveryQueueFull then (reorder, .reject, 0)
    else
      let (tree, joined, wasMax) :=
        if reorder.maxSampleiv.isSome then
          reorderTryAppendAndDiscard reorder reorder.sampleivtree s reorder.sampleivtree.head?
        else (reorder.sampleivtree, s, false)
      ({ reorder with
          sampleivtree := tree
          maxSampleiv := if wasMax then none else reorder.maxSampleiv
          nextSeq := joined.maxp1
          nSamples := reorder.nSamples - (joined.nSamples - 1) },
        .deliver joined.sc, 1)
  else if s.min < reorder.nextSeq then (reorder, .tooOld, 0)
  else if reorder.sampleivtree = [] then
    if reorder.maxSamples = 0 then (reorder, .reject, 0)
    else
      ({ reorder with
          sampleivtree := KeyedList.insert RsampleReorder.min s reorder.sampleivtree
          maxSampleiv := some s.min
          nSamples := reorder.nSamples + 1 }, .accept, 1)
  else
    match reorder.maxIv with
    | none => (reorder, .reject, 0)
    | some last =>
      if s.min = last.maxp1 then
        if deliveryQueueFull then (reorder, .reject, 0)
        else if reorder.nSamples < reorder.maxSamples then
          ({ reorder with
              sampleivtree := KeyedList.update RsampleReorder.min last.min
                (appendRsampleInterval last s) reorder.sampleivtree
              nSamples := reorder.nSamples + 1 }, .accept, 1)
        else (reorder, .reject, 0)
      else if last.maxp1 < s.min then
        if deliveryQueueFull then (reorder, .reject, 0)
        else if reorder.nSamples < reorder.maxSamples then
          ({ reorder with
              sampleivtree := KeyedList.insert RsampleReorder.min s reorder.sampleivtree
              maxSampleiv := some s.min
              nSamples := reorder.nSamples + 1 }, .accept, 1)
        else (reorder, .reject, 0)
      else if lateAckMode ∧ deliveryQueueFull then (reorder, .reject, 0)
      else
        let predeq := KeyedList.lookupPredEq RsampleReorder.min s.min reorder.sampleivtree
        if predeq.any (fun p ↦ p.min ≤ s.min ∧ s.min < p.maxp1) then (reorder, .reject, 0)
        else
          let immsucc := KeyedList.lookup RsampleReorder.min s.maxp1 reorder.sampleivtree
          (reorderCountOrEvict (reorderInsertHard reorder s predeq immsucc), .accept, 1)

/-- The loop of `coalesce_intervals_touching_range`: `s` absorbs the intervals that follow it and
start at or before `maxp1`. The flag tells whether it absorbed any. -/
def coalesceSuccessors (maxp1 : ℤ) (s : RsampleReorder F) :
    List (RsampleReorder F) → RsampleReorder F × List (RsampleReorder F) × Bool
  | [] => (s, [], false)
  | t :: rest =>
    if t.min ≤ maxp1 then
      let (s', rest', _) := coalesceSuccessors maxp1 (appendRsampleInterval s t) rest
      (s', rest', true)
    else (s, t :: rest, false)

/-- The interval `coalesce_intervals_touching_range` starts from: the lowest `[m, n)` with
`min ≤ n` and `m ≤ maxp1`. -/
def firstTouching (min maxp1 : ℤ) (tree : List (RsampleReorder F)) : Option (RsampleReorder F) :=
  match KeyedList.lookupPredEq RsampleReorder.min min tree with
  | some s =>
    if min ≤ s.maxp1 then some s
    else (KeyedList.findSucc RsampleReorder.min s.min tree).filter fun t ↦ t.min ≤ maxp1
  | none => tree.head?.filter fun t ↦ t.min ≤ maxp1

/-- The end of `coalesce_intervals_touching_range`: the interval grows to cover `[min, maxp1)`. -/
def growRange (min maxp1 : ℤ) (s : RsampleReorder F) : RsampleReorder F :=
  { s with
    min := if min < s.min then min else s.min
    maxp1 := if s.maxp1 < maxp1 then maxp1 else s.maxp1 }

/-- `coalesce_intervals_touching_range`: the coalesced interval, the tree that holds it in place of
what it absorbed, and whether the range added anything. -/
def coalesceIntervalsTouchingRange (tree : List (RsampleReorder F)) (min maxp1 : ℤ) :
    Option (RsampleReorder F × List (RsampleReorder F) × Bool) :=
  (firstTouching min maxp1 tree).map fun s ↦
    let (joined, rest, absorbed) := coalesceSuccessors maxp1 s
      (tree.filter fun t ↦ s.min < t.min)
    let grown := growRange min maxp1 joined
    (grown, tree.filter (fun t ↦ t.min < s.min) ++ grown :: rest,
      absorbed || decide (min < joined.min) || decide (joined.maxp1 < maxp1))

def gapInterval (rdata : F) (min maxp1 : ℤ) : RsampleReorder F where
  min := min
  maxp1 := maxp1
  nSamples := 1
  sc := [⟨rdata, none⟩]

/-- `reorder_insert_gap`. -/
def reorderInsertGap (tree : List (RsampleReorder F)) (rdata : F) (min maxp1 : ℤ) :
    List (RsampleReorder F) :=
  KeyedList.insert RsampleReorder.min (gapInterval rdata min maxp1) tree

/-- `nn_reorder_gap`. -/
def nnReorderGap (reorder : Reorder F) (rdata : F) (min maxp1 : ℤ) :
    Reorder F × ReorderResult F × ℕ :=
  if maxp1 ≤ reorder.nextSeq then (reorder, .tooOld, 0)
  else if reorder.mode ≠ .normal then (reorder, .reject, 0)
  else
    match coalesceIntervalsTouchingRange reorder.sampleivtree min maxp1 with
    | none =>
      if min ≤ reorder.nextSeq then
        ({ reorder with
            nextSeq := maxp1
            maxSampleiv := KeyedList.lastKey RsampleReorder.min reorder.sampleivtree }, .accept, 0)
      else if reorder.nSamples = reorder.maxSamples ∧
          reorder.maxIv.all (fun last ↦ last.maxp1 < min) then
        ({ reorder with maxSampleiv := KeyedList.lastKey RsampleReorder.min reorder.sampleivtree },
          .reject, 0)
      else
        let stored := reorderCountOrEvict
          { reorder with sampleivtree := reorderInsertGap reorder.sampleivtree rdata min maxp1 }
        ({ stored with maxSampleiv := KeyedList.lastKey RsampleReorder.min stored.sampleivtree },
          .accept, 1)
    | some (coalesced, tree, valuable) =>
      if coalesced.min ≤ reorder.nextSeq then
        let rest := KeyedList.delete RsampleReorder.min coalesced.min tree
        ({ reorder with
            sampleivtree := rest
            nextSeq := coalesced.maxp1
            maxSampleiv := KeyedList.lastKey RsampleReorder.min rest
            nSamples := reorder.nSamples - coalesced.nSamples }, .deliver coalesced.sc, 0)
      else
        ({ reorder with
            sampleivtree := tree, maxSampleiv := KeyedList.lastKey RsampleReorder.min tree },
          if valuable then .accept else .reject, 0)

/-- `nn_reorder_wantsample`. -/
def nnReorderWantsample (reorder : Reorder F) (seq : ℤ) : Bool :=
  if seq < reorder.nextSeq then false
  else (KeyedList.lookupPredEq RsampleReorder.min seq reorder.sampleivtree).all fun s ↦
    s.maxp1 ≤ seq

end OpenSplice.Ddsi
