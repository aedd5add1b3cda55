import OpenSplice.Library.CircularList

/-!
# Fibonacci heaps

The heaps of `ut_fibheap.c`. A node is named by a number, and the memory of the nodes is kept by
field. A function that gets a pointer to a pointer (`markptr`) takes the value there and gives the
new one back. The objects of the nodes are compared by the function of the definition, and only
their owner assigns to them.

Loops that follow pointers have a bound on their steps, and give nothing when it does not suffice.
The array `roots` of `ut_fibheapExtractMin` has an entry for each degree up to `maxDegree`; an
access beyond it gives nothing either.
-/

set_option autoImplicit false

namespace OpenSplice.Utilities

/-- The memory of `ut_fibheapNode_t`, with the objects they are embedded in. -/
structure FibMem (β : Type) where
  parent : ℕ → Option ℕ
  children : ℕ → Option ℕ
  prev : ℕ → ℕ
  next : ℕ → ℕ
  mark : ℕ → Bool
  degree : ℕ → ℕ
  object : ℕ → β

namespace FibMem

open Function (update)

variable {β : Type} (cmp : β → β → Ordering) (m : FibMem β)

/-- `MAX_DEGREE`, for pointers of 64 bits. -/
def maxDegree : ℕ := 8 * 8 - 1

/-- `cmp`. -/
def compareNodes (a b : ℕ) : Ordering := cmp (m.object a) (m.object b)

def setObject (node : ℕ) (obj : β) : FibMem β := { m with object := update m.object node obj }

/-- `ut_fibheapMin`. -/
def fibheapMin (roots : Option ℕ) : Option ℕ := roots

/-- `ut_fibheap_merge_nonempty_list`. -/
def mergeNonemptyList (markptr : Option ℕ) (list : ℕ) : FibMem β × Option ℕ :=
  match markptr with
  | none => (m, some list)
  | some mark =>
    let oldMarkNext := m.next mark
    let oldListPrev := m.prev list
    let m₁ := { m with next := update m.next mark list }
    let m₂ := { m₁ with prev := update m₁.prev oldMarkNext oldListPrev }
    let m₃ := { m₂ with prev := update m₂.prev list mark }
    ({ m₃ with next := update m₃.next oldListPrev oldMarkNext }, some mark)

/-- `ut_fibheap_merge_into`. -/
def mergeInto (roots br : Option ℕ) : FibMem β × Option ℕ :=
  match br, roots with
  | none, _ => (m, roots)
  | some br, none => (m, some br)
  | some br, some r =>
    let out := m.mergeNonemptyList (some r) br
    (out.1, if m.compareNodes cmp br r = .lt then some br else out.2)

/-- `ut_fibheapMerge`: the memory, and the roots of both heaps. -/
def fibheapMerge (a b : Option ℕ) : FibMem β × Option ℕ × Option ℕ :=
  let out := m.mergeInto cmp a b
  (out.1, out.2, none)

/-- `ut_fibheapInsert`. -/
def fibheapInsert (roots : Option ℕ) (node : ℕ) : FibMem β × Option ℕ :=
  let m₁ := { m with
    parent := update m.parent node none
    children := update m.children node none
    prev := update m.prev node node
    next := update m.next node node
    mark := update m.mark node false
    degree := update m.degree node 0 }
  m₁.mergeInto cmp roots (some node)

/-- `ut_fibheap_add_as_child`. -/
def addAsChild (parent child : ℕ) : FibMem β :=
  let m₁ := { m with
    degree := update m.degree parent (m.degree parent + 1)
    parent := update m.parent child (some parent)
    prev := update m.prev child child
    next := update m.next child child }
  let out := m₁.mergeNonemptyList (m₁.children parent) child
  { out.1 with children := update out.1.children parent out.2 }

/-- `ut_fibheap_delete_one_from_list`. -/
def deleteOneFromList (markptr : Option ℕ) (node : ℕ) : FibMem β × Option ℕ :=
  if m.next node = node then (m, none)
  else
    let nodePrev := m.prev node
    let nodeNext := m.next node
    let m₁ := { m with next := update m.next nodePrev nodeNext }
    let m₂ := { m₁ with prev := update m₁.prev nodeNext nodePrev }
    (m₂, if markptr = some node then some nodeNext else markptr)

/-! ### Extraction of the minimum -/

/-- The loop that makes roots of the children: `n` has still to be treated. -/
def orphan (mark : ℕ) : ℕ → ℕ → FibMem β → Option (FibMem β)
  | 0, _, _ => none
  | fuel + 1, n, m =>
    let m₁ := { m with parent := update m.parent n none, mark := update m.mark n false }
    if m₁.next n = mark then some m₁ else orphan mark fuel (m₁.next n) m₁

/-- The array `roots`, up to `min_degree_noninit`. -/
abbrev RootArray := List (Option ℕ)

def slot (arr : RootArray) (d : ℕ) : Option ℕ := (arr[d]?).join

/-- `while (min_degree_noninit <= d) { roots[min_degree_noninit++] = NULL; }`. -/
def initRoots (arr : RootArray) (d : ℕ) : RootArray :=
  arr ++ List.replicate (d + 1 - arr.length) none

/-- The inner loop of the consolidation: `n` is linked with the root of its degree, if there is
one. -/
def linkLoop : ℕ → ℕ → RootArray → FibMem β → Option (ℕ × RootArray × FibMem β)
  | 0, _, _, _ => none
  | fuel + 1, n, arr, m =>
    match slot arr (m.degree n) with
    | none => some (n, arr, m)
    | some r =>
      let u := if m.compareNodes cmp r n = .lt then r else n
      let v := if m.compareNodes cmp r n = .lt then n else r
      linkLoop fuel u (arr.set (m.degree n) none) (m.addAsChild u v)

/-- The loop over the roots: `n` has still to be treated. -/
def consolidate (mark : ℕ) : ℕ → ℕ → RootArray → FibMem β → Option (RootArray × FibMem β)
  | 0, _, _, _ => none
  | fuel + 1, n, arr, m =>
    let n1 := m.next n
    (linkLoop cmp (arr.length + 1) n arr m).bind fun out ↦
      let d := out.2.2.degree out.1
      if maxDegree < d then none
      else
        let arr' := (initRoots out.2.1 d).set d (some out.1)
        if n1 = mark then some (arr', out.2.2) else consolidate mark fuel n1 arr' out.2.2

def relinkRoots : List ℕ → ℕ → ℕ → FibMem β → ℕ × ℕ × FibMem β
  | [], newmin, cursor, m => (newmin, cursor, m)
  | r :: rs, newmin, cursor, m =>
    let newmin' := if m.compareNodes cmp r newmin = .lt then r else newmin
    let m₁ := { m with prev := update m.prev r cursor, next := update m.next cursor r }
    relinkRoots rs newmin' r m₁

/-- The last part of `ut_fibheapExtractMin`: the roots that are left, linked up. -/
def scanRoots (arr : RootArray) : Option (FibMem β × ℕ) :=
  match arr.filterMap id with
  | [] => none
  | mark :: rs =>
    let out := relinkRoots cmp rs mark mark m
    let m₁ := out.2.2
    some ({ m₁ with prev := update m₁.prev mark out.2.1, next := update m₁.next out.2.1 mark },
      out.1)

/-- The part of `ut_fibheapExtractMin` that takes a root out and makes roots of its children. -/
def uproot (fuel : ℕ) (min : ℕ) : Option (FibMem β × Option ℕ) :=
  let del := m.deleteOneFromList (some min) min
  match del.1.children min with
  | none => some del
  | some mark => (orphan mark fuel mark del.1).map fun m₁ ↦ m₁.mergeNonemptyList del.2 mark

/-- `ut_fibheapExtractMin`: the node, the memory and the roots. -/
def fibheapExtractMin (fuel : ℕ) (roots : Option ℕ) : Option (Option ℕ × FibMem β × Option ℕ) :=
  match roots with
  | none => some (none, m, none)
  | some min =>
    if m.next min = min ∧ m.children min = none then some (some min, m, none)
    else
      (m.uproot fuel min).bind fun out ↦
        out.2.bind fun mark ↦
          (consolidate cmp mark fuel mark [] out.1).bind fun cons ↦
            (cons.2.scanRoots cmp cons.1).map fun fin ↦ (some min, fin.1, some fin.2)

/-! ### Cutting nodes -/

/-- The body of the loop of `ut_fibheap_cutnode`: the memory and the roots. -/
def cutFromParent (parent node : ℕ) (roots : Option ℕ) : FibMem β × Option ℕ :=
  let del := m.deleteOneFromList (m.children parent) node
  let m₁ := { del.1 with children := update del.1.children parent del.2 }
  let m₂ := { m₁ with
    degree := update m₁.degree parent (m₁.degree parent - 1)
    mark := update m₁.mark node false
    parent := update m₁.parent node none
    next := update m₁.next node node
    prev := update m₁.prev node node }
  m₂.mergeNonemptyList roots node

/-- The loop of `ut_fibheap_cutnode`, with the node it stops at. -/
def cutLoop : ℕ → ℕ → Option ℕ → FibMem β → Option (FibMem β × Option ℕ × ℕ)
  | 0, _, _, _ => none
  | fuel + 1, node, roots, m =>
    match m.parent node with
    | none => some (m, roots, node)
    | some parent =>
      if m.mark node then
        let out := m.cutFromParent parent node roots
        cutLoop fuel parent out.2 out.1
      else some (m, roots, node)

/-- `ut_fibheap_cutnode`. -/
def cutnode (fuel : ℕ) (roots : Option ℕ) (node : ℕ) : Option (FibMem β × Option ℕ) :=
  (cutLoop fuel node roots { m with mark := update m.mark node true }).map fun out ↦
    if (out.1.parent out.2.2).isSome then
      ({ out.1 with mark := update out.1.mark out.2.2 true }, out.2.1)
    else (out.1, out.2.1)

/-- `if (cmp (fhdef, node, fh->roots) < 0) { fh->roots = node; }`. -/
def updateMin (roots : Option ℕ) (node : ℕ) : Option (FibMem β × Option ℕ) :=
  roots.map fun r ↦ (m, if m.compareNodes cmp node r = .lt then some node else some r)

/-- `ut_fibheapDecreaseKey`. -/
def fibheapDecreaseKey (fuel : ℕ) (roots : Option ℕ) (node : ℕ) : Option (FibMem β × Option ℕ) :=
  match m.parent node with
  | none => m.updateMin cmp roots node
  | some parent =>
    if (m.compareNodes cmp parent node).isLE then some (m, roots)
    else (m.cutnode fuel roots node).bind fun out ↦ out.1.updateMin cmp out.2 node

/-- `ut_fibheapDelete`. -/
def fibheapDelete (fuel : ℕ) (roots : Option ℕ) (node : ℕ) : Option (FibMem β × Option ℕ) :=
  let cut : Option (FibMem β × Option ℕ) :=
    match m.parent node with
    | none => some (m, roots)
    | some _ => m.cutnode fuel roots node
  cut.bind fun out ↦ (out.1.fibheapExtractMin cmp fuel (some node)).map fun fin ↦ fin.2

end FibMem

end OpenSplice.Utilities
