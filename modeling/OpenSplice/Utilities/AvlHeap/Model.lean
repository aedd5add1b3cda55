import OpenSplice.Utilities.Avl

/-!
# AVL trees in memory

`ut_avl.c` as it works on memory: every node has pointers to its children and its parent, which the
updates follow and change. A node goes by a number that stands for its address. A pointer to a
pointer (`ut_avlNode_t **`) is the root of the tree or one of the two child pointers of a node.

An object has a payload, which the client owns and which the key is taken from, and a summary, which
the augment function of the tree computes from the payload and from the objects of the children.
Following a null pointer gives nothing. Loops along pointers are given a number of rounds. A path is
a list with the deepest entry of the array as its head. Assertions are not evaluated.
-/

set_option autoImplicit false

namespace OpenSplice.Utilities

/-! ### Memory -/

/-- `ut_avlTreedef_t`, without the ways to find the key of an object. -/
structure Treedef (κ β γ : Type) where
  key : β → κ
  comparekk : κ → κ → Ordering
  augment : Option (β → Option (β × γ) → Option (β × γ) → γ)
  allowDups : Bool

/-- `ut_avlNode_t`, with the object it is embedded in. -/
structure AvlNode (β γ : Type) where
  left : Option ℕ
  right : Option ℕ
  parent : Option ℕ
  height : ℕ
  payload : β
  summary : γ

/-- A child pointer: the left one for `false`. -/
def AvlNode.cs {β γ : Type} (n : AvlNode β γ) (dir : Bool) : Option ℕ :=
  if dir then n.right else n.left

def AvlNode.setCs {β γ : Type} (n : AvlNode β γ) (dir : Bool) (v : Option ℕ) : AvlNode β γ :=
  if dir then { n with right := v } else { n with left := v }

/-- `ut_avlTree_t`, with the memory of its nodes. -/
structure AvlTree (β γ : Type) where
  root : Option ℕ
  node : ℕ → AvlNode β γ

inductive NodePtr
  | root
  | cs (node : ℕ) (dir : Bool)
  deriving DecidableEq

namespace AvlTree

variable {κ β γ : Type} (td : Treedef κ β γ) (t : AvlTree β γ)

def modify (a : ℕ) (f : AvlNode β γ → AvlNode β γ) : AvlTree β γ :=
  { t with node := fun x ↦ if x = a then f (t.node a) else t.node x }

/-- `a->cs[dir] = v`. -/
def setCs (a : ℕ) (dir : Bool) (v : Option ℕ) : AvlTree β γ := t.modify a fun n ↦ n.setCs dir v

/-- `a->parent = v`. -/
def setParent (a : ℕ) (v : Option ℕ) : AvlTree β γ := t.modify a fun n ↦ { n with parent := v }

/-- `if (a) { a->parent = v; }`. -/
def setParentOf (a : Option ℕ) (v : Option ℕ) : AvlTree β γ := a.elim t fun a ↦ t.setParent a v

/-- `a->height = h`. -/
def setHeight (a : ℕ) (h : ℕ) : AvlTree β γ := t.modify a fun n ↦ { n with height := h }

/-- `*pnode`. -/
def load : NodePtr → Option ℕ
  | .root => t.root
  | .cs a dir => (t.node a).cs dir

/-- `*pnode = v`. -/
def store (pnode : NodePtr) (v : Option ℕ) : AvlTree β γ :=
  match pnode with
  | .root => { t with root := v }
  | .cs a dir => t.setCs a dir v

/-- `a ? a->height : 0`. -/
def heightOf (a : Option ℕ) : ℕ := a.elim 0 fun a ↦ (t.node a).height

def setPayload (a : ℕ) (p : β) : AvlTree β γ := t.modify a fun n ↦ { n with payload := p }

def object (a : Option ℕ) : Option (β × γ) := a.map fun a ↦ ((t.node a).payload, (t.node a).summary)

/-- `if (td->augment) { augment (td, a); }`. -/
def augment (a : ℕ) : AvlTree β γ :=
  td.augment.elim t fun f ↦ t.modify a fun n ↦
    { n with summary := f n.payload (t.object n.left) (t.object n.right) }

/-! ### Rebalancing -/

/-- The assignments of `rotate_single`. -/
def relinkSingle (pnode : NodePtr) (node nodeND : ℕ) (dir : Bool) : AvlTree β γ :=
  let parent := (t.node node).parent
  let nodeNDD := (t.node nodeND).cs dir
  let t₁ := t.setCs nodeND dir (some node)
  let t₂ := t₁.setParent nodeND parent
  let t₃ := t₂.setParent node (some nodeND)
  let t₄ := t₃.setCs node (!dir) nodeNDD
  let t₅ := t₄.setParentOf nodeNDD (some node)
  let t₆ := t₅.setHeight node (1 + t₅.heightOf nodeNDD)
  let t₇ := t₆.setHeight nodeND ((t₆.node node).height + 1)
  t₇.store pnode (some nodeND)

/-- `rotate_single`. -/
def rotateSingle (pnode : NodePtr) (node : ℕ) (dir : Bool) : Option (AvlTree β γ × Option ℕ) :=
  ((t.node node).cs !dir).map fun nodeND ↦
    (((t.relinkSingle pnode node nodeND dir).augment td node).augment td nodeND,
      (t.node node).parent)

/-- The assignments of `rotate_double`. -/
def relinkDouble (pnode : NodePtr) (node nodeND nodeNDD : ℕ) (dir : Bool) : AvlTree β γ :=
  let parent := (t.node node).parent
  let t₁ := t.setCs nodeND dir ((t.node nodeNDD).cs !dir)
  let t₂ := t₁.setParentOf ((t₁.node nodeND).cs dir) (some nodeND)
  let t₃ := t₂.setCs node (!dir) ((t₂.node nodeNDD).cs dir)
  let t₄ := t₃.setParentOf ((t₃.node node).cs !dir) (some node)
  let t₅ := t₄.setCs nodeNDD (!dir) (some nodeND)
  let t₆ := t₅.setCs nodeNDD dir (some node)
  let t₇ := t₆.setParent nodeND (some nodeNDD)
  let t₈ := t₇.setParent node (some nodeNDD)
  let t₉ := t₈.setParent nodeNDD parent
  let t₁₀ := t₉.store pnode (some nodeNDD)
  let h := (t₁₀.node nodeND).height
  let t₁₁ := t₁₀.setHeight node (t₁₀.node nodeNDD).height
  let t₁₂ := t₁₁.setHeight nodeND (t₁₁.node nodeNDD).height
  t₁₂.setHeight nodeNDD h

/-- `rotate_double`. -/
def rotateDouble (pnode : NodePtr) (node : ℕ) (dir : Bool) : Option (AvlTree β γ × Option ℕ) :=
  ((t.node node).cs !dir).bind fun nodeND ↦
    ((t.node nodeND).cs dir).map fun nodeNDD ↦
      ((((t.relinkDouble pnode node nodeND nodeNDD dir).augment td node).augment td nodeND).augment
        td nodeNDD, (t.node node).parent)

/-- `rotate`. -/
def rotate (pnode : NodePtr) (node : ℕ) (dir : Bool) : Option (AvlTree β γ × Option ℕ) :=
  ((t.node node).cs !dir).bind fun nodeND ↦
    if t.heightOf ((t.node nodeND).cs !dir) < t.heightOf ((t.node nodeND).cs dir) then
      rotateDouble td t pnode node dir
    else rotateSingle td t pnode node dir

/-- `rebalance_one`, with the node to go on with. -/
def rebalanceOne (pnode : NodePtr) (node : ℕ) : Option (AvlTree β γ × Option ℕ) :=
  let heightL := t.heightOf (t.node node).left
  let heightR := t.heightOf (t.node node).right
  if heightR + 1 < heightL then rotate td t pnode node true
  else if heightL + 1 < heightR then rotate td t pnode node false
  else
    let height := (if heightL < heightR then heightR else heightL) + 1
    if td.augment.isNone ∧ height = (t.node node).height then some (t, none)
    else some ((t.setHeight node height).augment td node, (t.node node).parent)

/-- `rebalance_path`. -/
def rebalancePath : List NodePtr → Option ℕ → AvlTree β γ → Option (AvlTree β γ)
  | _, none, t => some t
  | [], some _, _ => none
  | pnode :: path, some node, t =>
    (rebalanceOne td t pnode node).bind fun out ↦ rebalancePath path out.2 out.1

/-- `nodeptr_from_node`. -/
def nodeptrFromNode (node : ℕ) : NodePtr :=
  match (t.node node).parent with
  | none => .root
  | some parent => if (t.node parent).left = some node then .cs parent false else .cs parent true

/-- `rebalance_nopath`. -/
def rebalanceNopath : ℕ → Option ℕ → AvlTree β γ → Option (AvlTree β γ)
  | _, none, t => some t
  | 0, some _, _ => none
  | fuel + 1, some node, t =>
    (rebalanceOne td t (t.nodeptrFromNode node) node).bind fun out ↦
      rebalanceNopath fuel out.2 out.1

/-- `comparenk`. -/
def comparenk (node : ℕ) (key : κ) : Ordering := td.comparekk (td.key (t.node node).payload) key

/-- The loop of `lookup_path`: the node found, its parent, and the path to it. -/
def lookupPath (key : κ) :
    ℕ → Option ℕ → Option ℕ → List NodePtr → Option (Option ℕ × Option ℕ × List NodePtr)
  | _, none, prev, path => some (none, prev, path)
  | 0, some _, _, _ => none
  | fuel + 1, some cursor, prev, path =>
    if comparenk td t cursor key = .eq then some (some cursor, prev, path)
    else
      let dir := comparenk td t cursor key ≠ .gt
      lookupPath key fuel ((t.node cursor).cs dir) (some cursor) (.cs cursor dir :: path)

/-- The loop of `ut_avlLookupIPath` that goes on below a node with the key. -/
def lookupBelow (key : κ) :
    ℕ → Option ℕ → Option ℕ → List NodePtr → Option (Option ℕ × List NodePtr)
  | _, none, prev, path => some (prev, path)
  | 0, some _, _, _ => none
  | fuel + 1, some cursor, _, path =>
    let dir := comparenk td t cursor key ≠ .gt
    lookupBelow key fuel ((t.node cursor).cs dir) (some cursor) (.cs cursor dir :: path)

/-- `ut_avlLookupIPath`: the parent, and the path to the place for a new node. There is none if the
key is in the tree and duplicates are not allowed. -/
def lookupIPath (fuel : ℕ) (key : κ) : Option (Option ℕ × List NodePtr) :=
  (lookupPath td t key fuel t.root none [.root]).bind fun out ↦
    match out.1 with
    | none => some out.2
    | some node =>
      if td.allowDups then lookupBelow td t key fuel (some node) out.2.1 out.2.2 else none

/-! ### Updates -/

/-- The assignments of `ut_avlInsertIPath` to the fields of the new node. -/
def initLeaf (node : ℕ) (parent : Option ℕ) : AvlTree β γ :=
  t.modify node fun n ↦ { n with left := none, right := none, parent := parent, height := 1 }

/-- `ut_avlInsertIPath`. -/
def insertIPath (node : ℕ) (parent : Option ℕ) (path : List NodePtr) : Option (AvlTree β γ) :=
  match path with
  | [] => none
  | pnode :: path =>
    rebalancePath td path parent
      (((t.initLeaf node parent).augment td node).store pnode (some node))

/-- `ut_avlInsert`. -/
def insert (fuel : ℕ) (node : ℕ) : Option (AvlTree β γ) :=
  (lookupIPath td t fuel (td.key (t.node node).payload)).bind fun out ↦
    insertIPath td t node out.1 out.2

/-- The loop of `delete_generic` that finds the predecessor, with the path below the node. -/
def findSubst : ℕ → ℕ → List NodePtr → Option (ℕ × List NodePtr)
  | 0, _, _ => none
  | fuel + 1, subst, path =>
    match (t.node subst).right with
    | none => some (subst, path)
    | some right => findSubst fuel right (.cs subst true :: path)

/-- The part of `delete_generic` that takes a predecessor out of its place, if it is not the left
child of the node. -/
def spliceSubst (node subst whence : ℕ) : AvlTree β γ :=
  let t₁ := t.setCs whence true (t.node subst).left
  let t₂ := t₁.setParentOf (t₁.node whence).right (some whence)
  let t₃ := t₂.setCs subst false (t₂.node node).left
  t₃.setParentOf (t₃.node subst).left (some subst)

/-- The part of `delete_generic` that puts the predecessor in the place of the node. -/
def placeSubst (pnode : NodePtr) (node subst : ℕ) : AvlTree β γ :=
  let t₁ := t.setParent subst (t.node node).parent
  let t₂ := t₁.setHeight subst (t₁.node node).height
  let t₃ := t₂.setCs subst true (t₂.node node).right
  let t₄ := t₃.setParentOf (t₃.node subst).right (some subst)
  t₄.store pnode (some subst)

/-- The first part of `delete_generic`: the tree without the node, where the rebalancing has to
start, and the path to that place. -/
def unlink (pnode : NodePtr) (path : List NodePtr) (fuel : ℕ) (node : ℕ) :
    Option (AvlTree β γ × Option ℕ × List NodePtr) :=
  match (t.node node).left, (t.node node).right with
  | none, right =>
    some ((t.setParentOf right (t.node node).parent).store pnode right, (t.node node).parent, path)
  | some left, none =>
    some ((t.setParent left (t.node node).parent).store pnode (some left),
      (t.node node).parent, path)
  | some left, some _ =>
    if (t.node left).right = none then
      some (t.placeSubst pnode node left, some left, pnode :: path)
    else
      (t.findSubst fuel left []).bind fun out ↦
        (t.node out.1).parent.map fun whence ↦
          ((t.spliceSubst node out.1 whence).placeSubst pnode node out.1, some whence,
            out.2.tail ++ .cs out.1 false :: pnode :: path)

/-- `delete_generic` with a path: the entries of the path from that of the node on. -/
def deleteDPath (fuel : ℕ) (node : ℕ) (path : List NodePtr) : Option (AvlTree β γ) :=
  match path with
  | [] => none
  | pnode :: path =>
    (t.unlink pnode path fuel node).bind fun out ↦
      rebalancePath td out.2.2 out.2.1 (out.2.1.elim out.1 fun whence ↦ out.1.augment td whence)

/-- `ut_avlDelete`: `delete_generic` without a path. -/
def delete (fuel : ℕ) (node : ℕ) : Option (AvlTree β γ) :=
  (t.unlink (t.nodeptrFromNode node) [] fuel node).bind fun out ↦
    rebalanceNopath td fuel out.2.1 (out.2.1.elim out.1 fun whence ↦ out.1.augment td whence)

/-- `ut_avlAugmentUpdate`. -/
def augmentUpdate : ℕ → Option ℕ → AvlTree β γ → Option (AvlTree β γ)
  | _, none, t => some t
  | 0, some _, _ => none
  | fuel + 1, some node, t =>
    if td.augment.isNone then some t
    else augmentUpdate fuel ((t.augment td node).node node).parent (t.augment td node)

end AvlTree

end OpenSplice.Utilities
