import OpenSplice.Library.Visit
import OpenSplice.Utilities.Avl

/-!
# Keyed tables

The dictionary collection of `c_collection.c`. A table with `k` keys is a tree of trees: the root is
a tree of nodes by the value of the first key, the contents of such a node is a tree by the value of
the second key, and so on, down to the nodes of the last key, whose contents is an object.

Insertion makes the nodes that are missing on the way to an object (`Contents.lookupInsert`), and
removal takes out those that have become empty (`Contents.removeAt`). The number of objects is kept
in a `c_ulong` beside the tree, and a walk starts by looking at it (`Table.tableWalk`).

Key values are compared (`c_valueCompare`) by a linear order. The lookups of the `ut_avl` trees are
those of their in-order lists.
-/

set_option autoImplicit false

namespace OpenSplice.Database

open Utilities Library

variable {κ ω σ ρ : Type} {n : ℕ} (k : κ)

/-- The values of `n` key fields of an object, in the order of the keys of the table. -/
def KeyTuple (κ : Type) : ℕ → Type
  | 0 => Unit
  | n + 1 => κ ×ₗ KeyTuple κ n

/-- Tuples are compared lexicographically. -/
instance KeyTuple.linearOrder [LinearOrder κ] : (n : ℕ) → LinearOrder (KeyTuple κ n)
  | 0 => inferInstanceAs (LinearOrder Unit)
  | n + 1 => @Prod.Lex.instLinearOrder κ (KeyTuple κ n) _ (KeyTuple.linearOrder n)

def KeyTuple.nil : KeyTuple κ 0 := ()

def KeyTuple.cons {n : ℕ} (k : κ) (keys : KeyTuple κ n) : KeyTuple κ (n + 1) := toLex (k, keys)

def KeyTuple.head {n : ℕ} (keys : KeyTuple κ (n + 1)) : κ := (ofLex keys).1

def KeyTuple.tail {n : ℕ} (keys : KeyTuple κ (n + 1)) : KeyTuple κ n := (ofLex keys).2

@[simp] lemma KeyTuple.head_cons (keys : KeyTuple κ n) :
    (KeyTuple.cons k keys).head = k := rfl

@[simp] lemma KeyTuple.tail_cons (keys : KeyTuple κ n) :
    (KeyTuple.cons k keys).tail = keys := rfl

/-- `c_tableNode`. -/
structure TableNode (κ γ : Type) where
  keyValue : κ
  contents : γ

/-- `union c_tableContents` with `n` keys to go: an object, or a tree of nodes by the next key. -/
def Contents (κ ω : Type) : ℕ → Type
  | 0 => Option ω
  | n + 1 => Avl (TableNode κ (Contents κ ω n))

namespace Contents

def new : (n : ℕ) → Contents κ ω n
  | 0 => (none : Option ω)
  | _ + 1 => Avl.nil

def nodes {n : ℕ} (tree : Contents κ ω (n + 1)) : List (TableNode κ (Contents κ ω n)) :=
  Avl.toList tree

def isEmpty : (n : ℕ) → Contents κ ω n → Bool
  | 0, object => Option.isNone object
  | _ + 1, tree => (nodes tree).isEmpty

section Operations

variable [LinearOrder κ] {n : ℕ}

/-- `ut_avlLookup`. -/
def lookup (k : κ) (tree : Contents κ ω (n + 1)) : Option (TableNode κ (Contents κ ω n)) :=
  KeyedList.lookup TableNode.keyValue k tree.nodes

/-- `ut_avlLookupSucc`. -/
def lookupSucc (k : κ) (tree : Contents κ ω (n + 1)) : Option (TableNode κ (Contents κ ω n)) :=
  KeyedList.findSucc TableNode.keyValue k tree.nodes

/-- `ut_avlInsertIPath`. -/
def insertNode (node : TableNode κ (Contents κ ω n)) (tree : Contents κ ω (n + 1)) :
    Contents κ ω (n + 1) :=
  Avl.insert TableNode.keyValue node tree

/-- `ut_avlDeleteDPath`. -/
def deleteNode (k : κ) (tree : Contents κ ω (n + 1)) : Contents κ ω (n + 1) :=
  Avl.delete TableNode.keyValue k tree

def setContents (k : κ) (contents : Contents κ ω n) (tree : Contents κ ω (n + 1)) :
    Contents κ ω (n + 1) :=
  Avl.update TableNode.keyValue k ⟨k, contents⟩ tree

/-- `c_tableLookupInsert`. The place of the object is handed to `access`, which says what the caller
gets from it and what it leaves there. -/
def lookupInsert (access : Option ω → ρ × Option ω) :
    (n : ℕ) → KeyTuple κ n → Contents κ ω n → ρ × Contents κ ω n
  | 0, _, object => access object
  | n + 1, keys, tree =>
    match lookup keys.head tree with
    | some node =>
      let out := lookupInsert access n keys.tail node.contents
      (out.1, setContents keys.head out.2 tree)
    | none =>
      let out := lookupInsert access n keys.tail (new n)
      (out.1, insertNode ⟨keys.head, out.2⟩ tree)

def find : (n : ℕ) → KeyTuple κ n → Contents κ ω n → Option ω
  | 0, _, object => object
  | n + 1, keys, tree =>
    (lookup keys.head tree).bind fun node ↦ find n keys.tail node.contents

/-- The part of `c_tableRemove` that deletes the node of an object, and prunes the trees that are
empty then. -/
def removeAt : (n : ℕ) → KeyTuple κ n → Contents κ ω n → Contents κ ω n
  | 0, _, _ => (none : Option ω)
  | n + 1, keys, tree =>
    match lookup keys.head tree with
    | none => tree
    | some node =>
      let contents := removeAt n keys.tail node.contents
      if isEmpty n contents then deleteNode keys.head tree
      else setContents keys.head contents tree

/-- The object reached by going to the least node of every tree (`ut_avlFindMin`). -/
def first : (n : ℕ) → Contents κ ω n → Option ω
  | 0, object => object
  | n + 1, tree => (nodes tree).head?.bind fun node ↦ first n node.contents

/-- `tableNext`. There is nothing behind an object under its last key. -/
def next : (n : ℕ) → KeyTuple κ n → Contents κ ω n → Option ω
  | 0, _, _ => none
  | n + 1, keys, tree =>
    match (lookup keys.head tree).bind fun node ↦ next n keys.tail node.contents with
    | some object => some object
    | none => (lookupSucc keys.head tree).bind fun node ↦ first n node.contents

end Operations

/-- `c_tableWalkAction`, with `tableReadTakeWalk` for the trees. -/
def walk (action : σ → ω → σ × Bool) : (n : ℕ) → σ → Contents κ ω n → σ × Bool
  | 0, s, object => Option.elim object (s, true) (action s)
  | n + 1, s, tree => visit (fun s node ↦ walk action n s node.contents) s (nodes tree)

end Contents

/-- `c_table` with `k` keys. The count is a `c_ulong`. -/
structure Table (κ ω : Type) (k : ℕ) where
  contents : Contents κ ω k
  count : ℕ

def allows (condition : Option (ω → ω → Bool)) (found o : ω) : Bool :=
  match condition with
  | none => true
  | some condition => condition found o

/-- What `c_tableInsert` does at the place of the object: what it returns, whether it counts, and
the object that is there then. -/
def insertAccess (o : ω) : Option ω → (Option ω × Bool) × Option ω
  | none => ((some o, true), some o)
  | some object => ((some object, false), some object)

/-- What `c_tableReplace` does at the place of the object. -/
def replaceAccess (o : ω) (condition : Option (ω → ω → Bool)) :
    Option ω → (Option ω × Bool) × Option ω
  | none => ((none, true), some o)
  | some object =>
    if allows condition object o then ((some object, false), some o)
    else ((some o, false), some object)

namespace Table

variable {k : ℕ}

/-- `c_tableNew`. -/
def new : Table κ ω k := ⟨Contents.new k, 0⟩

/-- `table->count++`. -/
def countUp (t : Table κ ω k) (counted : Bool) : ℕ :=
  if counted then (t.count + 1) % 2 ^ 32 else t.count

/-- `table->count--`. -/
def countDown (t : Table κ ω k) : ℕ := (t.count + (2 ^ 32 - 1)) % 2 ^ 32

variable [LinearOrder κ] (keyValues : ω → KeyTuple κ k)

/-- `c_tableInsert`, for an object that is not `NULL`. -/
def tableInsert (o : ω) (t : Table κ ω k) : Option ω × Table κ ω k :=
  let out := t.contents.lookupInsert (insertAccess o) k (keyValues o)
  (out.1.1, ⟨out.2, t.countUp out.1.2⟩)

/-- `c_tableReplace`, for an object that is not `NULL`. -/
def tableReplace (o : ω) (condition : Option (ω → ω → Bool)) (t : Table κ ω k) :
    Option ω × Table κ ω k :=
  let out := t.contents.lookupInsert (replaceAccess o condition) k (keyValues o)
  (out.1.1, ⟨out.2, t.countUp out.1.2⟩)

/-- `c_tableRemove`. -/
def tableRemove (o : ω) (condition : Option (ω → ω → Bool)) (t : Table κ ω k) :
    Option ω × Table κ ω k :=
  match t.contents.find k (keyValues o) with
  | none => (none, t)
  | some object =>
    if allows condition object o then
      (some object, ⟨t.contents.removeAt k (keyValues o), t.countDown⟩)
    else (none, t)

/-- `c_tableFind`. -/
def tableFind (keys : KeyTuple κ k) (t : Table κ ω k) : Option ω := t.contents.find k keys

/-- `c_tableNext`. -/
def tableNext (o : Option ω) (t : Table κ ω k) : Option ω :=
  match o with
  | none => t.contents.first k
  | some o => t.contents.next k (keyValues o)

omit [LinearOrder κ] in
/-- `c_tableWalk`. -/
def tableWalk (action : σ → ω → σ × Bool) (s : σ) (t : Table κ ω k) : σ × Bool :=
  if 0 < t.count then t.contents.walk action k s else (s, true)

end Table

end OpenSplice.Database
