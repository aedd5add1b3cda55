import OpenSplice.Database.Table.Map
import OpenSplice.Library.Multiplicity

/-!
# Reading a table by a predicate

`c_tableRead` goes through the disjuncts of a predicate. For each it walks down the nodes whose key
values are in the ranges of the keys, and hands an object at the end to the action if it matches
(`predMatches`) the disjunct or a later one.

An object is handed over once for every disjunct and every choice of ranges that lead to it
(`readDisjuncts_eq_some`). A key expression is evaluated for the contents of the nodes of its key,
which is an object only for the last key: for the others it is a tree, and the outcome is undefined
(`readAction_eq_none`). `tableRead_filters` says when a read hands over the matching objects, each
once.
-/

set_option autoImplicit false

namespace OpenSplice.Database

open Library List Function Bool Contents Table Fin

variable {κ ω : Type} [LinearOrder κ] {n : ℕ} {c : Contents κ ω n} {keys : KeyTuple κ n}

/-- `c_qBoundKind`. -/
inductive BoundKind
  | undefined | include | exclude
deriving DecidableEq

/-- `c_qRange`, without the expressions of its bounds. A range does not end before its start. -/
structure Range (κ : Type) [LinearOrder κ] where
  start : κ
  startKind : BoundKind
  stop : κ
  stopKind : BoundKind
  ordered : startKind ≠ .undefined → stopKind ≠ .undefined → start ≤ stop

namespace Range

def startOk (r : Range κ) (x : κ) : Bool :=
  match r.startKind with
  | .undefined => true
  | .include => !decide (compare x r.start = .lt)
  | .exclude => compare x r.start = .gt

def stopOk (r : Range κ) (x : κ) : Bool :=
  match r.stopKind with
  | .undefined => true
  | .include => !decide (compare x r.stop = .gt)
  | .exclude => compare x r.stop = .lt

/-- The test of `c_qKeyEval` for a range. -/
def contains (r : Range κ) (x : κ) : Bool := r.startOk x && r.stopOk x

lemma startOk_iff (r : Range κ) (x : κ) : r.startOk x ↔
    (r.startKind = .include → r.start ≤ x) ∧ (r.startKind = .exclude → r.start < x) := by
  cases h : r.startKind <;> simp [startOk, h, compare_lt_iff_lt, compare_gt_iff_gt]

lemma stopOk_iff (r : Range κ) (x : κ) : r.stopOk x ↔
    (r.stopKind = .include → x ≤ r.stop) ∧ (r.stopKind = .exclude → x < r.stop) := by
  cases h : r.stopKind <;> simp [stopOk, h, compare_lt_iff_lt, compare_gt_iff_gt]

end Range

open Range

/-- `c_qKey`. An empty list of ranges is no list, and an expression is told by its value for an
object (`c_qValue`). -/
structure QKey (κ ω : Type) [LinearOrder κ] where
  range : List (Range κ)
  expr : Option (ω → Bool)

/-- `c_qPred`, without the disjuncts that follow. -/
structure QPred (κ ω : Type) [LinearOrder κ] (k : ℕ) where
  keyField : Fin k → QKey κ ω
  expr : Option (ω → Bool)

namespace QKey

def inRange (key : QKey κ ω) (v : κ) : Bool :=
  key.range.isEmpty || key.range.any (Range.contains · v)

def holds (key : QKey κ ω) (o : ω) : Bool := key.expr.all (· o)

/-- `c_qKeyEval`, for an object with value `v` of the key. -/
def keyEval (key : QKey κ ω) (v : κ) (o : ω) : Bool := key.holds o && key.inRange v

/-- The loop of `c_qPredEval` over the keys. -/
def keysEval : (n : ℕ) → (Fin n → QKey κ ω) → KeyTuple κ n → ω → Bool
  | 0, _, _, _ => true
  | n + 1, keyField, keys, o =>
    (keyField 0).keyEval keys.head o && keysEval n (Fin.tail keyField) keys.tail o

end QKey

variable {k : ℕ} (keyValues : ω → KeyTuple κ k) {m : KeyTuple κ k → Option ω}

def QPred.accepts (p : QPred κ ω k) (o : ω) : Bool :=
  QKey.keysEval k p.keyField (keyValues o) o

def QPred.holds (p : QPred κ ω k) (o : ω) : Bool := p.expr.all (· o)

/-- `c_qPredEval`, for a predicate that is not empty. -/
def qPredEval (o : ω) : List (QPred κ ω k) → Bool
  | [] => false
  | p :: rest => if p.accepts keyValues o then p.holds o else qPredEval o rest

/-- The loop of `predMatches`. -/
def someMatches (o : ω) : List (QPred κ ω k) → Bool
  | [] => false
  | p :: rest => qPredEval keyValues o (p :: rest) || someMatches o rest

/-- `predMatches`. -/
def predMatches (q : List (QPred κ ω k)) (o : ω) : Bool :=
  q.isEmpty || someMatches keyValues o q

section Walk

variable {γ : Type}

/-- The nodes from the start of a range on (`ut_avlIterFirst`, `ut_avlIterSuccEq` or
`ut_avlIterSucc`). -/
def rangeStart (r : Range κ) (nodes : List (TableNode κ γ)) : List (TableNode κ γ) :=
  match r.startKind with
  | .undefined => nodes
  | .include => nodes.dropWhile fun n ↦ n.keyValue < r.start
  | .exclude => nodes.dropWhile fun n ↦ n.keyValue ≤ r.start

def behind (r : Range κ) (n : TableNode κ γ) : Bool :=
  match r.stopKind with
  | .undefined => false
  | .include => compare n.keyValue r.stop = .gt
  | .exclude => compare n.keyValue r.stop ≠ .lt

/-- The first node behind a range (`ut_avlLookupSucc` or `ut_avlLookupSuccEq`). -/
def rangeEnd (r : Range κ) (nodes : List (TableNode κ γ)) : Option (TableNode κ γ) :=
  match r.stopKind with
  | .undefined => none
  | .include => KeyedList.findSucc TableNode.keyValue r.stop nodes
  | .exclude => KeyedList.lookupSuccEq TableNode.keyValue r.stop nodes

/-- `tableReadTakeRangeWalk`. -/
def rangeWalk (r : Range κ) (nodes : List (TableNode κ γ)) : List (TableNode κ γ) :=
  match rangeStart r nodes with
  | [] => []
  | n :: rest =>
    if behind r n then []
    else (n :: rest).takeWhile fun n ↦
      some n.keyValue ≠ (rangeEnd r nodes).map TableNode.keyValue

def QKey.walk (key : QKey κ ω) (nodes : List (TableNode κ γ)) : List (TableNode κ γ) :=
  if key.range.isEmpty then nodes else key.range.flatMap (rangeWalk · nodes)

end Walk

def gather {α β : Type} (f : α → Option (List β)) : List α → Option (List β)
  | [] => some []
  | a :: l => do
    let first ← f a
    let rest ← gather f l
    return first ++ rest

/-- `tableReadTakeActionNonMatchingKey`: the key expression is evaluated for the contents of the
node. They are an object only below the last key; for a tree the outcome is undefined. -/
def nonMatchingKey (key : QKey κ ω) : (n : ℕ) → Contents κ ω n → Option Bool
  | 0, object => if key.expr.isNone then some false else Option.map (fun o ↦ !key.holds o) object
  | _ + 1, _ => if key.expr.isNone then some false else none

/-- The part of `tableReadAction` for the node of a key: it is skipped if the key expression does
not hold. -/
def readNode {n : ℕ} (key : QKey κ ω) (read : Contents κ ω n → Option (List ω))
    (node : TableNode κ (Contents κ ω n)) : Option (List ω) := do
  if ← nonMatchingKey key n node.contents then return [] else read node.contents

/-- `tableReadAction`, for an action that always proceeds: the objects it is called for. The leaf
test is that of the disjunct being read. -/
def readAction (leaf : ω → Bool) : (n : ℕ) → (Fin n → QKey κ ω) → Contents κ ω n → Option (List ω)
  | 0, _, object => some ((Option.toList object).filter leaf)
  | n + 1, keyField, tree =>
    gather (readNode (keyField 0) (readAction leaf n (Fin.tail keyField)))
      ((keyField 0).walk tree.nodes)

/-- The loop of `c_tableRead` over the disjuncts. -/
def readDisjuncts (c : Contents κ ω k) : List (QPred κ ω k) → Option (List ω)
  | [] => some []
  | p :: rest => do
    let first ← readAction (predMatches keyValues (p :: rest)) k p.keyField c
    let others ← readDisjuncts c rest
    return first ++ others

/-- `c_tableRead` for a table with keys, and an action that always proceeds: the objects the action
is called for, if the outcome is defined. -/
def Table.tableRead (q : List (QPred κ ω k)) (t : Table κ ω k) : Option (List ω) :=
  if q.isEmpty then readAction (predMatches keyValues q) k (fun _ ↦ ⟨[], none⟩) t.contents
  else readDisjuncts keyValues t.contents q

/-! ### The nodes of a range -/

section Ranges

variable {γ : Type} {nodes : List (TableNode κ γ)} {r : Range κ}

lemma Range.startOk_mono {x y : κ} (hlt : x < y) (hx : r.startOk x) : r.startOk y := by
  rw [startOk_iff] at hx ⊢
  exact ⟨fun h ↦ (hx.1 h).trans hlt.le, fun h ↦ (hx.2 h).trans hlt⟩

lemma Range.stopOk_anti {x y : κ} (hlt : x < y) (hy : r.stopOk y) : r.stopOk x := by
  rw [stopOk_iff] at hy ⊢
  exact ⟨fun h ↦ hlt.le.trans (hy.1 h), fun h ↦ hlt.trans (hy.2 h)⟩

/-- A value behind a range that has a value is not before its start. -/
lemma Range.startOk_of_behind {x y : κ} (hstart : r.startOk x) (hstop : r.stopOk x)
    (hy : r.stopOk y = false) : r.startOk y := by
  rcases lt_trichotomy y x with hlt | heq | hgt
  · exact absurd (stopOk_anti hlt hstop) (by simp [hy])
  · exact heq ▸ hstart
  · exact startOk_mono hgt hstart

lemma behind_eq (r : Range κ) (n : TableNode κ γ) : behind r n = !r.stopOk n.keyValue := by
  unfold behind stopOk
  rcases r.stopKind with _ | _ | _ <;> simp

lemma rangeEnd_eq (r : Range κ) (nodes : List (TableNode κ γ)) :
    rangeEnd r nodes = nodes.find? fun n ↦ !r.stopOk n.keyValue := by
  unfold rangeEnd stopOk
  rcases r.stopKind with _ | _ | _
  · exact (find?_eq_none.mpr (by simp)).symm
  · exact find?_congr fun n _ ↦ by simp [compare_gt_iff_gt]
  · exact find?_congr fun n _ ↦ by simp [compare_lt_iff_lt, ← not_lt]

variable (hord : KeyedList.Ordered TableNode.keyValue nodes)
include hord

lemma rangeStart_eq (r : Range κ) :
    rangeStart r nodes = nodes.filter fun n ↦ r.startOk n.keyValue := by
  rw [← hord.dropWhile_eq_filter fun a b hlt ha ↦ startOk_mono hlt ha]
  unfold rangeStart startOk
  rcases r.startKind with _ | _ | _
  · cases nodes <;> simp
  · simp [compare_lt_iff_lt]
  · simp [compare_gt_iff_gt, ← not_lt]

lemma rangeWalk_eq (r : Range κ) :
    rangeWalk r nodes = nodes.filter fun n ↦ r.contains n.keyValue := by
  have hsplit : nodes.filter (fun n ↦ r.contains n.keyValue) =
      (rangeStart r nodes).filter fun n ↦ r.stopOk n.keyValue := by
    rw [rangeStart_eq hord, filter_filter]
    refine filter_congr fun a _ ↦ ?_
    rw [Range.contains, Bool.and_comm]
  have hordered : KeyedList.Ordered TableNode.keyValue (rangeStart r nodes) :=
    rangeStart_eq hord r ▸ hord.filter _
  rw [hsplit, rangeWalk]
  cases hstart : rangeStart r nodes with
  | nil => rfl
  | cons n rest =>
    rw [hstart] at hordered
    have hanti : ∀ a b : TableNode κ γ, a.keyValue < b.keyValue →
        r.stopOk b.keyValue → r.stopOk a.keyValue :=
      fun a b hlt hb ↦ stopOk_anti hlt hb
    dsimp only
    rw [behind_eq, ← hordered.takeWhile_eq_filter hanti]
    have hn' : r.startOk n.keyValue := by
      have hmem : n ∈ rangeStart r nodes := hstart ▸ mem_cons_self
      rw [rangeStart_eq hord] at hmem
      exact (mem_filter.mp hmem).2
    by_cases hn : r.stopOk n.keyValue
    · -- a node behind the range comes after `n`, so it is among the nodes from the start on
      have hend : rangeEnd r nodes = (n :: rest).find? fun n ↦ !r.stopOk n.keyValue := by
        rw [rangeEnd_eq, ← hstart, rangeStart_eq hord, find?_filter]
        refine find?_congr fun a _ ↦ ?_
        cases hstop : r.stopOk a.keyValue with
        | true => simp
        | false => simp [startOk_of_behind hn' hn hstop]
      rw [hn, Bool.not_true, if_neg Bool.false_ne_true, hend, hordered.takeWhile_ne_find]
    · simp [hn]

end Ranges

/-! ### How often a walk comes to an object -/

namespace QKey

def hits (key : QKey κ ω) (v : κ) : ℕ :=
  if key.range.isEmpty then 1 else key.range.countP (Range.contains · v)

lemma hits_pos (key : QKey κ ω) (v : κ) : 0 < key.hits v ↔ key.inRange v := by
  unfold hits inRange
  split_ifs with hempty
  · simp [hempty]
  · simp [hempty, countP_pos_iff]

variable {γ : Type} {nodes : List (TableNode κ γ)}

section

variable (hord : KeyedList.Ordered TableNode.keyValue nodes)
include hord

variable (key : QKey κ ω)

lemma mem_walk {n : TableNode κ γ} : n ∈ key.walk nodes ↔ n ∈ nodes ∧ key.inRange n.keyValue := by
  unfold walk inRange
  split_ifs with hempty
  · simp [hempty]
  · simp [rangeWalk_eq hord, hempty]
    tauto

lemma sum_walk {M : Type*} [AddCommMonoid M] (g : TableNode κ γ → M) :
    ((key.walk nodes).map g).sum = (nodes.map fun n ↦ key.hits n.keyValue • g n).sum := by
  unfold walk hits
  split_ifs with hempty
  · simp
  · simp only [rangeWalk_eq hord]
    exact sum_flatMap_filter (fun (r : Range κ) (n : TableNode κ γ) ↦ r.contains n.keyValue) g
      key.range nodes

end

def visits : (n : ℕ) → (Fin n → QKey κ ω) → KeyTuple κ n → ω → ℕ
  | 0, _, _, _ => 1
  | n + 1, keyField, keys, o =>
    (keyField 0).hits keys.head *
      ((if (keyField 0).holds o then 1 else 0) * visits n (Fin.tail keyField) keys.tail o)

lemma visits_pos {n : ℕ} (keyField : Fin n → QKey κ ω) (keys : KeyTuple κ n) (o : ω) :
    0 < visits n keyField keys o ↔ keysEval n keyField keys o := by
  induction n with
  | zero => simp [visits, keysEval]
  | succ _ ih =>
    have htail := ih (tail keyField) keys.tail
    have hhead := (keyField 0).hits_pos keys.head
    rw [Nat.pos_iff_ne_zero] at htail hhead ⊢
    rw [visits, keysEval, keyEval, mul_ne_zero_iff, mul_ne_zero_iff, hhead, htail]
    cases (keyField 0).holds o <;> simp

def readable : (n : ℕ) → (Fin n → QKey κ ω) → KeyTuple κ n → Bool
  | 0, _, _ => true
  | n + 1, keyField, keys =>
    !(keyField 0).inRange keys.head ||
      ((n == 0 || (keyField 0).expr.isNone) && readable n (Fin.tail keyField) keys.tail)

end QKey

/-! ### What a walk calls the action for -/

section Gather

variable {α β : Type} {f : α → Option (List β)} {l : List α}

lemma gather_eq_some {g : α → List β} (h : ∀ a ∈ l, f a = some (g a)) :
    gather f l = some (l.flatMap g) := by
  induction l with
  | nil => rfl
  | cons a _ ih =>
    rw [gather, h a mem_cons_self, ih fun b hb ↦ h b (mem_cons_of_mem a hb)]
    rfl

lemma gather_eq_none {a : α} (ha : a ∈ l) (h : f a = none) : gather f l = none := by
  induction l with
  | nil => exact absurd ha not_mem_nil
  | cons b _ ih =>
    rw [gather]
    rcases mem_cons.mp ha with rfl | ha
    · rw [h]
      rfl
    · rw [ih ha]
      cases f b <;> rfl

end Gather

omit [LinearOrder κ] in
lemma Contents.sum_entries {M : Type*} [AddCommMonoid M] (f : KeyTuple κ (n + 1) × ω → M)
    (tree : Contents κ ω (n + 1)) :
    ((entries (n + 1) tree).map f).sum = (tree.nodes.map fun node ↦
        ((entries n node.contents).map fun e ↦
          f (KeyTuple.cons node.keyValue e.1, e.2)).sum).sum := by
  refine (sum_map_flatMap _ f tree.nodes).trans ?_
  refine congrArg sum (map_congr_left fun node _ ↦ ?_)
  exact congrArg sum map_map

section Calls

variable {n : ℕ} {key : QKey κ ω} {read : Contents κ ω n → Option (List ω)}
  {node : TableNode κ (Contents κ ω n)}

lemma nonMatchingKey_of_isNone (hexpr : key.expr.isNone) (c : Contents κ ω n) :
    nonMatchingKey key n c = some false := by
  cases n <;> simp [nonMatchingKey, hexpr]

lemma readNode_eq_some (hfull : node.contents.isEmpty n = false)
    (hexpr : n = 0 ∨ key.expr.isNone) {w : KeyTuple κ n × ω → ℕ} {calls : List ω}
    (hread : read node.contents = some calls)
    (hcalls : (calls : Multiset ω) =
      ((node.contents.entries n).map fun e ↦ w e • ({e.2} : Multiset ω)).sum) :
    ∃ calls', readNode key read node = some calls' ∧ (calls' : Multiset ω) =
      ((node.contents.entries n).map fun e ↦
        ((if key.holds e.2 then 1 else 0) * w e) • ({e.2} : Multiset ω)).sum := by
  by_cases hnone : key.expr.isNone
  · refine ⟨calls, by simp [readNode, nonMatchingKey_of_isNone hnone, hread], hcalls.trans ?_⟩
    have hholds : ∀ o, key.holds o := by
      intro o
      rw [QKey.holds, Option.isNone_iff_eq_none.mp hnone]
      rfl
    simp [hholds]
  · obtain rfl := hexpr.resolve_right hnone
    obtain ⟨o, hobject⟩ : ∃ o, node.contents = (some o : Option ω) :=
      Option.isSome_iff_exists.mp (Option.isNone_eq_false_iff.mp hfull)
    have hskip : nonMatchingKey key 0 node.contents = some (!key.holds o) := by
      rw [nonMatchingKey, if_neg hnone, hobject]
      rfl
    have hentries : node.contents.entries 0 = [(KeyTuple.nil, o)] := by
      rw [hobject]
      rfl
    rw [hentries] at hcalls ⊢
    cases hholds : key.holds o with
    | false => exact ⟨[], by simp [readNode, hskip, hholds], by simp [hholds]⟩
    | true =>
      exact ⟨calls, by simp [readNode, hskip, hholds, hread], by simpa [hholds] using hcalls⟩

lemma readNode_eq_none (hnot : ¬ (n = 0 ∨ key.expr.isNone)) : readNode key read node = none := by
  obtain ⟨hn, hnone⟩ := not_or.mp hnot
  obtain ⟨m, rfl⟩ := Nat.exists_eq_succ_of_ne_zero hn
  rw [readNode, nonMatchingKey, if_neg hnone]
  rfl

end Calls

variable {keyField : Fin n → QKey κ ω} (leaf : ω → Bool) {o : ω}

/-- The calls of a walk, if it comes to no tree with a key expression: each object as often as the
walk comes to it. -/
lemma readAction_eq_some (h : c.Valid n)
    (hreadable : ∀ e ∈ c.entries n, QKey.readable n keyField e.1) :
    ∃ calls, readAction leaf n keyField c = some calls ∧ (calls : Multiset ω) =
      ((c.entries n).map fun e ↦ (QKey.visits n keyField e.1 e.2 * if leaf e.2 then 1 else 0) •
        ({e.2} : Multiset ω)).sum := by
  induction n with
  | zero =>
    refine ⟨_, rfl, ?_⟩
    cases c with
    | none => rfl
    | some =>
      rw [coe_filter_eq_sum]
      simp [Contents.entries, QKey.visits]
  | succ n ih =>
    -- what is called for a node that is visited
    have hnode : ∀ node ∈ (keyField 0).walk c.nodes, ∃ calls,
        readNode (keyField 0) (readAction leaf n (tail keyField)) node = some calls ∧
        (calls : Multiset ω) = ((node.contents.entries n).map fun e ↦
          ((if (keyField 0).holds e.2 then 1 else 0) *
            (QKey.visits n (tail keyField) e.1 e.2 * if leaf e.2 then 1 else 0)) •
              ({e.2} : Multiset ω)).sum := by
      intro node hwalk
      obtain ⟨hmem, hrange⟩ := ((keyField 0).mem_walk h.1).mp hwalk
      obtain ⟨hvalid, hfull⟩ := h.2 node hmem
      have hbelow : ∀ e ∈ node.contents.entries n, (n = 0 ∨ (keyField 0).expr.isNone) ∧
          QKey.readable n (tail keyField) e.1 := by
        intro e he
        have hentry := hreadable (KeyTuple.cons node.keyValue e.1, e.2)
          (NestedList.mem_flatten.mpr ⟨node, hmem, rfl, he⟩)
        simpa [QKey.readable, hrange] using hentry
      obtain ⟨e, he⟩ := exists_mem_of_ne_nil _ (entries_ne_nil hvalid hfull)
      obtain ⟨calls, hread, hcalls⟩ := ih hvalid fun e he ↦ (hbelow e he).2
      exact readNode_eq_some hfull (hbelow e he).1 hread hcalls
    choose! g hg using hnode
    refine ⟨_, gather_eq_some fun node hwalk ↦ (hg node hwalk).1, ?_⟩
    rw [coe_flatMap, map_congr_left fun node hwalk ↦ (hg node hwalk).2,
      QKey.sum_walk h.1, sum_entries]
    refine congrArg sum (map_congr_left fun node _ ↦ ?_)
    rw [smul_sum, map_map]
    refine congrArg sum (map_congr_left fun e _ ↦ ?_)
    simp only [comp_apply, smul_smul, QKey.visits, KeyTuple.head_cons,
      KeyTuple.tail_cons, mul_assoc]

/-- A walk that comes to a tree with a key expression is undefined. -/
lemma readAction_eq_none (h : c.Valid n) (he : (keys, o) ∈ c.entries n)
    (hnot : QKey.readable n keyField keys = false) : readAction leaf n keyField c = none := by
  induction n with
  | zero => exact absurd hnot Bool.noConfusion
  | succ n ih =>
    obtain ⟨node, hmem, hkey, hbelow⟩ := NestedList.mem_flatten.mp he
    simp only [QKey.readable, or_eq_false_iff, not_eq_false', and_eq_false_iff] at hnot
    obtain ⟨hrange, hnot⟩ := hnot
    have hwalk : node ∈ (keyField 0).walk c.nodes :=
      ((keyField 0).mem_walk h.1).mpr ⟨hmem, hkey ▸ hrange⟩
    refine gather_eq_none hwalk ?_
    by_cases hexpr : n = 0 ∨ (keyField 0).expr.isNone
    · have htail : QKey.readable n (tail keyField) keys.tail = false := by
        rcases hnot with ⟨hn, hsome⟩ | hnot
        · rcases hexpr with rfl | hnone
          · exact absurd hn Bool.noConfusion
          · rw [hsome] at hnone
            exact absurd hnone Bool.noConfusion
        · exact hnot
      have hread := ih (h.2 node hmem).1 hbelow htail
      rcases hexpr with rfl | hnone
      · exact absurd htail Bool.noConfusion
      · simp [readNode, nonMatchingKey_of_isNone hnone, hread]
    · exact readNode_eq_none hexpr

/-! ### What a disjunction calls the action for -/

section Disjuncts

variable {keyValues} {q : List (QPred κ ω k)}

lemma matches_of_qPredEval {o : ω} (h : qPredEval keyValues o q) :
    (q.any fun p ↦ p.accepts keyValues o && p.holds o) := by
  induction q with
  | nil => exact absurd h Bool.noConfusion
  | cons _ _ ih =>
    rw [qPredEval] at h
    rw [any_cons]
    split_ifs at h with haccepts
    · rw [haccepts, h]
      rfl
    · rw [ih h, Bool.or_true]

lemma someMatches_eq (o : ω) (q : List (QPred κ ω k)) :
    someMatches keyValues o q = q.any fun p ↦ p.accepts keyValues o && p.holds o := by
  induction q with
  | nil => rfl
  | cons _ _ ih =>
    rw [someMatches, ih, any_cons, qPredEval]
    split_ifs with haccepts
    · rw [haccepts, Bool.true_and]
    · rw [not_eq_true] at haccepts
      rw [haccepts, Bool.false_and, Bool.false_or, or_eq_right_iff_imp]
      exact matches_of_qPredEval

variable (keyValues)

def callsFor (o : ω) : List (QPred κ ω k) → ℕ
  | [] => 0
  | p :: rest =>
    (QKey.visits k p.keyField (keyValues o) o *
      if predMatches keyValues (p :: rest) o then 1 else 0) + callsFor o rest

variable {keyValues} {c : Contents κ ω k}

lemma readDisjuncts_eq_some (h : c.Valid k) (hkeys : ∀ e ∈ c.entries k, keyValues e.2 = e.1)
    (hreadable : ∀ p ∈ q, ∀ e ∈ c.entries k, QKey.readable k p.keyField e.1) :
    ∃ calls, readDisjuncts keyValues c q = some calls ∧ (calls : Multiset ω) =
      (((c.entries k).map Prod.snd).map fun o ↦
        callsFor keyValues o q • ({o} : Multiset ω)).sum := by
  induction q with
  | nil => exact ⟨[], rfl, by simp [callsFor, comp_def]⟩
  | cons p rest ih =>
    obtain ⟨hp, hrest⟩ := forall_mem_cons.mp hreadable
    obtain ⟨calls, hread, hcalls⟩ := readAction_eq_some (predMatches keyValues (p :: rest)) h hp
    obtain ⟨others, hothers, hsum⟩ := ih hrest
    refine ⟨calls ++ others, by simp [readDisjuncts, hread, hothers], ?_⟩
    rw [← Multiset.coe_add, hcalls, hsum, map_map, map_map, ← sum_map_add]
    refine congrArg sum (map_congr_left fun e he ↦ ?_)
    simp only [comp_apply, callsFor, hkeys e he, add_nsmul]

lemma readDisjuncts_eq_none (h : c.Valid k) {p : QPred κ ω k} (hp : p ∈ q) {e : KeyTuple κ k × ω}
    (he : e ∈ c.entries k) (hnot : QKey.readable k p.keyField e.1 = false) :
    readDisjuncts keyValues c q = none := by
  induction q with
  | nil => exact absurd hp not_mem_nil
  | cons r rest ih =>
    rw [readDisjuncts]
    rcases mem_cons.mp hp with rfl | hp
    · rw [readAction_eq_none _ h he hnot]
      rfl
    · rw [ih hp]
      cases readAction (predMatches keyValues (r :: rest)) k r.keyField c <;> rfl

end Disjuncts

/-! ### When a read hands over each matching object once -/

def QKey.singleRanges : (n : ℕ) → (Fin n → QKey κ ω) → KeyTuple κ n → Bool
  | 0, _, _ => true
  | n + 1, keyField, keys =>
    (keyField 0).hits keys.head == 1 && singleRanges n (Fin.tail keyField) keys.tail

/-- Of the disjuncts whose keys accept the object, none but the first holds for it, and if the first
holds, then each key value of the object is in exactly one of the ranges of its key. -/
def readOnce (q : List (QPred κ ω k)) (o : ω) : Bool :=
  match q.filter fun p ↦ p.accepts keyValues o with
  | [] => true
  | p :: rest =>
    (rest.all fun r ↦ !r.holds o) &&
      (!p.holds o || QKey.singleRanges k p.keyField (keyValues o))

lemma QKey.visits_eq_one (h : keysEval n keyField keys o) :
    visits n keyField keys o = 1 ↔ singleRanges n keyField keys := by
  induction n with
  | zero => simp [visits, singleRanges]
  | succ _ ih =>
    simp only [keysEval, keyEval, and_eq_true] at h
    obtain ⟨⟨hholds, -⟩, htail⟩ := h
    rw [visits, singleRanges, if_pos hholds, one_mul, mul_eq_one, ih htail, and_eq_true, beq_iff_eq]

section Once

variable {keyValues} {o : ω} {q : List (QPred κ ω k)}

lemma callsFor_eq_zero (h : someMatches keyValues o q = false) : callsFor keyValues o q = 0 := by
  induction q with
  | nil => rfl
  | cons _ rest ih =>
    have hrest : someMatches keyValues o rest = false := by
      rw [someMatches, or_eq_false_iff] at h
      exact h.2
    rw [callsFor, ih hrest, predMatches, h]
    rfl

lemma callsFor_pos (h : someMatches keyValues o q) : 0 < callsFor keyValues o q := by
  induction q with
  | nil => exact absurd h Bool.noConfusion
  | cons p rest ih =>
    by_cases hrest : someMatches keyValues o rest
    · exact Nat.add_pos_right _ (ih hrest)
    · refine Nat.add_pos_left ?_ _
      have haccepts : p.accepts keyValues o := by
        rw [someMatches_eq, any_cons, ← someMatches_eq, eq_false_of_not_eq_true hrest,
          Bool.or_false, and_eq_true] at h
        exact h.1
      rw [predMatches, h, Bool.or_true, if_pos rfl, mul_one]
      exact (QKey.visits_pos _ _ _).mpr haccepts

variable {p : QPred κ ω k}

lemma readOnce_cons_of_neg (h : ¬ p.accepts keyValues o) :
    readOnce keyValues (p :: q) o = readOnce keyValues q o := by
  have hfilter : (p :: q).filter (fun p ↦ p.accepts keyValues o) =
      q.filter fun p ↦ p.accepts keyValues o := filter_cons_of_neg h
  rw [readOnce, hfilter, readOnce]

lemma readOnce_cons_of_pos (h : p.accepts keyValues o) : readOnce keyValues (p :: q) o =
      (!someMatches keyValues o q &&
        (!p.holds o || QKey.singleRanges k p.keyField (keyValues o))) := by
  have hfilter : (p :: q).filter (fun p ↦ p.accepts keyValues o) =
      p :: q.filter fun p ↦ p.accepts keyValues o := filter_cons_of_pos h
  rw [readOnce, hfilter, someMatches_eq, not_any_eq_all_not]
  simp [all_filter]

/-- The action is called once for a matching object, and not for another, under this condition. -/
lemma callsFor_eq_iff (q : List (QPred κ ω k)) :
    (callsFor keyValues o q = if someMatches keyValues o q then 1 else 0) ↔
      readOnce keyValues q o := by
  induction q with
  | nil => simp [callsFor, someMatches, readOnce]
  | cons p rest ih =>
    have hmatches : someMatches keyValues o (p :: rest) =
        (p.accepts keyValues o && p.holds o || someMatches keyValues o rest) := by
      rw [someMatches_eq, any_cons, ← someMatches_eq]
    rw [callsFor, predMatches, isEmpty_cons, Bool.false_or, hmatches]
    by_cases haccepts : p.accepts keyValues o
    · have hvisits : 0 < QKey.visits k p.keyField (keyValues o) o :=
        (QKey.visits_pos _ _ _).mpr haccepts
      rw [readOnce_cons_of_pos haccepts, haccepts, Bool.true_and]
      by_cases hrest : someMatches keyValues o rest
      · -- another disjunct matches, and hands the object over as well
        have hpos := callsFor_pos hrest
        rw [hrest, Bool.or_true, if_pos rfl, Bool.not_true, Bool.false_and]
        simp
        omega
      · have hnone := eq_false_of_not_eq_true hrest
        rw [hnone, Bool.not_false, Bool.true_and, callsFor_eq_zero hnone, Bool.or_false, add_zero]
        cases p.holds o with
        | true => simpa using QKey.visits_eq_one haccepts
        | false => simp
    · have hvisits : QKey.visits k p.keyField (keyValues o) o = 0 :=
        Nat.eq_zero_of_not_pos fun hpos ↦ haccepts ((QKey.visits_pos _ _ _).mp hpos)
      rw [readOnce_cons_of_neg haccepts, hvisits, zero_mul, zero_add,
        eq_false_of_not_eq_true haccepts, Bool.false_and, Bool.false_or]
      exact ih

end Once

/-! ### The objects of a table are stored under their own key values -/

lemma Op.keyValues_of_onMap (h : ∀ keys o, m keys = some o → keyValues o = keys) (op : Op κ ω k) :
    ∀ keys o, (op.onMap keyValues m).2 keys = some o → keyValues o = keys := by
  have hupdate : ∀ o keys o', update m (keyValues o) (some o) keys = some o' →
      keyValues o' = keys := by
    intro o keys o' hfound
    rw [update_apply] at hfound
    split_ifs at hfound with heq
    · rw [← Option.some.inj hfound, heq]
    · exact h keys o' hfound
  have hremove : ∀ keys0 keys o, update m keys0 none keys = some o → keyValues o = keys := by
    intro keys0 keys o hfound
    rw [update_apply] at hfound
    split_ifs at hfound
    exact h keys o hfound
  cases op with
  | insert o =>
    rw [onMap]
    split
    · exact hupdate o
    · exact h
  | replace o =>
    rw [onMap]
    split
    · exact hupdate o
    · split_ifs
      · exact hupdate o
      · exact h
  | remove o =>
    rw [onMap]
    split
    · exact h
    · split_ifs
      · exact hremove (keyValues o)
      · exact h
  | find => exact h

variable (ops : List (Op κ ω k))

lemma keyValues_of_runOnMap (h : ∀ keys o, m keys = some o → keyValues o = keys) :
    ∀ keys o, (runOnMap keyValues m ops).2 keys = some o → keyValues o = keys := by
  induction ops generalizing m with
  | nil => exact h
  | cons op _ ih => exact ih (op.keyValues_of_onMap keyValues h)

/-- In a table that operations have filled, every object is stored under its key values. -/
lemma keyValues_of_mem_entries {e : KeyTuple κ k × ω}
    (he : e ∈ (runOnTable keyValues Table.new ops).2.entries) : keyValues e.2 = e.1 := by
  have hrun := (represents_new.run keyValues ops).2
  have hmap := keyValues_of_runOnMap keyValues ops (m := fun _ ↦ none) fun _ _ hnone ↦ nomatch hnone
  refine hmap e.1 e.2 ?_
  rw [← hrun.find]
  exact (mem_entries hrun.valid).mp he

lemma nodup_objects : ((runOnTable keyValues Table.new ops).2.entries.map Prod.snd).Nodup := by
  have hrun := (represents_new.run keyValues ops).2
  have hkeys : ((runOnTable keyValues new ops).2.entries.map Prod.snd).map keyValues =
      (runOnTable keyValues new ops).2.entries.map Prod.fst := by
    rw [map_map]
    exact map_congr_left fun e he ↦ keyValues_of_mem_entries keyValues ops he
  have hnodup := nodup_keys hrun.valid
  rw [← Table.entries, ← hkeys] at hnodup
  exact hnodup.of_map

/-! ### A read and a filter -/

section Filter

variable {keyValues} {c : Contents κ ω k}

/-- The reads for the disjuncts of a predicate, for contents with every object under its own key
values. -/
lemma readDisjuncts_iff (h : c.Valid k) (hkeys : ∀ e ∈ c.entries k, keyValues e.2 = e.1)
    (hnodup : ((c.entries k).map Prod.snd).Nodup) (q : List (QPred κ ω k)) :
    (∃ calls, readDisjuncts keyValues c q = some calls ∧
      calls.Perm (((c.entries k).map Prod.snd).filter fun o ↦ someMatches keyValues o q)) ↔
    ∀ e ∈ c.entries k, (∀ p ∈ q, QKey.readable k p.keyField e.1) ∧ readOnce keyValues q e.2 := by
  have hsum := fun hreadable ↦ readDisjuncts_eq_some h hkeys (q := q) hreadable
  constructor
  · rintro ⟨calls, hread, hperm⟩
    have hreadable : ∀ p ∈ q, ∀ e ∈ c.entries k, QKey.readable k p.keyField e.1 := by
      intro p hp e he
      by_contra hnot
      rw [readDisjuncts_eq_none h hp he (eq_false_of_not_eq_true hnot)] at hread
      exact nomatch hread
    obtain ⟨calls', hread', hcalls⟩ := hsum hreadable
    obtain rfl := Option.some.inj (hread.symm.trans hread')
    rw [← Multiset.coe_eq_coe, hcalls, coe_filter_eq_sum] at hperm
    have honce := (sum_nsmul_inj hnodup).mp hperm
    intro e he
    exact ⟨fun p hp ↦ hreadable p hp e he, (callsFor_eq_iff q).mp (honce e.2 (mem_map_of_mem he))⟩
  · intro hall
    obtain ⟨calls, hread, hcalls⟩ := hsum fun p hp e he ↦ (hall e he).1 p hp
    refine ⟨calls, hread, ?_⟩
    rw [← Multiset.coe_eq_coe, hcalls, coe_filter_eq_sum]
    refine (sum_nsmul_inj hnodup).mpr fun o ho ↦ ?_
    obtain ⟨e, he, rfl⟩ := mem_map.mp ho
    exact (callsFor_eq_iff q).mpr (hall e he).2

lemma QKey.open_eq (n : ℕ) (keys : KeyTuple κ n) (o : ω) :
    readable n (fun _ ↦ (⟨[], none⟩ : QKey κ ω)) keys ∧
      visits n (fun _ ↦ (⟨[], none⟩ : QKey κ ω)) keys o = 1 := by
  induction n with
  | zero => exact ⟨rfl, rfl⟩
  | succ n ih =>
    obtain ⟨hreadable, hvisits⟩ := ih keys.tail
    refine ⟨?_, ?_⟩
    · rw [readable]
      exact (or_eq_true _ _).mpr (.inr ((and_eq_true _ _).mpr ⟨or_true _, hreadable⟩))
    · change 1 * (1 * visits n (fun _ ↦ ⟨[], none⟩) keys.tail o) = 1
      rw [hvisits]

lemma readAction_open (h : c.Valid k) :
    ∃ calls, readAction (fun _ ↦ true) k (fun _ ↦ ⟨[], none⟩) c = some calls ∧
      calls.Perm ((c.entries k).map Prod.snd) := by
  obtain ⟨calls, hread, hcalls⟩ := readAction_eq_some (fun _ ↦ true) h
    fun e _ ↦ (QKey.open_eq k e.1 e.2).1
  refine ⟨calls, hread, ?_⟩
  rw [← Multiset.coe_eq_coe, hcalls]
  have hself := coe_filter_eq_sum (fun _ ↦ true) ((c.entries k).map Prod.snd)
  rw [filter_true] at hself
  rw [hself, map_map]
  refine congrArg sum (map_congr_left fun e _ ↦ ?_)
  simp [(QKey.open_eq k e.1 e.2).2]

end Filter

/-- The read of a table, filled by any operations, calls the action exactly once for every object in
it that matches, and for no other, if and only if for every object in it no key expression is
evaluated for a tree on the way to it, and the disjuncts hand it over once. -/
theorem tableRead_filters {k : ℕ} (keyValues : ω → KeyTuple κ (k + 1)) (ops : List (Op κ ω (k + 1)))
    (q : List (QPred κ ω (k + 1))) :
    (∃ calls, (runOnTable keyValues Table.new ops).2.tableRead keyValues q = some calls ∧
      calls.Perm (((runOnTable keyValues Table.new ops).2.entries.map Prod.snd).filter
        (predMatches keyValues q))) ↔
    ∀ e ∈ (runOnTable keyValues Table.new ops).2.entries,
      (∀ p ∈ q, QKey.readable (k + 1) p.keyField e.1 = true) ∧
        readOnce keyValues q e.2 = true := by
  have hvalid := (represents_new.run keyValues ops).2.valid
  cases q with
  | nil =>
    obtain ⟨calls, hread, hperm⟩ := readAction_open hvalid
    refine iff_of_true ⟨calls, hread, ?_⟩ fun e _ ↦ ⟨fun p hp ↦ absurd hp not_mem_nil, rfl⟩
    have hall : ∀ o, predMatches keyValues [] o := fun _ ↦ rfl
    exact (filter_eq_self.mpr fun o _ ↦ hall o) ▸ hperm
  | cons p rest =>
    exact readDisjuncts_iff hvalid (fun e he ↦ keyValues_of_mem_entries keyValues ops he)
      (nodup_objects keyValues ops) (p :: rest)

def openPred (expr : ℕ → Bool) : QPred ℕ ℕ 1 := ⟨fun _ ↦ ⟨[], none⟩, some expr⟩

/-- A predicate with a range of the key: above three, or up to three and with an expression. -/
def byRange : List (QPred ℕ ℕ 1) :=
  [⟨fun _ ↦ ⟨[⟨3, .exclude, 0, .undefined, by simp⟩], none⟩, none⟩,
    ⟨fun _ ↦ ⟨[⟨0, .undefined, 3, .include, by simp⟩], none⟩, some fun o ↦ o != 1⟩]

/-- The disjuncts are for different objects, and the expression of the second one does not hold for
the object 1. -/
theorem tableRead_filters_of_ranges :
    ∃ calls, (runOnTable natKey Table.new [.insert 5, .insert 2, .insert 1]).2.tableRead natKey
        byRange = some calls ∧
      calls.Perm (((runOnTable natKey Table.new [.insert 5, .insert 2, .insert 1]).2.entries.map
        Prod.snd).filter (predMatches natKey byRange)) := by
  refine (tableRead_filters natKey _ _).mpr fun e he ↦ ?_
  have hentries : e ∈ [(natKey 1, 1), (natKey 2, 2), (natKey 5, 5)] := he
  fin_cases hentries <;>
    exact ⟨fun p hp ↦ by rcases mem_pair.mp hp with rfl | rfl <;> rfl, rfl⟩

/-- An object for which both disjuncts hold is handed over twice. -/
theorem tableRead_calls_twice :
    ((runOnTable natKey Table.new [.insert 5]).2.entries.map Prod.snd).filter
        (predMatches natKey [openPred fun o ↦ 3 < o, openPred fun o ↦ o < 9]) = [5] ∧
      (runOnTable natKey Table.new [.insert 5]).2.tableRead natKey
        [openPred fun o ↦ 3 < o, openPred fun o ↦ o < 9] = some [5, 5] :=
  ⟨rfl, rfl⟩

/-- A key expression for the first of two keys is evaluated for a tree. -/
example : (runOnTable digits Table.new [.insert 12]).2.tableRead digits
    [⟨fun _ ↦ ⟨[], some fun o ↦ o / 10 != 2⟩, none⟩] = none := rfl

end OpenSplice.Database
