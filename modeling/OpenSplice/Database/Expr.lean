import Mathlib

/-!
# Query expressions

The conditions of a query (`q_expr`) and the rewriting of `q_expr.c`: `disjunctify` moves the
disjunctions of an expression outwards and its negations inwards, `removeNots` removes the negations
that are left, `deOr` splits an expression at its disjunctions, and `takeKey` splits a conjunction
into the comparisons of key fields and the others.

`disjunctify` keeps the value that an expression has with its negations moved to the atoms
(`signed`) by construction: its result is a `Normalised` expression. That need not be its Boolean
value (`value`), since some atoms lose their negation (`losesNot`). It is not complete either: `a
AND ((b OR c) OR d)` becomes `(a AND (b OR c)) OR (a AND d)`.
-/

set_option autoImplicit false

namespace OpenSplice.Database

open Bool

inductive Tag
  | eq | ne | lt | le | gt | ge
deriving DecidableEq

def Tag.negate : Tag → Tag
  | eq => ne
  | ne => eq
  | lt => ge
  | le => gt
  | gt => le
  | ge => lt

/-- The value of a comparison, as `c_valueCalculate` computes it from `c_valueCompare`. -/
def Tag.holds : Tag → Ordering → Bool
  | eq, o => o = .eq
  | ne, o => !decide (o = .eq)
  | lt, o => o = .lt
  | le, o => decide (o = .lt) || decide (o = .eq)
  | gt, o => o = .gt
  | ge, o => decide (o = .gt) || decide (o = .eq)

/-- The value of a comparison; there may be no order, and `c_valueCompare` is `C_NE` then. -/
def Tag.value (t : Tag) : Option Ordering → Bool
  | some o => t.holds o
  | none => t = .ne

inductive Term (α : Type)
  | field (path : List String)
  | const (value : α)
  | param (id : ℕ)
deriving DecidableEq

inductive Expr (α : Type)
  | cmp (tag : Tag) (l r : Term α)
  | like (l r : Term α)
  | and (l r : Expr α)
  | or (l r : Expr α)
  | not (e : Expr α)
deriving DecidableEq

/-- What an object makes of the terms: the result of `c_valueCompare` for the values of two terms,
with `none` for `C_NE`, and that of `c_valueStringMatch`. -/
structure Valuation (α : Type) where
  compare : Term α → Term α → Option Ordering
  like : Term α → Term α → Bool

variable {α : Type}

/-- `q_prefixFieldNames`, for a term. -/
def Term.prefixed (scope : String) : Term α → Term α
  | field path => field (scope :: path)
  | const c => const c
  | param i => param i

def Term.lastVar : Term α → ℕ
  | param i => i
  | _ => 0

namespace Expr

def value (v : Valuation α) : Expr α → Bool
  | cmp t l r => t.value (v.compare l r)
  | like l r => v.like l r
  | and l r => l.value v && r.value v
  | or l r => l.value v || r.value v
  | not e => !e.value v

/-- The value of an expression, or of its negation, with the negations moved to the comparisons, and
those in front of `LIKE` left out. -/
def signed (v : Valuation α) : Bool → Expr α → Bool
  | neg, cmp t l r => (if neg then t.negate else t).value (v.compare l r)
  | _, like l r => v.like l r
  | false, and l r => l.signed v false && r.signed v false
  | true, and l r => l.signed v true || r.signed v true
  | false, or l r => l.signed v false || r.signed v false
  | true, or l r => l.signed v true && r.signed v true
  | neg, not e => e.signed v !neg

variable (v : Valuation α) (neg neg' : Bool) (e : Expr α) (t : Tag)

def size : Expr α → ℕ
  | cmp _ _ _ => 1
  | like _ _ => 1
  | and l r => l.size + r.size + 1
  | or l r => l.size + r.size + 1
  | not e => e.size + 1

def width : Bool → Expr α → ℕ
  | _, cmp _ _ _ => 1
  | _, like _ _ => 1
  | false, and l r => l.width false * r.width false
  | true, and l r => l.width true + r.width true
  | false, or l r => l.width false + r.width false
  | true, or l r => l.width true * r.width true
  | neg, not e => e.width !neg

lemma width_pos : 0 < e.width neg := by
  induction e generalizing neg with
  | cmp => simp [width]
  | like => simp [width]
  | and _ _ hl hr =>
    cases neg
    · exact Nat.mul_pos (hl false) (hr false)
    · exact Nat.add_pos_left (hl true) _
  | or _ _ hl hr =>
    cases neg
    · exact Nat.add_pos_left (hl false) _
    · exact Nat.mul_pos (hl true) (hr true)
  | not _ ih => exact ih !neg

lemma width_le_mul_left (l r : Expr α) : l.width neg ≤ l.width neg * r.width neg' :=
  Nat.le_mul_of_pos_right _ (width_pos neg' r)

lemma width_le_mul_right (l r : Expr α) : r.width neg ≤ l.width neg' * r.width neg :=
  Nat.le_mul_of_pos_left _ (width_pos neg' l)

/-- Only terms with `LIKE` are negated. -/
def pushed : Expr α → Bool
  | cmp _ _ _ => true
  | like _ _ => true
  | and l r => l.pushed && r.pushed
  | or l r => l.pushed && r.pushed
  | not (like _ _) => true
  | not _ => false

/-- `q_prefixFieldNames`. -/
def prefixFieldNames (scope : String) : Expr α → Expr α
  | cmp t l r => cmp t (l.prefixed scope) (r.prefixed scope)
  | like l r => like (l.prefixed scope) (r.prefixed scope)
  | and l r => and (l.prefixFieldNames scope) (r.prefixFieldNames scope)
  | or l r => or (l.prefixFieldNames scope) (r.prefixFieldNames scope)
  | not e => not (e.prefixFieldNames scope)

/-- `q_getLastVar`. -/
def lastVar : Expr α → ℕ
  | cmp _ l r => max l.lastVar r.lastVar
  | like l r => max l.lastVar r.lastVar
  | and l r => max l.lastVar r.lastVar
  | or l r => max l.lastVar r.lastVar
  | not e => e.lastVar

def allAtoms (p : Term α → Term α → Bool) : Expr α → Bool
  | cmp _ l r => p l r
  | like l r => p l r
  | and l r => l.allAtoms p && r.allAtoms p
  | or l r => l.allAtoms p && r.allAtoms p
  | not e => e.allAtoms p

/-- The atoms with the same value with and without their negation: a term with `LIKE`, and `<`,
`<=`, `>` or `>=` between values that have no order, since the negated tag is another of these. -/
def losesNot (v : Valuation α) : Expr α → Bool
  | cmp t l r => v.compare l r = none && t ≠ .eq && t ≠ .ne
  | like _ _ => true
  | _ => false

/-- The expression, with the negations taken away from the atoms that lose them: there is a `NOT`
more in front of those that stand under an odd number of them. -/
def unnegate (v : Valuation α) : Bool → Expr α → Expr α
  | neg, and l r => and (l.unnegate v neg) (r.unnegate v neg)
  | neg, or l r => or (l.unnegate v neg) (r.unnegate v neg)
  | neg, not e => not (e.unnegate v !neg)
  | neg, e => if neg && e.losesNot v then not e else e

lemma value_unnegate : (e.unnegate v neg).value v = (e.signed v neg ^^ neg) := by
  induction e generalizing neg with
  | cmp t l r =>
    cases neg with
    | false => simp [unnegate, value, signed]
    | true =>
      -- negating a tag negates the comparison, unless there is no order
      cases h : v.compare l r with
      | none => cases t <;> simp [unnegate, losesNot, value, signed, h, Tag.value, Tag.negate]
      | some o =>
        cases t <;> cases o <;>
          simp [unnegate, losesNot, value, signed, h, Tag.value, Tag.negate, Tag.holds]
  | like => cases neg <;> simp [unnegate, losesNot, value, signed]
  | and _ _ hl hr | or _ _ hl hr => cases neg <;> simp [unnegate, value, signed, hl, hr]
  | not _ ih => cases neg <;> simp [unnegate, value, signed, ih]

/-! ### Disjunctive form -/

/-- An expression with its negations moved inwards, and with the same value and width. -/
structure Normalised (e e' : Expr α) : Prop where
  width : e'.width false = e.width false
  signed : ∀ v, e'.signed v false = e.signed v false
  pushed : e'.pushed = true

namespace Normalised

variable {a b a' b' e : Expr α}

lemma or (ha : Normalised a a') (hb : Normalised b b') : Normalised (a.or b) (a'.or b') where
  width := by simp only [Expr.width, ha.width, hb.width]
  signed v := by simp only [Expr.signed, ha.signed, hb.signed]
  pushed := by simp [Expr.pushed, ha.pushed, hb.pushed]

lemma and (ha : Normalised a a') (hb : Normalised b b') : Normalised (a.and b) (a'.and b') where
  width := by simp only [Expr.width, ha.width, hb.width]
  signed v := by simp only [Expr.signed, ha.signed, hb.signed]
  pushed := by simp [Expr.pushed, ha.pushed, hb.pushed]

lemma trans {e' e'' : Expr α} (h : Normalised e e') (h' : Normalised e' e'') :
    Normalised e e'' where
  width := h'.width.trans h.width
  signed v := (h'.signed v).trans (h.signed v)
  pushed := h'.pushed

lemma of_eq {e0 e' : Expr α} (h : Normalised e e') (hwidth : e.width false = e0.width false)
    (hsigned : ∀ v, e.signed v false = e0.signed v false) :
    Normalised e0 e' where
  width := h.width.trans hwidth
  signed v := (h.signed v).trans (hsigned v)
  pushed := h.pushed

lemma and_congr (ha : Normalised a a') (hb : Normalised b b') (h : Normalised (a'.and b') e) :
    Normalised (a.and b) e :=
  (ha.and hb).trans h

lemma distribute_left {a1 a2 e1 e2 : Expr α} (h1 : Normalised (a1.and b) e1)
    (h2 : Normalised (a2.and b) e2) : Normalised ((a1.or a2).and b) (e1.or e2) := by
  refine (h1.or h2).of_eq ?_ fun v ↦ ?_
  · simp only [Expr.width, Nat.add_mul]
  · simp only [Expr.signed, and_or_distrib_right]

lemma distribute_right {b1 b2 : Expr α} (ha : a.pushed) (hb : (b1.or b2).pushed) :
    Normalised (a.and (b1.or b2)) ((a.and b1).or (a.and b2)) where
  width := by simp only [Expr.width, Nat.mul_add]
  signed v := by simp only [Expr.signed, and_or_distrib_left]
  pushed := by
    simp only [Expr.pushed, and_eq_true] at hb ⊢
    exact ⟨⟨ha, hb.1⟩, ha, hb.2⟩

lemma width_and_lt {l r l₁ l₂ r' : Expr α} (hl : Normalised l (l₁.or l₂))
    (hr : Normalised r r') : (l₁.and r').width false < (l.and r).width false ∧
      (l₂.and r').width false < (l.and r).width false := by
  have h1 := width_pos false l₁
  have h2 := width_pos false l₂
  have hpos := width_pos false r'
  simp only [Expr.width, ← hl.width, ← hr.width]
  exact ⟨Nat.mul_lt_mul_of_pos_right (by omega) hpos, Nat.mul_lt_mul_of_pos_right (by omega) hpos⟩

end Normalised

/-- `q_disjunctify`. Its part for `AND` is `q_promote`, whose last branch is never taken: the node
of the right term is not an `OR` any more once the left term has been promoted. -/
def disjunctified : (e : Expr α) → { e' : Expr α // Normalised e e' }
  | cmp t l r => ⟨cmp t l r, ⟨rfl, fun _ ↦ rfl, rfl⟩⟩
  | like l r => ⟨like l r, ⟨rfl, fun _ ↦ rfl, rfl⟩⟩
  | or l r =>
    let l' := disjunctified l
    let r' := disjunctified r
    ⟨l'.1.or r'.1, l'.2.or r'.2⟩
  | not (not e) =>
    let e' := disjunctified e
    ⟨e'.1, e'.2.of_eq rfl fun _ ↦ rfl⟩
  | not (cmp t l r) => ⟨cmp t.negate l r, ⟨rfl, fun _ ↦ rfl, rfl⟩⟩
  | not (like l r) => ⟨not (like l r), ⟨rfl, fun _ ↦ rfl, rfl⟩⟩
  | not (or l r) =>
    let l' := disjunctified l.not
    let r' := disjunctified r.not
    ⟨l'.1.and r'.1, (l'.2.and r'.2).of_eq rfl fun _ ↦ rfl⟩
  | not (and l r) =>
    let l' := disjunctified l.not
    let r' := disjunctified r.not
    ⟨l'.1.or r'.1, (l'.2.or r'.2).of_eq rfl fun _ ↦ rfl⟩
  | and l r =>
    let l' := disjunctified l
    let r' := disjunctified r
    match hl : l'.1 with
    | or l₁ l₂ =>
      let right := disjunctified (l₂.and r'.1)
      let left := disjunctified (l₁.and r'.1)
      ⟨left.1.or right.1, .and_congr (hl ▸ l'.2) r'.2 (.distribute_left left.2 right.2)⟩
    | _ =>
      match hr : r'.1 with
      | or r₁ r₂ =>
        ⟨(l'.1.and r₁).or (l'.1.and r₂),
          .and_congr l'.2 (hr ▸ r'.2) (.distribute_right l'.2.pushed (hr ▸ r'.2.pushed))⟩
      | _ => ⟨l'.1.and r'.1, l'.2.and r'.2⟩
termination_by e => (e.width false, e.size)
decreasing_by
  · exact .right' _ (Nat.le_add_right _ _) (by simp only [size]; omega)
  · exact .right' _ (Nat.le_add_left _ _) (by simp only [size]; omega)
  · exact .right' _ le_rfl (by simp only [size]; omega)
  · exact .right' _ (width_le_mul_left _ _ _ _) (by simp only [size]; omega)
  · exact .right' _ (width_le_mul_right _ _ _ _) (by simp only [size]; omega)
  · exact .right' _ (Nat.le_add_right _ _) (by simp only [size]; omega)
  · exact .right' _ (Nat.le_add_left _ _) (by simp only [size]; omega)
  · exact .right' _ (width_le_mul_left _ _ _ _) (by simp only [size]; omega)
  · exact .right' _ (width_le_mul_right _ _ _ _) (by simp only [size]; omega)
  -- the width of a part of the left term is smaller than that of the term
  · exact .left _ _ (Normalised.width_and_lt (hl ▸ l'.2) r'.2).2
  · exact .left _ _ (Normalised.width_and_lt (hl ▸ l'.2) r'.2).1

/-- `q_disjunctify`. -/
def disjunctify (e : Expr α) : Expr α := (disjunctified e).1

lemma normalised_disjunctify : Normalised e e.disjunctify := (disjunctified e).2

@[simp]
lemma disjunctify_cmp (l r : Term α) : (cmp t l r).disjunctify = cmp t l r := by
  rw [disjunctify, disjunctified]

@[simp]
lemma disjunctify_not_cmp (l r : Term α) :
    (not (cmp t l r)).disjunctify = cmp t.negate l r := by
  rw [disjunctify, disjunctified]

@[simp]
lemma disjunctify_not_like (l r : Term α) : (not (like l r)).disjunctify = not (like l r) := by
  rw [disjunctify, disjunctified]

@[simp]
lemma disjunctify_or (l r : Expr α) : (or l r).disjunctify = l.disjunctify.or r.disjunctify := by
  rw [disjunctify, disjunctified]
  rfl

lemma disjunctify_and_of_ne {l r : Expr α} (hl : ∀ l₁ l₂, l.disjunctify ≠ or l₁ l₂)
    (hr : ∀ r₁ r₂, r.disjunctify ≠ or r₁ r₂) :
    (and l r).disjunctify = l.disjunctify.and r.disjunctify := by
  rw [disjunctify, disjunctified]
  split
  · rename_i l₁ l₂ heq
    exact absurd heq (hl l₁ l₂)
  · split
    · rename_i r₁ r₂ heq
      exact absurd heq (hr r₁ r₂)
    · rfl

/-! ### Negations -/

/-- An expression without negations, with the value that is left of one with its negations moved
inwards: those in front of `LIKE` are lost. -/
structure Stripped (e e' : Expr α) : Prop where
  size : e'.size ≤ e.size
  value : e.pushed = true → ∀ v, e'.value v = e.signed v false

namespace Stripped

lemma and {a b a' b' : Expr α} (ha : Stripped a a') (hb : Stripped b b') :
    Stripped (a.and b) (a'.and b') where
  size := by simpa only [Expr.size, add_le_add_iff_right] using add_le_add ha.size hb.size
  value h v := by
    rw [pushed, and_eq_true] at h
    simp only [Expr.value, signed, ha.value h.1, hb.value h.2]

lemma or {a b a' b' : Expr α} (ha : Stripped a a') (hb : Stripped b b') :
    Stripped (a.or b) (a'.or b') where
  size := by simpa only [Expr.size, add_le_add_iff_right] using add_le_add ha.size hb.size
  value h v := by
    rw [pushed, and_eq_true] at h
    simp only [Expr.value, signed, ha.value h.1, hb.value h.2]

/-- Negations are only in front of `LIKE` once they have been moved inwards. -/
lemma of_not_pushed {e e' : Expr α} (hpushed : e.pushed = false) (hsize : e'.size ≤ e.size) :
    Stripped e e' :=
  ⟨hsize, fun h ↦ by simp [hpushed] at h⟩

end Stripped

/-- `q_removeNots`, with `q_deNot` in the cases of `NOT`. What `q_deNot` makes of `AND` and `OR` is
not their negation, but these have no `NOT` in front of them after `q_disjunctify`. -/
def stripped : (e : Expr α) → { e' : Expr α // Stripped e e' }
  | cmp t l r => ⟨cmp t l r, ⟨le_rfl, fun _ v ↦ by simp [value, signed]⟩⟩
  | like l r => ⟨like l r, ⟨le_rfl, fun _ v ↦ by simp [value, signed]⟩⟩
  | and l r =>
    let l' := stripped l
    let r' := stripped r
    ⟨l'.1.and r'.1, l'.2.and r'.2⟩
  | or l r =>
    let l' := stripped l
    let r' := stripped r
    ⟨l'.1.or r'.1, l'.2.or r'.2⟩
  | not (cmp t l r) => ⟨cmp t.negate l r, .of_not_pushed rfl (Nat.le_succ _)⟩
  | not (like l r) => ⟨like l r, ⟨Nat.le_succ _, fun _ v ↦ by simp [value, signed]⟩⟩
  | not (not e) =>
    let e' := stripped e
    ⟨e'.1, .of_not_pushed rfl (e'.2.size.trans (Nat.le_add_right _ 2))⟩
  | not (and l r) =>
    let l' := stripped l
    let r' := stripped r
    let e' := stripped (l'.1.or r'.1)
    ⟨e'.1, .of_not_pushed rfl (e'.2.size.trans ((l'.2.or r'.2).size.trans (Nat.le_succ _)))⟩
  | not (or l r) =>
    let l' := stripped l
    let r' := stripped r
    let e' := stripped (l'.1.and r'.1)
    ⟨e'.1, .of_not_pushed rfl (e'.2.size.trans ((l'.2.and r'.2).size.trans (Nat.le_succ _)))⟩
termination_by e => e.size
decreasing_by
  all_goals simp only [size]
  all_goals try omega
  · exact Nat.lt_succ_of_le (l'.2.or r'.2).size
  · exact Nat.lt_succ_of_le (l'.2.and r'.2).size

/-- `q_removeNots`. -/
def removeNots (e : Expr α) : Expr α := (stripped e).1

@[simp]
lemma removeNots_cmp (l r : Term α) : (cmp t l r).removeNots = cmp t l r := by
  rw [removeNots, stripped]

@[simp]
lemma removeNots_and (l r : Expr α) : (and l r).removeNots = l.removeNots.and r.removeNots := by
  rw [removeNots, stripped]
  rfl

@[simp]
lemma removeNots_not_like (l r : Term α) : (not (like l r)).removeNots = like l r := by
  rw [removeNots, stripped]

/-- What is left of the value of an expression when its negations have been removed. -/
lemma value_removeNots_disjunctify : e.disjunctify.removeNots.value v = e.signed v false :=
  ((stripped e.disjunctify).2.value (normalised_disjunctify e).pushed v).trans
    ((normalised_disjunctify e).signed v)

/-! ### Splitting an expression -/

/-- `q_exprDeOr`. The order in which C evaluates the two arguments of the outer call is not
specified; here the left operand goes first. -/
def deOr : Expr α → List (Expr α) → List (Expr α)
  | or l r, list => deOr r (deOr l list)
  | e, list => e :: list

lemma any_deOr (p : Expr α → Bool) (hp : ∀ l r, p (or l r) = (p l || p r)) (e : Expr α)
    (list : List (Expr α)) : (deOr e list).any p = (p e || list.any p) := by
  induction e generalizing list with
  | or _ r hl hr => rw [deOr, hr, hl, hp, ← Bool.or_assoc, or_comm (p r)]
  | cmp | like | and | not => rfl

def conj : Option (Expr α) → Option (Expr α) → Option (Expr α)
  | none, e => e
  | e, none => e
  | some l, some r => some (and l r)

lemma all_conj (l r : Option (Expr α)) :
    (conj l r).all (value v) = (l.all (value v) && r.all (value v)) := by
  cases l <;> cases r <;> simp [conj, value]

/-- The atoms of a conjunction that are to be taken, and what is left: the common part of
`q_takeKey` and `q_takeField`. -/
def takeAtoms (taken : Term α → Term α → Bool) : Expr α → Option (Expr α) × Option (Expr α)
  | and l r =>
    let p := takeAtoms taken l
    let q := takeAtoms taken r
    (conj q.1 p.1, conj p.2 q.2)
  | cmp t l r => if taken l r then (some (cmp t l r), none) else (none, some (cmp t l r))
  | like l r => if taken l r then (some (like l r), none) else (none, some (like l r))
  | or l r => (none, some (or l r))
  | not e => (none, some (not e))

lemma value_takeAtoms (taken : Term α → Term α → Bool) (e : Expr α) :
    ((takeAtoms taken e).1.all (value v) && (takeAtoms taken e).2.all (value v)) = e.value v := by
  induction e with
  | and l r hl hr =>
    rw [value, ← hl, ← hr, takeAtoms, all_conj, all_conj]
    cases (takeAtoms taken l).1.all (value v) <;> cases (takeAtoms taken r).1.all (value v) <;>
      simp
  | cmp _ l r | like l r => by_cases h : taken l r = true <;> simp [takeAtoms, h]
  | or => simp [takeAtoms]
  | not => simp [takeAtoms]

end Expr

def Term.fieldName (path : List String) : String := ".".intercalate path

/-- A term for which `q_takeKey` finds something: a key field, or no field at all. -/
def Term.isKey (keyList : List String) : Term α → Bool
  | field path => keyList.contains (fieldName path)
  | const _ => true
  | param _ => true

/-- `q_takeKey`. -/
def Expr.takeKey (keyList : List String) (e : Expr α) : Option (Expr α) × Option (Expr α) :=
  if keyList.isEmpty then (none, some e)
  else e.takeAtoms fun l r ↦ l.isKey keyList && r.isKey keyList

lemma Expr.value_takeKey (v : Valuation α) (keyList : List String) (e : Expr α) :
    ((e.takeKey keyList).1.all (value v) && (e.takeKey keyList).2.all (value v)) = e.value v := by
  rw [takeKey]
  split_ifs
  · simp
  · exact value_takeAtoms v _ e

end OpenSplice.Database
