import OpenSplice.Database.Expr

/-!
# Comparing integers of different kinds

`c_valueCalculate` (`c_typebase.c`) casts two values to a common kind before it compares them, and
the common kind need not be able to represent both: a `long` is compared with a `longlong` as a
`long` if it comes first, and a `ushort` with a `short` cannot be compared at all if it comes
second. `valueCalculate_exact` says for which values and for which kinds the result is right.
-/

set_option autoImplicit false

namespace OpenSplice.Database

/-- The integral kinds of `c_valueKind`. -/
inductive ValueKind
  | octet | short | ushort | long | ulong | longlong | ulonglong
deriving DecidableEq

namespace ValueKind

def bits : ValueKind → ℕ
  | octet => 8
  | short => 16
  | ushort => 16
  | long => 32
  | ulong => 32
  | longlong => 64
  | ulonglong => 64

def isSigned : ValueKind → Bool
  | short => true
  | long => true
  | longlong => true
  | _ => false

def lo (k : ValueKind) : ℤ := if k.isSigned then -2 ^ (k.bits - 1) else 0

def hi (k : ValueKind) : ℤ := k.lo + 2 ^ k.bits - 1

/-- The conversion of C to the kind. -/
def convert (k : ValueKind) (x : ℤ) : ℤ := (x - k.lo) % 2 ^ k.bits + k.lo

/-- `c_normalizedKind`. -/
def normalized : ValueKind → ValueKind → ValueKind
  | short, octet => short
  | long, octet => long
  | long, short => long
  | long, ushort => long
  | long, longlong => long
  | longlong, ulonglong => ulonglong
  | longlong, _ => longlong
  | ushort, octet => ushort
  | ulong, octet => ulong
  | ulong, ushort => ulong
  | ulonglong, octet => ulonglong
  | ulonglong, ushort => ulonglong
  | ulonglong, ulong => ulonglong
  | _, k => k

/-- `c_valueCast` has a case for the kinds. -/
def castable : ValueKind → ValueKind → Bool
  | short, ushort => false
  | _, _ => true

lemma convert_of_mem {k : ValueKind} {x : ℤ} (hlo : k.lo ≤ x) (hhi : x ≤ k.hi) :
    k.convert x = x := by
  rw [hi] at hhi
  rw [convert, Int.emod_eq_of_lt (by omega) (by omega)]
  omega

/-- A value of the first kind is cast to the second one. -/
def castInt (k' k : ValueKind) (x : ℤ) : Option ℤ :=
  if k' = k then some x
  else if castable k' k then some (k.convert x)
  else none

/-- The kind represents all values of the other one. -/
def represents (k k' : ValueKind) : Bool := castable k' k && k.lo ≤ k'.lo && k'.hi ≤ k.hi

lemma castInt_of_represents {k k' : ValueKind} (h : k.represents k') {x : ℤ}
    (hlo : k'.lo ≤ x) (hhi : x ≤ k'.hi) : castInt k' k x = some x := by
  simp only [represents, Bool.and_eq_true, decide_eq_true_eq] at h
  rw [castInt, if_pos h.1.1, convert_of_mem (h.1.2.trans hlo) (hhi.trans h.2), ite_self]

/-- `c_valueCompare`, for two values that are cast to a kind. It returns `C_NE`, which is no order,
if `c_valueCast` has no case for a value. -/
def compareAs (k k₁ k₂ : ValueKind) (x y : ℤ) : Option Ordering :=
  match castInt k₁ k x, castInt k₂ k y with
  | some x, some y => some (compare x y)
  | _, _ => none

/-- The common kind does not represent the value right behind it, or `-1`. -/
lemma exists_compareAs_ne {k₁ k₂ k : ValueKind} (hk : k = normalized k₁ k₂)
    (h : (k.represents k₁ && k.represents k₂) = false) :
    ∃ p ∈ [(-1, 0), (k.hi + 1, 0), (0, k.hi + 1)], (k₁.lo ≤ p.1 ∧ p.1 ≤ k₁.hi) ∧
      (k₂.lo ≤ p.2 ∧ p.2 ≤ k₂.hi) ∧ compareAs k k₁ k₂ p.1 p.2 ≠ some (compare p.1 p.2) := by
  subst hk
  revert h
  cases k₁ <;> cases k₂ <;> decide +kernel

/-- A signed kind, and an unsigned one that is not narrower. -/
def mixes (k k' : ValueKind) : Bool := k.isSigned && !k'.isSigned && k.bits ≤ k'.bits

end ValueKind

open ValueKind

/-- `c_value`, of an integral kind. -/
structure Value where
  kind : ValueKind
  int : ℤ
  lo_le : kind.lo ≤ int
  le_hi : int ≤ kind.hi

namespace Value

def kindWith (v₁ v₂ : Value) : ValueKind := normalized v₁.kind v₂.kind

/-- `c_valueCalculate`, for a comparison. -/
def valueCalculate (v₁ v₂ : Value) (t : Tag) : Bool :=
  match compareAs (v₁.kindWith v₂) v₁.kind v₂.kind v₁.int v₂.int with
  | some o => t.holds o
  | none => t = .ne

/-- The values are in the same order when they have been cast. -/
def Kept (v₁ v₂ : Value) : Prop :=
  compareAs (v₁.kindWith v₂) v₁.kind v₂.kind v₁.int v₂.int = some (compare v₁.int v₂.int)

lemma forall_valueCalculate_iff (v₁ v₂ : Value) :
    (∀ t, valueCalculate v₁ v₂ t = t.holds (compare v₁.int v₂.int)) ↔ Kept v₁ v₂ := by
  unfold valueCalculate Kept
  generalize compareAs (v₁.kindWith v₂) v₁.kind v₂.kind v₁.int v₂.int = o
  constructor
  · intro h
    have heq := h .eq
    have hlt := h .lt
    have hgt := h .gt
    cases hcompare : compare v₁.int v₂.int <;> rcases o with - | - | - | - <;>
      simp_all [Tag.holds]
  · rintro rfl t
    rfl

/-- The value can be cast to the kind and is in its range. -/
def Fits (v : Value) (k : ValueKind) : Prop := castable v.kind k ∧ k.lo ≤ v.int ∧ v.int ≤ k.hi

lemma Fits.castInt {v : Value} {k : ValueKind} (h : v.Fits k) :
    castInt v.kind k v.int = some v.int := by
  rw [ValueKind.castInt, if_pos h.1, convert_of_mem h.2.1 h.2.2, ite_self]

/-- The results of the six comparisons are right exactly if the casts keep the order of the values,
in particular if both are in the range of the common kind. They are right for all values of two
kinds exactly if the common kind represents them all; a `long` with a `longlong` behind it, and a
signed kind with an unsigned one that is not narrower, are the kinds for which it does not. -/
theorem valueCalculate_exact (v₁ v₂ : Value) (k₁ k₂ : ValueKind) :
    (((∀ t, valueCalculate v₁ v₂ t = t.holds (compare v₁.int v₂.int)) ↔ Kept v₁ v₂) ∧
      (v₁.Fits (v₁.kindWith v₂) ∧ v₂.Fits (v₁.kindWith v₂) → Kept v₁ v₂)) ∧
    ((∀ v v', v.kind = k₁ → v'.kind = k₂ → Kept v v') ↔
      ((normalized k₁ k₂).represents k₁ && (normalized k₁ k₂).represents k₂) = true) ∧
    (((normalized k₁ k₂).represents k₁ && (normalized k₁ k₂).represents k₂) = true ↔
      ¬(k₁ = .long ∧ k₂ = .longlong) ∧ ¬k₁.mixes k₂ ∧ ¬k₂.mixes k₁) := by
  refine ⟨⟨forall_valueCalculate_iff v₁ v₂, fun h ↦ ?_⟩, ⟨fun h ↦ ?_, ?_⟩,
    by cases k₁ <;> cases k₂ <;> decide +kernel⟩
  · rw [Kept, compareAs, h.1.castInt, h.2.castInt]
  · by_contra hnot
    obtain ⟨p, -, h1, h2, hne⟩ := exists_compareAs_ne rfl (Bool.eq_false_of_not_eq_true hnot)
    exact hne (h ⟨k₁, p.1, h1.1, h1.2⟩ ⟨k₂, p.2, h2.1, h2.2⟩ rfl rfl)
  · rintro h v v' rfl rfl
    rw [Bool.and_eq_true] at h
    rw [Kept, compareAs, kindWith, castInt_of_represents h.1 v.lo_le v.le_hi,
      castInt_of_represents h.2 v'.lo_le v'.le_hi]

/-- The `long` 5 is not less than the `longlong` `2 ^ 32`, which becomes 0. -/
theorem valueCalculate_long_longlong :
    valueCalculate ⟨.long, 5, by decide, by decide⟩ ⟨.longlong, 2 ^ 32, by decide, by decide⟩ .lt =
      false := by
  decide

end Value

end OpenSplice.Database
