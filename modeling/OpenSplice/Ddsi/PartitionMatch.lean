import OpenSplice.Database.PatMatch

/-!
# Matching partitions

`partitions_match_p` of `q_qosmatch.c` compares the partitions of a writer and a reader, and
`partition_match_based_on_wildcard_in_left_operand` tells whether they only match by a wildcard. An
absent or empty list stands for the default partition, which is the empty string.
-/

set_option autoImplicit false

namespace OpenSplice.Ddsi

open Database List Bool

/-- `nn_partition_qospolicy_t` of a QoS, if it is present. -/
abbrev Partition : Type := Option (List (List UInt8))

def isWildcardPartition (str : List UInt8) : Bool := str.contains 42 || str.contains 63

def partitionPatmatchP (pat name : List UInt8) : Bool :=
  if !isWildcardPartition pat then pat == name
  else if isWildcardPartition name then false
  else patmatch pat name

/-- The test whether a partition is absent or empty. -/
def Partition.isDefault (x : Partition) : Bool := x.all List.isEmpty

def partitionsMatchDefault (x : Partition) : Bool :=
  x.isDefault || (x.getD []).any (partitionPatmatchP · [])

def partitionsMatchP (a b : Partition) : Bool :=
  if a.isDefault then partitionsMatchDefault b
  else if b.isDefault then partitionsMatchDefault a
  else (a.getD []).any fun x ↦ (b.getD []).any fun y ↦
    partitionPatmatchP x y || partitionPatmatchP y x

/-- The nested loops of `partition_match_based_on_wildcard_in_left_operand` over the pairs of
partitions, with the name that was found so far. They return 0 for `none`. -/
def findRealname (realname : Option (List UInt8)) :
    List (List UInt8 × List UInt8) → Option (List UInt8)
  | [] => realname
  | (x, y) :: pairs =>
    if partitionPatmatchP x y then
      if !isWildcardPartition x then none else findRealname (some y) pairs
    else findRealname realname pairs

/-- The `realname`, if it returns 1. -/
def partitionMatchBasedOnWildcardInLeftOperand (a b : Partition) : Option (List UInt8) :=
  if a.isDefault then none
  else if b.isDefault then if (a.getD []).contains [] then none else some []
  else findRealname none ((a.getD []).product (b.getD []))

/-- The list that is meant. -/
def Partition.names (x : Partition) : List (List UInt8) := if x.isDefault then [[]] else x.getD []

/-- A pattern has a wildcard, and a string without one is in its language. -/
def Covers (pat str : List UInt8) : Prop :=
  isWildcardPartition pat = true ∧ isWildcardPartition str = false ∧ str ∈ language pat

variable {x y : List UInt8} {a b : Partition}

lemma partitionPatmatchP_iff :
    partitionPatmatchP x y ↔ isWildcardPartition x = false ∧ x = y ∨ Covers x y := by
  cases hx : isWildcardPartition x <;> cases hy : isWildcardPartition y <;>
    simp [partitionPatmatchP, Covers, hx, hy, patmatch_iff]

lemma partitionsMatchP_eq : partitionsMatchP a b = a.names.any fun x ↦ b.names.any fun y ↦
    partitionPatmatchP x y || partitionPatmatchP y x := by
  have hnil : ∀ y, (partitionPatmatchP y [] || partitionPatmatchP [] y) =
      partitionPatmatchP y [] := by
    intro y
    cases y <;> simp [partitionPatmatchP, isWildcardPartition]
  have hself : partitionPatmatchP [] [] := rfl
  unfold partitionsMatchP partitionsMatchDefault Partition.names
  cases a.isDefault <;> cases b.isDefault <;>
    simp [hnil, hself, or_comm (partitionPatmatchP [] _), -or_eq_left_iff_imp]

lemma findRealname_spec (pairs : List (List UInt8 × List UInt8)) (o : Option (List UInt8)) :
    ((findRealname o pairs).isSome ↔ (∀ x, (x, x) ∈ pairs → isWildcardPartition x) ∧
      (o.isSome ∨ ∃ x y, (x, y) ∈ pairs ∧ Covers x y)) ∧
    ∀ y ∈ findRealname o pairs, y ∈ o ∨ ∃ x, (x, y) ∈ pairs ∧ Covers x y := by
  induction pairs generalizing o with
  | nil => simp [findRealname]
  | cons p pairs ih =>
    obtain ⟨x, y⟩ := p
    have hp := partitionPatmatchP_iff (x := x) (y := y)
    have hw : Covers x y → isWildcardPartition x := And.left
    unfold findRealname
    split
    · split
      · obtain rfl : x = y := by grind
        simp_all
      · have := ih (some y)
        clear ih
        grind
    · have := ih o
      clear ih
      grind

theorem partitionsMatchP_iff (a b : Partition) :
    (partitionsMatchP a b = true ↔ ∃ x ∈ a.names, ∃ y ∈ b.names,
      isWildcardPartition x = false ∧ x = y ∨ Covers x y ∨ Covers y x) ∧
    partitionsMatchP a b = partitionsMatchP b a ∧
    (partitionsMatchP a b = true → let realname := partitionMatchBasedOnWildcardInLeftOperand a b
      (realname.isSome ↔ (∀ x ∈ a.names, isWildcardPartition x = false → x ∉ b.names) ∧
        ∃ x ∈ a.names, ∃ y ∈ b.names, Covers x y) ∧
      ∀ y ∈ realname, y ∈ b.names ∧ ∃ x ∈ a.names, Covers x y) := by
  have hiff : ∀ a b, partitionsMatchP a b ↔ ∃ x ∈ a.names, ∃ y ∈ b.names,
      isWildcardPartition x = false ∧ x = y ∨ Covers x y ∨ Covers y x := by
    intro a b
    simp only [partitionsMatchP_eq, any_eq_true, or_eq_true, partitionPatmatchP_iff]
    grind
  refine ⟨hiff a b, eq_iff_iff.mpr ?_, fun h ↦ ?_⟩
  · rw [hiff, hiff]
    grind
  · replace h := (hiff a b).mp h
    clear hiff
    have hlit : isWildcardPartition [] = false := rfl
    have hnil : ∀ y, ¬ Covers [] y := fun y h ↦ absurd h.1 (by decide)
    unfold partitionMatchBasedOnWildcardInLeftOperand
    simp only [Partition.names] at *
    split
    · simp [*]
    · split
      · grind
      · have hspec := findRealname_spec ((a.getD []).product (b.getD [])) none
        simp only [pair_mem_product] at hspec
        grind

end OpenSplice.Ddsi
