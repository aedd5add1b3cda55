import Mathlib

/-!
# Matching a string with a pattern

`patmatch` (`c_typebase.c`) matches a string with a pattern in which `?` stands for any character
and `*` for any sequence of them. A sequence of wildcards is collapsed first: it takes as many
characters as there are `?`s in it, and the rest of the pattern is tried wherever its first
character occurs. The language of `*` commutes with that of `?` and absorbs itself, so this decides
the language of the pattern. Strings are the lists of their characters in front of the `0`.
-/

set_option autoImplicit false

namespace OpenSplice.Database

open Language List

variable {s : List UInt8} {l : Language UInt8} (c : UInt8) (pat str : List UInt8)

/-! ### The matcher -/

/-- The loop of `patmatch` over a sequence of wildcards: what is left of the pattern and of the
string, unless the string is too short. -/
def collapse : List UInt8 → List UInt8 → Option (List UInt8 × List UInt8)
  | [], str => some ([], str)
  | c :: pat, str =>
    if c = 42 then collapse pat str
    else if c = 63 then
      match str with
      | [] => none
      | _ :: str => collapse pat str
    else some (c :: pat, str)

/-- The loop of `patmatch` over the places in the string that hold the character `c`. -/
def tryAll (c : UInt8) (matchRest : List UInt8 → Bool) : List UInt8 → Bool
  | [] => false
  | x :: str => (x == c && matchRest str) || tryAll c matchRest str

/-- What is left of the pattern does not start with a wildcard. -/
lemma collapse_spec {pat str pat' str' : List UInt8} (h : collapse pat str = some (pat', str')) :
    pat'.length ≤ pat.length ∧ ∀ c ∈ pat'.head?, c ≠ 63 ∧ c ≠ 42 := by
  fun_induction collapse with
  | case1 => simp_all
  | case3 => simp at h
  | case2 _ _ ih | case4 _ _ _ _ ih => exact ⟨(ih h).1.trans (by simp), (ih h).2⟩
  | case5 c pat str h42 h63 =>
    obtain ⟨rfl, rfl⟩ := Prod.mk.inj (Option.some.inj h)
    simp [h42, h63]

/-- `patmatch`. -/
def patmatch (pat str : List UInt8) : Bool :=
  match pat with
  | [] => str.isEmpty
  | c :: pat =>
    if c = 63 then
      match str with
      | [] => false
      | _ :: str => patmatch pat str
    else if c = 42 then
      match h : collapse pat str with
      | none => false
      | some ([], _) => true
      | some (d :: rest, str) =>
        have : rest.length < pat.length := (collapse_spec h).1
        tryAll d (fun str ↦ patmatch rest str) str
    else
      match str with
      | [] => false
      | x :: str => x == c && patmatch pat str
termination_by pat.length

/-! ### The language of a pattern -/

/-- The strings that a character of a pattern stands for. -/
def piece (c : UInt8) : Language UInt8 :=
  {s | if c = 63 then s.length = 1 else c = 42 ∨ s = [c]}

def language (pat : List UInt8) : Language UInt8 := (pat.map piece).prod

@[simp]
lemma language_nil : language [] = 1 := rfl

@[simp]
lemma language_cons : language (c :: pat) = piece c * language pat := by
  simp [language]

lemma mem_piece {c : UInt8} : s ∈ piece c ↔ if c = 63 then s.length = 1 else c = 42 ∨ s = [c] :=
  .rfl

lemma mem_any_mul : s ∈ piece 63 * l ↔ ∃ x, ∃ t ∈ l, s = x :: t := by
  rw [mem_mul]
  constructor
  · rintro ⟨a, ha, t, ht, rfl⟩
    obtain ⟨x, rfl⟩ := length_eq_one_iff.mp ha
    exact ⟨x, t, ht, rfl⟩
  · rintro ⟨x, t, ht, rfl⟩
    exact ⟨[x], rfl, t, ht, rfl⟩

lemma mem_star_mul : s ∈ piece 42 * l ↔ ∃ t, ∃ u ∈ l, s = t ++ u := by
  rw [mem_mul]
  constructor
  · rintro ⟨t, -, u, hu, rfl⟩
    exact ⟨t, u, hu, rfl⟩
  · rintro ⟨t, u, hu, rfl⟩
    exact ⟨t, .inl rfl, u, hu, rfl⟩

lemma mem_char_mul {c : UInt8} (h63 : c ≠ 63) (h42 : c ≠ 42) :
    s ∈ piece c * l ↔ ∃ t ∈ l, s = c :: t := by
  simp only [mem_mul, mem_piece, if_neg h63, h42, false_or]
  constructor
  · rintro ⟨a, rfl, t, ht, rfl⟩
    exact ⟨t, ht, rfl⟩
  · rintro ⟨t, ht, rfl⟩
    exact ⟨[c], rfl, t, ht, rfl⟩

lemma star_mul_star : piece 42 * piece 42 = piece 42 := by
  ext s
  rw [mem_star_mul]
  exact ⟨fun _ ↦ .inl rfl, fun hs ↦ ⟨[], s, hs, rfl⟩⟩

lemma star_mul_any : piece 42 * piece 63 = piece 63 * piece 42 := by
  ext s
  rw [mem_star_mul, mem_any_mul]
  constructor
  · rintro ⟨t, u, hu, rfl⟩
    obtain ⟨x, rfl⟩ := length_eq_one_iff.mp hu
    cases t with
    | nil => exact ⟨x, [], .inl rfl, rfl⟩
    | cons y t => exact ⟨y, t ++ [x], .inl rfl, rfl⟩
  · rintro ⟨x, t, -, rfl⟩
    exact ⟨_, _, rfl, (dropLast_append_getLast (cons_ne_nil x t)).symm⟩

/-! ### The matcher decides the language -/

lemma mem_collapse_iff :
    str ∈ piece 42 * language pat ↔ ∃ pat' str', collapse pat str = some (pat', str') ∧
      str' ∈ piece 42 * language pat' := by
  fun_induction collapse with
  | case1 str => simp
  | case2 pat str ih => rw [language_cons, ← mul_assoc, star_mul_star, ih]
  | case3 pat =>
    rw [language_cons, ← mul_assoc, star_mul_any, mul_assoc, mem_any_mul]
    simp
  | case4 pat _ x str ih =>
    rw [language_cons, ← mul_assoc, star_mul_any, mul_assoc, mem_any_mul, ← ih]
    simp
  | case5 => simp

lemma tryAll_iff (matchRest : List UInt8 → Bool) (str : List UInt8) :
    tryAll c matchRest str ↔ ∃ t u, str = t ++ c :: u ∧ matchRest u := by
  induction str with
  | nil => simp [tryAll]
  | cons x str ih =>
    rw [tryAll, Bool.or_eq_true, Bool.and_eq_true, beq_iff_eq, ih]
    constructor
    · rintro (⟨rfl, hrest⟩ | ⟨t, u, rfl, hrest⟩)
      · exact ⟨[], str, rfl, hrest⟩
      · exact ⟨x :: t, u, rfl, hrest⟩
    · rintro ⟨t, u, heq, hrest⟩
      cases t with
      | nil =>
        obtain ⟨rfl, rfl⟩ := cons.inj heq
        exact .inl ⟨rfl, hrest⟩
      | cons y t =>
        obtain ⟨rfl, rfl⟩ := cons.inj heq
        exact .inr ⟨t, u, rfl, hrest⟩

lemma patmatch_iff : patmatch pat str ↔ str ∈ language pat := by
  fun_induction patmatch with
  | case1 str => simp [mem_one]
  | case2 pat => simp [mem_any_mul]
  | case3 pat x str ih => simp [mem_any_mul, ih]
  | case4 pat str h =>
    rw [language_cons, mem_collapse_iff]
    simp [h]
  | case5 pat str str' h =>
    rw [language_cons, mem_collapse_iff]
    simp [h, mem_star_mul]
  | case6 pat str d rest str' h _ _ ih =>
    obtain ⟨h63, h42⟩ := (collapse_spec h).2 d rfl
    rw [language_cons, mem_collapse_iff, tryAll_iff]
    constructor
    · rintro ⟨t, u, rfl, hu⟩
      refine ⟨_, _, h, mem_star_mul.mpr ⟨t, d :: u, ?_, rfl⟩⟩
      exact (mem_char_mul h63 h42).mpr ⟨u, (ih u).mp hu, rfl⟩
    · rintro ⟨_, _, h', hmem⟩
      obtain ⟨rfl, rfl⟩ := Prod.mk.inj (Option.some.inj (h.symm.trans h'))
      obtain ⟨t, v, hv, rfl⟩ := mem_star_mul.mp hmem
      obtain ⟨u, hu, rfl⟩ := (mem_char_mul h63 h42).mp hv
      exact ⟨t, u, rfl, (ih u).mpr hu⟩
  | case7 c pat h63 h42 => simp [mem_char_mul h63 h42]
  | case8 c pat h63 h42 x str ih =>
    rw [language_cons, mem_char_mul h63 h42, Bool.and_eq_true, beq_iff_eq, ih]
    simp only [cons.injEq]
    constructor
    · rintro ⟨rfl, hstr⟩
      exact ⟨str, hstr, rfl, rfl⟩
    · rintro ⟨t, ht, rfl, rfl⟩
      exact ⟨rfl, ht⟩

/-- A string matches a pattern exactly if it is in the language of the pattern. -/
theorem patmatch_iff_mem_language (pat str : List UInt8) :
    patmatch pat str = true ↔ str ∈ language pat :=
  patmatch_iff pat str

end OpenSplice.Database
