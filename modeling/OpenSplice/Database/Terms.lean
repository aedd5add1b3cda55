import OpenSplice.Database.Expr

/-!
# The terms of an expression

`q_exprDeOr` splits an expression at all of its disjunctions, `q_takeTerm` cuts off the left operand
of one disjunction after the other. No term should have an `OR` in it once `q_disjunctify` is done,
since `q_takeField`, `q_takeKey` and `makeRangeQuery` have `assert(FALSE)` for it.

`q_disjunctify` multiplies out the left operand of an `AND`, but only one `OR` of the right one, and
nothing of what becomes of a `NOT` in front of an `OR`. `disjunctify_terms` says which expressions
come out right with all of their parts.
-/

set_option autoImplicit false

namespace OpenSplice.Database.Expr

open List

variable {α : Type} {e l r : Expr α} {chain : Bool}

/-- The terms that `q_takeTerm` takes from an expression, one after the other. -/
def terms : Expr α → List (Expr α)
  | or l r => l :: terms r
  | e => [e]

/-- `q_takeField` comes to an `OR`. -/
def hasOr : Expr α → Bool
  | or _ _ => true
  | and l r => l.hasOr || r.hasOr
  | not e => e.hasOr
  | _ => false

/-- The operands of the outer disjunctions, in a chain nested to the right, have no `OR`. -/
def isNormal (chain : Bool) : Expr α → Bool
  | or l r => (if chain then !l.hasOr else l.isNormal chain) && r.isNormal chain
  | e => !e.hasOr

/-- The expressions that `q_disjunctify` is called for, from an expression or its negation on. -/
def parts : Bool → Expr α → List (Expr α)
  | neg, and l r => (if neg then not (and l r) else and l r) :: (l.parts neg ++ r.parts neg)
  | neg, or l r => (if neg then not (or l r) else or l r) :: (l.parts neg ++ r.parts neg)
  | neg, not e => e.parts !neg
  | neg, e => [if neg then not e else e]

/-- What `q_disjunctify` can bring into disjunctive form: the right operand of a conjunction has at
most two products, and those of the negation of a disjunction have one. For a chain the left operand
of a disjunction has one product, and one of the operands of a conjunction. -/
def normalises (chain : Bool) : Bool → Expr α → Bool
  | false, and l r => l.normalises chain false && r.normalises chain false &&
      r.width false ≤ 2 && (!chain || l.width false = 1 || r.width false = 1)
  | true, and l r => l.normalises chain true && r.normalises chain true &&
      (!chain || l.width true = 1)
  | false, or l r => l.normalises chain false && r.normalises chain false &&
      (!chain || l.width false = 1)
  | true, or l r => l.normalises chain true && r.normalises chain true &&
      l.width true = 1 && r.width true = 1
  | neg, not e => e.normalises chain !neg
  | _, _ => true

lemma hasOr_eq_false_iff (h : e.pushed) : e.hasOr = false ↔ e.width false = 1 := by
  induction e with
  | cmp | like => simp [hasOr, width]
  | and _ _ hl hr =>
    rw [pushed, Bool.and_eq_true] at h
    rw [hasOr, Bool.or_eq_false_iff, width, hl h.1, hr h.2, mul_eq_one]
  | or l r =>
    have hl := width_pos false l
    have hr := width_pos false r
    simp only [hasOr, width, Bool.true_eq_false, false_iff]
    omega
  | not e =>
    cases e with
    | like => simp [hasOr, width]
    | _ => simp [pushed] at h

/-- No `OR` is left exactly if there is only one product. -/
lemma hasOr_disjunctify (e : Expr α) : e.disjunctify.hasOr = false ↔ e.width false = 1 := by
  have hnorm := normalised_disjunctify e
  rw [hasOr_eq_false_iff hnorm.pushed, hnorm.width]

lemma forall_deOr_iff (e : Expr α) (list : List (Expr α)) :
    (∀ t ∈ e.deOr list, t.hasOr = false) ↔ e.isNormal false ∧ ∀ t ∈ list, t.hasOr = false := by
  induction e generalizing list with
  | or _ _ hl hr =>
    rw [deOr, hr, hl, isNormal]
    simp only [Bool.false_eq_true, if_false, Bool.and_eq_true]
    tauto
  | _ => simp [deOr, isNormal]

lemma forall_terms_iff (e : Expr α) : (∀ t ∈ e.terms, t.hasOr = false) ↔ e.isNormal true := by
  induction e with
  | or _ _ _ hr => rw [terms, forall_mem_cons, hr]; simp [isNormal]
  | _ => simp [terms, isNormal]

/-! ### Conjunctions -/

lemma isNormal_of_hasOr (h : e.hasOr = false) : e.isNormal chain := by
  cases e with
  | or => simp [hasOr] at h
  | _ => simpa [isNormal] using h

lemma isNormal_of_or (h : (or l r).isNormal chain) : l.isNormal chain ∧ r.isNormal chain := by
  rw [isNormal, Bool.and_eq_true] at h
  cases chain with
  | false => exact h
  | true => exact ⟨isNormal_of_hasOr (by simpa using h.1), h.2⟩

/-- A disjunctive form stays as it is. -/
lemma disjunctify_of_isNormal (hpushed : e.pushed) (h : e.isNormal chain) : e.disjunctify = e := by
  induction e with
  | cmp => exact disjunctify_cmp ..
  | like => rw [disjunctify, disjunctified]
  | or l r hl hr =>
    rw [pushed, Bool.and_eq_true] at hpushed
    obtain ⟨hleft, hright⟩ := isNormal_of_or h
    rw [disjunctify_or, hl hpushed.1 hleft, hr hpushed.2 hright]
  | and l r hl hr =>
    rw [pushed, Bool.and_eq_true] at hpushed
    simp only [isNormal, hasOr, Bool.not_eq_true', Bool.or_eq_false_iff] at h
    have hl' := hl hpushed.1 (isNormal_of_hasOr h.1)
    have hr' := hr hpushed.2 (isNormal_of_hasOr h.2)
    rw [disjunctify_and_of_ne, hl', hr']
    · rintro l₁ l₂ heq
      rw [← hl', heq, hasOr] at h
      exact Bool.noConfusion h.1
    · rintro r₁ r₂ heq
      rw [← hr', heq, hasOr] at h
      exact Bool.noConfusion h.2
  | not e =>
    cases e with
    | like => exact disjunctify_not_like ..
    | _ => simp [pushed] at hpushed

lemma disjunctify_and_of_or {l₁ l₂ : Expr α} (hl : l.disjunctify = or l₁ l₂) :
    (and l r).disjunctify =
      or (and l₁ r.disjunctify).disjunctify (and l₂ r.disjunctify).disjunctify := by
  rw [disjunctify, disjunctified]
  split
  · rename_i heq
    obtain ⟨rfl, rfl⟩ := or.inj (heq.symm.trans hl)
    rfl
  · rename_i hne
    exact absurd hl (hne l₁ l₂)

lemma disjunctify_and_of_or_right (hl : ∀ l₁ l₂, l.disjunctify ≠ or l₁ l₂) {r₁ r₂ : Expr α}
    (hr : r.disjunctify = or r₁ r₂) :
    (and l r).disjunctify = or (and l.disjunctify r₁) (and l.disjunctify r₂) := by
  rw [disjunctify, disjunctified]
  split
  · rename_i l₁ l₂ heq
    exact absurd heq (hl l₁ l₂)
  · split
    · rename_i heq
      obtain ⟨rfl, rfl⟩ := or.inj (heq.symm.trans hr)
      rfl
    · rename_i hne
      exact absurd hr (hne r₁ r₂)

/-- When the conjunction with an expression without `OR` comes out right. -/
lemma isNormal_and_of_hasOr (hl : l.disjunctify.hasOr = false) (hr : r.disjunctify.isNormal chain) :
    (and l r).disjunctify.isNormal chain ↔ r.width false ≤ 2 := by
  have hne : ∀ l₁ l₂, l.disjunctify ≠ or l₁ l₂ := by
    rintro l₁ l₂ heq
    rw [heq, hasOr] at hl
    exact Bool.noConfusion hl
  have hnorm := normalised_disjunctify r
  cases hx : r.disjunctify with
  | or r₁ r₂ =>
    have hpushed := hnorm.pushed
    have hwidth := hnorm.width
    have h₁ := width_pos false r₁
    have h₂ := width_pos false r₂
    rw [hx, pushed, Bool.and_eq_true] at hpushed
    rw [hx, width] at hwidth
    rw [disjunctify_and_of_or_right hne hx]
    have hor : (or (and l.disjunctify r₁) (and l.disjunctify r₂)).isNormal chain ↔
        r₁.hasOr = false ∧ r₂.hasOr = false := by
      cases chain <;> simp [isNormal, hasOr, hl]
    rw [hor, hasOr_eq_false_iff hpushed.1, hasOr_eq_false_iff hpushed.2]
    omega
  | _ =>
    have hor : r.disjunctify.hasOr = false := by simpa [hx, isNormal] using hr
    rw [disjunctify_and_of_ne hne (by simp [hx]), (hasOr_disjunctify r).mp hor]
    simp [isNormal, hasOr, hl, hor]

/-- When the conjunction of two expressions that come out right does so, too. -/
lemma isNormal_and (hl : l.disjunctify.isNormal chain) (hr : r.disjunctify.isNormal chain) :
    (and l r).disjunctify.isNormal chain ↔ r.width false ≤ 2 ∧
      (chain → l.width false = 1 ∨ r.width false = 1) := by
  have hlnorm := normalised_disjunctify l
  -- The induction is on what becomes of the left operand, of which each term is multiplied out.
  induction hx : l.disjunctify generalizing l r with
  | or x₁ x₂ ih₁ ih₂ =>
    have hpushed := hlnorm.pushed
    have hwidth := hlnorm.width
    rw [hx, pushed, Bool.and_eq_true] at hpushed
    rw [hx, width] at hwidth
    rw [hx] at hl
    obtain ⟨hx₁, hx₂⟩ := isNormal_of_or hl
    rw [isNormal, Bool.and_eq_true] at hl
    have hself₁ := disjunctify_of_isNormal hpushed.1 hx₁
    have hself₂ := disjunctify_of_isNormal hpushed.2 hx₂
    have hr' : r.disjunctify.disjunctify = r.disjunctify :=
      disjunctify_of_isNormal (normalised_disjunctify r).pushed hr
    have hrwidth := (normalised_disjunctify r).width
    have h₁ := ih₁ (l := x₁) (r := r.disjunctify) (by rwa [hself₁]) (by rwa [hr'])
      (normalised_disjunctify x₁) hself₁
    have h₂ := ih₂ (l := x₂) (r := r.disjunctify) (by rwa [hself₂]) (by rwa [hr'])
      (normalised_disjunctify x₂) hself₂
    rw [hrwidth] at h₁ h₂
    rw [disjunctify_and_of_or hx, isNormal, Bool.and_eq_true]
    have hpos₁ := width_pos false x₁
    have hpos₂ := width_pos false x₂
    have hposr := width_pos false r
    cases chain with
    | false => simp [h₁, h₂]
    | true =>
      have hone : x₁.width false = 1 := (hasOr_eq_false_iff hpushed.1).mp (by simpa using hl.1)
      have hleft : (and x₁ r.disjunctify).disjunctify.hasOr = false ↔ r.width false = 1 := by
        rw [hasOr_disjunctify, width, hone, one_mul, hrwidth]
      simp only [if_true, Bool.not_eq_true', hleft, h₂, forall_const]
      omega
  | _ =>
    have hor : l.disjunctify.hasOr = false := by simpa [hx, isNormal] using hl
    rw [isNormal_and_of_hasOr hor hr, (hasOr_disjunctify l).mp hor]
    simp

lemma isNormal_or (hl : l.disjunctify.isNormal chain) (hr : r.disjunctify.isNormal chain) :
    (l.disjunctify.or r.disjunctify).isNormal chain ↔ (chain → l.width false = 1) := by
  cases chain <;> simp [isNormal, hl, hr, hasOr_disjunctify]

/-! ### All parts of an expression -/

lemma disjunctify_not_not (e : Expr α) : (not (not e)).disjunctify = e.disjunctify := by
  rw [disjunctify, disjunctified]
  rfl

lemma disjunctify_not_and (l r : Expr α) :
    (not (and l r)).disjunctify = l.not.disjunctify.or r.not.disjunctify := by
  rw [disjunctify, disjunctified]
  rfl

lemma disjunctify_not_or (l r : Expr α) :
    (not (or l r)).disjunctify = l.not.disjunctify.and r.not.disjunctify := by
  rw [disjunctify, disjunctified]
  rfl

/-- The expression itself is one of its parts, up to double negation. -/
lemma exists_mem_parts (neg : Bool) (e : Expr α) :
    ∃ s ∈ e.parts neg, s.disjunctify = (if neg then e.not else e).disjunctify := by
  induction e generalizing neg with
  | not e ih =>
    obtain ⟨s, hs, heq⟩ := ih !neg
    refine ⟨s, hs, heq.trans ?_⟩
    cases neg <;> simp [disjunctify_not_not]
  | _ => exact ⟨_, by simp [parts], rfl⟩

lemma isNormal_of_parts {neg : Bool} (h : ∀ s ∈ e.parts neg, s.disjunctify.isNormal chain) :
    (if neg then e.not else e).disjunctify.isNormal chain := by
  obtain ⟨s, hs, heq⟩ := exists_mem_parts neg e
  exact heq ▸ h s hs

lemma forall_parts_iff (neg : Bool) (e : Expr α) :
    (∀ s ∈ e.parts neg, s.disjunctify.isNormal chain) ↔ e.normalises chain neg := by
  induction e generalizing neg with
  | cmp | like =>
    cases neg <;> simp [parts, normalises, isNormal, hasOr, disjunctify, disjunctified]
  | not _ ih => cases neg <;> exact ih _
  | and l r hl hr =>
    rw [parts, forall_mem_cons, forall_mem_append, hl, hr]
    cases neg with
    | false =>
      have hand (h₁ : l.normalises chain false) (h₂ : r.normalises chain false) :=
        isNormal_and (isNormal_of_parts ((hl false).mpr h₁)) (isNormal_of_parts ((hr false).mpr h₂))
      simp only [normalises, Bool.and_eq_true]
      grind
    | true =>
      have hor (h₁ : l.normalises chain true) (h₂ : r.normalises chain true) :=
        isNormal_or (isNormal_of_parts ((hl true).mpr h₁)) (isNormal_of_parts ((hr true).mpr h₂))
      simp only [normalises, Bool.and_eq_true, if_true, disjunctify_not_and]
      grind [width]
  | or l r hl hr =>
    rw [parts, forall_mem_cons, forall_mem_append, hl, hr]
    cases neg with
    | false =>
      have hor (h₁ : l.normalises chain false) (h₂ : r.normalises chain false) :=
        isNormal_or (isNormal_of_parts ((hl false).mpr h₁)) (isNormal_of_parts ((hr false).mpr h₂))
      simp only [normalises, Bool.and_eq_true]
      grind [disjunctify_or]
    | true =>
      have hand : (and l.not.disjunctify r.not.disjunctify).isNormal chain ↔
          l.width true = 1 ∧ r.width true = 1 := by
        simp [isNormal, hasOr, hasOr_disjunctify, width]
      simp only [normalises, Bool.and_eq_true, if_true, disjunctify_not_or, hand]
      grind

def isZero (name : String) : Expr ℕ := cmp .eq (.field [name]) (.const 0)

end OpenSplice.Database.Expr
