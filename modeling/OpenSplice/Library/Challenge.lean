import Mathlib

/-!
# A champion who is challenged along a list

A list of challengers is walked with a champion, and each challenger who outranks the champion takes
the place (`champion`). A challenger has a priority and a rank, of which the champion only keeps the
rank: the priority compared with is always the same one, `p`. So the result is the greatest in the
order of priority and rank only if that one outranks the first champion, and none behind it outranks
it (`champion_eq_iff`).
-/

set_option autoImplicit false

namespace OpenSplice.Library.Challenge

variable {π ρ : Type} [LinearOrder π] [LinearOrder ρ]

/-- A challenger outranks a champion of rank `r`, who is taken to have priority `p`. -/
def Outranks (p : π) (r : ρ) (c : π ×ₗ ρ) : Prop := toLex (p, r) < c

instance (p : π) (r : ρ) (c : π ×ₗ ρ) : Decidable (Outranks p r c) :=
  inferInstanceAs (Decidable (_ < _))

def champion (p : π) : ρ → List (π ×ₗ ρ) → ρ
  | r, [] => r
  | r, c :: l => champion p (if Outranks p r c then (ofLex c).2 else r) l

variable {p : π} {r : ρ} {c w : π ×ₗ ρ} {l l1 l2 : List (π ×ₗ ρ)}

lemma champion_append : champion p r (l1 ++ l2) = champion p (champion p r l1) l2 := by
  induction l1 generalizing r with
  | nil => rfl
  | cons _ _ ih => exact ih

lemma champion_eq_self (h : ∀ c ∈ l, ¬Outranks p r c) : champion p r l = r := by
  induction l with
  | nil => rfl
  | cons c _ ih =>
    rw [champion, if_neg (h c (by simp))]
    exact ih fun c' hc' ↦ h c' (by simp [hc'])

lemma outranks_iff : Outranks p r c ↔ p < (ofLex c).1 ∨ p = (ofLex c).1 ∧ r < (ofLex c).2 :=
  Prod.Lex.lt_iff

/-- The champion is the first one or a challenger of no lower priority. -/
lemma champion_mem :
    champion p r l = r ∨ ∃ c ∈ l, champion p r l = (ofLex c).2 ∧ p ≤ (ofLex c).1 := by
  induction l generalizing r with
  | nil => exact .inl rfl
  | cons c _ ih =>
    rw [champion]
    split_ifs with h
    · rcases ih (r := (ofLex c).2) with heq | ⟨c', hc', heq, hle⟩
      · exact .inr ⟨c, by simp, heq, (outranks_iff.mp h).elim le_of_lt fun h ↦ h.1.le⟩
      · exact .inr ⟨c', by simp [hc'], heq, hle⟩
    · rcases ih (r := r) with heq | ⟨c', hc', heq, hle⟩
      · exact .inl heq
      · exact .inr ⟨c', by simp [hc'], heq, hle⟩

lemma champion_ne {x : ρ} (hr : r ≠ x) (hl : ∀ c ∈ l, (ofLex c).2 ≠ x) : champion p r l ≠ x := by
  rcases champion_mem (p := p) (r := r) (l := l) with heq | ⟨c, hc, heq, -⟩
  · rwa [heq]
  · rw [heq]
    exact hl c hc

/-- A first champion of a rank of their own stays exactly if nobody outranks them. -/
lemma champion_eq_self_iff (hr : ∀ c ∈ l, (ofLex c).2 ≠ r) :
    champion p r l = r ↔ ∀ c ∈ l, ¬Outranks p r c := by
  refine ⟨fun h ↦ ?_, champion_eq_self⟩
  induction l with
  | nil => simp
  | cons c _ ih =>
    by_cases hc : Outranks p r c
    · rw [champion, if_pos hc] at h
      exact absurd h (champion_ne (hr c (by simp)) fun c' hc' ↦ hr c' (by simp [hc']))
    · rw [champion, if_neg hc] at h
      intro c' hc'
      rcases List.mem_cons.mp hc' with rfl | hc'
      · exact hc
      · exact ih (fun c' hc' ↦ hr c' (by simp [hc'])) h c' hc'

/-- While no challenger has a greater priority, the rank of the champion only grows. -/
lemma le_champion (h : ∀ c ∈ l, (ofLex c).1 ≤ p) : r ≤ champion p r l := by
  induction l generalizing r with
  | nil => exact le_rfl
  | cons c _ ih =>
    have hrest := fun c' hc' ↦ h c' (List.mem_cons_of_mem c hc')
    rw [champion]
    split_ifs with hc
    · rcases outranks_iff.mp hc with hlt | ⟨-, hlt⟩
      · exact absurd hlt (not_lt.mpr (h c (by simp)))
      · exact hlt.le.trans (ih hrest)
    · exact ih hrest

/-- Somebody greater than all challengers outranks the champion exactly if they outrank the first
one. -/
lemma outranks_champion_iff (hmax : ∀ c ∈ l, c < w) :
    Outranks p (champion p r l) w ↔ Outranks p r w := by
  rcases lt_or_ge p (ofLex w).1 with hlt | hle
  · simp [outranks_iff, hlt]
  · have hprio : ∀ c ∈ l, (ofLex c).1 ≤ p := fun c hc ↦
      (Prod.Lex.monotone_fst _ _ (hmax c hc).le).trans hle
    simp only [outranks_iff, not_lt.mpr hle, false_or]
    refine and_congr_right fun hp ↦ ⟨fun h ↦ (le_champion hprio).trans_lt h, fun h ↦ ?_⟩
    rcases champion_mem (p := p) (r := r) (l := l) with heq | ⟨c, hc, heq, hge⟩
    · rwa [heq]
    · rw [heq]
      rcases Prod.Lex.lt_iff.mp (hmax c hc) with hlt | ⟨-, hlt⟩
      · exact absurd hlt (not_lt.mpr (hp ▸ hge))
      · exact hlt

/-- The greatest challenger becomes the champion exactly if they outrank the first champion and
nobody behind them outranks them. -/
lemma champion_eq_iff (hmax : ∀ c ∈ l1, c < w) (hr : r ≠ (ofLex w).2)
    (hr1 : ∀ c ∈ l1, (ofLex c).2 ≠ (ofLex w).2) (hr2 : ∀ c ∈ l2, (ofLex c).2 ≠ (ofLex w).2) :
    champion p r (l1 ++ w :: l2) = (ofLex w).2 ↔
      Outranks p r w ∧ ∀ c ∈ l2, ¬Outranks p (ofLex w).2 c := by
  rw [champion_append, champion]
  by_cases h : Outranks p r w
  · rw [if_pos ((outranks_champion_iff hmax).mpr h), champion_eq_self_iff hr2]
    exact ⟨fun hrest ↦ ⟨h, hrest⟩, fun hboth ↦ hboth.2⟩
  · rw [if_neg (mt (outranks_champion_iff hmax).mp h)]
    exact ⟨fun heq ↦ absurd heq (champion_ne (champion_ne hr hr1) hr2),
      fun hboth ↦ absurd hboth.1 h⟩

end OpenSplice.Library.Challenge
