import Mathlib

/-!
# DDSI timestamps

A timestamp has seconds and a 32-bit binary fraction of a second. `nn_to_ddsi_time` of `q_time.c`
rounds the nanoseconds up to such a fraction and `nn_from_ddsi_time` rounds to the nearest
nanosecond, which is the one it came from. `T_SECOND` is `10 ^ 9` and `T_NEVER` is `2 ^ 63 - 1`.
-/

set_option autoImplicit false

namespace OpenSplice.Ddsi

/-- `nn_ddsi_time_t`. -/
structure DdsiTime where
  seconds : ℤ
  fraction : ℤ
deriving DecidableEq

namespace DdsiTime

/-- A value of a type with the range `[lo, hi)`, unless it overflows. -/
def checked (lo hi x : ℤ) : Option ℤ := if lo ≤ x ∧ x < hi then some x else none

abbrev int : ℤ → Option ℤ := checked (-2 ^ 31) (2 ^ 31)

abbrev int64 : ℤ → Option ℤ := checked (-2 ^ 63) (2 ^ 63)

/-- `ddsi_time_infinite`. -/
def infinite : DdsiTime := ⟨0x7fffffff, 0xffffffff⟩

/-- `valid_ddsi_timestamp`, where the invalid one is `{ -1, 0xffffffff }`. -/
def valid (t : DdsiTime) : Bool := t.seconds ≠ -1 && t.fraction ≠ 0xffffffff

def nnToDdsiTime (t : ℤ) : Option DdsiTime :=
  if t = 2 ^ 63 - 1 then some infinite
  else do
    let ns ← int (t.tmod (10 ^ 9))
    let seconds ← int (t.tdiv (10 ^ 9))
    let shifted ← int64 (ns * 2 ^ 32)
    let sum ← int64 (10 ^ 9 - 1 + shifted)
    let fraction ← checked 0 (2 ^ 32) (sum.tdiv (10 ^ 9))
    return ⟨seconds, fraction⟩

def nnFromDdsiTime (x : DdsiTime) : Option ℤ :=
  if x = infinite then some (2 ^ 63 - 1)
  else do
    let product ← int64 (x.fraction * 10 ^ 9)
    let sum ← int64 (0x80000000 + product)
    let ns ← int (sum / 2 ^ 32)
    let whole ← int64 (x.seconds * 10 ^ 9)
    int64 (whole + ns)

lemma checked_eq {lo hi x : ℤ} (hlo : lo ≤ x) (hhi : x < hi) : checked lo hi x = some x :=
  if_pos ⟨hlo, hhi⟩

variable {t : ℤ}

/-- The seconds and the fraction, which is rounded up. -/
lemma nnToDdsiTime_eq (h0 : 0 ≤ t) (ht : t < 2 ^ 31 * 10 ^ 9) :
    nnToDdsiTime t = some ⟨t / 10 ^ 9, (10 ^ 9 - 1 + t % 10 ^ 9 * 2 ^ 32) / 10 ^ 9⟩ := by
  have hmod := Int.tmod_eq_emod_of_nonneg h0 (b := 10 ^ 9)
  have hdiv := Int.tdiv_eq_ediv_of_nonneg h0 (b := 10 ^ 9)
  have hsum := Int.tdiv_eq_ediv_of_nonneg (a := 10 ^ 9 - 1 + t % 10 ^ 9 * 2 ^ 32) (b := 10 ^ 9)
    (by omega)
  rw [nnToDdsiTime, if_neg (by omega)]
  simp (disch := omega) only [hmod, hdiv, hsum, checked_eq, Option.bind_eq_bind, Option.bind_some]
  rfl

/-- A time comes back as it was, later times get greater timestamps, and nothing overflows. -/
theorem nnToDdsiTime_roundTrip (h0 : 0 ≤ t) (ht : t < 2 ^ 31 * 10 ^ 9) :
    ∃ x, nnToDdsiTime t = some x ∧ nnFromDdsiTime x = some t ∧ x.valid = true ∧ x ≠ infinite ∧
      ∀ t', t < t' → t' < 2 ^ 31 * 10 ^ 9 → ∃ x', nnToDdsiTime t' = some x' ∧
        (x.seconds < x'.seconds ∨ x.seconds = x'.seconds ∧ x.fraction < x'.fraction) := by
  have hfraction : (10 ^ 9 - 1 + t % 10 ^ 9 * 2 ^ 32) / 10 ^ 9 < 0xffffffff := by omega
  have hinf : (⟨t / 10 ^ 9, (10 ^ 9 - 1 + t % 10 ^ 9 * 2 ^ 32) / 10 ^ 9⟩ : DdsiTime) ≠ infinite :=
    fun h ↦ hfraction.ne (congrArg fraction h)
  refine ⟨_, nnToDdsiTime_eq h0 ht, ?_, ?_, hinf, fun t' hlt ht' ↦ ?_⟩
  · rw [nnFromDdsiTime, if_neg hinf]
    simp (disch := omega) only [checked_eq, Option.bind_eq_bind, Option.bind_some]
    congr 1
    omega
  · simp only [valid, Bool.and_eq_true, decide_eq_true_eq]
    omega
  · refine ⟨_, nnToDdsiTime_eq (h0.trans hlt.le) ht', ?_⟩
    dsimp only
    omega

theorem nnToDdsiTime_roundTrip_max :
    ∃ x, nnToDdsiTime (2 ^ 31 * 10 ^ 9 - 1) = some x ∧
      nnFromDdsiTime x = some (2 ^ 31 * 10 ^ 9 - 1) := by
  obtain ⟨x, hto, hfrom, -⟩ :=
    nnToDdsiTime_roundTrip (t := 2 ^ 31 * 10 ^ 9 - 1) (by decide) (by decide)
  exact ⟨x, hto, hfrom⟩

end DdsiTime

end OpenSplice.Ddsi
