import OpenSplice.Ddsi.Writer.Gap

/-!
# Receiving a Gap

`handle_Gap` of `q_receive.c` turns a Gap into ranges of sequence numbers, each passed to
`handle_one_gap`, and notes the highest number it has heard of. One bits at the start of the bitmap
are made part of the first range, and that range is left out if it is empty. If the range ends
before it starts these bits are lost; besides, only an overflow makes it miss a number
(`handleGap_iff`).

`fromSN` yields any `os_int64`, so the sums may overflow, in which case the model returns nothing.
Of `handle_one_gap` only the ranges it is called with are kept.
-/

set_option autoImplicit false

namespace OpenSplice.Ddsi

open List Option Prod

/-! ### The functions -/

/-- `valid_Gap`, for a submessage that is long enough for its bits. -/
def validGap (strict : Bool) (gap : Gap) : Bool :=
  decide (0 < gap.gapStart) &&
    (decide (0 < gap.bitmapBase ∧ 0 < gap.bits.length ∧ gap.bits.length ≤ 256) ||
      (!strict && decide (gap.bits.length = 0)))

/-- The sum of two `os_int64`. -/
def int64Add (a b : ℤ) : Option ℤ := if -2 ^ 63 ≤ a + b ∧ a + b < 2 ^ 63 then some (a + b) else none

def runLength : List Bool → ℕ
  | true :: bits => runLength bits + 1
  | _ => 0

/-- The loops of `handle_Gap` that look for the end of a run of one bits. -/
def runEnd (bits : List Bool) (j : ℕ) : ℕ := j + runLength (bits.drop j)

/-- The `while` loop of `handle_Gap`, for at most `fuel` rounds: the ranges and
`last_included_rel`. -/
def handleGapLoop (listbase : ℤ) (bits : List Bool) : ℕ → ℕ → ℤ → Option (List (ℤ × ℤ) × ℤ)
  | 0, _, lastIncludedRel => some ([], lastIncludedRel)
  | fuel + 1, listidx, lastIncludedRel =>
    if bits.length ≤ listidx then some ([], lastIncludedRel)
    else if bits[listidx]? = some true then
      let j := runEnd bits (listidx + 1)
      (int64Add listbase listidx).bind fun a ↦ (int64Add listbase j).bind fun b ↦
        (handleGapLoop listbase bits fuel j (j - 1)).map fun out ↦ ((a, b) :: out.1, out.2)
    else handleGapLoop listbase bits fuel (listidx + 1) lastIncludedRel

/-- What a proxy writer knows of the last sample of its writer. -/
structure LastKnown where
  lastSeq : ℤ
  lastFragnum : ℕ
  lastFragnumReset : Bool
  deriving DecidableEq

/-- `handle_Gap` for a matched reader: the ranges passed to `handle_one_gap`, and the proxy writer
afterwards. -/
def handleGap (gap : Gap) (pwr : LastKnown) : Option (List (ℤ × ℤ) × LastKnown) :=
  let listidx := runEnd gap.bits 0
  (int64Add gap.bitmapBase listidx).bind fun first ↦
    (handleGapLoop gap.bitmapBase gap.bits gap.bits.length listidx (listidx - 1)).bind fun out ↦
      (int64Add gap.bitmapBase out.2).map fun last ↦
        ((if gap.gapStart < first then [(gap.gapStart, first)] else []) ++ out.1,
          if pwr.lastSeq < last then ⟨last, 2 ^ 32 - 1, false⟩ else pwr)

section Loop

variable {listbase : ℤ} {bits : List Bool} {i j fuel listidx : ℕ} {rel rel' : ℤ}
  {ranges : List (ℤ × ℤ)}

lemma int64Add_eq_some {a b c : ℤ} :
    int64Add a b = some c ↔ (-2 ^ 63 ≤ a + b ∧ a + b < 2 ^ 63) ∧ c = a + b := by
  unfold int64Add
  split_ifs with h
  · exact ⟨fun hc ↦ ⟨h, (some.inj hc).symm⟩, fun hc ↦ congrArg some hc.2.symm⟩
  · exact ⟨fun hc ↦ by simp at hc, fun hc ↦ absurd hc.1 h⟩

section

variable (bits : List Bool)

lemma getElem?_runLength :
    (∀ i < runLength bits, bits[i]? = some true) ∧ bits[runLength bits]? ≠ some true := by
  fun_induction runLength bits with
  | case1 bits ih =>
    refine ⟨fun i hi ↦ ?_, by simpa using ih.2⟩
    cases i with
    | zero => rfl
    | succ i => simpa using ih.1 i (by omega)
  | case2 bits hne =>
    refine ⟨by simp, fun h ↦ ?_⟩
    obtain ⟨rest, rfl⟩ : ∃ rest, bits = true :: rest := by
      cases bits <;> simp_all
    exact hne rest rfl

lemma getElem?_runEnd (j : ℕ) : bits[runEnd bits j]? ≠ some true := by
  simpa [runEnd, getElem?_drop] using (getElem?_runLength (bits.drop j)).2

lemma le_runEnd (j : ℕ) : j ≤ runEnd bits j := Nat.le_add_right _ _

end

lemma getElem?_of_lt_runEnd (hj : j ≤ i) (hi : i < runEnd bits j) : bits[i]? = some true := by
  have h := (getElem?_runLength (bits.drop j)).1 (i - j) (by unfold runEnd at hi; omega)
  rwa [getElem?_drop, show j + (i - j) = i by omega] at h

/-! ### The loop -/

/-- The ranges of the bits from `listidx` on. -/
structure GapRanges (listbase : ℤ) (bits : List Bool) (listidx : ℕ) (ranges : List (ℤ × ℤ))
    (rel rel' : ℤ) : Prop where
  covers : ∀ n, (∃ r ∈ ranges, r.1 ≤ n ∧ n < r.2) ↔
    ∃ i, listidx ≤ i ∧ bits[i]? = some true ∧ n = listbase + (i : ℤ)
  ordered : ranges.Pairwise fun r r' ↦ r.2 ≤ r'.1
  nonempty : ∀ r ∈ ranges, r.1 < r.2
  behind : ∀ r ∈ ranges, listbase + listidx ≤ r.1
  le_last : ∀ i : ℕ, listidx ≤ i → bits[i]? = some true → (i : ℤ) ≤ rel'
  last : rel' = rel ∨ ∃ i : ℕ, listidx ≤ i ∧ bits[i]? = some true ∧ rel' = i
  fits : ∀ i, listidx ≤ i → bits[i]? = some true → listbase + (i : ℤ) + 1 < 2 ^ 63

lemma gapRanges_nil (h : bits.length ≤ listidx) (rel : ℤ) :
    GapRanges listbase bits listidx [] rel rel := by
  have hnone : ∀ i, listidx ≤ i → bits[i]? ≠ some true := fun i hi ↦ by
    simp [getElem?_eq_none (h.trans hi)]
  exact ⟨by grind, .nil, by simp, by simp, fun i hi h ↦ absurd h (hnone i hi), .inl rfl,
    fun i hi h ↦ absurd h (hnone i hi)⟩

lemma GapRanges.skip (h : GapRanges listbase bits (listidx + 1) ranges rel rel')
    (hclear : bits[listidx]? ≠ some true) : GapRanges listbase bits listidx ranges rel rel' := by
  have hnext : ∀ i, listidx ≤ i → bits[i]? = some true → listidx + 1 ≤ i := fun i hi hset ↦
    Nat.lt_of_le_of_ne hi fun heq ↦ hclear (heq ▸ hset)
  refine ⟨fun n ↦ (h.covers n).trans ⟨?_, ?_⟩, h.ordered, h.nonempty, fun r hr ↦ ?_,
    fun i hi hset ↦ h.le_last i (hnext i hi hset) hset, ?_,
    fun i hi hset ↦ h.fits i (hnext i hi hset) hset⟩
  · rintro ⟨i, hi, hset, rfl⟩
    exact ⟨i, by omega, hset, rfl⟩
  · rintro ⟨i, hi, hset, rfl⟩
    exact ⟨i, hnext i hi hset, hset, rfl⟩
  · have := h.behind r hr
    omega
  · rcases h.last with hrel | ⟨i, hi, hset⟩
    · exact .inl hrel
    · exact .inr ⟨i, by omega, hset⟩

lemma GapRanges.run (hset : bits[listidx]? = some true)
    (h : GapRanges listbase bits (runEnd bits (listidx + 1)) ranges
      ((runEnd bits (listidx + 1) : ℤ) - 1) rel')
    (hfits : listbase + (runEnd bits (listidx + 1) : ℤ) < 2 ^ 63) :
    GapRanges listbase bits listidx
      ((listbase + (listidx : ℤ), listbase + (runEnd bits (listidx + 1) : ℤ)) :: ranges) rel
      rel' := by
  have hle := le_runEnd bits (listidx + 1)
  have hones : ∀ i, listidx ≤ i → i < runEnd bits (listidx + 1) → bits[i]? = some true := by
    intro i hi hlt
    rcases hi.eq_or_lt with rfl | hi
    · exact hset
    · exact getElem?_of_lt_runEnd hi hlt
  have hrel' : (runEnd bits (listidx + 1) : ℤ) - 1 ≤ rel' := by
    rcases h.last with hrel | ⟨i, hi, -, hrel⟩ <;> omega
  refine ⟨fun n ↦ ?_, pairwise_cons.mpr ⟨h.behind, h.ordered⟩,
    forall_mem_cons.mpr ⟨by dsimp only; omega, h.nonempty⟩,
    forall_mem_cons.mpr ⟨le_refl _, fun r hr ↦ (by have := h.behind r hr; omega)⟩,
    fun i hi hbit ↦ ?_, .inr ?_, fun i hi hbit ↦ ?_⟩
  · simp only [mem_cons, exists_eq_or_imp, h.covers n]
    constructor
    · rintro (⟨hlo, hhi⟩ | ⟨i, hi, hbit, rfl⟩)
      · exact ⟨(n - listbase).toNat, by omega, hones _ (by omega) (by omega), by omega⟩
      · exact ⟨i, by omega, hbit, rfl⟩
    · rintro ⟨i, hi, hbit, rfl⟩
      rcases lt_or_ge i (runEnd bits (listidx + 1)) with hlt | hge
      · exact .inl ⟨by omega, by omega⟩
      · exact .inr ⟨i, hge, hbit, rfl⟩
  · rcases lt_or_ge i (runEnd bits (listidx + 1)) with hlt | hge
    · omega
    · exact h.le_last i hge hbit
  · rcases h.last with hrel | ⟨i, hi, hbit⟩
    · exact ⟨runEnd bits (listidx + 1) - 1, by omega, hones _ (by omega) (by omega), by omega⟩
    · exact ⟨i, by omega, hbit⟩
  · rcases lt_or_ge i (runEnd bits (listidx + 1)) with hlt | hge
    · omega
    · exact h.fits i hge hbit

lemma handleGapLoop_ranges (hfuel : bits.length ≤ listidx + fuel)
    (h : handleGapLoop listbase bits fuel listidx rel = some (ranges, rel')) :
    GapRanges listbase bits listidx ranges rel rel' := by
  induction fuel generalizing listidx rel ranges rel' with
  | zero =>
    obtain ⟨rfl, rfl⟩ := mk.inj (some.inj h)
    exact gapRanges_nil (by omega) rel
  | succ _ ih =>
    rw [handleGapLoop] at h
    split_ifs at h with hend hset
    · obtain ⟨rfl, rfl⟩ := mk.inj (some.inj h)
      exact gapRanges_nil hend rel
    · obtain ⟨a, ha, h⟩ := bind_eq_some_iff.mp h
      obtain ⟨b, hb, h⟩ := bind_eq_some_iff.mp h
      obtain ⟨out, hout, h⟩ := map_eq_some_iff.mp h
      obtain ⟨rfl, rfl⟩ := mk.inj h
      obtain ⟨-, rfl⟩ := int64Add_eq_some.mp ha
      obtain ⟨⟨-, hfits⟩, rfl⟩ := int64Add_eq_some.mp hb
      have hle := le_runEnd bits (listidx + 1)
      exact .run hset (ih (by omega) hout) hfits
    · exact (ih (by omega) h).skip hset

lemma handleGapLoop_isSome (hbase : -2 ^ 63 ≤ listbase)
    (hfits : ∀ i : ℕ, bits[i]? = some true → listbase + (i : ℤ) + 1 < 2 ^ 63) (fuel listidx : ℕ)
    (rel : ℤ) : ∃ out, handleGapLoop listbase bits fuel listidx rel = some out := by
  induction fuel generalizing listidx rel with
  | zero => exact ⟨_, rfl⟩
  | succ _ ih =>
    rw [handleGapLoop]
    split_ifs with hend hset
    · exact ⟨_, rfl⟩
    · have hle := le_runEnd bits (listidx + 1)
      have hlast : bits[runEnd bits (listidx + 1) - 1]? = some true := by
        rcases hle.eq_or_lt with heq | hlt
        · simpa [← heq] using hset
        · exact getElem?_of_lt_runEnd (by omega) (Nat.sub_lt (by omega) Nat.one_pos)
      have hj := hfits _ hlast
      obtain ⟨out, hout⟩ := ih (runEnd bits (listidx + 1)) ((runEnd bits (listidx + 1) : ℤ) - 1)
      exact ⟨_, bind_eq_some_iff.mpr ⟨_, int64Add_eq_some.mpr ⟨⟨by omega, by omega⟩, rfl⟩,
        bind_eq_some_iff.mpr ⟨_, int64Add_eq_some.mpr ⟨⟨by omega, by omega⟩, rfl⟩,
          map_eq_some_iff.mpr ⟨out, hout, rfl⟩⟩⟩⟩
    · exact ih _ _

end Loop

/-! ### What is handled -/

/-- The ranges are those of the Gap, and the highest number it declares is known to exist. -/
structure GapHandled (gap : Gap) (ranges : List (ℤ × ℤ)) (pwr' : LastKnown) : Prop where
  union : ∀ n, (∃ r ∈ ranges, r.1 ≤ n ∧ n < r.2) ↔ gap.Declares n
  disjoint : ranges.Pairwise fun r r' ↦ r.2 ≤ r'.1
  nonempty : ∀ r ∈ ranges, r.1 < r.2
  last : ∀ n, gap.Declares n → n ≤ pwr'.lastSeq

/-- The numbers behind those the bits declare are `os_int64`, and so is the one before the bitmap if
no bit is set. -/
def Gap.fits (gap : Gap) : Prop :=
  (∀ i < gap.bits.length, gap.bits[i]? = some true → gap.bitmapBase + (i : ℤ) + 1 < 2 ^ 63) ∧
    (true ∉ gap.bits → -2 ^ 63 < gap.bitmapBase)

instance (gap : Gap) : Decidable gap.fits := by
  unfold Gap.fits
  infer_instance

lemma Gap.fits_of_set {gap : Gap} (h : gap.fits) (i : ℕ) (hset : gap.bits[i]? = some true) :
    gap.bitmapBase + (i : ℤ) + 1 < 2 ^ 63 :=
  h.1 i (List.getElem?_eq_some_iff.mp hset).1 hset

section Handled

variable {gap : Gap} {ranges : List (ℤ × ℤ)} {rel : ℤ}

lemma head?_eq_some_true {bits : List Bool} : bits.head? = some true ↔ 0 < runEnd bits 0 := by
  rw [head?_eq_getElem?]
  refine ⟨fun h ↦ Nat.pos_of_ne_zero fun hzero ↦ ?_, getElem?_of_lt_runEnd (Nat.zero_le 0)⟩
  exact getElem?_runEnd bits 0 (hzero.symm ▸ h)

lemma exists_mem_ite_range {a b n : ℤ} :
    (∃ r ∈ (if a < b then [(a, b)] else []), r.1 ≤ n ∧ n < r.2) ↔ a ≤ n ∧ n < b := by
  split_ifs
  · simp
  · simp
    omega

section

variable (h : GapRanges gap.bitmapBase gap.bits (runEnd gap.bits 0) ranges
    ((runEnd gap.bits 0 : ℤ) - 1) rel)
include h

/-- The first range and those of the loop are what the Gap declares, unless the first bit is set and
the first range starts behind it. -/
lemma GapRanges.handled
    (hstart : gap.gapStart ≤ gap.bitmapBase ∨ gap.bits.head? ≠ some true) {pwr : LastKnown}
    (hlast : gap.bitmapBase + rel ≤ pwr.lastSeq) :
    GapHandled gap ((if gap.gapStart < gap.bitmapBase + (runEnd gap.bits 0 : ℤ) then
      [(gap.gapStart, gap.bitmapBase + (runEnd gap.bits 0 : ℤ))] else []) ++ ranges) pwr := by
  have hones : ∀ i < runEnd gap.bits 0, gap.bits[i]? = some true := fun i hi ↦
    getElem?_of_lt_runEnd (Nat.zero_le i) hi
  rw [Ne, head?_eq_some_true] at hstart
  generalize runEnd gap.bits 0 = listidx at *
  refine ⟨fun n ↦ ?_, pairwise_append.mpr ⟨by split_ifs <;> simp, h.ordered, fun r hr r' hr' ↦ ?_⟩,
    forall_mem_append.mpr ⟨fun r hr ↦ ?_, h.nonempty⟩, fun n hn ↦ hlast.trans' ?_⟩
  · simp only [mem_append, or_and_right, exists_or, exists_mem_ite_range, h.covers n, Gap.Declares]
    constructor
    · rintro (⟨hlo, hhi⟩ | ⟨i, -, hset, hn⟩)
      · by_cases hbelow : n < gap.bitmapBase
        · exact .inl ⟨hlo, hbelow⟩
        · exact .inr ⟨(n - gap.bitmapBase).toNat, hones _ (by omega), by omega⟩
      · exact .inr ⟨i, hset, hn⟩
    · rintro (⟨hlo, hhi⟩ | ⟨i, hset, hn⟩)
      · exact .inl ⟨hlo, by omega⟩
      · rcases lt_or_ge i listidx with hlt | hge
        · exact .inl ⟨by omega, by omega⟩
        · exact .inr ⟨i, hge, hset, hn⟩
  · split_ifs at hr
    · obtain rfl := mem_singleton.mp hr
      exact h.behind r' hr'
    · simp at hr
  · split_ifs at hr with hlt
    · obtain rfl := mem_singleton.mp hr
      exact hlt
    · simp at hr
  · have hrel : (listidx : ℤ) - 1 ≤ rel := by
      rcases h.last with hrel | ⟨i, hi, -, hrel⟩ <;> omega
    rcases hn with ⟨-, hn⟩ | ⟨i, hset, rfl⟩
    · omega
    · rcases lt_or_ge i listidx with hlt | hge
      · omega
      · have := h.le_last i hge hset
        omega

lemma GapRanges.fits_iff (hbase : -2 ^ 63 ≤ gap.bitmapBase ∧ gap.bitmapBase < 2 ^ 63) :
    gap.fits ↔ gap.bitmapBase + (runEnd gap.bits 0 : ℤ) < 2 ^ 63 ∧
      -2 ^ 63 ≤ gap.bitmapBase + rel ∧ gap.bitmapBase + rel < 2 ^ 63 := by
  have hones : ∀ i < runEnd gap.bits 0, gap.bits[i]? = some true := fun i hi ↦
    getElem?_of_lt_runEnd (Nat.zero_le i) hi
  generalize runEnd gap.bits 0 = listidx at *
  constructor
  · intro hfits
    have hset := Gap.fits_of_set hfits
    have hfirst : 0 < listidx → gap.bitmapBase + (listidx : ℤ) < 2 ^ 63 := fun hpos ↦ by
      have := hset (listidx - 1) (hones _ (by omega))
      omega
    rcases h.last with hrel | ⟨i, -, hi, hrel⟩
    · by_cases hbits : true ∈ gap.bits
      · obtain ⟨i, hi⟩ := mem_iff_getElem?.mp hbits
        have := h.le_last i
        grind
      · have := hfits.2 hbits
        omega
    · have := hset i hi
      omega
  · rintro ⟨hfirst, hlow, -⟩
    refine ⟨fun i _ hset ↦ ?_, fun hclear ↦ ?_⟩
    · rcases lt_or_ge i listidx with hlt | hge
      · omega
      · exact h.fits i hge hset
    · have hnone : ∀ i, gap.bits[i]? ≠ some true := fun i hi ↦ hclear (mem_of_getElem? hi)
      have hzero : ¬ 0 < listidx := fun hpos ↦ hnone 0 (hones 0 hpos)
      rcases h.last with hrel | ⟨i, -, hset, -⟩
      · omega
      · exact absurd hset (hnone i)

end

end Handled

/-- `handle_Gap` handles what a Gap declares if and only if the range does not end before it starts
while the first bit is set, and no sum overflows. -/
theorem handleGap_iff (gap : Gap) (pwr : LastKnown)
    (hbase : -2 ^ 63 ≤ gap.bitmapBase ∧ gap.bitmapBase < 2 ^ 63) :
    (∃ ranges pwr', handleGap gap pwr = some (ranges, pwr') ∧ GapHandled gap ranges pwr') ↔
      (gap.gapStart ≤ gap.bitmapBase ∨ gap.bits.head? ≠ some true) ∧ gap.fits := by
  constructor
  · rintro ⟨ranges, pwr', h, hhandled⟩
    obtain ⟨first, hfirst, h⟩ := bind_eq_some_iff.mp h
    obtain ⟨out, hout, h⟩ := bind_eq_some_iff.mp h
    obtain ⟨last, hlast, h⟩ := map_eq_some_iff.mp h
    obtain ⟨rfl, rfl⟩ := mk.inj h
    obtain ⟨⟨-, hfits⟩, rfl⟩ := int64Add_eq_some.mp hfirst
    obtain ⟨hfits', rfl⟩ := int64Add_eq_some.mp hlast
    have hranges := handleGapLoop_ranges (Nat.le_add_left _ _) hout
    refine ⟨or_iff_not_imp_right.mpr fun hset ↦ ?_, (hranges.fits_iff hbase).mpr ⟨hfits, hfits'⟩⟩
    -- the number of the first bit is in none of the ranges
    have hpos := head?_eq_some_true.mp (not_not.mp hset)
    obtain ⟨r, hr, hlo, hhi⟩ := (hhandled.union gap.bitmapBase).mpr
      (.inr ⟨0, getElem?_of_lt_runEnd (le_refl 0) hpos, by simp⟩)
    rcases mem_append.mp hr with hr | hr
    · exact (exists_mem_ite_range.mp ⟨r, hr, hlo, hhi⟩).1
    · have := hranges.behind r hr
      omega
  · rintro ⟨hstart, hfits⟩
    obtain ⟨out, hout⟩ := handleGapLoop_isSome hbase.1 (Gap.fits_of_set hfits) gap.bits.length
      (runEnd gap.bits 0) ((runEnd gap.bits 0 : ℤ) - 1)
    have hranges := handleGapLoop_ranges (Nat.le_add_left _ _) hout
    obtain ⟨hfirst, hlast⟩ := (hranges.fits_iff hbase).mp hfits
    refine ⟨_, _, bind_eq_some_iff.mpr ⟨_, int64Add_eq_some.mpr ⟨⟨by omega, hfirst⟩, rfl⟩,
      bind_eq_some_iff.mpr ⟨out, hout, map_eq_some_iff.mpr
        ⟨_, int64Add_eq_some.mpr ⟨hlast, rfl⟩, rfl⟩⟩⟩, hranges.handled hstart ?_⟩
    split_ifs
    · exact le_refl _
    · omega

/-- A Gap from 5 on with a bitmap from 8 on, of which the bits of 8, 9 and 11 are set. -/
theorem handleGap_twelve :
    ∃ ranges pwr', handleGap ⟨5, 8, [true, true, false, true]⟩ ⟨7, 0, false⟩ = some (ranges, pwr') ∧
      GapHandled ⟨5, 8, [true, true, false, true]⟩ ranges pwr' :=
  (handleGap_iff ⟨5, 8, [true, true, false, true]⟩ ⟨7, 0, false⟩ (by decide)).mpr (by decide)

/-- A Gap that starts behind its bitmap: the bits of 10 and 11 are set, and the first range is the
one from 12 to 12, which is empty. Nothing is handled. -/
theorem handleGap_drops_leading_bits :
    validGap true ⟨12, 10, [true, true]⟩ = true ∧
      handleGap ⟨12, 10, [true, true]⟩ ⟨9, 0, false⟩ = some ([], ⟨11, 2 ^ 32 - 1, false⟩) ∧
      Gap.Declares ⟨12, 10, [true, true]⟩ 10 ∧ Gap.Declares ⟨12, 10, [true, true]⟩ 11 :=
  ⟨by decide, by decide, .inr ⟨0, rfl, by simp⟩, .inr ⟨1, rfl, by simp⟩⟩

end OpenSplice.Ddsi
