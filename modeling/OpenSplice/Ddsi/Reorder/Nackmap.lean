import OpenSplice.Ddsi.GapReceipt
import OpenSplice.Ddsi.Reorder.Delivery

/-!
# The bitmap of an AckNack

`nn_reorder_nackmap` of `q_radmin.c` makes the bitmap that asks for the samples missing from a
reorder administration. It sets the bits between the intervals (`nackmapLoop_bits`), and so takes
the numbers before the first of them for missing. With late acknowledgements the bitmap may start
before `next_seq`, and then asks for samples that were received (`nackmap_iff`). It starts at
`next_deliv_seq` then, which is read back from its low word.
-/

set_option autoImplicit false

namespace OpenSplice.Ddsi

open List Option BitVec

variable {F : Type}

/-- `struct nn_sequence_number_set`, with the bits below `numbits`. -/
structure SequenceNumberSet where
  bitmapBase : ℤ
  numbits : ℕ
  bits : ℕ → Bool

/-- The loop that sets the bits of `[i, stop)`. -/
def setBits (base i stop : ℤ) (bits : ℕ → Bool) : ℕ → Bool := fun x ↦
  bits x || (decide (i ≤ base + x) && decide (base + x < stop))

/-- The `while` loop of `nn_reorder_nackmap`: where it ends, and the bits. -/
def nackmapLoop (base stop : ℤ) :
    List (RsampleReorder F) → ℤ → (ℕ → Bool) → ℤ × (ℕ → Bool)
  | [], i, bits => (i, bits)
  | iv :: ivs, i, bits =>
    if i < stop then nackmapLoop base stop ivs iv.maxp1 (setBits base i (min stop iv.min) bits)
    else (i, bits)

/-- `nn_reorder_nackmap`. Nothing if `maxseq + 1` or `maxseq + 1 - base` overflows. -/
def nnReorderNackmap (reorder : Reorder F) (base maxseq : ℤ) (maxsz : ℕ) (notail : Bool) :
    Option SequenceNumberSet :=
  let maxsz := min maxsz reorder.maxSamples
  let base := min base reorder.nextSeq
  (int64Add maxseq 1).bind fun maxseqp1 ↦ (int64Add (max maxseqp1 base) (-base)).map fun size ↦
    let numbits := min maxsz size.toNat
    let out := nackmapLoop base (base + numbits) reorder.sampleivtree base fun _ ↦ false
    if notail = true ∧ out.1 < base + numbits then ⟨base, (out.1 - base).toNat, out.2⟩
    else ⟨base, numbits, setBits base out.1 (base + numbits) out.2⟩

def nackWindow (reorder : Reorder F) (base maxseq : ℤ) (maxsz : ℕ) : ℕ :=
  min (min maxsz reorder.maxSamples) (maxseq + 1 - base).toNat

/-- The bitmap asks for what is missing. -/
structure NacksMissing (reorder : Reorder F) (base maxseq : ℤ) (maxsz : ℕ) (notail : Bool)
    (map : SequenceNumberSet) : Prop where
  start : map.bitmapBase = base
  size : map.numbits ≤ nackWindow reorder base maxseq maxsz
  asked : ∀ i < map.numbits, map.bits i = true ↔ reorder.nextSeq ≤ base + i ∧
    ∀ s ∈ reorder.sampleivtree, ¬ (s.min ≤ base + i ∧ base + i < s.maxp1)
  full : notail = false → map.numbits = nackWindow reorder base maxseq maxsz
  tail : notail = true → ∀ i < map.numbits, ∃ s ∈ reorder.sampleivtree, base + (i : ℤ) < s.maxp1

section Loop

variable {base stop i : ℤ} {ivs : List (RsampleReorder F)} {x : ℕ}

lemma setBits_eq_true {bits : ℕ → Bool} : setBits base i stop bits x ↔
    bits x ∨ (i ≤ base + x ∧ base + x < stop) := by
  simp [setBits]

/-- Where the loop ends: not before its start, and behind the last interval unless the bitmap is
full. -/
lemma nackmapLoop_end (base stop : ℤ) (bits : ℕ → Bool)
    (hivs : ∀ s ∈ ivs, i < s.min ∧ s.min < s.maxp1) (hsep : SeparatedTree ivs) :
    i ≤ (nackmapLoop base stop ivs i bits).1 ∧
      (i < stop → ivs ≠ [] → i < (nackmapLoop base stop ivs i bits).1) ∧
      ((nackmapLoop base stop ivs i bits).1 < stop →
        ∀ s ∈ ivs, s.maxp1 ≤ (nackmapLoop base stop ivs i bits).1) ∧
      ((nackmapLoop base stop ivs i bits).1 = i ∨
        ∃ s ∈ ivs, (nackmapLoop base stop ivs i bits).1 = s.maxp1) := by
  induction ivs generalizing i bits with
  | nil => exact ⟨le_refl _, fun _ h ↦ absurd rfl h, by simp, .inl rfl⟩
  | cons iv _ ih =>
    obtain ⟨hiv, hrest⟩ := forall_mem_cons.mp hivs
    obtain ⟨hcross, hsep⟩ := pairwise_cons.mp hsep
    rw [nackmapLoop]
    split_ifs with hlt
    · obtain ⟨hle, -, hbehind, hwhere⟩ := ih (setBits base i (min stop iv.min) bits)
        (fun s hs ↦ ⟨hcross s hs, (hrest s hs).2⟩) hsep
      refine ⟨by omega, fun _ _ ↦ by omega, fun hstop ↦ forall_mem_cons.mpr ⟨hle, hbehind hstop⟩,
        .inr ?_⟩
      rcases hwhere with heq | ⟨s, hs, heq⟩
      · exact ⟨iv, mem_cons_self, heq⟩
      · exact ⟨s, mem_cons_of_mem _ hs, heq⟩
    · exact ⟨le_refl _, fun h ↦ absurd h hlt, fun h ↦ absurd h hlt, .inl rfl⟩

/-- The loop sets the bits of the numbers it passes that are in no interval. -/
lemma nackmapLoop_bits (bits : ℕ → Bool) (hivs : ∀ s ∈ ivs, i < s.min ∧ s.min < s.maxp1)
    (hsep : SeparatedTree ivs) (hx : base + x < stop) :
    (nackmapLoop base stop ivs i bits).2 x ↔ bits x ∨
      (i ≤ base + x ∧ base + x < (nackmapLoop base stop ivs i bits).1 ∧
        ∀ s ∈ ivs, ¬ (s.min ≤ base + x ∧ base + x < s.maxp1)) := by
  induction ivs generalizing i bits with
  | nil =>
    simp only [nackmapLoop, not_mem_nil]
    grind
  | cons iv ivs ih =>
    obtain ⟨hiv, hrest⟩ := forall_mem_cons.mp hivs
    obtain ⟨hcross, hsep'⟩ := pairwise_cons.mp hsep
    rw [nackmapLoop]
    split_ifs with hlt
    · have hivs' : ∀ s ∈ ivs, iv.maxp1 < s.min ∧ s.min < s.maxp1 := fun s hs ↦
        ⟨hcross s hs, (hrest s hs).2⟩
      have hend := nackmapLoop_end base stop (setBits base i (min stop iv.min) bits) hivs' hsep'
      rw [ih _ hivs' hsep', setBits_eq_true, forall_mem_cons]
      have hbefore : base + x < iv.maxp1 → ∀ s ∈ ivs, ¬ (s.min ≤ base + x ∧ base + x < s.maxp1) :=
        fun hlt s hs ↦ by
          have := hivs' s hs
          omega
      constructor
      · rintro ((hset | ⟨hlo, hhi⟩) | ⟨hlo, hhi, hnone⟩)
        · exact .inl hset
        · exact .inr ⟨hlo, by omega, by omega, hbefore (by omega)⟩
        · exact .inr ⟨by omega, hhi, by omega, hnone⟩
      · rintro (hset | ⟨hlo, hhi, hiv', hnone⟩)
        · exact .inl (.inl hset)
        · by_cases hmin : base + x < iv.min
          · exact .inl (.inr ⟨hlo, by omega⟩)
          · exact .inr ⟨by omega, hhi, hnone⟩
    · grind

end Loop

/-- The bitmap, whose bits are those of the numbers in no interval. It is empty only if the window
is, or if there is no interval and no bits behind the last one are wanted. -/
lemma nnReorderNackmap_spec {r : Reorder F} (h : ReorderInv r) {base maxseq : ℤ} (maxsz : ℕ)
    (notail : Bool) (hbase : base ≤ r.nextSeq) (hmaxseq : base - 1 ≤ maxseq)
    (hlow : -2 ^ 63 ≤ base) (hmax : maxseq + 1 < 2 ^ 63) (hsize : maxseq + 1 - base < 2 ^ 63) :
    ∃ map, nnReorderNackmap r base maxseq maxsz notail = some map ∧ map.bitmapBase = base ∧
      map.numbits ≤ nackWindow r base maxseq maxsz ∧
      (∀ i < map.numbits, map.bits i ↔
        ∀ s ∈ r.sampleivtree, ¬ (s.min ≤ base + i ∧ base + i < s.maxp1)) ∧
      (notail = false → map.numbits = nackWindow r base maxseq maxsz) ∧
      (notail → ∀ i < map.numbits, ∃ s ∈ r.sampleivtree, base + (i : ℤ) < s.maxp1) ∧
      (map.numbits = 0 ↔ nackWindow r base maxseq maxsz = 0 ∨ (notail ∧ r.sampleivtree = [])) := by
  have hivs : ∀ s ∈ r.sampleivtree, base < s.min ∧ s.min < s.maxp1 := fun s hs ↦
    ⟨by have := h.above s hs; omega, (h.intervals s hs).lt⟩
  have hadd : int64Add maxseq 1 = some (maxseq + 1) := int64Add_eq_some.mpr ⟨⟨by omega, hmax⟩, rfl⟩
  have hsub : int64Add (maxseq + 1) (-base) = some (maxseq + 1 - base) :=
    int64Add_eq_some.mpr ⟨⟨by omega, hsize⟩, rfl⟩
  simp only [nnReorderNackmap, hadd, bind_some, min_eq_left hbase,
    max_eq_left (show base ≤ maxseq + 1 by omega), hsub, map_some, nackWindow]
  generalize min (min maxsz r.maxSamples) (maxseq + 1 - base).toNat = window
  obtain ⟨hle, hlt, hbehind, hwhere⟩ := nackmapLoop_end base (base + window) (fun _ ↦ false) hivs
    h.separated
  have hbits := fun (x : ℕ) (hx : base + (x : ℤ) < base + window) ↦
    nackmapLoop_bits (fun _ ↦ false) hivs h.separated hx
  generalize nackmapLoop base (base + window) r.sampleivtree base (fun _ ↦ false) = out at *
  simp only [Bool.false_eq_true, false_or] at hbits
  refine ⟨_, rfl, ?_⟩
  split_ifs with htail
  · -- the bitmap ends behind the last interval
    obtain ⟨htail, hstop⟩ := htail
    refine ⟨rfl, by dsimp only; omega, fun i hi ↦ ?_, fun hfalse ↦ ?_, fun _ i hi ↦ ?_, ?_⟩
    · dsimp only at hi ⊢
      rw [hbits i (by omega)]
      exact ⟨fun h ↦ h.2.2, fun h ↦ ⟨by omega, by omega, h⟩⟩
    · simp [htail] at hfalse
    · dsimp only at hi
      rcases hwhere with heq | ⟨s, hs, heq⟩
      · omega
      · exact ⟨s, hs, by omega⟩
    · dsimp only
      by_cases hnil : r.sampleivtree = []
      · rcases hwhere with heq | ⟨s, hs, -⟩
        · exact iff_of_true (by omega) (.inr ⟨htail, hnil⟩)
        · simp [hnil] at hs
      · have := hlt (by omega) hnil
        exact iff_of_false (by omega) (by simp [hnil]; omega)
  · have hstop (hnotail : notail) : ¬ out.1 < base + window := fun h ↦ htail ⟨hnotail, h⟩
    refine ⟨rfl, le_refl _, fun i hi ↦ ?_, fun _ ↦ rfl, fun hnotail i hi ↦ ?_, ?_⟩
    · dsimp only at hi ⊢
      rw [setBits_eq_true, hbits i (by omega)]
      refine ⟨fun hset s hs ↦ ?_, fun hnone ↦ ?_⟩
      · rcases hset with ⟨-, -, hnone⟩ | ⟨hlo, -⟩
        · exact hnone s hs
        · have := hbehind (by omega) s hs
          omega
      · rcases lt_or_ge (base + (i : ℤ)) out.1 with hlt | hge
        · exact .inl ⟨by omega, hlt, hnone⟩
        · exact .inr ⟨hge, by omega⟩
    · dsimp only at hi
      have := hstop hnotail
      rcases hwhere with heq | ⟨s, hs, heq⟩
      · omega
      · exact ⟨s, hs, by omega⟩
    · dsimp only
      refine ⟨.inl, fun hempty ↦ hempty.elim id fun ⟨hnotail, hnil⟩ ↦ ?_⟩
      have := hstop hnotail
      rcases hwhere with heq | ⟨s, hs, -⟩
      · omega
      · simp [hnil] at hs

/-- In every state of a reorder administration in normal mode, the bitmap asks for the missing
samples if and only if it starts at `next_seq` or is empty, and neither `maxseq + 1` nor
`maxseq + 1 - base` overflows. -/
theorem nackmap_iff (lateAckMode : Bool) (maxSamples : ℕ) (ops : List (ReorderOp F))
    (base maxseq : ℤ) (maxsz : ℕ) (notail : Bool) (hops : ∀ op ∈ ops, op.Ranged)
    (hbase : base ≤ (reorderRun lateAckMode (nnReorderNew .normal maxSamples) ops).1.nextSeq)
    (hmaxseq : base - 1 ≤ maxseq) (hlow : -2 ^ 63 ≤ base) :
    let r := (reorderRun lateAckMode (nnReorderNew .normal maxSamples) ops).1
    (∃ map, nnReorderNackmap r base maxseq maxsz notail = some map ∧
        NacksMissing r base maxseq maxsz notail map) ↔
      (maxseq + 1 < 2 ^ 63 ∧ maxseq + 1 - base < 2 ^ 63) ∧ (base = r.nextSeq ∨
        nackWindow r base maxseq maxsz = 0 ∨ (notail ∧ r.sampleivtree = [])) := by
  intro r
  replace hbase : base ≤ r.nextSeq := hbase
  have h : ReorderInv r := reorderRun_inv lateAckMode (reorderInv_new maxSamples) hops
  constructor
  · rintro ⟨map, hmap, hok⟩
    have hmax : maxseq + 1 < 2 ^ 63 ∧ maxseq + 1 - base < 2 ^ 63 := by
      obtain ⟨_, hadd, hrest⟩ := bind_eq_some_iff.mp hmap
      obtain ⟨_, hsub, -⟩ := map_eq_some_iff.mp hrest
      obtain ⟨hmax, rfl⟩ := int64Add_eq_some.mp hadd
      have hsub := (int64Add_eq_some.mp hsub).1
      rw [min_eq_left hbase, max_eq_left (by omega)] at hsub
      exact ⟨hmax.2, hsub.2⟩
    obtain ⟨map', hmap', -, -, hbits, -, -, hempty⟩ :=
      nnReorderNackmap_spec h maxsz notail hbase hmaxseq hlow hmax.1 hmax.2
    obtain rfl := some.inj (hmap.symm.trans hmap')
    refine ⟨hmax, or_iff_not_imp_right.mpr fun hsome ↦ ?_⟩
    have hpos := Nat.pos_of_ne_zero (hempty.not.mpr hsome)
    -- the first bit is set, because all intervals are above next_seq
    have hfirst := (hok.asked 0 hpos).mp ((hbits 0 hpos).mpr fun s hs ↦ by
      have := h.above s hs
      omega)
    omega
  · rintro ⟨hmax, hcond⟩
    obtain ⟨map, hmap, hb, hnum, hbits, hfull, hnotail, hempty⟩ :=
      nnReorderNackmap_spec h maxsz notail hbase hmaxseq hlow hmax.1 hmax.2
    refine ⟨map, hmap, hb, hnum, fun i hi ↦ ?_, hfull, hnotail⟩
    rcases hcond with heq | hcond
    · rw [hbits i hi, and_iff_right (by omega)]
    · have := hempty.mpr hcond
      omega

/-- Sample 3 is here, samples 1, 2 and 4 are missing. -/
theorem nackmap_of_third :
    ∃ map, nnReorderNackmap (reorderRun false (nnReorderNew .normal 8)
        [.rsample () ⟨3, 4, 4⟩ false]).1 1 4 256 false = some map ∧
      NacksMissing (reorderRun false (nnReorderNew .normal 8)
        [.rsample () ⟨3, 4, 4⟩ false]).1 1 4 256 false map :=
  (nackmap_iff false 8 [.rsample () ⟨3, 4, 4⟩ false] 1 4 256 false (by simp [ReorderOp.Ranged])
    (by decide) (by decide) (by decide)).mpr ⟨⟨by decide, by decide⟩, .inl (by decide)⟩

/-- Sample 1 was delivered, and the bitmap starts at it: the bit of sample 1 is set. -/
theorem nackmap_asks_for_received :
    (reorderRun true (nnReorderNew .normal 8) [.rsample () ⟨1, 4, 4⟩ false]).1.nextSeq = 2 ∧
      ∃ map, nnReorderNackmap (reorderRun true (nnReorderNew .normal 8)
          [.rsample () ⟨1, 4, 4⟩ false]).1 1 3 256 false = some map ∧
        map.numbits = 3 ∧ map.bits 0 = true :=
  ⟨by decide, _, rfl, by decide, by decide⟩

/-- `next_deliv_seq`, for the low word that the proxy writer stores. -/
def nextDelivSeq (lw : BitVec 32) (nextSeq : BitVec 64) : BitVec 64 :=
  let seq := (nextSeq &&& ~~~0xffffffff#64) ||| lw.setWidth 64
  if nextSeq.slt seq then seq - 1#64 <<< 32 else seq

lemma toNat_withLowword (n nd : BitVec 64) :
    ((n &&& ~~~0xffffffff#64) ||| (nd.setWidth 32).setWidth 64).toNat =
      n.toNat / 2 ^ 32 * 2 ^ 32 + nd.toNat % 2 ^ 32 := by
  have happend : (n &&& ~~~0xffffffff#64) ||| (nd.setWidth 32).setWidth 64 =
      n.extractLsb' 32 32 ++ nd.setWidth 32 := by
    have hmask : ∀ i : Fin 64, (~~~0xffffffff#64)[i.val] = decide (32 ≤ i.val) := by decide
    ext i hi
    simp only [getElem_or, getElem_and, hmask ⟨i, hi⟩]
    grind
  rw [happend, toNat_append, ← Nat.shiftLeft_add_eq_or_of_lt (nd.setWidth 32).isLt,
    extractLsb'_toNat, Nat.shiftLeft_eq, Nat.shiftRight_eq_div_pow, toNat_setWidth]
  omega

/-- The low word is enough as long as less than `2 ^ 32` samples wait to be delivered. -/
theorem nextDelivSeq_eq {n nd : BitVec 64} (hpos : 1 ≤ nd.toInt) (hle : nd.toInt ≤ n.toInt)
    (hnear : n.toInt - nd.toInt < 2 ^ 32) :
    nextDelivSeq (nd.setWidth 32) n = nd ∧ 0 < (nextDelivSeq (nd.setWidth 32) n).toInt ∧
      (nextDelivSeq (nd.setWidth 32) n).toInt ≤ n.toInt := by
  have heq : nextDelivSeq (nd.setWidth 32) n = nd := by
    have hseq := toNat_withLowword n nd
    rw [nextDelivSeq]
    generalize (n &&& ~~~0xffffffff#64) ||| (nd.setWidth 32).setWidth 64 = seq at hseq ⊢
    split <;> simp only [slt_iff_toInt_lt, toInt_eq_toNat_cond] at * <;> bv_omega
  rw [heq]
  exact ⟨rfl, hpos, hle⟩

theorem nextDelivSeq_eq_borrow :
    nextDelivSeq ((0xffffffff#64).setWidth 32) 0x100000003#64 = 0xffffffff#64 :=
  (nextDelivSeq_eq (by decide) (by decide) (by decide)).1

end OpenSplice.Ddsi
