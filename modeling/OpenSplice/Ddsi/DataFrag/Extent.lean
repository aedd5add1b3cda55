import OpenSplice.Ddsi.Defrag.Reassembly

/-!
# The bytes of an accepted fragment

`handle_DataFrag` computes the bytes `[begin, endp1)` of a fragment in 32-bit arithmetic and leaves
it to `valid_DataFrag` that they are within the sample and the payload. The check there is about the
offset of the last fragment of the submessage, and is made in 32-bit arithmetic as well: an offset
that wraps around passes it. `fragmentExtent_iff` says what has to be checked besides.
-/

set_option autoImplicit false

namespace OpenSplice.Ddsi

def DataFrag.offset (msg : DataFrag) : ℕ :=
  (msg.fragmentStartingNum.toNat - 1) * msg.fragmentSize.toNat

/-- What `nn_rdata_is_fragment` and `defrag_add_fragment` expect of a fragment: its bytes are some
of the sample, in the right place, and present in the submessage. -/
structure FragmentExtent (msg : DataFrag) (payload : List UInt8) (f : Rdata) : Prop where
  nonempty : f.min < f.maxp1
  within : f.maxp1 ≤ msg.sampleSize.toNat
  offset : f.min = msg.offset
  present : f.maxp1 - f.min ≤ payload.length

def offsetsFit (msg : DataFrag) (payload : List UInt8) : Prop :=
  msg.offset < msg.sampleSize.toNat ∧
    msg.offset + min payload.length (msg.fragmentSize.toNat * msg.fragmentsInSubmessage.toNat) <
      2 ^ 32

instance (msg : DataFrag) (payload : List UInt8) : Decidable (offsetsFit msg payload) := by
  unfold offsetsFit
  infer_instance

variable (msg : DataFrag) (payload : List UInt8)

lemma dataFragRdata_min :
    (dataFragRdata msg payload).min = msg.offset % 2 ^ 32 := rfl

lemma dataFragRdata_maxp1 :
    (dataFragRdata msg payload).maxp1 = min msg.sampleSize.toNat ((msg.offset % 2 ^ 32 +
      min payload.length (msg.fragmentSize.toNat * msg.fragmentsInSubmessage.toNat)) % 2 ^ 32) := by
  simp only [dataFragRdata, DataFrag.offset]
  split_ifs <;> omega

/-- The bytes `handle_DataFrag` computes for an accepted fragment are as expected if and only if its
offsets fit. The second part matters for a submessage of two gigabytes at least. -/
theorem fragmentExtent_iff (config : FragConfig) (msg : DataFrag) (size : ℕ) (info : RsampleInfo)
    (payload : List UInt8) (hconfig : config.maxSampleSize ≤ 2 ^ 31 - 1)
    (hsize : msg.sampleSize.toNat ≤ config.maxSampleSize)
    (h : validDataFrag config msg size = some (info, payload)) :
    FragmentExtent msg payload (dataFragRdata msg payload) ↔ offsetsFit msg payload := by
  obtain ⟨-, -, -, hn, hfs, -, hshort, -⟩ := accepted_of_validDataFrag h
  have hpos : 0 < msg.fragmentSize.toNat * msg.fragmentsInSubmessage.toNat := Nat.mul_pos hfs hn
  have hall : msg.fragmentSize.toNat * msg.fragmentsInSubmessage.toNat < 2 ^ 32 :=
    calc msg.fragmentSize.toNat * msg.fragmentsInSubmessage.toNat ≤ (2 ^ 16 - 1) * (2 ^ 16 - 1) :=
          Nat.mul_le_mul (Nat.le_pred_of_lt (UInt16.toNat_lt _))
            (Nat.le_pred_of_lt (UInt16.toNat_lt _))
      _ < 2 ^ 32 := by norm_num
  unfold offsetsFit
  constructor
  · rintro ⟨hlt, hle, hoffset, hpresent⟩
    rw [dataFragRdata_maxp1] at hlt hle
    omega
  · rintro ⟨hoffset, hend⟩
    refine ⟨?_, ?_, ?_, ?_⟩ <;> simp only [dataFragRdata_min, dataFragRdata_maxp1] <;> omega

/-- The second of three fragments of four bytes. -/
theorem fragmentExtent_second :
    FragmentExtent (plainDataFrag 2 1 4 12 [4, 5, 6, 7]) [4, 5, 6, 7] ⟨4, 8, [4, 5, 6, 7]⟩ :=
  (fragmentExtent_iff ⟨false, false, 4, 100⟩ (plainDataFrag 2 1 4 12 [4, 5, 6, 7]) 40 ⟨1, 12, 4⟩
    [4, 5, 6, 7] (by decide) (by decide) rfl).mpr (by decide)

/-- Two fragments of four bytes from number `2 ^ 30` on. The offset of the second one wraps around
to zero and is accepted for a sample of twelve bytes; that of the first one does not. The result is
a fragment that starts at `2 ^ 32 - 4` and ends at 4. -/
theorem dataFrag_offset_wraps :
    ∃ info, validDataFrag ⟨false, false, 4, 100⟩
        (plainDataFrag (2 ^ 30) 2 4 12 [0, 1, 2, 3, 4, 5, 6, 7]) 44 =
          some (info, [0, 1, 2, 3, 4, 5, 6, 7]) ∧
      (dataFragRdata (plainDataFrag (2 ^ 30) 2 4 12 [0, 1, 2, 3, 4, 5, 6, 7])
        [0, 1, 2, 3, 4, 5, 6, 7]).min = 2 ^ 32 - 4 ∧
      (dataFragRdata (plainDataFrag (2 ^ 30) 2 4 12 [0, 1, 2, 3, 4, 5, 6, 7])
        [0, 1, 2, 3, 4, 5, 6, 7]).maxp1 = 4 :=
  ⟨⟨1, 12, 4⟩, by decide, by decide, by decide⟩

end OpenSplice.Ddsi
