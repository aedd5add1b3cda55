import OpenSplice.Library.Octets

/-!
# The writer info of a Data submessage

`valid_Data` converts the fixed fields of a Data submessage in place, scans its inline QoS
(`nn_plist_quickscan`) and looks at the header of its payload. It notes in a `SampleInfo` where a
PrismTech writer info parameter is and whether octets have to be swapped. The parameter is only
decoded on delivery, by `nn_plist_extract_wrinfo`.

The bit for swapping is written by the scan for the byte order of the submessage, and once more for
the encoding of the payload, which `writerInfo_decoding` is about.
-/

set_option autoImplicit false

namespace OpenSplice.Ddsi

open OpenSplice.Library OpenSplice.Library.Octets Option ByteOrder

namespace WriterInfo

/-- What `valid_Data` sets of `struct nn_rsample_info`. -/
structure SampleInfo where
  seq : ℤ
  size : ℕ
  fragsize : ℕ
  statusinfo : ℕ
  /-- The offset of the writer info, in 16 bits; 0 is none. -/
  ptWrInfoZoff : ℕ
  bswap : Bool
  complexQos : Bool
deriving DecidableEq

/-- `NN_OFF_TO_ZOFF`. -/
def offToZoff (off : ℕ) : ℕ := off % 2 ^ 16

inductive ScanPid
  | pad
  | sentinel
  | keyhash
  | statusinfo
  | prismtechWriterInfo
  | other
deriving DecidableEq

def scanPid (pid : ℕ) : ScanPid :=
  if pid = 0x0 then .pad
  else if pid = 0x1 then .sentinel
  else if pid = 0x70 then .keyhash
  else if pid = 0x71 then .statusinfo
  else if pid = 0x8001 then .prismtechWriterInfo
  else .other

/-- `sizeof (nn_prismtech_writer_info_old_t)`. -/
def writerInfoOldSize : ℕ := 28

/-- `sizeof (nn_prismtech_writer_info_t)`. -/
def writerInfoSize : ℕ := 32

section Scan

variable (platform : ByteOrder) (opensplice : Bool) (rmsg : List UInt8)

def scanU16 (bswap : Bool) (i : ℕ) : ℕ :=
  if bswap then bswap2u (u16 platform rmsg i) else u16 platform rmsg i

/-- What the scan does with one parameter, whose value is at `pl`. -/
def scanParameter (pid : ScanPid) (pl length : ℕ) (dest : SampleInfo) : Option SampleInfo :=
  match pid with
  | .pad | .keyhash | .sentinel => some dest
  | .statusinfo =>
    if length < 4 then none
    else
      let stinfo := u32 .big rmsg pl
      let stinfox := if length < 8 ∨ !opensplice then 0 else u32 .big rmsg (pl + 4)
      some { dest with
        statusinfo := stinfo % 4
        complexQos := dest.complexQos || decide (stinfo / 4 ≠ 0 ∨ stinfox ≠ 0) }
  | .prismtechWriterInfo =>
    if length < writerInfoOldSize then none
    else some { dest with ptWrInfoZoff := offToZoff pl }
  | .other => some { dest with complexQos := true }

/-- The loop of `nn_plist_quickscan` over the parameters from `pl` to the end of the message: the
place behind the sentinel. -/
def quickscanLoop (bufEnd : ℕ) : ℕ → ℕ → SampleInfo → Option (ℕ × SampleInfo)
  | 0, _, _ => none
  | fuel + 1, pl, dest =>
    if pl + 4 ≤ bufEnd then
      let pid := scanPid (scanU16 platform rmsg dest.bswap pl)
      let length := scanU16 platform rmsg dest.bswap (pl + 2)
      let pl := pl + 4
      if pid = .sentinel then some (pl, dest)
      else if bufEnd - pl < length then none
      else if length % 4 ≠ 0 then none
      else do
        let dest ← scanParameter opensplice rmsg pid pl length dest
        quickscanLoop bufEnd fuel (pl + length) dest
    else none

/-- `nn_plist_quickscan` of a list in the given byte order. -/
def quickscan (encoding : ByteOrder) (buf bufEnd : ℕ) (dest : SampleInfo) :
    Option (ℕ × SampleInfo) :=
  quickscanLoop platform opensplice rmsg bufEnd (bufEnd - buf + 1) buf
    { dest with statusinfo := 0, ptWrInfoZoff := 0, complexQos := false,
                bswap := encoding ≠ platform }

end Scan

/-! ### The submessage -/

def swapOctets (rmsg : List UInt8) (off n : ℕ) : List UInt8 :=
  rmsg.take off ++ ((rmsg.drop off).take n).reverse ++ rmsg.drop (off + n)

def convertHeader (platform : ByteOrder) (byteswap : Bool) (rmsg : List UInt8) (off : ℕ) :
    List UInt8 :=
  let rmsg :=
    if byteswap then
      swapOctets (swapOctets (swapOctets (swapOctets rmsg (off + 4) 2) (off + 6) 2) (off + 16) 4)
        (off + 20) 4
    else rmsg
  if platform = .little then swapOctets (swapOctets rmsg (off + 8) 4) (off + 12) 4 else rmsg

/-- `fromSN`, for a high word that is signed. -/
def fromSN (high low : ℕ) : ℤ :=
  (if high < 2 ^ 31 then (high : ℤ) else high - 2 ^ 32) * 2 ^ 32 + low

/-- `NN_SEQUENCE_NUMBER_UNKNOWN`. -/
def sequenceNumberUnknown : ℤ := -2 ^ 32

/-- The byte order that the header of a payload names: `CDR_BE`, `PL_CDR_BE`, `CDR_LE` or
`PL_CDR_LE`, as constants for the platform. -/
def payloadOrder (platform : ByteOrder) (identifier : ℕ) : Option ByteOrder :=
  match platform with
  | .little =>
    if identifier = 0x0000 ∨ identifier = 0x0200 then some .big
    else if identifier = 0x0100 ∨ identifier = 0x0300 then some .little
    else none
  | .big =>
    if identifier = 0x0000 ∨ identifier = 0x0002 then some .big
    else if identifier = 0x0001 ∨ identifier = 0x0003 then some .little
    else none

/-- `SMFLAG_ENDIANNESS`, `DATA_FLAG_INLINE_QOS`, `DATA_FLAG_DATAFLAG` and `DATA_FLAG_KEYFLAG`. -/
structure DataFlags where
  endianness : Bool
  inlineQos : Bool
  data : Bool
  key : Bool
deriving DecidableEq

def dataFlags (rmsg : List UInt8) (off : ℕ) : DataFlags :=
  let flags := octet rmsg (off + 1)
  ⟨flags % 2 = 1, flags / 2 % 2 = 1, flags / 4 % 2 = 1, flags / 8 % 2 = 1⟩

def DataFlags.order (flags : DataFlags) : ByteOrder := if flags.endianness then .little else .big

/-- A message with a valid Data submessage: its octets, what is known of the sample, and the place
of the payload. -/
structure ValidData where
  rmsg : List UInt8
  info : SampleInfo
  payload : Option ℕ
deriving DecidableEq

/-- The part of `valid_Data` about the payload, which is at `ptr` if there is one. -/
def validPayload (platform : ByteOrder) (flags : DataFlags) (rmsg : List UInt8) (off size ptr : ℕ)
    (info : SampleInfo) : Option ValidData :=
  if !flags.data && !flags.key then some ⟨rmsg, { info with size := 0 }, none⟩
  else if off + size < ptr + 4 then none
  else
    match payloadOrder platform (u16 platform rmsg ptr) with
    | none => none
    | some o =>
      some ⟨rmsg, { info with size := off + size - ptr, bswap := o ≠ platform }, some ptr⟩

/-- `valid_Data` of a submessage at an offset of a message. The caller has taken `byteswap` from the
flag for the byte order. -/
def validData (platform : ByteOrder) (opensplice : Bool) (rmsg : List UInt8) (off size : ℕ) :
    Option ValidData :=
  if size < 24 then none
  else
    let flags := dataFlags rmsg off
    if flags.data && flags.key then none
    else
      let rmsg := convertHeader platform (flags.order ≠ platform) rmsg off
      let seq := fromSN (u32 platform rmsg (off + 16)) (u32 platform rmsg (off + 20))
      let info : SampleInfo := ⟨seq, 0, 0, 0, 0, false, false⟩
      if seq ≤ 0 ∧ seq ≠ sequenceNumberUnknown then none
      else if !flags.inlineQos && !flags.data && !flags.key then some ⟨rmsg, info, none⟩
      else
        let octetsToInlineQos := u16 platform rmsg (off + 6)
        if size < 8 + octetsToInlineQos + 4 then none
        else
          let ptr := off + 8 + octetsToInlineQos
          if flags.inlineQos then do
            let (ptr, info) ←
              quickscan platform opensplice rmsg flags.order ptr (off + size) info
            validPayload platform flags rmsg off size ptr info
          else validPayload platform flags rmsg off size ptr info

/-- `nn_prismtech_writer_info_t`. -/
structure PrismtechWriterInfo where
  transactionId : ℕ
  writerGID : ℕ × ℕ × ℕ
  writerInstanceGID : ℕ × ℕ × ℕ
  sequenceNumber : ℕ
deriving DecidableEq

def readWriterInfo (o : ByteOrder) (rmsg : List UInt8) (off : ℕ) : PrismtechWriterInfo where
  transactionId := u32 o rmsg off
  writerGID := (u32 o rmsg (off + 4), u32 o rmsg (off + 8), u32 o rmsg (off + 12))
  writerInstanceGID := (u32 o rmsg (off + 16), u32 o rmsg (off + 20), u32 o rmsg (off + 24))
  sequenceNumber := u32 o rmsg (off + 28)

/-- `bswap_prismtech_writer_info`. -/
def bswapPrismtechWriterInfo (wri : PrismtechWriterInfo) : PrismtechWriterInfo where
  transactionId := bswap4u wri.transactionId
  writerGID := (bswap4u wri.writerGID.1, bswap4u wri.writerGID.2.1, bswap4u wri.writerGID.2.2)
  writerInstanceGID := (bswap4u wri.writerInstanceGID.1, bswap4u wri.writerInstanceGID.2.1,
    bswap4u wri.writerInstanceGID.2.2)
  sequenceNumber := bswap4u wri.sequenceNumber

/-- The offsets that `handle_Data` keeps in the `nn_rdata`, in 16 bits. -/
def rdataOffsets (off size : ℕ) (payload : Option ℕ) : ℕ × ℕ :=
  (offToZoff off, offToZoff (payload.getD (off + size)))

/-- The assertions of `nn_plist_extract_wrinfo`. -/
def extractWrinfoAsserts (off size : ℕ) (valid : ValidData) : Prop :=
  (rdataOffsets off size valid.payload).1 < valid.info.ptWrInfoZoff ∧
    valid.info.ptWrInfoZoff + writerInfoSize ≤ (rdataOffsets off size valid.payload).2

/-- `nn_plist_extract_wrinfo`. -/
def extractWrinfo (platform : ByteOrder) (valid : ValidData) : PrismtechWriterInfo :=
  let wri := readWriterInfo platform valid.rmsg valid.info.ptWrInfoZoff
  if valid.info.bswap then bswapPrismtechWriterInfo wri else wri

/-- `get_writer_info` on delivery: the GID of the writer is that of the proxy writer. -/
def getWriterInfo (platform : ByteOrder) (pwrGid : ℕ × ℕ × ℕ) (valid : ValidData) :
    PrismtechWriterInfo :=
  if valid.info.ptWrInfoZoff ≠ 0 then { extractWrinfo platform valid with writerGID := pwrGid }
  else ⟨0, pwrGid, (0, 0, 0), 0⟩

/-! ### What the scan finds -/

section Scanned

variable {platform : ByteOrder} {opensplice : Bool} {rmsg : List UInt8} {start bufEnd : ℕ}
  {pl ptr : ℕ} {dest info : SampleInfo}

/-- Up to `pl` a writer info has been found, with all of its octets there, or none. -/
def Found (platform : ByteOrder) (rmsg : List UInt8) (start pl : ℕ) (dest : SampleInfo) : Prop :=
  dest.ptWrInfoZoff = 0 ∨ ∃ w, dest.ptWrInfoZoff = offToZoff w ∧ start + 4 ≤ w ∧
    w + scanU16 platform rmsg dest.bswap (w - 2) ≤ pl

lemma Found.mono {pl' : ℕ} (h : Found platform rmsg start pl dest) (hle : pl ≤ pl') :
    Found platform rmsg start pl' dest := by
  rcases h with h | ⟨w, hw, hstart, hend⟩
  · exact .inl h
  · exact .inr ⟨w, hw, hstart, hend.trans hle⟩

lemma scanParameter_found {pid : ScanPid} {length : ℕ} {dest' : SampleInfo}
    (hscan : scanParameter opensplice rmsg pid pl length dest = some dest') (hpl : start + 4 ≤ pl)
    (hlength : length = scanU16 platform rmsg dest.bswap (pl - 2))
    (h : Found platform rmsg start pl dest) :
    dest'.bswap = dest.bswap ∧ Found platform rmsg start (pl + length) dest' := by
  have hkeep := h.mono (Nat.le_add_right pl length)
  cases pid with
  | pad | keyhash | sentinel | other =>
    obtain rfl := some_inj.mp hscan
    exact ⟨rfl, hkeep⟩
  | statusinfo =>
    simp only [scanParameter] at hscan
    split at hscan
    · simp at hscan
    · obtain rfl := some_inj.mp hscan
      exact ⟨rfl, hkeep⟩
  | prismtechWriterInfo =>
    simp only [scanParameter] at hscan
    split_ifs at hscan
    obtain rfl := some_inj.mp hscan
    exact ⟨rfl, .inr ⟨pl, rfl, hpl, hlength ▸ le_refl _⟩⟩

/-- The scan ends behind the writer info it has found, within the message. -/
lemma quickscanLoop_spec {fuel : ℕ}
    (hscan : quickscanLoop platform opensplice rmsg bufEnd fuel pl dest = some (ptr, info))
    (hpl : start ≤ pl) (h : Found platform rmsg start pl dest) :
    info.bswap = dest.bswap ∧ ptr ≤ bufEnd ∧ Found platform rmsg start (ptr - 4) info := by
  induction fuel generalizing pl dest with
  | zero => simp [quickscanLoop] at hscan
  | succ _ ih =>
    rw [quickscanLoop] at hscan
    dsimp only at hscan
    split_ifs at hscan with hroom
    · obtain ⟨rfl, rfl⟩ := Prod.mk.inj (some_inj.mp hscan)
      exact ⟨rfl, hroom, by simpa using h⟩
    · obtain ⟨dest', hparameter, hrest⟩ := bind_eq_some_iff.mp hscan
      obtain ⟨hbswap, hfound⟩ := scanParameter_found hparameter (by omega) (by simp)
        (h.mono (Nat.le_add_right pl 4))
      obtain ⟨hbswap', hptr, hfound'⟩ := ih hrest (by omega) hfound
      exact ⟨hbswap'.trans hbswap, hptr, hfound'⟩

lemma scanU16_eq (encoding : ByteOrder) (i : ℕ) :
    scanU16 platform rmsg (encoding ≠ platform) i = u16 encoding rmsg i := by
  unfold scanU16
  by_cases h : encoding = platform
  · simp [h]
  · rw [if_pos (by simpa using h), bswap2u_u16, eq_swap_of_ne h]

lemma quickscan_spec {encoding : ByteOrder}
    (hscan : quickscan platform opensplice rmsg encoding start bufEnd dest = some (ptr, info))
    (hbuf : bufEnd ≤ 2 ^ 16) (hfound : info.ptWrInfoZoff ≠ 0) :
    info.bswap = decide (encoding ≠ platform) ∧ ptr ≤ bufEnd ∧ start < info.ptWrInfoZoff ∧
      info.ptWrInfoZoff + u16 encoding rmsg (info.ptWrInfoZoff - 2) + 4 ≤ ptr := by
  obtain ⟨hbswap, hptr, hfound'⟩ := quickscanLoop_spec hscan (le_refl start) (.inl rfl)
  have hbswap' : info.bswap = decide (encoding ≠ platform) := hbswap
  rcases hfound' with hnone | ⟨w, hw, hstart, hend⟩
  · exact absurd hnone hfound
  · rw [hbswap', scanU16_eq] at hend
    have hzoff : info.ptWrInfoZoff = w := by rw [hw, offToZoff, Nat.mod_eq_of_lt (by omega)]
    rw [hzoff]
    exact ⟨hbswap', hptr, by omega, by omega⟩

end Scanned

section Decoding

variable {platform : ByteOrder} {opensplice : Bool} {rmsg : List UInt8} {off size : ℕ}
  {valid : ValidData} {flags : DataFlags} {info : SampleInfo} {ptr : ℕ}

section

variable (h : validPayload platform flags rmsg off size ptr info = some valid)
include h

lemma validPayload_rmsg : valid.rmsg = rmsg := by
  unfold validPayload at h
  split_ifs at h
  · rw [← some_inj.mp h]
  · split at h
    · simp at h
    · rw [← some_inj.mp h]

/-- The payload does not change what the scan has found, apart from the byte order. -/
lemma validPayload_spec :
    valid.info.ptWrInfoZoff = info.ptWrInfoZoff ∧ match valid.payload with
      | none => valid.info.bswap = info.bswap
      | some place => place = ptr ∧ place + 4 ≤ off + size ∧ ∃ o,
          payloadOrder platform (u16 platform valid.rmsg ptr) = some o ∧
            valid.info.bswap = decide (o ≠ platform) := by
  unfold validPayload at h
  split_ifs at h with hnone hroom
  · obtain rfl := some_inj.mp h
    exact ⟨rfl, rfl⟩
  · split at h
    · simp at h
    · next o ho =>
      obtain rfl := some_inj.mp h
      exact ⟨rfl, rfl, not_lt.mp hroom, o, ho, rfl⟩

end

lemma validData_inlineQos (h : validData platform opensplice rmsg off size = some valid)
    (hqos : (dataFlags rmsg off).inlineQos) :
    ∃ start ptr dest info, off + 8 ≤ start ∧
      quickscan platform opensplice valid.rmsg (dataFlags rmsg off).order start (off + size) dest =
        some (ptr, info) ∧
      validPayload platform (dataFlags rmsg off) valid.rmsg off size ptr info = some valid := by
  unfold validData at h
  dsimp only at h
  split_ifs at h
  · simp_all
  · obtain ⟨⟨ptr, info⟩, hscan, hpayload⟩ := bind_eq_some_iff.mp h
    have hrmsg := validPayload_rmsg hpayload
    rw [← hrmsg] at hscan hpayload
    exact ⟨_, ptr, _, info, by omega, hscan, hpayload⟩

/-- The octets are read in the order that the bit for swapping stands for. -/
lemma extractWrinfo_eq {o : ByteOrder} (h : valid.info.bswap = decide (o ≠ platform)) :
    extractWrinfo platform valid = readWriterInfo o valid.rmsg valid.info.ptWrInfoZoff := by
  unfold extractWrinfo
  by_cases ho : o = platform
  · simp [h, ho]
  · simp only [h]
    rw [if_pos (by simpa using ho), eq_swap_of_ne ho]
    simp only [bswapPrismtechWriterInfo, readWriterInfo, bswap4u_u32]

def SameInBothOrders (rmsg : List UInt8) (off : ℕ) : Prop :=
  ∀ i ∈ [0, 16, 20, 24, 28], u32 .big rmsg (off + i) = u32 .little rmsg (off + i)

instance (rmsg : List UInt8) (off : ℕ) : Decidable (SameInBothOrders rmsg off) :=
  inferInstanceAs (Decidable (∀ _ ∈ _, _))

def Agrees (wri wri' : PrismtechWriterInfo) : Prop :=
  wri.transactionId = wri'.transactionId ∧ wri.writerInstanceGID = wri'.writerInstanceGID ∧
    wri.sequenceNumber = wri'.sequenceNumber

instance (wri wri' : PrismtechWriterInfo) : Decidable (Agrees wri wri') :=
  inferInstanceAs (Decidable (_ ∧ _ ∧ _))

lemma agrees_swap_iff (o : ByteOrder) (off : ℕ) :
    Agrees (readWriterInfo o.swap rmsg off) (readWriterInfo o rmsg off) ↔
      SameInBothOrders rmsg off := by
  cases o <;>
    simp only [Agrees, readWriterInfo, swap, SameInBothOrders, List.forall_mem_cons,
      List.not_mem_nil, Prod.mk.injEq, Nat.add_zero]
  · constructor
    · rintro ⟨h0, ⟨h1, h2, h3⟩, h4⟩
      exact ⟨h0.symm, h1.symm, h2.symm, h3.symm, h4.symm, by simp⟩
    · rintro ⟨h0, h1, h2, h3, h4, -⟩
      exact ⟨h0.symm, ⟨h1.symm, h2.symm, h3.symm⟩, h4.symm⟩
  · constructor
    · rintro ⟨h0, ⟨h1, h2, h3⟩, h4⟩
      exact ⟨h0, h1, h2, h3, h4, by simp⟩
    · rintro ⟨h0, h1, h2, h3, h4, -⟩
      exact ⟨h0, ⟨h1, h2, h3⟩, h4⟩

/-- The writer info of an accepted submessage is delivered as its octets say in the byte order of
the submessage, with the assertions on its place, exactly in these cases. Without a payload, the end
of the message must fit in 16 bits; with a payload, its encoding must have the byte order of the
submessage, unless the numbers read the same in both orders. -/
theorem writerInfo_decoding (pwrGid : ℕ × ℕ × ℕ)
    (h : validData platform opensplice rmsg off size = some valid)
    (hqos : (dataFlags rmsg off).inlineQos = true) (hbuf : off + size ≤ 2 ^ 16)
    (hfound : valid.info.ptWrInfoZoff ≠ 0)
    (hfull : writerInfoSize ≤
      u16 (dataFlags rmsg off).order valid.rmsg (valid.info.ptWrInfoZoff - 2)) :
    (extractWrinfoAsserts off size valid ∧
      Agrees (getWriterInfo platform pwrGid valid)
        (readWriterInfo (dataFlags rmsg off).order valid.rmsg valid.info.ptWrInfoZoff)) ↔
    match valid.payload with
    | none => off + size < 2 ^ 16
    | some ptr =>
      payloadOrder platform (u16 platform valid.rmsg ptr) = some (dataFlags rmsg off).order ∨
        SameInBothOrders valid.rmsg valid.info.ptWrInfoZoff := by
  obtain ⟨start, ptr, dest, info, hstart, hscan, hpayload⟩ := validData_inlineQos h hqos
  obtain ⟨hzoff, hrest⟩ := validPayload_spec hpayload
  rw [hzoff] at hfound hfull
  obtain ⟨hbswap, hptr, hafter, hfit⟩ := quickscan_spec hscan hbuf hfound
  have hget : ∀ wri, Agrees (getWriterInfo platform pwrGid valid) wri ↔
      Agrees (extractWrinfo platform valid) wri := by
    intro wri
    unfold getWriterInfo
    rw [hzoff, if_pos hfound]
    exact Iff.rfl
  have hoff : offToZoff off = off := Nat.mod_eq_of_lt (by omega)
  rw [hget]
  simp only [extractWrinfoAsserts, rdataOffsets, hoff, hzoff]
  cases hplace : valid.payload with
  | none =>
    rw [hplace] at hrest
    have hextract := extractWrinfo_eq (hrest.trans hbswap)
    rw [hextract, hzoff, Option.getD_none]
    constructor
    · rintro ⟨⟨-, hassert⟩, -⟩
      by_contra hlong
      have hend : off + size = 2 ^ 16 := by omega
      rw [hend, offToZoff, Nat.mod_self] at hassert
      omega
    · intro hshort
      have hend : offToZoff (off + size) = off + size := Nat.mod_eq_of_lt hshort
      exact ⟨⟨by omega, by omega⟩, rfl, rfl, rfl⟩
  | some place =>
    rw [hplace] at hrest
    obtain ⟨rfl, hroom, o, ho, hbswap'⟩ := hrest
    have hend : offToZoff place = place := Nat.mod_eq_of_lt (by omega)
    have hextract := extractWrinfo_eq hbswap'
    rw [hextract, hzoff]
    simp only [Option.getD_some, hend, ho, Option.some_inj]
    have hasserts : off < info.ptWrInfoZoff ∧ info.ptWrInfoZoff + writerInfoSize ≤ place :=
      ⟨by omega, by omega⟩
    by_cases hsame : o = (dataFlags rmsg off).order
    · rw [hsame]
      exact ⟨fun _ ↦ .inl rfl, fun _ ↦ ⟨hasserts, rfl, rfl, rfl⟩⟩
    · rw [eq_swap_of_ne hsame, agrees_swap_iff]
      refine ⟨fun hboth ↦ .inr hboth.2, fun hboth ↦ ⟨hasserts, hboth.resolve_left fun heq ↦ ?_⟩⟩
      exact hsame ((eq_swap_of_ne hsame).trans heq)

/-- A Data submessage for a little-endian platform: a writer info in the inline QoS, in the byte
order of the submessage, and a payload with the given header. -/
def littleEndianData (payloadHeader : List UInt8) : List UInt8 :=
  [0x15, 0x07, 0, 0, 0, 0, 16, 0] ++ [0, 0, 0, 0, 0, 0, 1, 3] ++ [0, 0, 0, 0, 1, 0, 0, 0] ++
    [0x01, 0x80, 32, 0] ++ [5, 0, 0, 0] ++ List.replicate 24 0 ++ [7, 0, 0, 0] ++ [1, 0, 0, 0] ++
      payloadHeader

/-- What `valid_Data` makes of the submessage with a payload in the given encoding. -/
def littleEndianValid (encoding : UInt8) : Option ValidData :=
  validData .little true (littleEndianData [0, encoding, 0, 0]) 0 68

theorem writerInfo_decoding_of_same_order :
    ∃ valid, littleEndianValid 1 = some valid ∧
      ((extractWrinfoAsserts 0 68 valid ∧
        Agrees (getWriterInfo .little (1, 2, 3) valid)
          (readWriterInfo (dataFlags (littleEndianData [0, 1, 0, 0]) 0).order valid.rmsg
            valid.info.ptWrInfoZoff)) ↔
      match valid.payload with
      | none => 0 + 68 < 2 ^ 16
      | some ptr =>
        payloadOrder .little (u16 .little valid.rmsg ptr) =
            some (dataFlags (littleEndianData [0, 1, 0, 0]) 0).order ∨
          SameInBothOrders valid.rmsg valid.info.ptWrInfoZoff) := by
  obtain ⟨valid, hvalid, hwrinfo⟩ := (Option.any_eq_true _ _).mp (show (littleEndianValid 1).any
    (fun valid ↦ valid.info.ptWrInfoZoff ≠ 0 ∧ writerInfoSize ≤
      u16 (dataFlags (littleEndianData [0, 1, 0, 0]) 0).order valid.rmsg
        (valid.info.ptWrInfoZoff - 2)) = true by decide +kernel)
  rw [decide_eq_true_eq] at hwrinfo
  exact ⟨valid, hvalid, writerInfo_decoding (1, 2, 3) hvalid (by decide) (by decide) hwrinfo.1
    hwrinfo.2⟩

/-- With a payload in big-endian encoding the transaction 5 becomes another one. -/
theorem writerInfo_decoding_other_order :
    (littleEndianValid 0).map (fun valid ↦ ((getWriterInfo .little (1, 2, 3) valid).transactionId,
      (readWriterInfo .little valid.rmsg valid.info.ptWrInfoZoff).transactionId)) =
        some (5 * 2 ^ 24, 5) := by
  decide +kernel

end Decoding

end WriterInfo

end OpenSplice.Ddsi
