import OpenSplice.Ddsi.DataFrag.Model

/-!
# A fragment on the wire

Sender and receiver compute the offsets of a fragment independently of each other. They agree for
every fragment of a sample (`receive_createFragmentMessage`), with or without inline QoS, for a
short last fragment and for a fragment size that is not a multiple of four, as long as the length of
the submessage fits its sixteen bits.
-/

set_option autoImplicit false

namespace OpenSplice.Ddsi

open List UInt16

/-! ### Parameter lists -/

variable (le : Bool)

lemma readUshort_writeUshort {n : ℕ} (hn : n < 2 ^ 16) :
    ∃ a b, writeUshort le n = [a, b] ∧ readUshort le a b = n := by
  cases le
  · refine ⟨_, _, rfl, ?_⟩
    simp [readUshort]
    omega
  · refine ⟨_, _, rfl, ?_⟩
    simp [readUshort]
    omega

/-- A parameter that a sender may add: not a sentinel, short enough for its length field, and long
enough for its kind. -/
structure Param.Ok (par : Param) : Prop where
  pid : par.pid < 2 ^ 16 ∧ par.pid ≠ pidSentinel
  length : par.value.length ≤ 2 ^ 16 - 4
  value : minParamLength par.pid ≤ par.value.length

lemma nnPlistQuickscanLoop_addpar {le : Bool} {fuel : ℕ} {par : Param} (h : par.Ok)
    (rest : List UInt8) :
    nnPlistQuickscanLoop le (fuel + 1) (nnXmsgAddpar le par ++ rest) =
      nnPlistQuickscanLoop le fuel rest := by
  obtain ⟨⟨hpid, hsentinel⟩, hlength, hvalue⟩ := h
  have hlen4 : (par.value.length + 3) / 4 * 4 < 2 ^ 16 := by omega
  obtain ⟨a, b, hab, hreadPid⟩ := readUshort_writeUshort le hpid
  obtain ⟨c, d, hcd, hreadLen⟩ := readUshort_writeUshort le hlen4
  simp only [nnXmsgAddpar, hab, hcd, cons_append, nil_append, nnPlistQuickscanLoop,
    hreadPid, hreadLen]
  have hpad : (par.value ++ replicate ((par.value.length + 3) / 4 * 4 - par.value.length)
      (0 : UInt8)).length = (par.value.length + 3) / 4 * 4 := by
    simp
    omega
  rw [if_neg hsentinel, if_neg, if_neg (by omega), if_neg (by omega), drop_left' hpad]
  rw [length_append, hpad]
  omega

lemma nnPlistQuickscanLoop_sentinel (fuel : ℕ) (rest : List UInt8) :
    nnPlistQuickscanLoop le (fuel + 1) (nnXmsgAddpar le ⟨pidSentinel, []⟩ ++ rest) = some rest := by
  obtain ⟨a, b, hab, hread⟩ := readUshort_writeUshort le (n := pidSentinel) (by decide)
  obtain ⟨c, d, hcd, -⟩ := readUshort_writeUshort le (n := 0) (by decide)
  simp [nnXmsgAddpar, hab, hcd, nnPlistQuickscanLoop, hread]

lemma length_le_length_flatMap_addpar (pars : List Param) :
    pars.length ≤ (pars.flatMap (nnXmsgAddpar le)).length := by
  induction pars with
  | nil => simp
  | cons par =>
    have hpar : 0 < (nnXmsgAddpar le par).length := by
      cases le <;> simp [nnXmsgAddpar, writeUshort]
    rw [flatMap_cons, length_append, length_cons]
    omega

lemma nnPlistQuickscan_inlineQosOctets {le : Bool} {pars : List Param} (hne : pars ≠ [])
    (hpars : ∀ par ∈ pars, par.Ok) (payload : List UInt8) :
    nnPlistQuickscan le (inlineQosOctets le pars ++ payload) = some payload := by
  have hloop : ∀ {pars : List Param} {fuel : ℕ}, (∀ par ∈ pars, par.Ok) → pars.length ≤ fuel →
      nnPlistQuickscanLoop le (fuel + 1) (pars.flatMap (nnXmsgAddpar le) ++
        (nnXmsgAddpar le ⟨pidSentinel, []⟩ ++ payload)) = some payload := by
    intro pars
    induction pars with
    | nil => intro fuel _ _; exact nnPlistQuickscanLoop_sentinel le fuel payload
    | cons _ _ ih =>
      intro fuel hpars hfuel
      obtain ⟨hpar, hpars⟩ := forall_mem_cons.mp hpars
      rw [flatMap_cons, append_assoc, nnPlistQuickscanLoop_addpar hpar]
      obtain ⟨fuel, rfl⟩ : ∃ n, fuel = n + 1 := ⟨fuel - 1, by simp at hfuel; omega⟩
      exact ih hpars (by simpa using hfuel)
  rw [nnPlistQuickscan, inlineQosOctets, if_neg hne, append_assoc]
  refine hloop hpars ?_
  have := length_le_length_flatMap_addpar le pars
  rw [length_append]
  omega

/-! ### Fragments -/

/-- A sample that is sent in fragments. The memory behind the sample may be read to pad the last
fragment, and the length of the first submessage, the longest one, fits its field. -/
structure Fragmentable (config : FragConfig) (serdata : Serdata) : Prop where
  unit : 0 < config.fragmentSize ∧ config.fragmentSize < 2 ^ 16
  needed : config.fragmentSize < serdata.size
  size : serdata.size ≤ config.maxSampleSize
  offsets : config.maxSampleSize < 2 ^ 31
  mem : serdata.size + 3 ≤ serdata.mem.length
  header : validIdentifier serdata.mem = true
  pars : ∀ par ∈ serdata.pars, par.Ok
  fits : ∀ le, 32 + (inlineQosOctets le serdata.pars).length + align4u config.fragmentSize < 2 ^ 16

def nfrags (config : FragConfig) (serdata : Serdata) : ℕ :=
  (serdata.size + config.fragmentSize - 1) / config.fragmentSize

def fragPayload (config : FragConfig) (serdata : Serdata) (fragnum : ℕ) : List UInt8 :=
  (serdata.mem.drop (fragnum * config.fragmentSize)).take
    (align4u (fragLen config serdata fragnum))

def fragRest (config : FragConfig) (src : FragSource) (serdata : Serdata) (fragnum : ℕ) :
    List UInt8 :=
  (if fragnum = 0 then inlineQosOctets src.le serdata.pars else []) ++
    fragPayload config serdata fragnum

def fragRdata (config : FragConfig) (serdata : Serdata) (fragnum : ℕ) : Rdata where
  min := fragnum * config.fragmentSize
  maxp1 := min ((fragnum + 1) * config.fragmentSize) serdata.size
  payload := fragPayload config serdata fragnum

section Wire

variable {config : FragConfig} {serdata : Serdata} {fragnum : ℕ} {msg : DataFrag}

section

variable (h : Fragmentable config serdata)
include h

lemma lt_nfrags_iff :
    fragnum < nfrags config serdata ↔ fragnum * config.fragmentSize < serdata.size := by
  have hpos := h.unit.1
  rw [nfrags, Nat.lt_iff_add_one_le, Nat.le_div_iff_mul_le hpos, Nat.add_mul]
  omega

variable (hlt : fragnum * config.fragmentSize < serdata.size)
include hlt

lemma fragLen_pos :
    0 < fragLen config serdata fragnum ∧ fragLen config serdata fragnum ≤ config.fragmentSize ∧
      fragnum * config.fragmentSize + fragLen config serdata fragnum ≤ serdata.size ∧
      (fragLen config serdata fragnum = config.fragmentSize ∨
        fragnum * config.fragmentSize + fragLen config serdata fragnum = serdata.size) := by
  have hpos := h.unit.1
  simp only [fragLen]
  split_ifs <;> omega

lemma length_fragPayload :
    (fragPayload config serdata fragnum).length = align4u (fragLen config serdata fragnum) := by
  obtain ⟨-, -, hend, -⟩ := fragLen_pos h hlt
  have hmem := h.mem
  rw [fragPayload, length_take, length_drop, align4u]
  omega

end

/-- The octets of a submessage of its full size behind the fixed fields. -/
lemma octets_fixed (msg : DataFrag) :
    msg.octets sizeofDataFrag (sizeofDataFrag + msg.rest.length) = msg.rest := by
  have hlen : (msg.fixed ++ msg.rest).length = sizeofDataFrag + msg.rest.length := by simp
  rw [DataFrag.octets, take_of_length_le hlen.le, drop_left' msg.length_fixed]

/-- The flags of a DataFrag tell the byte order, whether there is an inline QoS, and, in the mode in
which they are those of a Data, that there is either data or a key. -/
lemma dataFragFlags_spec (config : FragConfig) (src : FragSource) (serdata : Serdata)
    (fragnum : ℕ) :
    (dataFragFlags config src serdata fragnum &&& datafragFlagInlineQos ≠ 0 ↔
      fragnum = 0 ∧ serdata.pars ≠ []) ∧
    (dataFragFlags config src serdata fragnum &&& smflagEndianness ≠ 0 ↔ src.le) ∧
    (config.buggyDatafragFlagsMode →
      dataFragFlags config src serdata fragnum &&& (dataFlagDataflag ||| dataFlagKeyflag) ≠
        dataFlagDataflag ||| dataFlagKeyflag ∧
      dataFragFlags config src serdata fragnum &&& (dataFlagDataflag ||| dataFlagKeyflag) ≠ 0) := by
  unfold dataFragFlags
  by_cases hqos : fragnum = 0 ∧ serdata.pars ≠ []
  · rw [if_pos hqos, eq_true hqos]
    cases src.le <;> cases config.buggyDatafragFlagsMode <;> cases serdata.isKey <;> decide
  · rw [if_neg hqos, eq_false hqos]
    cases src.le <;> cases config.buggyDatafragFlagsMode <;> cases serdata.isKey <;> decide

/-- A submessage is taken for what it is if its length field is right. -/
lemma submsgSize_eq (h : msg.octetsToNextHeader.toNat = 32 + msg.rest.length) :
    submsgSize msg = some (sizeofDataFrag + msg.rest.length) := by
  have hne : msg.octetsToNextHeader ≠ 0 := by
    intro hzero
    rw [hzero, UInt16.toNat_zero] at h
    omega
  have hsize : 4 + msg.octetsToNextHeader.toNat = sizeofDataFrag + msg.rest.length := by
    rw [h, sizeofDataFrag]
    omega
  simp only [submsgSize]
  rw [if_pos hne, hsize, if_neg (lt_irrefl _)]

section

variable (h : Fragmentable config serdata)

include h

variable (src : FragSource)

section

variable (hlt : fragnum * config.fragmentSize < serdata.size)
include hlt

lemma length_fragRest_lt : 32 + (fragRest config src serdata fragnum).length < 2 ^ 16 := by
  obtain ⟨-, hfraglen, -⟩ := fragLen_pos h hlt
  have hfits := h.fits src.le
  rw [fragRest, length_append, length_fragPayload h hlt]
  unfold align4u at *
  split_ifs
  · omega
  · rw [length_nil]
    omega

lemma offset_mod : fragnum * config.fragmentSize % 2 ^ 32 = fragnum * config.fragmentSize := by
  have hmax := h.size
  have hoffsets := h.offsets
  exact Nat.mod_eq_of_lt (by omega)

end

lemma createFragmentMessage_eq (seq : ℤ) (hlt : fragnum * config.fragmentSize < serdata.size) :
    ∃ msg, createFragmentMessage config src seq serdata fragnum = some msg ∧
      msg.flags = dataFragFlags config src serdata fragnum ∧
      msg.octetsToNextHeader.toNat = 32 + msg.rest.length ∧
      msg.octetsToInlineQos = 28 ∧ msg.writerSN = seq ∧
      msg.fragmentStartingNum.toNat = fragnum + 1 ∧ msg.fragmentsInSubmessage.toNat = 1 ∧
      msg.fragmentSize.toNat = config.fragmentSize ∧ msg.sampleSize.toNat = serdata.size ∧
      msg.rest = fragRest config src serdata fragnum := by
  have hrest := length_fragRest_lt h src hlt
  have hwrap := offset_mod h hlt
  obtain ⟨⟨hpos, hunit⟩, hneeded, hsize, hoffsets, -, -, -, -⟩ := h
  have hnum : fragnum ≤ fragnum * config.fragmentSize := Nat.le_mul_of_pos_right _ hpos
  unfold createFragmentMessage
  rw [hwrap, if_neg (by omega), if_neg (by omega)]
  refine ⟨_, rfl, rfl, ?_, rfl, rfl, ?_, rfl, ?_, ?_, rfl⟩
  · show (ofNat (sizeofDataFrag + (fragRest config src serdata fragnum).length - 4)).toNat =
      32 + (fragRest config src serdata fragnum).length
    rw [toNat_ofNat', sizeofDataFrag]
    omega
  · rw [UInt32.toNat_ofNat']
    omega
  · rw [toNat_ofNat']
    omega
  · rw [UInt32.toNat_ofNat']
    omega

lemma dataFragPayload_eq (hflags : msg.flags = dataFragFlags config src serdata fragnum)
    (hqos : msg.octetsToInlineQos = 28) (hrest : msg.rest = fragRest config src serdata fragnum) :
    dataFragPayload msg (sizeofDataFrag + msg.rest.length) =
      some (fragPayload config serdata fragnum) := by
  obtain ⟨hinline, hendian, -⟩ := dataFragFlags_spec config src serdata fragnum
  have hoctets : msg.octets (8 + msg.octetsToInlineQos.toNat) (sizeofDataFrag + msg.rest.length) =
      fragRest config src serdata fragnum := by
    rw [hqos, ← hrest]
    exact octets_fixed msg
  have horder : decide (dataFragFlags config src serdata fragnum &&& smflagEndianness ≠ 0) =
      src.le := by
    rw [Bool.eq_iff_iff, decide_eq_true_iff]
    exact hendian
  simp only [dataFragPayload, hoctets, hflags]
  by_cases hfirst : fragnum = 0 ∧ serdata.pars ≠ []
  · rw [if_pos (hinline.mpr hfirst), horder, fragRest, if_pos hfirst.1]
    exact nnPlistQuickscan_inlineQosOctets hfirst.2 h.pars _
  · rw [if_neg fun hne ↦ hfirst (hinline.mp hne), fragRest]
    split_ifs with hzero
    · have hnil : serdata.pars = [] := by
        by_contra hne
        exact hfirst ⟨hzero, hne⟩
      rw [inlineQosOctets, if_pos hnil, nil_append]
    · rw [nil_append]

lemma validIdentifier_fragPayload : 4 ≤ (fragPayload config serdata 0).length ∧
      validIdentifier (fragPayload config serdata 0) := by
  have hlt : 0 * config.fragmentSize < serdata.size := by
    have := h.needed
    omega
  have hlen := length_fragPayload h hlt
  obtain ⟨hpos, -⟩ := fragLen_pos h hlt
  have hheader := h.header
  have hfour : 4 ≤ align4u (fragLen config serdata 0) := by
    rw [align4u]
    omega
  refine ⟨hlen ▸ hfour, ?_⟩
  obtain ⟨n, hn⟩ := Nat.exists_eq_add_of_le hfour
  rw [fragPayload, Nat.zero_mul, drop_zero, hn, Nat.add_comm]
  match hmem : serdata.mem with
  | [] | [_] => simp [hmem, validIdentifier] at hheader
  | a :: b :: rest =>
    rw [hmem] at hheader
    simpa [validIdentifier] using hheader

section

variable (hlt : fragnum * config.fragmentSize < serdata.size)
  (hstart : msg.fragmentStartingNum.toNat = fragnum + 1)
  (hcount : msg.fragmentsInSubmessage.toNat = 1)
  (hunit : msg.fragmentSize.toNat = config.fragmentSize)
  (hsize : msg.sampleSize.toNat = serdata.size)

include hlt hstart hcount hunit hsize

lemma validPayloadSize_fragPayload :
    validPayloadSize msg (fragPayload config serdata fragnum).length := by
  obtain ⟨hpos, hle, hend, hlast⟩ := fragLen_pos h hlt
  have hmax := h.size
  have hoffsets := h.offsets
  rw [length_fragPayload h hlt, validPayloadSize, hstart, hcount, hunit, hsize, align4u]
  simp only [Nat.add_sub_cancel, Nat.sub_self, Nat.zero_mul, Nat.one_mul, Nat.le_zero]
  split_ifs with hall hnone
  · rfl
  · omega
  · rw [decide_eq_true_iff]
    omega

lemma dataFragRdata_eq :
    dataFragRdata msg (fragPayload config serdata fragnum) = fragRdata config serdata fragnum := by
  obtain ⟨hpos, hle, hend, hlast⟩ := fragLen_pos h hlt
  have hmax := h.size
  have hoffsets := h.offsets
  have hwrap := offset_mod h hlt
  simp only [dataFragRdata, fragRdata, hstart, hcount, hunit, hsize, Nat.add_sub_cancel, hwrap,
    length_fragPayload h hlt, align4u, Nat.mul_one, Nat.add_mul, Nat.one_mul, Rdata.mk.injEq,
    true_and, and_true]
  split_ifs <;> omega

end

lemma receive_createFragmentMessage {seq : ℤ} (hseq : 0 < seq)
    (hlt : fragnum < nfrags config serdata) :
    (createFragmentMessage config src seq serdata fragnum).bind (receiveDataFrag config) =
      some (fragRdata config serdata fragnum, ⟨seq, serdata.size, config.fragmentSize⟩) := by
  rw [lt_nfrags_iff h] at hlt
  obtain ⟨msg, hmsg, hflags, hoctets, hqos, hsn, hstart, hcount, hunit, hsize, hrest⟩ :=
    createFragmentMessage_eq h src seq hlt
  have hfields : ¬ rejectsFields config msg (sizeofDataFrag + msg.rest.length) := by
    obtain ⟨-, -, hcontent⟩ := dataFragFlags_spec config src serdata fragnum
    obtain ⟨hpos, -⟩ := fragLen_pos h hlt
    have hneeded := h.needed
    have hunit' := h.unit
    have hwrap := offset_mod h hlt
    have hpayload : 4 ≤ msg.rest.length := by
      rw [hrest, fragRest, length_append, length_fragPayload h hlt, align4u]
      omega
    have hqos' : msg.octetsToInlineQos.toNat = 28 := by rw [hqos]; rfl
    have hlast : fragnum + 1 + 1 - 2 = fragnum := by omega
    simp only [rejectsFields, hstart, hcount, hunit, hsize, hsn, hflags, hqos', sizeofDataFrag,
      hlast, hwrap]
    rintro (hbad | ⟨hbuggy, hbad⟩ | hbad | hbad | hbad | hbad | hbad | ⟨hbuggy, hbad⟩ | hbad)
    · omega
    · exact (hcontent hbuggy).1 hbad
    · omega
    · omega
    · omega
    · omega
    · omega
    · exact (hcontent hbuggy).2 hbad
    · omega
  have hpayload := dataFragPayload_eq h src hflags hqos hrest
  have hvalid := validPayloadSize_fragPayload h hlt hstart hcount hunit hsize
  have hheader : ¬ (msg.fragmentStartingNum = 1 ∧ ((fragPayload config serdata fragnum).length < 4 ∨
        validIdentifier (fragPayload config serdata fragnum) = false)) := by
    rintro ⟨hone, hbad⟩
    rw [hone] at hstart
    obtain rfl : fragnum = 0 := by simpa using hstart
    obtain ⟨hfour, hident⟩ := validIdentifier_fragPayload h
    rcases hbad with hbad | hbad
    · omega
    · simp [hident] at hbad
  have haccept : validDataFrag config msg (sizeofDataFrag + msg.rest.length) =
      some (⟨seq, serdata.size, config.fragmentSize⟩, fragPayload config serdata fragnum) := by
    simp [validDataFrag, if_neg hfields, hpayload, hvalid, if_neg hheader, hsn, hsize, hunit]
  have hmax := h.size
  rw [hmsg, Option.bind_some, receiveDataFrag, submsgSize_eq hoctets]
  simp only [Option.bind_eq_bind, Option.bind_some, haccept]
  rw [if_neg (by omega), dataFragRdata_eq h hlt hstart hcount hunit hsize]

end

end Wire

end OpenSplice.Ddsi
