import OpenSplice.Ddsi.Defrag.Model

/-!
# DataFrag submessages

A sample that does not fit one message travels as DataFrag submessages. `createFragmentMessage`
(`q_transmit.c`) makes them; on the receiving side `validDataFrag` checks one and finds its payload,
`dataFragRdata` is the part of `handle_DataFrag` that computes the bytes `[begin, endp1)` it holds
(`q_receive.c`), and `defragment` puts the chain of fragments of a complete sample into one buffer.

A submessage is the record of its fixed fields, in the byte order of the host, and the octets behind
them. `DataFrag.fixed` lays the fields out as in the receive buffer of a little-endian host, because
a malformed `octetsToInlineQos` may point into them. Arithmetic on `os_uint32` is taken modulo `2 ^
32`. The inline QoS is only walked over to find its end.
-/

set_option autoImplicit false

namespace OpenSplice.Ddsi

/-- The configuration the functions of this module read. `strict` is `NN_STRICT_P`. -/
structure FragConfig where
  strict : Bool
  buggyDatafragFlagsMode : Bool
  fragmentSize : ℕ
  maxSampleSize : ℕ
  deriving DecidableEq

/-- The `w` octets of a number, the least significant one first. -/
def leBytes (w n : ℕ) : List UInt8 := (List.range w).map fun i ↦ UInt8.ofNat (n / 256 ^ i)

@[simp] lemma length_leBytes (w n : ℕ) : (leBytes w n).length = w := by simp [leBytes]

/-- `DataFrag_t` with the octets behind it. -/
structure DataFrag where
  submessageId : UInt8
  flags : UInt8
  octetsToNextHeader : UInt16
  extraFlags : UInt16
  octetsToInlineQos : UInt16
  readerId : UInt32
  writerId : UInt32
  writerSN : ℤ
  fragmentStartingNum : UInt32
  fragmentsInSubmessage : UInt16
  fragmentSize : UInt16
  sampleSize : UInt32
  rest : List UInt8
  deriving DecidableEq

/-- `sizeof (DataFrag_t)`. -/
def sizeofDataFrag : ℕ := 36

def DataFrag.fixed (msg : DataFrag) : List UInt8 :=
  [msg.submessageId, msg.flags] ++ leBytes 2 msg.octetsToNextHeader.toNat ++
    leBytes 2 msg.extraFlags.toNat ++ leBytes 2 msg.octetsToInlineQos.toNat ++
    leBytes 4 msg.readerId.toNat ++ leBytes 4 msg.writerId.toNat ++
    leBytes 4 (msg.writerSN / 2 ^ 32 % 2 ^ 32).toNat ++ leBytes 4 (msg.writerSN % 2 ^ 32).toNat ++
    leBytes 4 msg.fragmentStartingNum.toNat ++ leBytes 2 msg.fragmentsInSubmessage.toNat ++
    leBytes 2 msg.fragmentSize.toNat ++ leBytes 4 msg.sampleSize.toNat

@[simp] lemma DataFrag.length_fixed (msg : DataFrag) : msg.fixed.length = sizeofDataFrag := by
  simp [DataFrag.fixed, sizeofDataFrag]

def DataFrag.octets (msg : DataFrag) (off size : ℕ) : List UInt8 :=
  ((msg.fixed ++ msg.rest).take size).drop off

def smflagEndianness : UInt8 := 0x01
def datafragFlagInlineQos : UInt8 := 0x02
def datafragFlagKeyflag : UInt8 := 0x04
def dataFlagDataflag : UInt8 := 0x04
def dataFlagKeyflag : UInt8 := 0x08

def pidSentinel : ℕ := 0x1
def pidStatusinfo : ℕ := 0x71
def pidPrismtechWriterInfo : ℕ := 0x8001

/-- `sizeof (nn_prismtech_writer_info_old_t)`. -/
def sizeofWriterInfoOld : ℕ := 28

/-- An `os_ushort` in the given byte order. -/
def readUshort (le : Bool) (a b : UInt8) : ℕ :=
  if le then a.toNat + 256 * b.toNat else 256 * a.toNat + b.toNat

/-- The octets of an `os_ushort` in the given byte order. -/
def writeUshort (le : Bool) (n : ℕ) : List UInt8 :=
  if le then [UInt8.ofNat n, UInt8.ofNat (n / 256)] else [UInt8.ofNat (n / 256), UInt8.ofNat n]

/-- The shortest value that `nn_plist_quickscan` accepts for a parameter. -/
def minParamLength (pid : ℕ) : ℕ :=
  if pid = pidStatusinfo then 4
  else if pid = pidPrismtechWriterInfo then sizeofWriterInfoOld
  else 0

/-- The loop of `nn_plist_quickscan`, for at most `fuel` parameters: the octets that follow the
parameter list. Every round consumes four octets at least. -/
def nnPlistQuickscanLoop (le : Bool) : ℕ → List UInt8 → Option (List UInt8)
  | 0, _ => none
  | fuel + 1, a :: b :: c :: d :: pl =>
    let pid := readUshort le a b
    let length := readUshort le c d
    if pid = pidSentinel then some pl
    else if pl.length < length then none
    else if length % 4 ≠ 0 then none
    else if length < minParamLength pid then none
    else nnPlistQuickscanLoop le fuel (pl.drop length)
  | _ + 1, _ => none

/-- `nn_plist_quickscan`. -/
def nnPlistQuickscan (le : Bool) (buf : List UInt8) : Option (List UInt8) :=
  nnPlistQuickscanLoop le (buf.length + 1) buf

/-! ### Receiving -/

/-- `NN_SEQUENCE_NUMBER_UNKNOWN`. -/
def nnSequenceNumberUnknown : ℤ := -2 ^ 32

/-- The `identifier` of a CDR header that `valid_DataFrag` accepts: `CDR_BE`, `CDR_LE`, `PL_CDR_BE`
or `PL_CDR_LE`, in network order. -/
def validIdentifier : List UInt8 → Bool
  | a :: b :: _ => a = 0 && decide (b.toNat ≤ 3)
  | _ => false

/-- The payload of a fragment is as long as its fields say: all fragments fit, or the last one is
short and the sample ends with it. -/
def validPayloadSize (msg : DataFrag) (payloadsz : ℕ) : Bool :=
  let n := msg.fragmentsInSubmessage.toNat
  let fs := msg.fragmentSize.toNat
  if n * fs ≤ payloadsz then true
  else if payloadsz ≤ (n - 1) * fs then false
  else decide (msg.sampleSize.toNat ≤
    ((msg.fragmentStartingNum.toNat - 1) * fs % 2 ^ 32 + payloadsz) % 2 ^ 32)

/-- The checks of `valid_DataFrag` on the fixed fields, in the order of the source. -/
def rejectsFields (config : FragConfig) (msg : DataFrag) (size : ℕ) : Prop :=
  let start := msg.fragmentStartingNum.toNat
  let n := msg.fragmentsInSubmessage.toNat
  let fs := msg.fragmentSize.toNat
  let content := msg.flags &&& (dataFlagDataflag ||| dataFlagKeyflag)
  size < sizeofDataFrag ∨
  (config.buggyDatafragFlagsMode = true ∧ content = dataFlagDataflag ||| dataFlagKeyflag) ∨
  (config.strict = true ∧ fs ≤ 1024 ∧ fs < config.fragmentSize) ∨
  (fs = 0 ∨ start = 0 ∨ n = 0) ∨
  (config.strict = true ∧ msg.sampleSize.toNat ≤ fs) ∨
  -- the first byte of the last fragment lies beyond the sample
  msg.sampleSize.toNat ≤ (start + n - 2) * fs % 2 ^ 32 ∨
  (msg.writerSN ≤ 0 ∧ msg.writerSN ≠ nnSequenceNumberUnknown) ∨
  (config.buggyDatafragFlagsMode = true ∧ content = 0) ∨
  size < 8 + msg.octetsToInlineQos.toNat + 4

instance (config : FragConfig) (msg : DataFrag) (size : ℕ) :
    Decidable (rejectsFields config msg size) := by
  unfold rejectsFields
  infer_instance

def dataFragPayload (msg : DataFrag) (size : ℕ) : Option (List UInt8) :=
  let octets := msg.octets (8 + msg.octetsToInlineQos.toNat) size
  if msg.flags &&& datafragFlagInlineQos ≠ 0 then
    nnPlistQuickscan (msg.flags &&& smflagEndianness ≠ 0) octets
  else some octets

/-- `valid_DataFrag`: the sample info and the octets of the payload. -/
def validDataFrag (config : FragConfig) (msg : DataFrag) (size : ℕ) :
    Option (RsampleInfo × List UInt8) :=
  if rejectsFields config msg size then none
  else
    match dataFragPayload msg size with
    | none => none
    | some payload =>
      if !validPayloadSize msg payload.length then none
      else if msg.fragmentStartingNum = 1 ∧
          (payload.length < 4 ∨ validIdentifier payload = false) then none
      else some (⟨msg.writerSN, msg.sampleSize.toNat, msg.fragmentSize.toNat⟩, payload)

/-- The part of `handle_DataFrag` that makes an `nn_rdata` of a fragment. -/
def dataFragRdata (msg : DataFrag) (payload : List UInt8) : Rdata :=
  let fs := msg.fragmentSize.toNat
  let n := msg.fragmentsInSubmessage.toNat
  let begin := (msg.fragmentStartingNum.toNat - 1) * fs % 2 ^ 32
  let endp1 :=
    if payload.length < fs * n then (begin + payload.length) % 2 ^ 32
    else (begin + fs * n) % 2 ^ 32
  { min := begin
    maxp1 := if msg.sampleSize.toNat < endp1 then msg.sampleSize.toNat else endp1
    payload := payload }

/-- The size `handle_submsg_sequence` takes a DataFrag for, if it lies within the message. -/
def submsgSize (msg : DataFrag) : Option ℕ :=
  let avail := sizeofDataFrag + msg.rest.length
  let size := if msg.octetsToNextHeader ≠ 0 then 4 + msg.octetsToNextHeader.toNat else avail
  if avail < size then none else some size

/-- The way of a DataFrag to `nn_defrag_rsample`, through `handle_submsg_sequence`, `valid_DataFrag`
and `handle_DataFrag`. Nothing for a fragment that is rejected or is of an oversize sample. -/
def receiveDataFrag (config : FragConfig) (msg : DataFrag) : Option (Rdata × RsampleInfo) := do
  let size ← submsgSize msg
  let (info, payload) ← validDataFrag config msg size
  if config.maxSampleSize < info.size then none
  else some (dataFragRdata msg payload, info)

/-- The loop of `defragment`, with the bytes written so far, which are the first `off` ones. Nothing
where one of the assertions of the loop fails. -/
def defragmentLoop (sz : ℕ) : ℕ → List UInt8 → List Rdata → Option (List UInt8)
  | _, buf, [] => some buf
  | off, buf, frag :: fragchain =>
    if off < frag.min ∨ sz < frag.maxp1 then none
    else if off < frag.maxp1 then
      defragmentLoop sz frag.maxp1
        (buf ++ (frag.payload.drop (off - frag.min)).take (frag.maxp1 - off)) fragchain
    else defragmentLoop sz off buf fragchain

/-- `defragment`: the bytes of a sample. That of a single fragment is not copied. -/
def defragment (fragchain : List Rdata) (sz : ℕ) : Option (List UInt8) :=
  match fragchain with
  | [frag] => some (frag.payload.take sz)
  | _ => defragmentLoop sz 0 [] fragchain

/-! ### Sending -/

/-- A parameter of the inline QoS. -/
structure Param where
  pid : ℕ
  value : List UInt8
  deriving DecidableEq

/-- `nn_xmsg_addpar`: a value is padded to a multiple of four octets. -/
def nnXmsgAddpar (le : Bool) (par : Param) : List UInt8 :=
  let len4 := (par.value.length + 3) / 4 * 4
  writeUshort le par.pid ++ writeUshort le len4 ++
    (par.value ++ List.replicate (len4 - par.value.length) 0)

/-- The parameters of a submessage, with the sentinel that `nn_xmsg_addpar_sentinel_ifparam` adds if
there are any. -/
def inlineQosOctets (le : Bool) (pars : List Param) : List UInt8 :=
  if pars = [] then [] else pars.flatMap (nnXmsgAddpar le) ++ nnXmsgAddpar le ⟨pidSentinel, []⟩

/-- A serialized sample: the memory from its CDR header on, of which `size` octets are the sample,
and the parameters that travel with it. -/
structure Serdata where
  mem : List UInt8
  size : ℕ
  isKey : Bool
  pars : List Param
  deriving DecidableEq

/-- `align4u`. -/
def align4u (n : ℕ) : ℕ := (n + 3) / 4 * 4

/-- The identifiers in the header of a submessage, and the byte order of the sender. -/
structure FragSource where
  le : Bool
  readerId : UInt32
  writerId : UInt32
  deriving DecidableEq

def dataFragFlags (config : FragConfig) (src : FragSource) (serdata : Serdata) (fragnum : ℕ) :
    UInt8 :=
  let contentflag :=
    if config.buggyDatafragFlagsMode then
      if serdata.isKey then dataFlagKeyflag else dataFlagDataflag
    else if serdata.isKey then datafragFlagKeyflag else 0
  (if src.le then smflagEndianness else 0) ||| contentflag |||
    (if fragnum = 0 ∧ serdata.pars ≠ [] then datafragFlagInlineQos else 0)

def fragLen (config : FragConfig) (serdata : Serdata) (fragnum : ℕ) : ℕ :=
  let fragstart := fragnum * config.fragmentSize
  if serdata.size < fragstart + config.fragmentSize then serdata.size - fragstart
  else config.fragmentSize

/-- `create_fragment_message` for a sample that needs fragmenting. Nothing for a fragment beyond the
end of the sample (`ERR_INVALID`), and for a sample that is sent as a Data. -/
def createFragmentMessage (config : FragConfig) (src : FragSource) (seq : ℤ) (serdata : Serdata)
    (fragnum : ℕ) : Option DataFrag :=
  if serdata.size ≤ fragnum * config.fragmentSize % 2 ^ 32 ∧ 0 < serdata.size then none
  else if serdata.size ≤ config.fragmentSize then none
  else
    -- the parameters travel with the first fragment
    let qos := if fragnum = 0 then inlineQosOctets src.le serdata.pars else []
    let payload := (serdata.mem.drop (fragnum * config.fragmentSize)).take
      (align4u (fragLen config serdata fragnum))
    some
      { submessageId := 0x16
        flags := dataFragFlags config src serdata fragnum
        octetsToNextHeader :=
          UInt16.ofNat (sizeofDataFrag + (qos ++ payload).length - 4)
        extraFlags := 0
        octetsToInlineQos := 28
        readerId := src.readerId
        writerId := src.writerId
        writerSN := seq
        fragmentStartingNum := UInt32.ofNat (fragnum + 1)
        fragmentsInSubmessage := 1
        fragmentSize := UInt16.ofNat config.fragmentSize
        sampleSize := UInt32.ofNat serdata.size
        rest := qos ++ payload }

end OpenSplice.Ddsi
