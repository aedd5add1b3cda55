import OpenSplice.Library.KeyedList

/-!
# Received samples

The data of `q_radmin.h` that the receive administration passes between its stages. A received
(fragment of a) sample is an `Rdata`; the defragmenter chains them, and a complete sample is one
element of a sample chain. An element without sample info is a gap: a range of numbers the writer
has declared unavailable.

Of `nn_rsample_info` only the fields that are read are kept. Linked lists are lists here, sequence
numbers (`os_int64`) integers and byte offsets (`os_uint32`) natural numbers.
-/

set_option autoImplicit false

namespace OpenSplice.Ddsi

/-- `struct nn_rsample_info`. -/
structure RsampleInfo where
  seq : ℤ
  size : ℕ
  fragsize : ℕ
  deriving DecidableEq

/-- `struct nn_rdata`: the bytes `[min, maxp1)` of a sample, with the octets that follow its payload
offset in the receive buffer. -/
structure Rdata where
  min : ℕ
  maxp1 : ℕ
  payload : List UInt8
  deriving DecidableEq

/-- `struct nn_rsample_chain_elem`. The sample info is absent exactly for a gap. -/
structure RsampleChainElem (F : Type) where
  fragchain : F
  sampleinfo : Option RsampleInfo
  deriving DecidableEq

/-- `struct nn_rsample_reorder`: the samples known of the sequence numbers `[min, maxp1)`. -/
structure RsampleReorder (F : Type) where
  min : ℤ
  maxp1 : ℤ
  nSamples : ℕ
  sc : List (RsampleChainElem F)
  deriving DecidableEq

variable {F : Type}

def RsampleChainElem.seq? (e : RsampleChainElem F) : Option ℤ := e.sampleinfo.map RsampleInfo.seq

def chainSeqs (sc : List (RsampleChainElem F)) : List ℤ := sc.filterMap RsampleChainElem.seq?

@[simp] lemma chainSeqs_nil : chainSeqs ([] : List (RsampleChainElem F)) = [] := rfl

@[simp] lemma chainSeqs_append (a b : List (RsampleChainElem F)) :
    chainSeqs (a ++ b) = chainSeqs a ++ chainSeqs b :=
  List.filterMap_append

/-- `reorder_rsample_new`: a complete sample as an interval of its own. -/
def reorderRsampleNew (fragchain : F) (sampleinfo : RsampleInfo) : RsampleReorder F where
  min := sampleinfo.seq
  maxp1 := sampleinfo.seq + 1
  nSamples := 1
  sc := [⟨fragchain, some sampleinfo⟩]

end OpenSplice.Ddsi
