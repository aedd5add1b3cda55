import Mathlib

/-!
# Numbers in octets

Numbers of two and four octets in either byte order. Swapping the octets of a number that was read
in one order gives what the other order reads (`bswap2u_u16`, `bswap4u_u32`).
-/

set_option autoImplicit false

namespace OpenSplice.Library

inductive ByteOrder
  | big
  | little
deriving DecidableEq

namespace ByteOrder

def swap : ByteOrder → ByteOrder
  | big => little
  | little => big

lemma eq_swap_of_ne {o o' : ByteOrder} (h : o ≠ o') : o = o'.swap := by
  cases o <;> cases o' <;> first | rfl | exact absurd rfl h

end ByteOrder

namespace Octets

variable (o : ByteOrder) (buf : List UInt8) (i : ℕ)

def octet : ℕ := (buf.getD i 0).toNat

def u16 : ℕ :=
  match o with
  | .big => 2 ^ 8 * octet buf i + octet buf (i + 1)
  | .little => octet buf i + 2 ^ 8 * octet buf (i + 1)

def u32 : ℕ :=
  match o with
  | .big =>
    2 ^ 24 * octet buf i + 2 ^ 16 * octet buf (i + 1) + 2 ^ 8 * octet buf (i + 2) +
      octet buf (i + 3)
  | .little =>
    octet buf i + 2 ^ 8 * octet buf (i + 1) + 2 ^ 16 * octet buf (i + 2) +
      2 ^ 24 * octet buf (i + 3)

def bswap2u (x : ℕ) : ℕ := 2 ^ 8 * (x % 2 ^ 8) + x / 2 ^ 8 % 2 ^ 8

def bswap4u (x : ℕ) : ℕ :=
  2 ^ 24 * (x % 2 ^ 8) + 2 ^ 16 * (x / 2 ^ 8 % 2 ^ 8) + 2 ^ 8 * (x / 2 ^ 16 % 2 ^ 8) +
    x / 2 ^ 24 % 2 ^ 8

variable {o buf i}

lemma octet_lt (buf : List UInt8) (i : ℕ) : octet buf i < 2 ^ 8 := UInt8.toNat_lt _

lemma bswap2u_u16 : bswap2u (u16 o buf i) = u16 o.swap buf i := by
  have h0 := octet_lt buf i
  have h1 := octet_lt buf (i + 1)
  cases o <;> simp only [bswap2u, u16, ByteOrder.swap] <;> omega

lemma bswap4u_u32 : bswap4u (u32 o buf i) = u32 o.swap buf i := by
  have h0 := octet_lt buf i
  have h1 := octet_lt buf (i + 1)
  have h2 := octet_lt buf (i + 2)
  have h3 := octet_lt buf (i + 3)
  cases o <;> simp only [bswap4u, u32, ByteOrder.swap] <;> omega

end Octets

end OpenSplice.Library
