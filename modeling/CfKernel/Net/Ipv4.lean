import CfKernel.Net.Checksum

/-!
# The IPv4 header and its checksum

`net_ipv4_fill_header` stores every field byte-swapped except the checksum, which is computed over
big-endian words and stored in host order. On the wire its two bytes are exchanged, so the header is
right exactly when they are equal.
-/

namespace CfKernel.Net

open Lib

section Header

/-- `net_ipv4_header_t`; the fields of more than one byte hold host-order values. -/
structure Ipv4Header where
  ihlVersion : Nat
  tos : Nat
  totalLength : Nat
  identification : Nat
  flagsFragment : Nat
  ttl : Nat
  protocol : Nat
  checksum : Nat
  src : Nat
  dst : Nat

/-- The packed header in the memory of the little-endian target. -/
def Ipv4Header.bytes (h : Ipv4Header) : Bytes := fun i => List.getD [
    byteOf h.ihlVersion 0, byteOf h.tos 0, byteOf h.totalLength 0, byteOf h.totalLength 1,
    byteOf h.identification 0, byteOf h.identification 1,
    byteOf h.flagsFragment 0, byteOf h.flagsFragment 1, byteOf h.ttl 0, byteOf h.protocol 0,
    byteOf h.checksum 0, byteOf h.checksum 1,
    byteOf h.src 0, byteOf h.src 1, byteOf h.src 2, byteOf h.src 3,
    byteOf h.dst 0, byteOf h.dst 1, byteOf h.dst 2, byteOf h.dst 3] i 0

def Ipv4Header.words (h : Ipv4Header) : List Nat := wordsFrom h.bytes 10 0

variable {src dst : UInt32} {proto : UInt8} {len : UInt16} {c x : Nat}

end Header

end CfKernel.Net
