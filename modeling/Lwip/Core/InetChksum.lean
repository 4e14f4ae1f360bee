import Lwip.Core.Pbuf

/-!
# Internet checksum

`lwip_standard_chksum` in its three versions, on a little-endian machine, `inet_chksum`, and the
checksums over chains of pbufs, with and without the pseudo header of IPv4, which use the second
version. The start address of a buffer only matters to it through its lowest bit.
-/

namespace Lwip

/-- `FOLD_U32T`. -/
def foldU32 (sum : UInt32) : UInt32 := (sum >>> 16) + (sum &&& 0xffff)

def swapBytesInWord (w : UInt32) : UInt32 := ((w &&& 0xff) <<< 8) ||| ((w &&& 0xff00) >>> 8)

/-- The loop over 16-bit words, with the left-over byte that it ends at. -/
def chksumWords (sum : UInt32) : List UInt8 → UInt32 × Option UInt8
  | [] => (sum, none)
  | [last] => (sum, some last)
  | low :: high :: rest => chksumWords (sum + (low.toUInt32 + high.toUInt32 <<< 8)) rest

/-- `lwip_standard_chksum` of bytes that start at an odd or even address. -/
def lwipStandardChksum (odd : Bool) (data : List UInt8) : UInt16 :=
  let (first, bulk) : UInt32 × List UInt8 :=
    match odd, data with
    | true, b :: rest => (b.toUInt32 <<< 8, rest)
    | _, _ => (0, data)
  let (sum, leftOver) := chksumWords 0 bulk
  let t := first + (leftOver.map UInt8.toUInt32).getD 0
  let folded := foldU32 (foldU32 (sum + t))
  (if odd then swapBytesInWord folded else folded).toUInt16

/-- `lwip_htons` on a little-endian machine. -/
def lwipHtons (n : UInt16) : UInt16 := ((n &&& 0xff) <<< 8) ||| ((n &&& 0xff00) >>> 8)

/-- The loop of the first version: words in network order, the last octet padded. -/
def chksumOctets (acc : UInt32) : List UInt8 → UInt32
  | [] => acc
  | [last] => acc + (last.toUInt16 <<< 8).toUInt32
  | high :: low :: rest =>
    chksumOctets (acc + (high.toUInt16 <<< 8 ||| low.toUInt16).toUInt32) rest

/-- `lwip_standard_chksum`, the first version. -/
def lwipStandardChksum1 (data : List UInt8) : UInt16 :=
  let acc := foldU32 (chksumOctets 0 data)
  let acc := if acc &&& 0xffff0000 ≠ 0 then foldU32 acc else acc
  lwipHtons acc.toUInt16

/-- A 32-bit word is added, and the carry is added back. -/
def addLong (sum : UInt32) (b0 b1 b2 b3 : UInt8) : UInt32 :=
  let tmp := sum + (b0.toUInt32 + b1.toUInt32 <<< 8 + b2.toUInt32 <<< 16 + b3.toUInt32 <<< 24)
  if tmp < sum then tmp + 1 else tmp

/-- The unrolled loop of the third version, with the bytes that are left. -/
def chksumLongs (sum : UInt32) : List UInt8 → UInt32 × List UInt8
  | b0 :: b1 :: b2 :: b3 :: b4 :: b5 :: b6 :: b7 :: rest =>
    chksumLongs (addLong (addLong sum b0 b1 b2 b3) b4 b5 b6 b7) rest
  | left => (sum, left)

/-- The bytes from an even address on, up to the first fold: a word before the next 32-bit word,
and the loop. -/
def chksumBulk (ps : Nat) (bulk : List UInt8) : UInt32 × List UInt8 :=
  let (sum, bulk) : UInt32 × List UInt8 :=
    match bulk with
    | low :: high :: rest =>
      if ps % 4 ≠ 0 then (low.toUInt32 + high.toUInt32 <<< 8, rest) else (0, bulk)
    | _ => (0, bulk)
  let (sum, bulk) := chksumLongs sum bulk
  (foldU32 sum, bulk)

/-- `lwip_standard_chksum`, the third version, of bytes that start at an address. -/
def lwipStandardChksum3 (address : Nat) (data : List UInt8) : UInt16 :=
  let odd : Bool := address % 2 = 1
  let (first, ps, bulk) : UInt32 × Nat × List UInt8 :=
    match odd, data with
    | true, b :: rest => (b.toUInt32 <<< 8, address + 1, rest)
    | _, _ => (0, address, data)
  let (sum, bulk) := chksumBulk ps bulk
  let (sum, leftOver) := chksumWords sum bulk
  let t := first + (leftOver.map UInt8.toUInt32).getD 0
  let folded := foldU32 (foldU32 (sum + t))
  (if odd then swapBytesInWord folded else folded).toUInt16

def inetChksum (odd : Bool) (data : List UInt8) : UInt16 := ~~~(lwipStandardChksum odd data)

/-- A pbuf chain with the lowest bit of the address of every payload. -/
abbrev AddressedChain := List (Bool × Pbuf)

/-- Bytes of all buffers in order. -/
def AddressedChain.bytes (c : AddressedChain) : List UInt8 := c.flatMap (fun q => q.2.bytes)

/-- The loop over a chain that `inet_chksum_pbuf` and `inet_cksum_pseudo_base` share: the
accumulator and `swapped`. -/
def chksumChain (acc : UInt32) (swapped : Bool) : AddressedChain → UInt32 × Bool
  | [] => (acc, swapped)
  | (odd, q) :: next =>
    let acc := foldU32 (acc + (lwipStandardChksum odd q.bytes).toUInt32)
    if q.len % 2 ≠ 0 then chksumChain (swapBytesInWord acc) (!swapped) next
    else chksumChain acc swapped next

def inetChksumPbuf (p : AddressedChain) : UInt16 :=
  let (acc, swapped) := chksumChain 0 false p
  let acc := if swapped then swapBytesInWord acc else acc
  (~~~(acc &&& 0xffff)).toUInt16

def inetCksumPseudoBase (p : AddressedChain) (proto : UInt8) (protoLen : UInt16) (acc : UInt32) :
    UInt16 :=
  let (acc, swapped) := chksumChain acc false p
  let acc := if swapped then swapBytesInWord acc else acc
  let acc := acc + (lwipHtons proto.toUInt16).toUInt32
  let acc := acc + (lwipHtons protoLen).toUInt32
  let acc := foldU32 (foldU32 acc)
  (~~~(acc &&& 0xffff)).toUInt16

/-- `inet_chksum_pseudo`; the addresses are the words as they lie in memory. -/
def inetChksumPseudo (p : AddressedChain) (proto : UInt8) (protoLen : UInt16)
    (src dest : UInt32) : UInt16 :=
  let acc := src &&& 0xffff
  let acc := acc + ((src >>> 16) &&& 0xffff)
  let acc := acc + (dest &&& 0xffff)
  let acc := acc + ((dest >>> 16) &&& 0xffff)
  inetCksumPseudoBase p proto protoLen (foldU32 (foldU32 acc))

/-- The loop of `inet_cksum_pseudo_partial_base`: the accumulator and `swapped`. -/
def chksumChainPartial (acc : UInt32) (swapped : Bool) (chksumLen : Nat) :
    AddressedChain → Asserting (UInt32 × Bool)
  | [] => .ok (acc, swapped)
  | (odd, q) :: next =>
    if chksumLen = 0 then .ok (acc, swapped)
    else do
      let chklen := min q.len chksumLen
      let acc := acc + (lwipStandardChksum odd (q.bytes.take chklen)).toUInt32
      lwipAssert "delete me" (chksumLen - chklen < 0x7fff)
      let acc := foldU32 acc
      if q.len % 2 ≠ 0 then
        chksumChainPartial (swapBytesInWord acc) (!swapped) (chksumLen - chklen) next
      else chksumChainPartial acc swapped (chksumLen - chklen) next

def inetCksumPseudoPartialBase (p : AddressedChain) (proto : UInt8) (protoLen : UInt16)
    (chksumLen : Nat) (acc : UInt32) : Asserting UInt16 := do
  let (acc, swapped) ← chksumChainPartial acc false chksumLen p
  let acc := if swapped then swapBytesInWord acc else acc
  let acc := acc + (lwipHtons proto.toUInt16).toUInt32
  let acc := acc + (lwipHtons protoLen).toUInt32
  let acc := foldU32 (foldU32 acc)
  .ok (~~~(acc &&& 0xffff)).toUInt16

def inetChksumPseudoPartial (p : AddressedChain) (proto : UInt8) (protoLen : UInt16)
    (chksumLen : Nat) (src dest : UInt32) : Asserting UInt16 :=
  let acc := src &&& 0xffff
  let acc := acc + ((src >>> 16) &&& 0xffff)
  let acc := acc + (dest &&& 0xffff)
  let acc := acc + ((dest >>> 16) &&& 0xffff)
  inetCksumPseudoPartialBase p proto protoLen chksumLen (foldU32 (foldU32 acc))

end Lwip
