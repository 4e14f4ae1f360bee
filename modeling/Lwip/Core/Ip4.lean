import Lwip.Core.Arch

/-!
# The IPv4 header

`struct ip_hdr` as its bytes in memory. Fields of 16 bits are in network order; the checksum
is written as the host computes it.
-/

namespace Lwip

/-- `IP_HLEN`: size of a header without options. -/
def ipHlen : Nat := 20

/-- `IP_MF`: more fragments. -/
def ipMf : Nat := 0x2000

/-- `IP_OFFMASK`: the offset without the flags. -/
def ipOffmask : Nat := 0x1fff

/-- `lwip_ntohs` of the field at byte `i`. -/
def netU16 (bytes : List UInt8) (i : Nat) : Nat :=
  (bytes.getD i 0).toNat * 256 + (bytes.getD (i + 1) 0).toNat

/-- Store `lwip_htons(v)` into the field at byte `i`. -/
def setNetU16 (bytes : List UInt8) (i v : Nat) : List UInt8 :=
  (bytes.set i (UInt8.ofNat (v / 256))).set (i + 1) (UInt8.ofNat v)

/-- Store a 16-bit value in host order into the field at byte `i`. -/
def setHostU16 (bytes : List UInt8) (i : Nat) (v : UInt16) : List UInt8 :=
  (bytes.set i v.toUInt8).set (i + 1) (v >>> 8).toUInt8

/-- `IPH_HL`: length of the header in words of 32 bits. -/
def iphHl (bytes : List UInt8) : Nat := (bytes.getD 0 0).toNat &&& 0x0f

/-- `IPH_LEN`, converted. -/
def iphLen (bytes : List UInt8) : Nat := netU16 bytes 2

/-- `IPH_OFFSET`, converted: flags and offset. -/
def iphOffset (bytes : List UInt8) : Nat := netU16 bytes 6

/-- `IPH_ID`, converted. -/
def iphId (bytes : List UInt8) : Nat := netU16 bytes 4

/-- The address `src`. -/
def iphSrc (bytes : List UInt8) : List UInt8 := (bytes.drop 12).take 4

/-- The address `dest`. -/
def iphDest (bytes : List UInt8) : List UInt8 := (bytes.drop 16).take 4

def iphLenSet (bytes : List UInt8) (v : Nat) : List UInt8 := setNetU16 bytes 2 v

def iphOffsetSet (bytes : List UInt8) (v : Nat) : List UInt8 := setNetU16 bytes 6 v

def iphChksumSet (bytes : List UInt8) (v : UInt16) : List UInt8 := setHostU16 bytes 10 v

end Lwip
