import Lwip.Core.InetChksum
import Lwip.Core.Ip4

/-!
# IPv4 fragmentation

`ip4_frag` with `LWIP_NETIF_TX_SINGLE_PBUF` off: each fragment is a new `PBUF_RAM` with the
header, followed by `PBUF_REF`s into the pbufs of the datagram. Allocations are numbered, and
`alloc n` says whether the `n`-th one succeeds. The loops hand on the datagram, cut at the pbuf at
which they are; its reference counts are left out.
-/

namespace Lwip

/-- The variables of the inner loop of `ip4_frag` at its end. -/
structure FragCopy where
  /-- Whether an allocation has failed. -/
  memerr : Bool
  rambuf : Chain
  /-- The pbufs of the datagram in front of the current one. -/
  before : Chain
  /-- The current pbuf and those behind it. -/
  p : Chain
  /-- `poff`: offset in the current pbuf. -/
  poff : Nat
  newpbuflen : Nat
  /-- Number of allocations so far. -/
  allocs : Nat

/-- The inner loop of `ip4_frag`: mirror the pbufs of the datagram from `poff` on until
`leftToCopy` bytes are linked to the fragment. -/
def ip4FragCopy (alloc : Nat → Bool) (leftToCopy poff newpbuflen allocs : Nat)
    (rambuf before p : Chain) : Asserting FragCopy :=
  if leftToCopy = 0 then
    .ok { memerr := false, rambuf, before, p, poff, newpbuflen, allocs }
  else
    match p with
    | [] => .error "p == NULL"
    | q :: next =>
      let plen := toU16 (q.len - poff)
      let newpbuflen := min leftToCopy plen
      if newpbuflen = 0 then
        -- this pbuf is used up or empty
        ip4FragCopy alloc leftToCopy 0 newpbuflen allocs rambuf (before ++ [q]) next
      else if !alloc allocs then
        .ok { memerr := true, rambuf, before, p := q :: next, poff, newpbuflen, allocs }
      else do
        let rambuf ← pbufCat rambuf [pbufMirror q poff newpbuflen]
        if leftToCopy - newpbuflen = 0 then
          .ok { memerr := false, rambuf, before, p := q :: next, poff, newpbuflen
                allocs := allocs + 1 }
        else
          ip4FragCopy alloc (leftToCopy - newpbuflen) 0 newpbuflen (allocs + 1) rambuf
            (before ++ [q]) next

/-- The header of a fragment: offset, flag, length and checksum are set anew. -/
def ip4FragHeader (originalIphdr : List UInt8) (ofo : Nat) (last : Bool) (fragsize : Nat) :
    List UInt8 :=
  let tmp := ipOffmask &&& ofo
  let tmp := if !last then tmp ||| ipMf else tmp
  let iphdr := iphOffsetSet originalIphdr tmp
  let iphdr := iphLenSet iphdr (u16 (fragsize + ipHlen))
  let iphdr := iphChksumSet iphdr 0
  iphChksumSet iphdr (inetChksum false iphdr)

/-- The payload pointer of a pbuf, read as a header. -/
def iphdrOf (p : Pbuf) : List UInt8 := (p.mem.drop p.payload).take ipHlen

/-- Replace the header in the first pbuf of a fragment. -/
def setIphdr (iphdr : List UInt8) : Chain → Chain
  | [] => []
  | p :: next =>
    { p with mem := p.mem.take p.payload ++ iphdr ++ p.mem.drop (p.payload + ipHlen) } :: next

/-- `nfb`: the number of blocks of 8 bytes that fit one fragment. -/
def ip4FragNfb (mtu : Nat) : Nat := toU16 (((mtu : Int) - ipHlen).tdiv 8)

/-- What comes of a call of `ip4_frag` or `ip6_frag`. -/
structure Fragged where
  err : Err
  /-- Packets given to the interface. -/
  sent : List Chain
  /-- The packet of the caller. -/
  packet : Chain

/-- The outer loop of `ip4_frag`, with the pbufs of the datagram before the current one. It does
not end with `nfb = 0`, which is where the fuel runs out. -/
def ip4FragLoop (alloc : Nat → Bool) (mtu : Nat) (originalIphdr : List UInt8) :
    Nat → Chain → Chain → Nat → Nat → Nat → Nat → Nat → Asserting Fragged
  | 0, _, _, _, _, _, _, _ => .error "no end"
  | fuel + 1, before, p, poff, newpbuflen, allocs, left, ofo =>
    if left = 0 then .ok { err := .ok, sent := [], packet := before ++ p }
    else
      let nfb := ip4FragNfb mtu
      let fragsize := min left (nfb * 8)
      if !alloc allocs then .ok { err := .mem, sent := [], packet := before ++ p }
      else do
        lwipAssert "this needs a pbuf in one piece!" (∃ q ∈ p.head?, q.len ≥ ipHlen)
        let rambuf := [pbufRam pbufLinkHlen originalIphdr]
        let copied ← ip4FragCopy alloc fragsize poff newpbuflen (allocs + 1) rambuf before p
        if copied.memerr then
          .ok { err := .mem, sent := [], packet := copied.before ++ copied.p }
        else
          let last := decide ((left : Int) ≤ mtu - ipHlen)
          let sent := setIphdr (ip4FragHeader originalIphdr ofo last fragsize) copied.rambuf
          let rest ← ip4FragLoop alloc mtu originalIphdr fuel copied.before copied.p
            (u16 (copied.poff + copied.newpbuflen)) copied.newpbuflen copied.allocs
            (left - fragsize) (u16 (ofo + nfb))
          .ok { rest with sent := sent :: rest.sent }

/-- `ip4_frag`: the return value, the packets given to `netif->output` and the datagram as it is
left. -/
def ip4FragPacket (alloc : Nat → Bool) (p : Chain) (mtu : Nat) : Asserting Fragged :=
  match p with
  | [] => .error "p == NULL"
  | q :: _ =>
    let originalIphdr := iphdrOf q
    if iphHl originalIphdr * 4 ≠ ipHlen then .ok { err := .val, sent := [], packet := p }
    else
      let tmp := iphOffset originalIphdr
      let ofo := tmp &&& ipOffmask
      if tmp &&& ipMf ≠ 0 then .ok { err := .val, sent := [], packet := p }
      else
        let left := toU16 (p.totLen - ipHlen)
        ip4FragLoop alloc mtu originalIphdr (left + 1) [] p ipHlen 0 0 left ofo

/-- `ip4_frag`: the return value and the packets given to `netif->output`. -/
def ip4Frag (alloc : Nat → Bool) (p : Chain) (mtu : Nat) : Asserting (Err × List Chain) := do
  let result ← ip4FragPacket alloc p mtu
  .ok (result.err, result.sent)

end Lwip
