import Lwip.Core.Ip4Frag

/-!
# IPv6 fragmentation

`ip6_frag` with `LWIP_NETIF_TX_SINGLE_PBUF` off. Where `ip4_frag` keeps its position in the packet
in local variables, `ip6_frag` moves the payload pointers of the packet itself. Allocations are
numbered, and the packet is handed on, as for `ip4_frag`.
-/

namespace Lwip

def ip6Hlen : Nat := 40

def ip6FragHlen : Nat := 8

def ip6FragOffsetMask : Nat := 0xfff8

def ip6FragMoreFlag : Nat := 1

def ip6NexthFragment : UInt8 := 44

/-- The IPv6 header and the fragment header in front of a fragment. -/
def ip6FragHeaders (originalIp6hdr : List UInt8) (identification : UInt32) (fragmentOffset : Nat)
    (last : Bool) (cop : Nat) : List UInt8 :=
  let field := (fragmentOffset &&& ip6FragOffsetMask) ||| if last then 0 else ip6FragMoreFlag
  setNetU16 (originalIp6hdr.set 6 ip6NexthFragment) 4 (cop + ip6FragHlen) ++
    [originalIp6hdr.getD 6 0, 0, UInt8.ofNat (field / 256), UInt8.ofNat field,
      (identification >>> 24).toUInt8, (identification >>> 16).toUInt8,
      (identification >>> 8).toUInt8, identification.toUInt8]

/-- `nfb`: the number of bytes of the packet in one fragment. -/
def ip6FragNfb (mtu : Nat) : Nat :=
  toU16 ((mtu : Int) - (ip6Hlen + ip6FragHlen)) &&& ip6FragOffsetMask

/-- The first pbuf of the rest of the packet is adjusted by an offset. -/
def ip6FragAdjust (poff : Nat) : Chain → Chain
  | [] => []
  | q :: next =>
    { q with payload := q.payload + poff, len := toU16 (q.len - poff)
             totLen := toU16 (q.totLen - poff) } :: next

/-- The inner loop of `ip6_frag`: that of `ip4_frag` from the payload pointer on. -/
def ip6FragCopy (alloc : Nat → Bool) (leftToCopy newpbuflen allocs : Nat)
    (rambuf before p : Chain) : Asserting FragCopy :=
  ip4FragCopy alloc leftToCopy 0 newpbuflen allocs rambuf before p

/-- The outer loop of `ip6_frag`, with the pbufs of the packet before the current one. The headers
of a fragment are written at once. -/
def ip6FragLoop (alloc : Nat → Bool) (nfb : Nat) (originalIp6hdr : List UInt8)
    (identification : UInt32) :
    Nat → Chain → Chain → Nat → Nat → Nat → Nat → Nat → Asserting Fragged
  | 0, _, _, _, _, _, _, _ => .error "no end"
  | fuel + 1, before, p, poff, newpbuflen, allocs, left, fragmentOffset =>
    if left = 0 then .ok { err := .ok, sent := [], packet := before ++ p }
    else
      let last := decide (left ≤ nfb)
      let cop := if last then left else nfb
      if !alloc allocs then .ok { err := .mem, sent := [], packet := before ++ p }
      else do
        lwipAssert "this needs a pbuf in one piece!" (∃ q ∈ p.head?, q.len ≥ ip6Hlen)
        let rambuf := [pbufRam pbufLinkHlen
          (ip6FragHeaders originalIp6hdr identification fragmentOffset last cop)]
        let p := ip6FragAdjust poff p
        let copied ← ip6FragCopy alloc cop newpbuflen (allocs + 1) rambuf before p
        if copied.memerr then
          .ok { err := .mem, sent := [], packet := copied.before ++ copied.p }
        else
          let rest ← ip6FragLoop alloc nfb originalIp6hdr identification fuel copied.before
            copied.p copied.newpbuflen copied.newpbuflen copied.allocs (left - cop)
            (u16 (fragmentOffset + cop))
          .ok { rest with sent := copied.rambuf :: rest.sent }

/-- `ip6_frag` for the MTU of the path, with a limit on the number of rounds. -/
def ip6Frag (fuel : Nat) (alloc : Nat → Bool) (identification : UInt32) (p : Chain) (mtu : Nat) :
    Asserting Fragged :=
  match p with
  | [] => .error "p == NULL"
  | q :: _ =>
    let originalIp6hdr := (q.mem.drop q.payload).take ip6Hlen
    let left := toU16 (p.totLen - ip6Hlen)
    ip6FragLoop alloc (ip6FragNfb mtu) originalIp6hdr (identification + 1) fuel [] p ip6Hlen 0 0
      left 0

end Lwip
