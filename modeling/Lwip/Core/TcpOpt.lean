import Lwip.Core.TcpIn

/-!
# Options of an incoming segment

`tcp_getoptbyte` and `tcp_parseopt` over the memory that they read, and the part of `tcp_input`
that finds the options in the first pbuf or in the first two. Memory is the function of the bytes
from an address on, so that a read beyond the options has a value too; the indices that are read
are kept.
-/

namespace Lwip

/-- The file-scope variables that say where the options are. -/
structure TcpOptions where
  /-- `tcphdr_optlen`. -/
  optlen : Nat
  /-- `tcphdr_opt1len`. -/
  opt1len : Nat
  /-- Memory behind the header at `tcphdr`. -/
  opts : Nat → UInt8
  /-- Memory at `tcphdr_opt2`; `none` is `NULL`. -/
  opt2 : Option (Nat → UInt8)
  /-- A header is at most fifteen words long. -/
  optlenLe : optlen ≤ 40

/-- `tcp_optidx`, with the indices that have been read. -/
structure OptCursor where
  optidx : Nat
  /-- Indices of the bytes that have been read, in order. -/
  reads : List Nat
  deriving DecidableEq, Repr

namespace TcpOptions

/-- The byte of the options at an index, from the first part or from the second one. -/
def byteAt (a : TcpOptions) (optidx : Nat) : UInt8 :=
  match a.opt2 with
  | none => a.opts optidx
  | some opt2 =>
    if optidx < a.opt1len then a.opts optidx else opt2 ((optidx - a.opt1len) % 256)

/-- `tcp_getoptbyte`. -/
def getoptbyte (a : TcpOptions) (c : OptCursor) : Nat × OptCursor :=
  ((a.byteAt c.optidx).toNat, { optidx := u16 (c.optidx + 1), reads := c.reads ++ [c.optidx] })

/-- The loop of `tcp_parseopt`, with at most the given number of passes; `none` says that they are
not enough. -/
def parseoptLoop (a : TcpOptions) : Nat → OptCursor → TcpPcb → Option (OptCursor × TcpPcb)
  | 0, _, _ => none
  | passes + 1, c, pcb =>
    if c.optidx < a.optlen then
      let (opt, c) := a.getoptbyte c
      if opt = 0 then some (c, pcb)
      else if opt = 1 then a.parseoptLoop passes c pcb
      else if opt = 2 then
        let (length, c) := a.getoptbyte c
        if length ≠ 4 ∨ c.optidx - 2 + 4 > a.optlen then some (c, pcb)
        else
          let (high, c) := a.getoptbyte c
          let (low, c) := a.getoptbyte c
          let mss := 256 * high + low
          a.parseoptLoop passes c { pcb with mss := if mss > tcpMss ∨ mss = 0 then tcpMss else mss }
      else
        let (data, c) := a.getoptbyte c
        if data < 2 then some (c, pcb)
        else a.parseoptLoop passes { c with optidx := u16 (c.optidx + (data - 2)) } pcb
    else some (c, pcb)

/-- `tcp_parseopt`; each pass consumes a byte of the options. -/
def parseopt (a : TcpOptions) (pcb : TcpPcb) : Option (OptCursor × TcpPcb) :=
  if a.optlen ≠ 0 then a.parseoptLoop (a.optlen + 1) { optidx := 0, reads := [] } pcb
  else some ({ optidx := 0, reads := [] }, pcb)

end TcpOptions

/-- Memory from the payload pointer of a pbuf on. -/
def payloadMem (p : Pbuf) (offset : Nat) (k : Nat) : UInt8 := p.mem.getD (p.payload + offset + k) 0

/-- `TCPH_HDRLEN(tcphdr) * 4`. -/
def hdrlenBytes (p : Pbuf) : Nat := (payloadMem p 12 0).toNat / 16 * 4

theorem hdrlenBytes_le (p : Pbuf) : hdrlenBytes p ≤ 60 := by
  have byte := (payloadMem p 12 0).toNat_lt
  unfold hdrlenBytes
  omega

/-- The part of `tcp_input` that finds the options: they and the rest of the chain, or `none` for a
jump to `dropped`. -/
def tcpInputOptions : Chain → Asserting (Option (TcpOptions × Chain))
  | [] => .error "p != NULL"
  | p :: next =>
    if p.len < tcpHlen then .ok none
    else if hdrlenBytes p < tcpHlen ∨ hdrlenBytes p > p.totLen then .ok none
    else if p.len ≥ hdrlenBytes p then do
      let hidden ← pbufHeader (p :: next) (-(hdrlenBytes p : Int))
      .ok (some (
        { optlen := hdrlenBytes p - tcpHlen, opt1len := hdrlenBytes p - tcpHlen
          opts := payloadMem p tcpHlen, opt2 := none
          optlenLe := Nat.sub_le_of_le_add (hdrlenBytes_le p) }, hidden.getD (p :: next)))
    else
      match next with
      | [] => .error "p->next != NULL"
      | q :: more =>
        let p' := (pbufHeaderImpl p (-(tcpHlen : Int)) false).getD p
        let opt1len := p'.len
        let opt2len := toU16 ((hdrlenBytes p - tcpHlen : Nat) - (opt1len : Int))
        let p' := (pbufHeaderImpl p' (-(opt1len : Int)) false).getD p'
        if opt2len > q.len then .ok none
        else do
          let q' := (pbufHeaderImpl q (-(opt2len : Int)) false).getD q
          let p' := { p' with totLen := toU16 ((p'.totLen : Int) - opt2len) }
          lwipAssert "p->len == 0" (p'.len = 0)
          lwipAssert "p->tot_len == p->next->tot_len" (p'.totLen = q'.totLen)
          .ok (some (
            { optlen := hdrlenBytes p - tcpHlen, opt1len := opt1len
              opts := payloadMem p tcpHlen, opt2 := some (payloadMem q 0)
              optlenLe := Nat.sub_le_of_le_add (hdrlenBytes_le p) }, p' :: q' :: more))

end Lwip
