import Lwip.Core.PbufData

/-!
# Serial line IP

`slipif_output` and `slipif_rxbyte` of `netif/slipif.c`. The bytes given to `sio_send` are a list;
the result of `pbuf_alloc` is given with each byte received.
-/

namespace Lwip.Slip

/-- `SLIP_END`. -/
def slipEnd : UInt8 := 0xC0

/-- `SLIP_ESC`. -/
def slipEsc : UInt8 := 0xDB

/-- `SLIP_ESC_END`. -/
def slipEscEnd : UInt8 := 0xDC

/-- `SLIP_ESC_ESC`. -/
def slipEscEsc : UInt8 := 0xDD

/-- `SLIP_MAX_SIZE`. -/
def slipMaxSize : Nat := 1500

/-- A byte of a packet as it is sent. -/
def slipifEscape (c : UInt8) : List UInt8 :=
  if c = slipEnd then [slipEsc, slipEscEnd]
  else if c = slipEsc then [slipEsc, slipEscEsc]
  else [c]

/-- `slipif_output`: the bytes sent for a packet. -/
def slipifOutput (p : Chain) : List UInt8 :=
  slipEnd :: p.bytes.flatMap slipifEscape ++ [slipEnd]

/-- `struct slipif_priv`. -/
structure SlipifPriv where
  /-- Whether `state` is `SLIP_RECV_ESCAPE`. -/
  escape : Bool := false
  /-- The pbufs of `q` in front of `p`, or all of them if `p` is `NULL`. -/
  front : Chain := []
  /-- `p` and what is linked behind it. -/
  p : Chain := []
  i : Nat := 0
  recved : Nat := 0

/-- A pbuf is allocated if there is none to receive to. -/
def slipifAlloc (alloc : Bool) (priv : SlipifPriv) : Asserting SlipifPriv :=
  if priv.p ≠ [] ∨ alloc = false then .ok priv
  else
    let p := [pbufPool pbufLinkHlen (List.replicate (pbufPoolBufsize - pbufLinkHlen) 0)]
    if priv.front ≠ [] then do
      let q ← pbufCat priv.front p
      .ok { priv with front := q.take priv.front.length, p := q.drop priv.front.length }
    else .ok { priv with p := p }

/-- A byte of a packet is stored unless there is no pbuf for it or the packet is too long. -/
def slipifStore (c : UInt8) (priv : SlipifPriv) : SlipifPriv :=
  match priv.p with
  | [] => priv
  | p :: next =>
    if priv.recved ≤ slipMaxSize then
      let p := p.write priv.i [c]
      let priv := { priv with p := p :: next, i := priv.i + 1, recved := priv.recved + 1 }
      if priv.i ≥ p.len then
        if (next.head?.map Pbuf.len).getD 0 > 0 then
          { priv with front := priv.front ++ [p], p := next, i := 0 }
        else { priv with front := priv.front ++ p :: next, p := [], i := 0 }
      else priv
    else priv

/-- The byte that an escaped one stands for. -/
def slipifUnescape (c : UInt8) : UInt8 :=
  if c = slipEscEnd then slipEnd else if c = slipEscEsc then slipEsc else c

/-- `slipif_rxbyte`: a packet if the byte ends one. -/
def slipifRxbyte (priv : SlipifPriv) (alloc : Bool) (c : UInt8) :
    Asserting (Option Chain × SlipifPriv) :=
  if priv.escape = false ∧ c = slipEnd then
    if priv.recved > 0 then do
      let (q, _) ← pbufRealloc (priv.front ++ priv.p) priv.recved
      .ok (some q, {})
    else .ok (none, priv)
  else if priv.escape = false ∧ c = slipEsc then .ok (none, { priv with escape := true })
  else do
    let c := if priv.escape then slipifUnescape c else c
    let priv ← slipifAlloc alloc { priv with escape := false }
    .ok (none, slipifStore c priv)

/-- `slipif_rxbyte` for one byte after the other, with the packets it returns. -/
def slipifRxbytes : List (Bool × UInt8) → SlipifPriv → Asserting (List Chain × SlipifPriv)
  | [], priv => .ok ([], priv)
  | (alloc, c) :: more, priv => do
    let first ← slipifRxbyte priv alloc c
    let rest ← slipifRxbytes more first.2
    .ok (first.1.toList ++ rest.1, rest.2)

end Lwip.Slip
