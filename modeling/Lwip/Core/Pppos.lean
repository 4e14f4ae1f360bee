import Lwip.Core.Pbuf

/-!
# Receiving PPP frames from a serial line

`pppos_input` of `netif/ppp/pppos.c`, one character after the other. The map of control characters
and the result of `pbuf_alloc` are given with each character; the connection is open. An access
through a `NULL` pointer ends the computation as a failed assertion does.
-/

namespace Lwip.Ppp

inductive InState where
  | idle | start | address | control | protocol1 | protocol2 | data
  deriving DecidableEq, Repr

/-- The part of `pppos_pcb` that `pppos_input` works on. -/
structure PpposPcb where
  inFcs : UInt16 := 0
  inState : InState := .idle
  inProtocol : Nat := 0
  inEscaped : Bool := false
  /-- The chain at `in_head`, up to the pbuf at `in_tail`. -/
  inHead : Chain := []
  inTail : Option Pbuf := none
  deriving DecidableEq, Repr

/-- A character that is received. -/
structure InChar where
  /-- `in_accm`. -/
  accm : List UInt8
  /-- Whether `pbuf_alloc` finds memory. -/
  alloc : Bool
  c : UInt8

def ppposConnect : PpposPcb := {}

/-- `in_accm` behind `pppos_connect`. -/
def connectAccm : List UInt8 := List.replicate 15 0 ++ 0x60 :: List.replicate 16 0

def escapeP (accm : List UInt8) (c : UInt8) : Bool :=
  (accm.getD (c.toNat / 8) 0).toNat.testBit (c.toNat % 8)

/-- `ppp_get_fcs`, whose values are the entries of `fcstab`. -/
def pppGetFcs (byte : UInt8) : UInt16 :=
  (List.range 8).foldl (fun octet _ =>
    if octet &&& 1 = 1 then (octet >>> 1) ^^^ 0x8408 else octet >>> 1) byte.toUInt16

def pppFcs (fcs : UInt16) (c : UInt8) : UInt16 :=
  (fcs >>> 8) ^^^ pppGetFcs (fcs ^^^ c.toUInt16).toUInt8

def pppInitfcs : UInt16 := 0xffff

def pppGoodfcs : UInt16 := 0xf0b8

def ppposInputDrop (s : PpposPcb) : Asserting PpposPcb := do
  let _ ← s.inTail.elim (.ok (0, [])) fun tail => pbufFree [tail]
  let _ ← (if s.inHead = [] then .ok (0, []) else pbufFree s.inHead : Asserting (Nat × Chain))
  .ok { s with inHead := [], inTail := none }

/-- The tail is linked to the chain in front of it. -/
def linkTail (inHead : Chain) (tail : Pbuf) : Asserting Chain :=
  let tail := { tail with totLen := tail.len }
  if inHead = [] then .ok [tail] else pbufCat inHead [tail]

/-- A character behind those of the tail. -/
def loadChar (inHead : Chain) (tail : Pbuf) (c : UInt8) (s : PpposPcb) : PpposPcb :=
  { s with
    inHead := inHead
    inTail := some { tail with
      mem := tail.mem.set (tail.payload + tail.len) c, len := tail.len + 1 } }

/-- The packet is dropped for lack of memory. -/
def noFreePbufs (s : PpposPcb) : Asserting PpposPcb := do
  let s ← ppposInputDrop s
  .ok { s with inState := .start }

/-- A data byte. The first pbuf of a packet begins with room for a link header and the protocol. -/
def ppposInputData (alloc : Bool) (c : UInt8) (s : PpposPcb) : Asserting PpposPcb :=
  match s.inTail with
  | none =>
    if alloc then
      .ok (loadChar [] (pbufPool 0 (List.replicate pbufLinkHlen 0 ++
        [UInt8.ofNat (s.inProtocol / 256), UInt8.ofNat s.inProtocol])) c s)
    else noFreePbufs s
  | some tail =>
    if tail.len ≠ pbufPoolBufsize then .ok (loadChar s.inHead tail c s)
    else do
      let inHead ← linkTail s.inHead tail
      if alloc then .ok (loadChar inHead (pbufPool 0 []) c s)
      else noFreePbufs { s with inHead := inHead, inTail := none }

/-- A character of the header. A field that is left out falls through to the next one. -/
def ppposInputHeader (c : UInt8) (s : PpposPcb) : PpposPcb :=
  if s.inState = .idle ∧ c ≠ 0xff then s
  else
    let s := if s.inState = .idle ∨ s.inState = .start then
        { s with inFcs := pppInitfcs, inState := .address }
      else s
    if s.inState = .address ∧ c = 0xff then { s with inState := .control }
    else if (s.inState = .address ∨ s.inState = .control) ∧ c = 0x03 then
      { s with inState := .protocol1 }
    else if s.inState = .protocol2 then
      { s with inProtocol := s.inProtocol ||| c.toNat, inState := .data }
    else if c.toNat % 2 = 1 then { s with inProtocol := c.toNat, inState := .data }
    else { s with inProtocol := c.toNat * 256, inState := .protocol2 }

/-- A character that is neither special nor dropped. -/
def ppposInputPlain (alloc : Bool) (c : UInt8) (s : PpposPcb) : Asserting PpposPcb := do
  let c := if s.inEscaped then c ^^^ 0x20 else c
  let s := { s with inEscaped := false }
  let s ← (if s.inState = .data then ppposInputData alloc c s
    else .ok (ppposInputHeader c s) : Asserting PpposPcb)
  .ok { s with inFcs := pppFcs s.inFcs c }

/-- The checksum is trimmed off a packet, and the room for the link header is hidden. -/
def trimFcs (s : PpposPcb) : Asserting (Option Chain) :=
  match s.inTail with
  | none => .error "in_tail"
  | some tail => do
    let inp ← if tail.len > 2 then linkTail s.inHead { tail with len := tail.len - 2 }
      else do
        let inp ← linkTail s.inHead tail
        let (inp, _) ← pbufRealloc inp (toU16 (inp.totLen - 2))
        .ok inp
    pbufHeader inp (-pbufLinkHlen)

/-- The receiver is prepared for a new packet. -/
def nextPacket (s : PpposPcb) : PpposPcb :=
  { s with inFcs := pppInitfcs, inState := .address, inEscaped := false }

/-- A flag character. The first result is the packet that is passed on, if any. -/
def ppposInputFlag (s : PpposPcb) : Asserting (Option Chain × PpposPcb) :=
  if s.inState = .idle ∨ s.inState = .start ∨ s.inState = .address then .ok (none, nextPacket s)
  else if s.inState = .data ∧ s.inFcs = pppGoodfcs then do
    let inp ← trimFcs s
    .ok (inp, nextPacket { s with inHead := [], inTail := none })
  else do
    let s ← ppposInputDrop s
    .ok (none, nextPacket s)

/-- `pppos_input` for one character. -/
def ppposInput (s : PpposPcb) (char : InChar) : Asserting (Option Chain × PpposPcb) :=
  if !escapeP char.accm char.c then do
    let s ← ppposInputPlain char.alloc char.c s
    .ok (none, s)
  else if char.c = 0x7d then .ok (none, { s with inEscaped := true })
  else if char.c = 0x7e then ppposInputFlag s
  else .ok (none, s)

end Lwip.Ppp
