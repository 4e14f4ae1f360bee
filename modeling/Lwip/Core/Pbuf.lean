import Lwip.Core.Arch

/-!
# Packet buffers

`struct pbuf` and the chain operations of `core/pbuf.c`. A chain is the list of the pbufs
linked through `next`. Each pbuf keeps the memory its payload pointer points into, so that
the pointer is an offset; for `PBUF_RAM` and `PBUF_POOL` that memory begins right behind the
structure (`p + SIZEOF_STRUCT_PBUF`). Deallocation returns what is still referenced.
-/

namespace Lwip

inductive PbufType where
  /-- `PBUF_RAM`: structure and payload in one piece of heap memory. -/
  | ram
  /-- `PBUF_ROM`: payload in immutable memory of the application. -/
  | rom
  /-- `PBUF_REF`: payload in volatile memory of the application. -/
  | ref
  /-- `PBUF_POOL`: structure and payload in one element of the pool. -/
  | pool
  deriving DecidableEq, Repr

/-- `struct pbuf` without its link. -/
structure Pbuf where
  /-- Memory that the payload pointer points into. -/
  mem : List UInt8
  /-- Payload pointer, as an offset into `mem`. -/
  payload : Nat
  /-- Length of this buffer and all behind it (`tot_len`). -/
  totLen : Nat
  len : Nat
  type : PbufType
  /-- `PBUF_FLAG_IS_CUSTOM`. -/
  isCustom : Bool
  ref : Nat
  deriving DecidableEq, Repr

/-- A pbuf with everything linked behind it; `NULL` is the empty list. -/
abbrev Chain := List Pbuf

namespace Pbuf

/-- Bytes between the payload pointer and the length. -/
def bytes (p : Pbuf) : List UInt8 := (p.mem.drop p.payload).take p.len

end Pbuf

namespace Chain

/-- Bytes of all buffers in order. -/
def bytes (c : Chain) : List UInt8 := c.flatMap Pbuf.bytes

/-- `p->tot_len`, with zero for `NULL`. -/
def totLen : Chain → Nat
  | [] => 0
  | p :: _ => p.totLen

end Chain

def pbufLinkHlen : Nat := 16

def pbufPoolBufsize : Nat := 128

/-- A pbuf of the pool with the given bytes behind some room. -/
def pbufPool (room : Nat) (data : List UInt8) : Pbuf :=
  { mem := List.replicate room 0 ++ data ++
      List.replicate (pbufPoolBufsize - room - data.length) 0
    payload := room, totLen := data.length, len := data.length, type := .pool, isCustom := false
    ref := 1 }

/-- A `PBUF_RAM` of `pbuf_alloc`, filled with data: the payload lies behind `offset` bytes that
are left for the headers of the lower layers. -/
def pbufRam (offset : Nat) (data : List UInt8) : Pbuf :=
  { mem := List.replicate offset 0 ++ data, payload := offset, totLen := data.length
    len := data.length, type := .ram, isCustom := false, ref := 1 }

/-- `pbuf_alloced_custom` for a `PBUF_REF` that mirrors `length` bytes of another pbuf. -/
def pbufMirror (p : Pbuf) (offset length : Nat) : Pbuf :=
  { mem := p.mem, payload := p.payload + offset, totLen := length, len := length, type := .ref
    isCustom := true, ref := 1 }

def pbufClen (c : Chain) : Nat := u16 c.length

/-- The loop of `pbuf_free`: the number of deallocated pbufs, and the part of the chain that
is still referenced. -/
def pbufFreeLoop : Chain → Asserting (Nat × Chain)
  | [] => .ok (0, [])
  | p :: next => do
    lwipAssert "pbuf_free: p->ref > 0" (0 < p.ref)
    if p.ref - 1 = 0 then do
      let (count, rest) ← pbufFreeLoop next
      .ok (count + 1, rest)
    else
      .ok (0, { p with ref := p.ref - 1 } :: next)

/-- `pbuf_free`; the count is a `u8_t`. -/
def pbufFree (p : Chain) : Asserting (Nat × Chain) := do
  lwipAssert "p != NULL" (p ≠ [])
  let (count, rest) ← pbufFreeLoop p
  .ok (count % 256, rest)

/-- Resizing of the new last pbuf `q` in `pbuf_realloc`. `mem_trim` gives the memory behind
the shortened payload back to the heap; other types only change their lengths. -/
def pbufShrink (q : Pbuf) (remLen : Nat) : Pbuf :=
  { q with
    mem := if q.type = .ram ∧ remLen ≠ q.len ∧ !q.isCustom then q.mem.take (q.payload + remLen)
      else q.mem
    len := remLen
    totLen := remLen }

/-- The walk of `pbuf_realloc` to the new last pbuf. The second result is what stays
referenced of the part cut off. -/
def pbufReallocLoop (grow : Int) (remLen : Nat) : Chain → Asserting (Chain × Chain)
  | [] => .error "pbuf_realloc: q != NULL"
  | q :: next =>
    if remLen > q.len then do
      lwipAssert "grow < max_u16_t" (grow < 65535)
      let (kept, rest) ← pbufReallocLoop grow (remLen - q.len) next
      .ok ({ q with totLen := u16 (q.totLen + toU16 grow) } :: kept, rest)
    else if next ≠ [] then do
      let (_, rest) ← pbufFree next
      .ok ([pbufShrink q remLen], rest)
    else
      .ok ([pbufShrink q remLen], [])

def pbufRealloc (p : Chain) (newLen : Nat) : Asserting (Chain × Chain) := do
  lwipAssert "pbuf_realloc: p != NULL" (p ≠ [])
  if newLen ≥ p.totLen then .ok (p, [])
  else pbufReallocLoop ((newLen : Int) - p.totLen) newLen p

/-- `pbuf_header_impl` on the first pbuf; `none` is the return value 1. -/
def pbufHeaderImpl (p : Pbuf) (headerSizeIncrement : Int) (force : Bool) : Option Pbuf :=
  if headerSizeIncrement = 0 then some p
  else if headerSizeIncrement < 0 ∧ toU16 (-headerSizeIncrement) > p.len then none
  else
    let moved : Int := p.payload - headerSizeIncrement
    let resized : Pbuf :=
      { p with
        payload := moved.toNat
        len := toU16 (p.len + headerSizeIncrement)
        totLen := toU16 (p.totLen + headerSizeIncrement) }
    match p.type with
    | .ram | .pool => if moved < 0 then none else some resized
    | .ref | .rom =>
      if headerSizeIncrement < 0 then some resized
      else if force then some resized
      else none

def pbufHeader (p : Chain) (headerSizeIncrement : Int) : Asserting (Option Chain) :=
  match p with
  | [] => .error "p != NULL"
  | q :: next => .ok ((pbufHeaderImpl q headerSizeIncrement false).map (· :: next))

/-- The walk of `pbuf_cat` to the last pbuf of the head chain. -/
def pbufCatLoop (t : Chain) : Chain → Asserting Chain
  | [] => .ok []
  | [p] => do
    lwipAssert "p->tot_len == p->len (of last pbuf in chain)" (p.totLen = p.len)
    .ok ({ p with totLen := u16 (p.totLen + t.totLen) } :: t)
  | p :: q :: next => do
    let rest ← pbufCatLoop t (q :: next)
    .ok ({ p with totLen := u16 (p.totLen + t.totLen) } :: rest)

/-- `pbuf_cat`; with a `NULL` argument it returns without a change. -/
def pbufCat (h t : Chain) : Asserting Chain :=
  if h = [] ∨ t = [] then .ok h else pbufCatLoop t h

def pbufRef : Chain → Chain
  | [] => []
  | p :: next => { p with ref := u16 (p.ref + 1) } :: next

def pbufChain (h t : Chain) : Asserting Chain := pbufCat h (pbufRef t)

/-- `pbuf_dechain`: the single pbuf, what stays referenced of its successors, and the return
value. `none` is `NULL`; otherwise the pointer to the successor is returned, behind which there
is nothing if `pbuf_free` has deallocated it. -/
def pbufDechain (p : Pbuf) (next : Chain) : Asserting (Pbuf × Chain × Option Chain) :=
  match next with
  | [] => do
    lwipAssert "p->tot_len == p->len" (p.totLen = p.len)
    .ok (p, [], none)
  | q :: more => do
    lwipAssert "p->tot_len == p->len + q->tot_len" ((q.totLen : Int) = p.totLen - p.len)
    let q' : Pbuf := { q with totLen := toU16 (p.totLen - p.len) }
    let (tailGone, rest) ← pbufFree (q' :: more)
    let behind := if rest.length = (q' :: more).length then rest else []
    .ok ({ p with totLen := p.len }, rest, if tailGone > 0 then none else some behind)

/-- `pbuf_skip_const`: the pbuf that an offset lies in with those behind it, and the offset into
it. -/
def pbufSkipConst : Chain → Nat → Chain × Nat
  | [], inOffset => ([], inOffset)
  | q :: next, inOffset =>
    if q.len ≤ inOffset then pbufSkipConst next (inOffset - q.len) else (q :: next, inOffset)

/-- `pbuf_try_get_at`; `none` is the return value -1. -/
def pbufTryGetAt (p : Chain) (offset : Nat) : Option UInt8 :=
  match pbufSkipConst p offset with
  | ([], _) => none
  | (q :: _, qIdx) => if q.len > qIdx then q.mem[q.payload + qIdx]? else none

def pbufGetAt (p : Chain) (offset : Nat) : UInt8 := (pbufTryGetAt p offset).getD 0

/-- The bytes that `pbuf_copy_partial` copies; their number is its return value. -/
def pbufCopyPartial : Chain → Nat → Nat → List UInt8
  | [], _, _ => []
  | p :: next, len, offset =>
    if len = 0 then []
    else if offset ≠ 0 ∧ offset ≥ p.len then pbufCopyPartial next len (offset - p.len)
    else
      let bufCopyLen := min (p.len - offset) len
      (p.mem.drop (p.payload + offset)).take bufCopyLen ++
        pbufCopyPartial next (len - bufCopyLen) 0

/-- A chain in which the first of two pbufs has the length of a whole packet. -/
def isPacketQueue : Chain → Bool
  | p :: _ :: _ => p.len = p.totLen
  | _ => false

/-- The loop of `pbuf_copy`, with at most the given number of passes. `filled` are the pbufs of the
target in front of `pTo`. -/
def pbufCopyLoop : Nat → Chain → Chain → Nat → Chain → Nat → Asserting (Err × Chain)
  | passes + 1, filled, target :: toNext, offsetTo, source :: fromNext, offsetFrom => do
    let len := min (source.len - offsetFrom) (target.len - offsetTo)
    let data := (source.mem.drop (source.payload + offsetFrom)).take len
    let start := target.payload + offsetTo
    let target :=
      { target with mem := target.mem.take start ++ data ++ target.mem.drop (start + len) }
    let offsetTo := u16 (offsetTo + len)
    let offsetFrom := u16 (offsetFrom + len)
    lwipAssert "offset_to <= p_to->len" (offsetTo ≤ target.len)
    lwipAssert "offset_from <= p_from->len" (offsetFrom ≤ source.len)
    let (pFrom, offsetFrom) :=
      if offsetFrom ≥ source.len then (fromNext, 0) else (source :: fromNext, offsetFrom)
    let (filled, pTo, offsetTo) :=
      if offsetTo = target.len then (filled ++ [target], toNext, 0)
      else (filled, target :: toNext, offsetTo)
    if pTo = [] ∧ pFrom ≠ [] then .ok (.arg, filled ++ pTo)
    else if isPacketQueue pFrom ∨ isPacketQueue pTo then .ok (.val, filled ++ pTo)
    else pbufCopyLoop passes filled pTo offsetTo pFrom offsetFrom
  | _, filled, pTo, _, _, _ => .ok (.ok, filled ++ pTo)

/-- `pbuf_copy`: the value returned and the target. Each pass ends a pbuf of the source or of the
target. -/
def pbufCopy (pTo pFrom : Chain) : Asserting (Err × Chain) :=
  if pTo = [] ∨ pFrom = [] ∨ pTo.totLen < pFrom.totLen then .ok (.arg, pTo)
  else pbufCopyLoop (pTo.length + pFrom.length) [] pTo 0 pFrom 0

end Lwip
