import Lwip.Base.Overwrite
import Lwip.Core.Pbuf

/-!
# Access to the data of a pbuf chain

`pbuf_take`, `pbuf_take_at`, `pbuf_put_at`, `pbuf_memcmp` and `pbuf_memfind` of `core/pbuf.c`. A
buffer of the application with its length is a list of bytes.
-/

namespace Lwip

open Overwrite

/-- `MEMCPY` to an offset into the payload of a pbuf. -/
def Pbuf.write (p : Pbuf) (offset : Nat) (data : List UInt8) : Pbuf :=
  { p with mem := overwrite p.mem (p.payload + offset) data }

/-- The loop of `pbuf_take`. -/
def pbufTakeLoop : Chain → List UInt8 → Asserting Chain
  | [], data => do
    lwipAssert "pbuf_take: invalid pbuf" (data = [])
    .ok []
  | p :: next, data =>
    if data = [] then .ok (p :: next)
    else do
      let bufCopyLen := min data.length p.len
      let next ← pbufTakeLoop next (data.drop bufCopyLen)
      .ok (p.write 0 (data.take bufCopyLen) :: next)

def pbufTake (buf : Chain) (data : List UInt8) : Asserting (Err × Chain) :=
  if buf = [] then .ok (.arg, buf)
  else if buf.totLen < data.length then .ok (.mem, buf)
  else do
    let buf ← pbufTakeLoop buf data
    .ok (.ok, buf)

/-- `pbuf_skip`: the pbufs in front of the one that an offset lies in, that one with those behind
it, and the offset into it. -/
def pbufSkip (p : Chain) (inOffset : Nat) : Chain × Chain × Nat :=
  match pbufSkipConst p inOffset with
  | (q, outOffset) => (p.take (p.length - q.length), q, outOffset)

def pbufTakeAt (buf : Chain) (data : List UInt8) (offset : Nat) : Asserting (Err × Chain) :=
  match pbufSkip buf offset with
  | (before, q :: next, targetOffset) =>
    if q.totLen ≥ targetOffset + data.length then
      let firstCopyLen := min (q.len - targetOffset) data.length
      let q := q.write targetOffset (data.take firstCopyLen)
      if data.length - firstCopyLen > 0 then do
        let (err, next) ← pbufTake next (data.drop firstCopyLen)
        .ok (err, before ++ q :: next)
      else .ok (.ok, before ++ q :: next)
    else .ok (.mem, buf)
  | (_, [], _) => .ok (.mem, buf)

def pbufPutAt (p : Chain) (offset : Nat) (data : UInt8) : Chain :=
  match pbufSkip p offset with
  | (before, q :: next, qIdx) =>
    if q.len > qIdx then before ++ q.write qIdx [data] :: next else p
  | (_, [], _) => p

/-- The loop of `pbuf_memcmp`. -/
def pbufMemcmpLoop (q : Chain) (start : Nat) : Nat → List UInt8 → Nat
  | _, [] => 0
  | i, b :: s2 =>
    if pbufGetAt q (u16 (start + i)) ≠ b then u16 (i + 1) else pbufMemcmpLoop q start (i + 1) s2

def pbufMemcmp (p : Chain) (offset : Nat) (s2 : List UInt8) : Nat :=
  if p.totLen < offset + s2.length then 0xffff
  else
    match pbufSkipConst p offset with
    | (q, start) => pbufMemcmpLoop q start 0 s2

/-- The loop of `pbuf_memfind`, with at most the given number of passes; `none` says that they are
not enough. -/
def pbufMemfindLoop (p : Chain) (mem : List UInt8) (max : Nat) : Nat → Nat → Option Nat
  | 0, _ => none
  | passes + 1, i =>
    if i ≤ max then
      if pbufMemcmp p i mem = 0 then some i else pbufMemfindLoop p mem max passes (u16 (i + 1))
    else some 0xffff

def pbufMemfind (p : Chain) (mem : List UInt8) (startOffset : Nat) : Option Nat :=
  let max := toU16 ((p.totLen : Int) - mem.length)
  if p.totLen ≥ mem.length + startOffset then pbufMemfindLoop p mem max (max + 2) startOffset
  else some 0xffff

/-- A pbuf that ends a packet has another one behind it: the chain is a packet queue. -/
def packetQueue : Chain → Bool
  | p :: q :: next => p.len = p.totLen || packetQueue (q :: next)
  | _ => false

end Lwip
