import Mathlib.Data.List.Basic

/-!
# Reassembly of 6LoWPAN datagrams

`lowpan6_input` of `netif/lowpan6.c`. The chain of a frame or a datagram is the list of its bytes;
a byte that is not there is read as zero. `lowpan6_decompress` is a parameter, and the result of
`mem_malloc` is given with each frame.
-/

namespace Lwip.Lowpan6

/-- `lowpan6_reass_helper`. -/
structure ReassHelper where
  pbuf : List UInt8
  senderAddr : List UInt8
  datagramSize : Nat
  datagramTag : Nat
  deriving DecidableEq

/-- What follows the IEEE 802.15.4 header. -/
inductive Dispatch where
  | frag1 (size tag : Nat) (data : List UInt8)
  | fragn (size tag offset : Nat) (data : List UInt8)
  | complete (data : List UInt8)
  deriving DecidableEq

/-- A frame by its addresses and its dispatch. -/
structure Frame where
  dest : List UInt8
  src : List UInt8
  dispatch : Dispatch
  deriving DecidableEq

/-- The dispatch bytes. -/
def dispatchOf (puc : List UInt8) : Dispatch :=
  let size := (puc.getD 0 0 &&& 0x07).toNat * 256 + (puc.getD 1 0).toNat
  let tag := (puc.getD 2 0).toNat * 256 + (puc.getD 3 0).toNat
  if puc.getD 0 0 &&& 0xf8 = 0xc0 then .frag1 size tag (puc.drop 4)
  else if puc.getD 0 0 &&& 0xf8 = 0xe0 then
    .fragn size tag ((puc.getD 4 0).toNat * 8) (puc.drop 5)
  else .complete puc

/-- The IEEE 802.15.4 header, with the lengths of the addresses, and the dispatch behind it. -/
def frameOf (p : List UInt8) : Frame :=
  let destLen := if p.getD 1 0 &&& 0x0c = 0x0c then 8 else 2
  let srcLen := if p.getD 1 0 &&& 0xc0 = 0xc0 then 8 else 2
  { dest := ((p.drop 5).take destLen).reverse
    src := ((p.drop (5 + destLen + 2)).take srcLen).reverse
    dispatch := dispatchOf (p.drop (5 + destLen + 2 + srcLen)) }

/-- The check for a duplicate FRAG1 frame, which discards other datagrams of the sender. -/
def checkDuplicate (src : List UInt8) (size tag : Nat) :
    List ReassHelper → Bool × List ReassHelper
  | [] => (false, [])
  | lrh :: next =>
    let rest := checkDuplicate src size tag next
    if lrh.senderAddr = src then
      if tag = lrh.datagramTag ∧ size = lrh.datagramSize then (true, lrh :: next) else rest
    else (rest.1, lrh :: rest.2)

/-- A FRAGN frame for the datagram it belongs to, which is returned when it is complete. -/
def addFragment (src : List UInt8) (size tag offset : Nat) (data : List UInt8) :
    List ReassHelper → Option (List UInt8) × List ReassHelper
  | [] => (none, [])
  | lrh :: next =>
    if lrh.senderAddr = src ∧ tag = lrh.datagramTag ∧ size = lrh.datagramSize then
      if lrh.pbuf.length < offset then (none, lrh :: next)
      else if lrh.pbuf.length > offset then (none, next)
      else if (lrh.pbuf ++ data).length ≥ lrh.datagramSize then (some (lrh.pbuf ++ data), next)
      else (none, { lrh with pbuf := lrh.pbuf ++ data } :: next)
    else
      let rest := addFragment src size tag offset data next
      (rest.1, lrh :: rest.2)

section

variable (decompress : List UInt8 → List UInt8 → List UInt8 → Option (List UInt8))

/-- The packet that is given to `ip6_input`. -/
def packetOf (src dest p : List UInt8) : Option (List UInt8) :=
  if p.getD 0 0 = 0x41 then some (p.drop 1)
  else if p.getD 0 0 &&& 0xe0 = 0x60 then decompress p src dest
  else none

/-- `lowpan6_input`: what is passed up, and `reass_list`. -/
def lowpan6Input (malloc : Bool) (p : List UInt8) (reassList : List ReassHelper) :
    Option (List UInt8) × List ReassHelper :=
  let f := frameOf p
  match f.dispatch with
  | .frag1 size tag data =>
    let checked := checkDuplicate f.src size tag reassList
    if checked.1 ∨ malloc = false then (none, checked.2)
    else (none, ⟨data, f.src, size, tag⟩ :: checked.2)
  | .fragn size tag offset data =>
    let added := addFragment f.src size tag offset data reassList
    (added.1.bind (packetOf decompress f.src f.dest), added.2)
  | .complete data => (packetOf decompress f.src f.dest data, reassList)

end

end Lwip.Lowpan6
