import Lwip.Core.Ip6Frag
import Lwip.Verif.Assertions

/-!
# What fragmentation leaves of a packet

`ip4_frag` walks over the pbufs of the packet and leaves them as they were, wherever it stops.
`ip6_frag` moves the payload pointer of the first pbuf behind the header in its first round and
never moves it back, so the packet is left as it was only if there is no first round.
-/

namespace Lwip

open Outcome List

variable {alloc : Nat → Bool} {p : Chain}

/-- The fields of a pbuf that describe its data. -/
def pbufFields (q : Pbuf) : Nat × Nat × Nat := (q.payload, q.len, q.totLen)

/-- The payload pointer of the first pbuf. -/
def headPayload (c : Chain) : Nat := (c.head?.map Pbuf.payload).getD 0

/-- The inner loop only moves on in the packet. -/
theorem ip4FragCopy_packet (leftToCopy poff newpbuflen allocs : Nat) (rambuf before : Chain) :
    Ensures AnyError (ip4FragCopy alloc leftToCopy poff newpbuflen allocs rambuf before p)
      fun copied => copied.before ++ copied.p = before ++ p := by
  induction p generalizing leftToCopy poff newpbuflen allocs rambuf before with
  | nil =>
    unfold ip4FragCopy
    split
    · exact .ok rfl
    · exact .error trivial
  | cons q next ih =>
    have later (leftToCopy newpbuflen allocs : Nat) (rambuf : Chain) :
        Ensures AnyError
          (ip4FragCopy alloc leftToCopy 0 newpbuflen allocs rambuf (before ++ [q]) next)
          fun copied => copied.before ++ copied.p = before ++ q :: next := by
      apply (ih leftToCopy 0 newpbuflen allocs rambuf (before ++ [q])).mono
      intro copied found
      rw [found, append_assoc, singleton_append]
    unfold ip4FragCopy
    split
    · exact .ok rfl
    dsimp only
    split
    · exact later _ _ _ _
    split
    · exact .ok rfl
    · apply ensures_skip
      intro linked
      split
      · exact .ok rfl
      · exact later _ _ _ _

/-- The outer loop of `ip4_frag` leaves the packet alone. -/
theorem ip4FragLoop_packet (mtu : Nat) (originalIphdr : List UInt8) (fuel : Nat) (before : Chain)
    (poff newpbuflen allocs left ofo : Nat) :
    Ensures AnyError (ip4FragLoop alloc mtu originalIphdr fuel before p poff newpbuflen allocs left
      ofo) fun result => result.packet = before ++ p := by
  induction fuel generalizing before p poff newpbuflen allocs left ofo with
  | zero => exact .error trivial
  | succ fuel ih =>
    unfold ip4FragLoop
    split
    · exact .ok rfl
    dsimp only
    split
    · exact .ok rfl
    apply ensures_pass trivial
    apply (ip4FragCopy_packet _ _ _ _ _ _).bind
    intro copied kept
    split
    · exact .ok kept
    · apply (ih _ _ _ _ _ _).bind
      intro rest found
      exact .ok (found.trans kept)

theorem ip4FragPacket_packet (mtu : Nat) :
    Ensures AnyError (ip4FragPacket alloc p mtu) fun result => result.packet = p := by
  cases p with
  | nil => exact .error trivial
  | cons q next =>
    unfold ip4FragPacket
    dsimp only
    split
    · exact .ok rfl
    split
    · exact .ok rfl
    · exact ip4FragLoop_packet _ _ _ [] _ _ _ _ _

theorem headPayload_adjust (before : Chain) (poff : Nat) :
    headPayload (before ++ p) ≤ headPayload (before ++ ip6FragAdjust poff p) := by
  cases before with
  | cons first more => exact Nat.le_refl _
  | nil =>
    cases p with
    | nil => exact Nat.le_refl _
    | cons q next => exact Nat.le_add_right _ _

/-- The loop leaves the packet alone if it makes no round, and else moves the first payload pointer
as far as the first adjustment does or further. -/
theorem ip6FragLoop_packet (nfb : Nat) (originalIp6hdr : List UInt8) (identification : UInt32)
    (fuel : Nat) (before : Chain) (poff newpbuflen allocs left fragmentOffset : Nat) :
    Ensures AnyError (ip6FragLoop alloc nfb originalIp6hdr identification fuel before p poff
      newpbuflen allocs left fragmentOffset) fun result =>
        (left = 0 ∨ alloc allocs = false → result.packet = before ++ p) ∧
          (¬(left = 0 ∨ alloc allocs = false) →
            headPayload (before ++ ip6FragAdjust poff p) ≤ headPayload result.packet) := by
  induction fuel generalizing before p poff newpbuflen allocs left fragmentOffset with
  | zero => exact .error trivial
  | succ fuel ih =>
    unfold ip6FragLoop
    split
    · rename_i done
      exact .ok ⟨fun _ => rfl, fun some' => absurd (Or.inl done) some'⟩
    rename_i more
    split
    · rename_i fails
      exact .ok ⟨fun _ => rfl, fun some' => absurd (Or.inr (by simpa using fails)) some'⟩
    rename_i succeeds
    apply ensures_pass trivial
    apply (ip4FragCopy_packet _ _ _ _ _ _).bind
    intro copied whole
    have round : ¬(left = 0 ∨ alloc allocs = false) := by
      intro none'
      cases none' with
      | inl done => exact more done
      | inr fails => exact succeeds (by rw [fails]; rfl)
    split
    · refine .ok ⟨fun none' => absurd none' round, fun _ => ?_⟩
      rw [whole]
    · apply (ih _ _ _ _ _ _).bind
      intro rest found
      refine .ok ⟨fun none' => absurd none' round, fun _ => ?_⟩
      rw [whole] at found
      by_cases ends : left - (if decide (left ≤ nfb) = true then left else nfb) = 0 ∨
          alloc copied.allocs = false
      · exact Nat.le_of_eq (congrArg headPayload (found.1 ends)).symm
      · have further := headPayload_adjust (p := copied.p) copied.before copied.newpbuflen
        rw [whole] at further
        exact Nat.le_trans further (found.2 ends)

/-- What fragmentation leaves of the packet of the caller: `ip4_frag` leaves it as it was, and
`ip6_frag` does so exactly if there is nothing to send or no memory for the first fragment. -/
theorem frag_packet_intact (alloc : Nat → Bool) (p : Chain) (mtu : Nat) :
    (∀ result, ip4FragPacket alloc p mtu = .ok result →
      result.packet.map pbufFields = p.map pbufFields) ∧
    ∀ fuel identification result, ip6Frag fuel alloc identification p mtu = .ok result →
      (result.packet.map pbufFields = p.map pbufFields ↔
        toU16 (p.totLen - ip6Hlen) = 0 ∨ alloc 0 = false) := by
  constructor
  · intro result returns
    rw [(ip4FragPacket_packet mtu).of_ok returns]
  intro fuel identification result returns
  cases p with
  | nil => cases returns
  | cons q next =>
    have found := (ip6FragLoop_packet _ _ _ fuel [] _ _ _ _ _).of_ok returns
    constructor
    · intro same
      by_contra round
      have moved := found.2 round
      cases packet : result.packet with
      | nil =>
        rw [packet] at same
        cases same
      | cons first rest =>
        rw [packet] at same moved
        have pointer : first.payload = q.payload := congrArg Prod.fst (List.cons.inj same).1
        have ahead : q.payload + ip6Hlen ≤ first.payload := moved
        unfold ip6Hlen at ahead
        omega
    · intro none'
      rw [found.1 none']
      rfl

/-- A packet of 1400 bytes. -/
def ip6Packet : Chain := [pbufRam 0 (List.replicate 1400 0)]

/-- A data set for the theorem: `ip4_frag` runs out of memory in its second fragment and `ip6_frag`
in its first, and both packets can be sent again. -/
theorem frag_packet_intact_noMemory :
    (∃ result, ip4FragPacket (fun n => n < 3) [pbufRam 0 (0x45 :: List.replicate 35 0)] 28 =
        .ok result ∧ result.err = .mem ∧ result.sent.length = 1 ∧
      result.packet.map pbufFields = [(0, 36, 36)]) ∧
    ∃ result, ip6Frag 3 (fun _ => false) 0 ip6Packet 1280 = .ok result ∧
      result.packet.map pbufFields = ip6Packet.map pbufFields := by
  constructor
  · have seen : (ip4FragPacket (fun n => n < 3) [pbufRam 0 (0x45 :: List.replicate 35 0)]
        28).toOption.map (fun result => (result.err, result.sent.length)) = some (.mem, 1) := by
      decide +kernel
    cases returns : ip4FragPacket (fun n => n < 3) [pbufRam 0 (0x45 :: List.replicate 35 0)] 28 with
    | error message =>
      rw [returns] at seen
      cases seen
    | ok result =>
      rw [returns] at seen
      have both := Option.some.inj seen
      exact ⟨result, rfl, congrArg Prod.fst both, congrArg Prod.snd both,
        (frag_packet_intact (fun n => n < 3) _ 28).1 result returns⟩
  · have some' : ¬toU16 ((ip6Packet.totLen : Int) - ip6Hlen) = 0 := by decide +kernel
    have returns : ip6Frag 3 (fun _ => false) 0 ip6Packet 1280 =
        .ok { err := .mem, sent := [], packet := ip6Packet } := by
      unfold ip6Frag ip6FragLoop
      exact if_neg some'
    exact ⟨_, returns,
      ((frag_packet_intact (fun _ => false) ip6Packet 1280).2 3 0 _ returns).mpr (Or.inr rfl)⟩

/-- A packet that is longer than the MTU is left with the data of its last fragment only. -/
theorem ip6Frag_moves_payload :
    (ip6Frag 3 (fun _ => true) 0 ip6Packet 1280).toOption.map
        (fun result => (result.err, result.sent.length, result.packet.map pbufFields)) =
      some (.ok, 2, [(1272, 128, 128)]) ∧
      ip6Packet.map pbufFields = [(0, 1400, 1400)] := by
  decide +kernel

end Lwip
