import Lwip.Core.Ip4Frag
import Lwip.Verif.Ip4
import Lwip.Verif.Pbuf

/-!
# What `ip4_frag` sends

The packets that `ip4_frag` gives to the interface, compared with what a fragmentation is.
The payload is always cut right, over any chain. Two comparisons of the loop limit the
result: the flag of a fragment is taken from the unrounded space of the interface, so it is
clear too early when the last piece is no longer than the remainder of that space modulo 8;
and the assertion on the header is made for the pbuf at which each fragment starts, so it
fails when a fragment begins behind a short pbuf. The offset field also has to hold the
offset of every fragment.
-/

namespace Lwip

open List

/-- The flag of a packet says that more fragments follow. -/
def MoreFragments (packet : List UInt8) : Prop := iphOffset packet &&& ipMf ≠ 0

instance (packet : List UInt8) : Decidable (MoreFragments packet) :=
  inferInstanceAs (Decidable (_ ≠ _))

/-- Offset field of a packet, in blocks of 8 bytes. -/
def fragmentOffset (packet : List UInt8) : Nat := iphOffset packet &&& ipOffmask

/-- What follows the header of a packet. -/
def ipPayload (packet : List UInt8) : List UInt8 := packet.drop ipHlen

/-- The packets are a fragmentation of a payload that starts at offset `ofo`. -/
structure Fragmentation (mtu ofo : Nat) (payload : List UInt8) (packets : List (List UInt8)) :
    Prop where
  size : ∀ packet ∈ packets, packet.length ≤ mtu
  /-- Every packet but the final one has the flag and whole blocks. -/
  more : ∀ packet ∈ packets.dropLast, MoreFragments packet ∧ (ipPayload packet).length % 8 = 0
  final : ∀ packet ∈ packets.getLast?, ¬MoreFragments packet
  /-- Every offset counts the blocks of payload before it. -/
  offset : ∀ before packet after, packets = before ++ packet :: after →
    fragmentOffset packet = ofo + (before.flatMap ipPayload).length / 8
  whole : packets.flatMap ipPayload = payload

/-! ## Fragmentations by their first packet -/

theorem fragmentation_single_iff (mtu ofo : Nat) (payload packet : List UInt8) :
    Fragmentation mtu ofo payload [packet] ↔
      packet.length ≤ mtu ∧ ¬MoreFragments packet ∧ fragmentOffset packet = ofo ∧
        ipPayload packet = payload := by
  constructor
  · intro given
    refine ⟨given.size packet (by simp), given.final packet (by simp), ?_, ?_⟩
    · simpa using given.offset [] packet [] rfl
    · simpa using given.whole
  rintro ⟨size, final, offset, whole⟩
  refine ⟨by simpa using size, by simp, by simpa using final, ?_, by simpa using whole⟩
  intro before other after split
  have alone : before = [] ∧ other = packet ∧ after = [] := by
    cases before with
    | nil => simpa [eq_comm] using split
    | cons _ _ => simp at split
  obtain ⟨rfl, rfl, rfl⟩ := alone
  simpa using offset

/-- A fragmentation into a first packet and others: the others are a fragmentation of the
rest at the offset behind the first one. -/
theorem fragmentation_cons_iff (mtu ofo : Nat) (part rest packet second : List UInt8)
    (others : List (List UInt8)) (carried : ipPayload packet = part) :
    Fragmentation mtu ofo (part ++ rest) (packet :: second :: others) ↔
      packet.length ≤ mtu ∧ MoreFragments packet ∧ part.length % 8 = 0 ∧
        fragmentOffset packet = ofo ∧
        Fragmentation mtu (ofo + part.length / 8) rest (second :: others) := by
  have blocks (n : Nat) (whole : part.length % 8 = 0) :
      (part.length + n) / 8 = part.length / 8 + n / 8 := by omega
  constructor
  · intro given
    have first := given.more packet (by simp)
    rw [carried] at first
    refine ⟨given.size packet (by simp), first.1, first.2, ?_, ?_, ?_, ?_, ?_, ?_⟩
    · simpa using given.offset [] packet (second :: others) rfl
    · exact fun other member => given.size other (mem_cons_of_mem packet member)
    · exact fun other member => given.more other (by
        simp only [dropLast_cons_cons]
        exact mem_cons_of_mem packet member)
    · exact fun other member => given.final other (by simpa using member)
    · intro before other after split
      have counted := given.offset (packet :: before) other after (by rw [split]; rfl)
      rw [flatMap_cons, carried, length_append, blocks _ first.2] at counted
      omega
    · have whole := given.whole
      rw [flatMap_cons, carried] at whole
      exact append_cancel_left whole
  · rintro ⟨size, more, blocked, offset, given⟩
    refine ⟨?_, ?_, ?_, ?_, ?_⟩
    · exact forall_mem_cons.mpr ⟨size, given.size⟩
    · rw [dropLast_cons_cons]
      exact forall_mem_cons.mpr ⟨⟨more, by rwa [carried]⟩, given.more⟩
    · exact fun other member => given.final other (by simpa using member)
    · intro before other after split
      cases before with
      | nil =>
        simp only [nil_append, List.cons.injEq] at split
        simpa [← split.1] using offset
      | cons head before =>
        simp only [cons_append, List.cons.injEq] at split
        obtain ⟨rfl, split⟩ := split
        have counted := given.offset before other after split
        rw [flatMap_cons, carried, length_append, blocks _ blocked]
        omega
    · rw [flatMap_cons, carried, given.whole]

/-! ## The packets by their bytes -/

/-- The bytes that the outer loop sends, as a function of the payload alone. -/
def emitted (mtu : Nat) (iphdr : List UInt8) : Nat → Nat → List UInt8 → List (List UInt8)
  | 0, _, _ => []
  | fuel + 1, ofo, payload =>
    if payload = [] then []
    else
      (ip4FragHeader iphdr ofo (decide ((payload.length : Int) ≤ mtu - ipHlen))
          (payload.take (ip4FragNfb mtu * 8)).length ++ payload.take (ip4FragNfb mtu * 8)) ::
        emitted mtu iphdr fuel (u16 (ofo + ip4FragNfb mtu)) (payload.drop (ip4FragNfb mtu * 8))

/-- A fragment header is as long as the header it is made from. -/
@[simp] theorem length_ip4FragHeader (iphdr : List UInt8) (ofo : Nat) (last : Bool)
    (fragsize : Nat) : (ip4FragHeader iphdr ofo last fragsize).length = iphdr.length := by
  simp [ip4FragHeader, iphChksumSet, iphLenSet, iphOffsetSet]

theorem iphOffset_ip4FragHeader {iphdr : List UInt8} (length : iphdr.length = 20) (ofo : Nat)
    (last : Bool) (fragsize : Nat) :
    iphOffset (ip4FragHeader iphdr ofo last fragsize) =
      if last then ofo % 8192 else ofo % 8192 + 8192 := by
  have offset : ipOffmask &&& ofo = ofo % 8192 := by rw [Nat.and_comm, and_offmask]
  have small : ofo % 8192 < 8192 := Nat.mod_lt _ (by decide)
  have value : (if !last then ipOffmask &&& ofo ||| ipMf else ipOffmask &&& ofo) =
      if last then ofo % 8192 else ofo % 8192 + 8192 := by
    rw [offset, or_mf small]
    cases last <;> rfl
  have word : (if last then ofo % 8192 else ofo % 8192 + 8192) < 65536 := by
    split <;> omega
  unfold iphOffset ip4FragHeader iphChksumSet iphLenSet iphOffsetSet
  rw [netU16_setHostU16_ne (by decide), netU16_setHostU16_ne (by decide),
    netU16_setNetU16_ne (by decide), value, netU16_setNetU16 (by omega) word]

variable {mtu : Nat} {iphdr : List UInt8}

/-- The number of blocks for an interface that can fragment at all. -/
theorem ip4FragNfb_eq (low : 28 ≤ mtu) (high : mtu < 65536) :
    ip4FragNfb mtu = (mtu - 20) / 8 := by
  rw [ip4FragNfb, toU16_of_range]
  · rw [show ((mtu : Int) - ipHlen) = ((mtu - 20 : Nat) : Int) by simp only [ipHlen]; omega,
      Int.tdiv_eq_ediv_of_nonneg (by omega)]
    omega
  all_goals
    rw [show ((mtu : Int) - ipHlen) = ((mtu - 20 : Nat) : Int) by simp only [ipHlen]; omega,
      Int.tdiv_eq_ediv_of_nonneg (by omega)]
    omega

/-- One packet: its payload, offset, flag and length. -/
theorem fragment_fields (length : iphdr.length = 20) (ofo : Nat) (last : Bool)
    (part : List UInt8) :
    let packet := ip4FragHeader iphdr ofo last part.length ++ part
    ipPayload packet = part ∧ fragmentOffset packet = ofo % 8192 ∧
      (MoreFragments packet ↔ last = false) ∧ packet.length = 20 + part.length := by
  intro packet
  have size : (ip4FragHeader iphdr ofo last part.length).length = 20 := by simp [length]
  have field : iphOffset packet = if last then ofo % 8192 else ofo % 8192 + 8192 := by
    rw [← iphOffset_ip4FragHeader length ofo last part.length]
    exact netU16_append (by omega)
  refine ⟨drop_left' size, ?_, ?_, by rw [length_append, size]⟩
  · rw [fragmentOffset, field, and_offmask]
    split <;> omega
  · rw [MoreFragments, field, ne_eq, and_mf_eq_zero_iff]
    cases last <;> simp

/-- Conditions on the payload length and the offset under which the packets are a
fragmentation: one packet is enough or the last piece is longer than the remainder of the
space modulo 8, and the last offset fits its field. -/
def CutRight (mtu ofo length : Nat) : Prop :=
  (length ≤ (mtu - 20) / 8 * 8 ∨ (mtu - 20) % 8 < (length - 1) % ((mtu - 20) / 8 * 8) + 1) ∧
    (length = 0 ∨ ofo + (length - 1) / ((mtu - 20) / 8 * 8) * ((mtu - 20) / 8) < 8192)

/-- The conditions for a payload of several packets, by its first packet. -/
theorem cutRight_step {ofo length : Nat} (low : 28 ≤ mtu)
    (several : (mtu - 20) / 8 * 8 < length) :
    CutRight mtu ofo length ↔ mtu - 20 < length ∧ ofo < 8192 ∧
      CutRight mtu (ofo + (mtu - 20) / 8) (length - (mtu - 20) / 8 * 8) := by
  unfold CutRight
  have space : mtu - 20 = (mtu - 20) / 8 * 8 + (mtu - 20) % 8 := by omega
  have slackBound : (mtu - 20) % 8 < 8 := Nat.mod_lt _ (by decide)
  generalize (mtu - 20) / 8 = nfb at *
  generalize (mtu - 20) % 8 = slack at *
  have unit : 0 < nfb * 8 := by omega
  have quotient : (length - 1) / (nfb * 8) = (length - nfb * 8 - 1) / (nfb * 8) + 1 := by
    rw [show length - 1 = length - nfb * 8 - 1 + nfb * 8 by omega, Nat.add_div_right _ unit]
  have remainder : (length - 1) % (nfb * 8) = (length - nfb * 8 - 1) % (nfb * 8) := by
    rw [show length - 1 = length - nfb * 8 - 1 + nfb * 8 by omega, Nat.add_mod_right]
  rw [quotient, remainder, Nat.succ_mul]
  have short (fits : length - nfb * 8 ≤ nfb * 8) :
      (length - nfb * 8 - 1) % (nfb * 8) = length - nfb * 8 - 1 :=
    Nat.mod_eq_of_lt (by omega)
  generalize (length - nfb * 8 - 1) % (nfb * 8) = last at *
  generalize (length - nfb * 8 - 1) / (nfb * 8) * nfb = blocksBefore
  omega

theorem emitted_nil (fuel ofo : Nat) : emitted mtu iphdr fuel ofo [] = [] := by
  cases fuel <;> simp [emitted]

/-- The first packet of a payload that is not empty, with the length of its piece as the loop
computes it. -/
theorem emitted_cons (fuel ofo : Nat) {payload : List UInt8} (nonempty : payload ≠ []) :
    emitted mtu iphdr (fuel + 1) ofo payload =
      (ip4FragHeader iphdr ofo (decide ((payload.length : Int) ≤ mtu - ipHlen))
          (min payload.length (ip4FragNfb mtu * 8)) ++
        payload.take (min payload.length (ip4FragNfb mtu * 8))) ::
        emitted mtu iphdr fuel (u16 (ofo + ip4FragNfb mtu))
          (payload.drop (min payload.length (ip4FragNfb mtu * 8))) := by
  have taken : payload.take (min payload.length (ip4FragNfb mtu * 8)) =
      payload.take (ip4FragNfb mtu * 8) := by
    rw [Nat.min_comm, ← take_eq_take_min]
  have dropped : payload.drop (min payload.length (ip4FragNfb mtu * 8)) =
      payload.drop (ip4FragNfb mtu * 8) := by
    rcases Nat.le_total payload.length (ip4FragNfb mtu * 8) with less | more
    · rw [Nat.min_eq_left less, drop_eq_nil_of_le (Nat.le_refl _), drop_eq_nil_of_le less]
    · rw [Nat.min_eq_right more]
  rw [emitted, if_neg nonempty, taken, dropped, length_take, Nat.min_comm]

/-- The packets sent are a fragmentation exactly under the conditions on the lengths. -/
theorem emitted_fragmentation_iff (length : iphdr.length = 20) (low : 28 ≤ mtu)
    (high : mtu < 65536) (fuel ofo : Nat) (payload : List UInt8) (enough : payload.length ≤ fuel)
    (bounded : ofo * 8 + payload.length < 131072) :
    Fragmentation mtu ofo payload (emitted mtu iphdr fuel ofo payload) ↔
      CutRight mtu ofo payload.length := by
  induction fuel generalizing ofo payload with
  | zero =>
    have empty : payload = [] := length_eq_zero_iff.mp (by omega)
    subst empty
    refine iff_of_true ⟨by simp [emitted], by simp [emitted], by simp [emitted], ?_,
      by simp [emitted]⟩ ⟨by simp, by simp⟩
    simp [emitted]
  | succ fuel ih =>
    have nfb := ip4FragNfb_eq low high
    rw [emitted]
    split
    · rename_i empty
      subst empty
      exact iff_of_true ⟨by simp, by simp, by simp, by simp, by simp⟩ ⟨by simp, by simp⟩
    rename_i nonempty
    have positive : 0 < payload.length := length_pos_iff.mpr nonempty
    rw [nfb]
    obtain ⟨carried, offset, flag, size⟩ := fragment_fields length ofo
      (decide ((payload.length : Int) ≤ mtu - ipHlen)) (payload.take ((mtu - 20) / 8 * 8))
    have unrounded : ((payload.length : Int) ≤ mtu - ipHlen) ↔ payload.length ≤ mtu - 20 := by
      simp only [ipHlen]
      omega
    simp only [unrounded] at carried offset flag size ⊢
    by_cases several : (mtu - 20) / 8 * 8 < payload.length
    · have partLength : (payload.take ((mtu - 20) / 8 * 8)).length = (mtu - 20) / 8 * 8 := by
        rw [length_take]
        omega
      have restLength : (payload.drop ((mtu - 20) / 8 * 8)).length =
          payload.length - (mtu - 20) / 8 * 8 := length_drop
      have offsetFits : u16 (ofo + (mtu - 20) / 8) = ofo + (mtu - 20) / 8 := u16_of_lt (by omega)
      rw [offsetFits]
      have rest := ih (ofo + (mtu - 20) / 8) (payload.drop ((mtu - 20) / 8 * 8)) (by omega)
        (by omega)
      -- the packets behind the first one are not empty, as their payload is not
      cases others : emitted mtu iphdr fuel (ofo + (mtu - 20) / 8)
          (payload.drop ((mtu - 20) / 8 * 8)) with
      | nil =>
        have someRest : payload.drop ((mtu - 20) / 8 * 8) ≠ [] := length_pos_iff.mp (by omega)
        obtain ⟨less, rfl⟩ : ∃ less, fuel = less + 1 := ⟨fuel - 1, by omega⟩
        rw [emitted, if_neg someRest] at others
        cases others
      | cons second others' =>
        have cons := fragmentation_cons_iff mtu ofo (payload.take ((mtu - 20) / 8 * 8))
          (payload.drop ((mtu - 20) / 8 * 8)) _ second others' carried
        rw [take_append_drop] at cons
        rw [cons, cutRight_step low several, ← restLength, ← rest, others, size, offset, flag,
          partLength]
        have offsetOwn : ofo % 8192 = ofo ↔ ofo < 8192 := by omega
        simp only [decide_eq_false_iff_not, offsetOwn, Nat.mul_mod_left, true_and,
          Nat.mul_div_cancel _ (by decide : 0 < 8), Nat.not_le]
        exact and_iff_right (by omega)
    · have wholePart : payload.take ((mtu - 20) / 8 * 8) = payload := take_of_length_le (by omega)
      have noRest : payload.drop ((mtu - 20) / 8 * 8) = [] := drop_eq_nil_of_le (by omega)
      rw [wholePart] at carried offset flag size
      rw [noRest, emitted_nil, wholePart, fragmentation_single_iff, offset, flag, carried, size]
      have firstOffset : (payload.length - 1) / ((mtu - 20) / 8 * 8) = 0 :=
        Nat.div_eq_of_lt (by omega)
      rw [CutRight, firstOffset]
      have fits : payload.length ≤ mtu - 20 := by omega
      simp only [fits, decide_true, Bool.true_eq_false, not_false_eq_true, true_and, and_true]
      omega

/-! ## Walking the chain -/

/-- The pbuf that holds byte `i` of a chain. -/
def pbufAt : Chain → Nat → Option Pbuf
  | [], _ => none
  | p :: next, i => if i < p.len then some p else pbufAt next (i - p.len)

/-- The pbuf that holds the byte before position `pos` is long enough for a header. -/
def LongBefore (c : Chain) (pos : Nat) : Prop := ∃ p ∈ pbufAt c (pos - 1), 20 ≤ p.len

/-- Position `pos` of a chain is right behind the first `poff` bytes of the first pbuf of the
part `current`. -/
structure Cursor (c : Chain) (pos : Nat) (current : Chain) (poff : Nat) : Prop where
  split : ∃ before, c = before ++ current ∧ (Chain.bytes before).length + poff = pos
  behind : ∃ p next, current = p :: next ∧ 0 < poff ∧ poff ≤ p.len

/-- All payloads of a chain lie in their memories and have 16-bit lengths. -/
def Readable (c : Chain) : Prop := ∀ p ∈ c, p.payload + p.len ≤ p.mem.length ∧ p.len < 65536

theorem pbufAt_append {before current : Chain} (readable : Readable (before ++ current))
    (i : Nat) : pbufAt (before ++ current) ((Chain.bytes before).length + i) = pbufAt current
      i := by
  induction before with
  | nil => simp [Chain.bytes]
  | cons p next ih =>
    have own := Pbuf.length_bytes (readable p (by simp)).1
    have rest := ih (fun q member => readable q (mem_cons_of_mem p member))
    rw [cons_append, pbufAt, Chain.bytes_cons, length_append, own, if_neg (by omega),
      show p.len + (Chain.bytes next).length + i - p.len = (Chain.bytes next).length + i by omega,
      rest]

/-- The first pbuf of the current part holds the byte before the position. -/
theorem Cursor.pbufAt_eq {c current : Chain} {pos poff : Nat} (cursor : Cursor c pos current poff)
    (readable : Readable c) : pbufAt c (pos - 1) = current.head? := by
  obtain ⟨⟨before, rfl, position⟩, p, next, rfl, positive, bound⟩ := cursor
  rw [show pos - 1 = (Chain.bytes before).length + (poff - 1) by omega, pbufAt_append readable,
    pbufAt, if_pos (by omega)]
  rfl

/-- A pbuf that mirrors a piece of another one denotes that piece. -/
theorem pbufMirror_denotes {p : Pbuf} {offset length : Nat}
    (inside : p.payload + p.len ≤ p.mem.length) (piece : offset + length ≤ p.len)
    (short : p.len < 65536) :
    Denotes [pbufMirror p offset length] ((p.bytes.drop offset).take length) := by
  refine Denotes.single ?_ ?_ rfl ?_
  · simp only [Pbuf.bytes, pbufMirror]
    rw [drop_take, take_take, drop_drop, Nat.min_eq_left (by omega)]
  · simp only [pbufMirror]
    omega
  · rw [length_take, length_drop]
    omega

/-- `pbuf_cat` succeeds on chains with right total lengths. -/
theorem pbufCat_succeeds {h t : Chain} {b e : List UInt8} (head : Denotes h b)
    (tail : Denotes t e) : ∃ c, pbufCat h t = .ok c ∧ c.head?.map Pbuf.len = h.head?.map
      Pbuf.len := by
  refine ⟨_, (pbufCat_ok_iff head.nonempty tail.nonempty).2 ⟨head.totLens.last, rfl⟩, ?_⟩
  obtain ⟨p, next, rfl⟩ := exists_cons_of_ne_nil head.nonempty
  rfl

/-- The inner loop links the next `leftToCopy` bytes of the chain to the fragment and stops
right behind them. -/
theorem ip4FragCopy_spec {c : Chain} {leftToCopy poff newpbuflen allocs : Nat}
    {rambuf passed : Chain} {r : List UInt8} (readable : Readable c)
    (start : ∀ p ∈ c.head?, poff ≤ p.len) (positive : 0 < leftToCopy)
    (enough : poff + leftToCopy ≤ (Chain.bytes c).length) (ram : Denotes rambuf r)
    (total : r.length + leftToCopy ≤ 65535) :
    ∃ copied, ip4FragCopy (fun _ => true) leftToCopy poff newpbuflen allocs rambuf passed c =
        .ok copied ∧ copied.memerr = false ∧
      Denotes copied.rambuf (r ++ ((Chain.bytes c).drop poff).take leftToCopy) ∧
      copied.rambuf.head?.map Pbuf.len = rambuf.head?.map Pbuf.len ∧
      Cursor c (poff + leftToCopy) copied.p (copied.poff + copied.newpbuflen) := by
  induction c generalizing leftToCopy poff newpbuflen allocs rambuf passed r with
  | nil =>
    simp only [Chain.bytes, flatMap_nil, length_nil] at enough
    omega
  | cons p next ih =>
    obtain ⟨inside, short⟩ := readable p (by simp)
    have size := Pbuf.length_bytes inside
    have offset : poff ≤ p.len := start p (by simp)
    have plen : toU16 ((p.len : Int) - poff) = p.len - poff := toU16_eq (by omega) (by omega)
    have readableNext : Readable next := fun q member => readable q (mem_cons_of_mem p member)
    rw [Chain.bytes_cons, length_append, size] at enough
    rw [ip4FragCopy, if_neg (by omega)]
    simp only [plen]
    by_cases usedUp : min leftToCopy (p.len - poff) = 0
    · have atEnd : poff = p.len := by omega
      rw [if_pos usedUp]
      obtain ⟨copied, done, memory, denotes, head, ⟨before, rfl, position⟩, behind⟩ :=
        @ih leftToCopy 0 _ allocs _ (passed ++ [p]) _ readableNext (by simp) positive (by omega) ram
          total
      refine ⟨copied, done, memory, ?_, head, ⟨p :: before, rfl, ?_⟩, behind⟩
      · rw [Chain.bytes_cons, atEnd, ← size, drop_left' rfl]
        simpa using denotes
      · rw [Chain.bytes_cons, length_append, size]
        omega
    · rw [if_neg usedUp]
      simp only [Bool.not_true, Bool.false_eq_true, ↓reduceIte]
      have piece : poff + min leftToCopy (p.len - poff) ≤ p.len := by omega
      have mirror := pbufMirror_denotes inside piece short
      obtain ⟨linked, cat, head⟩ := pbufCat_succeeds ram mirror
      have mirrorLength : ((p.bytes.drop poff).take (min leftToCopy (p.len - poff))).length =
          min leftToCopy (p.len - poff) := by
        rw [length_take, length_drop, size]
        omega
      have joined := pbufCat_denotes ram mirror (by omega) cat
      rw [cat]
      by_cases complete : leftToCopy - min leftToCopy (p.len - poff) = 0
      · have all : min leftToCopy (p.len - poff) = leftToCopy := by omega
        refine ⟨_, if_pos complete, rfl, ?_, head, ⟨[], rfl, ?_⟩, p, next, rfl, ?_, piece⟩
        · rw [Chain.bytes_cons, drop_append_of_le_length (by omega),
            take_append_of_le_length (by rw [length_drop]; omega), ← all]
          exact joined
        · simp only [Chain.bytes, flatMap_nil, length_nil]
          omega
        · dsimp only
          omega
      · have exhausted : min leftToCopy (p.len - poff) = p.len - poff := by omega
        obtain ⟨copied, done, memory, denotes, headRest, ⟨before, rfl, position⟩, behind⟩ :=
          @ih (leftToCopy - min leftToCopy (p.len - poff)) 0 _ (allocs + 1) _ (passed ++ [p]) _
            readableNext (by simp) (by omega) (by omega) joined
            (by rw [length_append, mirrorLength]; omega)
        refine ⟨copied, (if_neg complete).trans done, memory, ?_, headRest.trans head,
          ⟨p :: before, rfl, ?_⟩, behind⟩
        · rw [exhausted, append_assoc] at denotes
          have rest : (p.bytes.drop poff).take (p.len - poff) = p.bytes.drop poff :=
            take_of_length_le (by rw [length_drop]; omega)
          rw [rest] at denotes
          rw [Chain.bytes_cons, drop_append_of_le_length (by omega), take_append, length_drop, size,
            take_of_length_le (by rw [length_drop]; omega : _ ≤ leftToCopy)]
          simpa using denotes
        · rw [Chain.bytes_cons, length_append, size]
          omega

/-- Writing a header over the one at the start of a packet. -/
theorem setIphdr_denotes {c : Chain} {b iphdr : List UInt8} (denotes : Denotes c b)
    (long : ∀ p ∈ c.head?, 20 ≤ p.len) (length : iphdr.length = 20) :
    Denotes (setIphdr iphdr c) (iphdr ++ b.drop 20) := by
  cases c with
  | nil => exact absurd rfl denotes.nonempty
  | cons p next =>
    have header : 20 ≤ p.len := long p rfl
    obtain ⟨front, behind, bound, count, _⟩ := denotes.cons_inv
    have inside := denotes.inMemory p mem_cons_self
    have fits := denotes.fits
    have old := Pbuf.length_bytes inside
    have bytes : ((p.mem.take p.payload ++ iphdr ++ p.mem.drop (p.payload + ipHlen)).drop
        p.payload).take p.len = iphdr ++ p.bytes.drop 20 := by
      rw [append_assoc, drop_left' (by rw [length_take]; omega), take_append,
        take_of_length_le (by omega), length, Pbuf.bytes, drop_take, drop_drop]
      rfl
    have memory : (p.mem.take p.payload ++ iphdr ++ p.mem.drop (p.payload + ipHlen)).length =
        p.mem.length := by
      simp only [length_append, length_take, length_drop, length, ipHlen]
      omega
    have whole : iphdr ++ b.drop 20 = (iphdr ++ p.bytes.drop 20) ++ b.drop p.len := by
      have joined : b = p.bytes ++ b.drop p.len := by rw [front, take_append_drop]
      conv_lhs => rw [joined, drop_append_of_le_length (by omega)]
      rw [append_assoc]
    have size : (iphdr ++ b.drop 20).length = b.length := by
      simp only [length_append, length_drop, length]
      omega
    rw [setIphdr]
    by_cases single : next = []
    · subst single
      have empty : b.drop p.len = [] := behind.symm
      have exact : p.len = b.length := by
        have := drop_eq_nil_iff.mp empty
        omega
      rw [whole, empty, append_nil]
      refine Denotes.single bytes (by simp only [memory]; exact inside) (by simp only; omega) ?_
      simp only [length_append, length_drop, length, old]
      omega
    · rw [whole] at size ⊢
      exact Denotes.of_cons bytes (by simp only [memory]; exact inside) (by rw [size]; exact count)
        (by omega) (denotes.tail single)

/-- A fragment starts behind a short pbuf nowhere in the rest of a chain. -/
def BoundariesLong (c : Chain) (unit pos left : Nat) : Prop :=
  ∀ k, k * unit < left → LongBefore c (pos + k * unit)

/-- The condition on the boundaries, by the first fragment. -/
theorem boundariesLong_step {c : Chain} {unit pos left : Nat} (positive : 0 < left) :
    BoundariesLong c unit pos left ↔ LongBefore c pos ∧
      BoundariesLong c unit (pos + min left unit) (left - min left unit) := by
  constructor
  · intro long
    refine ⟨by simpa using long 0 (by simpa using positive), fun k below => ?_⟩
    have shifted := long (k + 1) (by rw [Nat.succ_mul]; omega)
    have whole : min left unit = unit := by omega
    rw [whole]
    rwa [Nat.succ_mul, Nat.add_comm (k * unit), ← Nat.add_assoc] at shifted
  · rintro ⟨first, rest⟩ k below
    cases k with
    | zero => simpa using first
    | succ k =>
      rw [Nat.succ_mul] at below ⊢
      have whole : min left unit = unit := by omega
      have given := rest k (by omega)
      rwa [whole, Nat.add_assoc, Nat.add_comm unit] at given

/-- The outer loop sends the packets of `emitted` if no fragment starts behind a short pbuf,
and ends in the assertion otherwise. -/
theorem ip4FragLoop_spec (length : iphdr.length = 20) (low : 28 ≤ mtu) (high : mtu < 65536)
    {c : Chain} (readable : Readable c) (fuel : Nat) {passed current : Chain}
    {poff newpbuflen allocs left ofo pos : Nat} (cursor : Cursor c pos current poff)
    (remaining : (Chain.bytes c).length = pos + left) (short : left < 65536)
    (enough : left < fuel) :
    (BoundariesLong c ((mtu - 20) / 8 * 8) pos left →
      ∃ sent packet, ip4FragLoop (fun _ => true) mtu iphdr fuel passed current poff newpbuflen
          allocs left ofo = .ok { err := .ok, sent := sent, packet := packet } ∧
        List.Forall₂ Denotes sent (emitted mtu iphdr fuel ofo ((Chain.bytes c).drop pos))) ∧
    (¬BoundariesLong c ((mtu - 20) / 8 * 8) pos left →
      ∃ message, ip4FragLoop (fun _ => true) mtu iphdr fuel passed current poff newpbuflen allocs
        left ofo = .error message) := by
  induction fuel generalizing passed current poff newpbuflen allocs left ofo pos with
  | zero => omega
  | succ fuel ih =>
    have nfb := ip4FragNfb_eq low high
    rw [ip4FragLoop]
    by_cases done : left = 0
    · subst done
      have empty : (Chain.bytes c).drop pos = [] := drop_eq_nil_of_le (by omega)
      refine ⟨fun _ => ⟨[], _, if_pos rfl, ?_⟩, fun stuck => absurd ?_ stuck⟩
      · rw [empty, emitted_nil]
        exact List.Forall₂.nil
      · exact fun k below => absurd below (Nat.not_lt_zero _)
    rw [if_neg done]
    simp only [Bool.not_true, Bool.false_eq_true, ↓reduceIte, nfb]
    rw [boundariesLong_step (by omega)]
    have asserted : LongBefore c pos ↔ ∃ q ∈ current.head?, q.len ≥ ipHlen := by
      rw [LongBefore, cursor.pbufAt_eq readable]
      rfl
    by_cases long : LongBefore c pos
    · have passes := asserted.mp long
      obtain ⟨⟨before, rfl, position⟩, p, next, rfl, positive, bound⟩ := cursor
      have readableRest : Readable (p :: next) :=
        fun q member => readable q (mem_append_right before member)
      have header : Denotes [pbufRam pbufLinkHlen iphdr] iphdr := by
        refine Denotes.single ?_ ?_ rfl (by omega)
        · simp [Pbuf.bytes, pbufRam, pbufLinkHlen]
        · simp [pbufRam]
      have partLength : (Chain.bytes (before ++ p :: next)).length =
          (Chain.bytes before).length + (Chain.bytes (p :: next)).length := by
        rw [Chain.bytes_append, length_append]
      obtain ⟨copied, copy, memory, denotes, head, ⟨inner, split, inPart⟩, q, more, atEnd, some,
        within⟩ :=
        @ip4FragCopy_spec (p :: next) (min left ((mtu - 20) / 8 * 8)) poff newpbuflen (allocs + 1)
          _ passed _ readableRest (by simpa using bound) (by omega) (by omega) header (by omega)
      have moved : Cursor (before ++ p :: next) (pos + min left ((mtu - 20) / 8 * 8)) copied.p
          (copied.poff + copied.newpbuflen) := by
        refine ⟨⟨before ++ inner, by rw [split, append_assoc], ?_⟩, q, more, atEnd, some, within⟩
        rw [Chain.bytes_append, length_append]
        omega
      have fits : u16 (copied.poff + copied.newpbuflen) = copied.poff + copied.newpbuflen := by
        have listed : q ∈ p :: next := by
          rw [split, atEnd]
          simp
        have := (readableRest q listed).2
        exact u16_of_lt (by omega)
      obtain ⟨goes, stops⟩ := @ih copied.before copied.p (copied.poff + copied.newpbuflen)
        copied.newpbuflen copied.allocs (left - min left ((mtu - 20) / 8 * 8))
        (u16 (ofo + (mtu - 20) / 8)) (pos + min left ((mtu - 20) / 8 * 8)) moved (by omega)
        (by omega) (by omega)
      rw [lwipAssert_pos passes, ok_bind, copy, ok_bind]
      simp only [memory, Bool.false_eq_true, if_false, fits, long, true_and]
      refine ⟨fun rest => ?_, fun rest => ?_⟩
      · obtain ⟨sent, packet, result, all⟩ := goes rest
        refine ⟨_, packet, by rw [result]; rfl, ?_⟩
        have payload : (Chain.bytes (before ++ p :: next)).drop pos =
            (Chain.bytes (p :: next)).drop poff := by
          rw [Chain.bytes_append, ← position, ← drop_drop, drop_left' rfl]
        have size : ((Chain.bytes (p :: next)).drop poff).length = left := by
          rw [length_drop]
          omega
        have some : (Chain.bytes (p :: next)).drop poff ≠ [] := length_pos_iff.mp (by omega)
        rw [← drop_drop, payload] at all
        rw [payload, emitted_cons fuel ofo some, size, nfb]
        have long : ∀ p ∈ copied.rambuf.head?, 20 ≤ p.len := by
          intro p first
          rw [Option.mem_def.mp first] at head
          simp only [Option.map_some, pbufRam, head?_cons, Option.some.injEq] at head
          omega
        have written := @setIphdr_denotes _ _
          (ip4FragHeader iphdr ofo (decide ((left : Int) ≤ mtu - ipHlen))
            (min left ((mtu - 20) / 8 * 8))) denotes long (by simp [length])
        rw [drop_left' length] at written
        exact List.Forall₂.cons written all
      · obtain ⟨message, result⟩ := stops rest
        exact ⟨message, by rw [result]; rfl⟩
    · rw [lwipAssert_neg (fun passes => long (asserted.mpr passes)), error_bind]
      exact ⟨fun both => absurd both.1 long, fun _ => ⟨_, rfl⟩⟩

/-! ## The whole function -/

/-- Chains that denote the given packets have their bytes. -/
theorem forall₂_denotes_eq {sent : List Chain} {packets : List (List UInt8)}
    (all : List.Forall₂ Denotes sent packets) : packets = sent.map Chain.bytes := by
  induction all with
  | nil => rfl
  | cons denotes _ ih => rw [map_cons, denotes.bytes, ← ih]

theorem Denotes.readable {c : Chain} {b : List UInt8} (denotes : Denotes c b) : Readable c := by
  induction c generalizing b with
  | nil => exact absurd rfl denotes.nonempty
  | cons p next ih =>
    obtain ⟨_, _, bound, _, _⟩ := denotes.cons_inv
    have fits := denotes.fits
    intro q member
    rcases mem_cons.mp member with rfl | deeper
    · exact ⟨denotes.inMemory q mem_cons_self, by omega⟩
    · exact ih (denotes.tail (ne_nil_of_mem deeper)) q deeper

/-- `ip4_frag` sends a fragmentation of a datagram with a header of 20 bytes exactly when the
last piece and the last offset are in range and no fragment starts behind a pbuf of less than
20 bytes. -/
theorem ip4Frag_fragments_iff (p : Pbuf) (next : Chain) (b : List UInt8) (mtu : Nat)
    (denotes : Denotes (p :: next) b) (headerInOne : 20 ≤ p.len) (noOptions : iphHl b * 4 = 20)
    (last : ¬MoreFragments b) (low : 28 ≤ mtu) (high : mtu < 65536) :
    (∃ sent packets, ip4Frag (fun _ => true) (p :: next) mtu = .ok (.ok, sent) ∧
      List.Forall₂ Denotes sent packets ∧
      Fragmentation mtu (fragmentOffset b) (ipPayload b) packets) ↔
    CutRight mtu (fragmentOffset b) (b.length - 20) ∧
      BoundariesLong (p :: next) ((mtu - 20) / 8 * 8) 20 (b.length - 20) := by
  obtain ⟨front, _, bound, count, _⟩ := denotes.cons_inv
  have fits := denotes.fits
  have header : iphdrOf p = b.take 20 := by
    rw [iphdrOf, ipHlen, ← Nat.min_eq_left headerInOne, ← take_take,
      show (p.mem.drop p.payload).take p.len = p.bytes from rfl, front, take_take,
      Nat.min_eq_left headerInOne]
  have headerLength : (b.take 20).length = 20 := by
    rw [length_take]
    omega
  have split : b = b.take 20 ++ b.drop 20 := (take_append_drop 20 b).symm
  have sameField : iphOffset (b.take 20) = iphOffset b := by
    conv_rhs => rw [split]
    exact (netU16_append (by omega)).symm
  have sameHl : iphHl (b.take 20) = iphHl b := by
    simp only [iphHl, getD_eq_getElem?_getD, getElem?_take, Nat.zero_lt_succ, ↓reduceIte]
  have left : toU16 ((Chain.totLen (p :: next) : Int) - ipHlen) = b.length - 20 := by
    simp only [Chain.totLen, count, ipHlen]
    exact toU16_eq (by omega) (by omega)
  have called : ip4FragPacket (fun _ => true) (p :: next) mtu =
      ip4FragLoop (fun _ => true) mtu (b.take 20) (b.length - 20 + 1) [] (p :: next) 20 0 0
        (b.length - 20) (fragmentOffset b) := by
    rw [ip4FragPacket]
    simp only [header, sameHl, sameField, left]
    rw [if_neg (by simpa [ipHlen] using noOptions), if_neg (by simpa [MoreFragments] using last)]
    rfl
  have cursor : Cursor (p :: next) 20 (p :: next) 20 :=
    ⟨⟨[], rfl, by simp [Chain.bytes]⟩, p, next, rfl, by decide, headerInOne⟩
  have whole : (Chain.bytes (p :: next)).length = 20 + (b.length - 20) := by
    rw [denotes.bytes]
    omega
  obtain ⟨goes, stops⟩ := @ip4FragLoop_spec mtu (b.take 20) headerLength low high (p :: next)
    denotes.readable (b.length - 20 + 1) [] (p :: next) 20 0 0 (b.length - 20) (fragmentOffset b) 20
    cursor whole (by omega) (by omega)
  have offsetSmall : fragmentOffset b < 8192 := by
    rw [fragmentOffset, and_offmask]
    exact Nat.mod_lt _ (by decide)
  have cut := emitted_fragmentation_iff headerLength low high (b.length - 20 + 1)
    (fragmentOffset b) (ipPayload b) (by rw [ipPayload, length_drop, ipHlen]; omega)
    (by rw [ipPayload, length_drop, ipHlen]; omega)
  rw [ipPayload, length_drop, ipHlen] at cut
  rw [ip4Frag, called, ipPayload, ipHlen]
  rw [denotes.bytes] at goes
  constructor
  · rintro ⟨sent, packets, result, all, given⟩
    have long : BoundariesLong (p :: next) ((mtu - 20) / 8 * 8) 20 (b.length - 20) := by
      by_contra short
      obtain ⟨message, failed⟩ := stops short
      rw [failed] at result
      cases result
    obtain ⟨sent', packet, result', all'⟩ := goes long
    rw [result'] at result
    cases result
    rw [forall₂_denotes_eq all, ← forall₂_denotes_eq all'] at given
    exact ⟨cut.mp given, long⟩
  · rintro ⟨right, long⟩
    obtain ⟨sent, packet, result, all⟩ := goes long
    exact ⟨sent, _, by rw [result]; rfl, all, cut.mpr right⟩

/-- Header without options of a datagram that is not fragmented. -/
def plainHeader : List UInt8 :=
  [0x45, 0, 0, 36, 0, 1, 0, 0, 64, 17, 0, 0, 10, 0, 0, 1, 10, 0, 0, 2]

/-- A datagram in one pbuf. -/
def datagram (payload : List UInt8) : Pbuf := pbufRam 0 (plainHeader ++ payload)

/-- Sixteen bytes of payload over an interface with room for eight. -/
theorem ip4Frag_fragments_iff_sixteen :
    Denotes [datagram (List.replicate 16 7)] (plainHeader ++ List.replicate 16 7) ∧
    ∃ sent packets, ip4Frag (fun _ => true) [datagram (List.replicate 16 7)] 28 = .ok (.ok, sent) ∧
      List.Forall₂ Denotes sent packets ∧
      Fragmentation 28 (fragmentOffset (plainHeader ++ List.replicate 16 7))
        (ipPayload (plainHeader ++ List.replicate 16 7)) packets := by
  have denotes : Denotes [datagram (List.replicate 16 7)] (plainHeader ++ List.replicate 16 7) :=
    Denotes.single rfl (by decide) rfl (by decide)
  refine ⟨denotes, (ip4Frag_fragments_iff _ _ _ 28 denotes (by decide) (by decide) (by decide)
    (by decide) (by decide)).mpr ⟨⟨by decide, by decide⟩, fun k below => ?_⟩⟩
  have few : k < 2 := by
    simp only [plainHeader, length_append, length_replicate, length_cons, length_nil] at below
    omega
  refine ⟨datagram (List.replicate 16 7), ?_, by decide⟩
  rw [pbufAt, if_pos ?_]
  · rfl
  · simp only [datagram, pbufRam, plainHeader, length_append, length_replicate,
      length_cons, length_nil]
    omega

/-- Nine bytes of payload over an interface with room for nine, of which fragments use eight:
the first of the two packets says that it is the last one. -/
theorem ip4Frag_flag_clear_too_early :
    ¬∃ sent packets, ip4Frag (fun _ => true) [datagram (List.replicate 9 7)] 29 =
        .ok (.ok, sent) ∧
      List.Forall₂ Denotes sent packets ∧
      Fragmentation 29 (fragmentOffset (plainHeader ++ List.replicate 9 7))
        (ipPayload (plainHeader ++ List.replicate 9 7)) packets := by
  rintro ⟨sent, packets, result, all, given⟩
  have flags : (ip4Frag (fun _ => true) [datagram (List.replicate 9 7)] 29).map
      (fun r => r.2.map fun c => decide (MoreFragments c.bytes)) = .ok [false, false] := by
    decide +kernel
  rw [result] at flags
  have two : sent.map (fun c => decide (MoreFragments c.bytes)) = [false, false] :=
    Except.ok.inj flags
  obtain ⟨first, tail, rfl, clear, rest⟩ := map_eq_cons_iff.mp two
  obtain ⟨second, none, rfl, _, _⟩ := map_eq_cons_iff.mp rest
  rw [forall₂_denotes_eq all] at given
  have set := (given.more first.bytes (by simp)).1
  exact absurd set (of_decide_eq_false clear)

end Lwip
