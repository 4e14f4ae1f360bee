import Lwip.Core.Pppos
import Lwip.Verif.Assertions
import Lwip.Verif.Pbuf

/-!
# What the receiver of PPP frames holds

`pppos_input` allocates the first pbuf of a packet with its first data byte, but it accepts a frame
by its state and checksum alone. So it holds the two octets of the checksum, and a packet at all,
only if as many octets came behind the protocol field; the checksum may be taken for that field.
The octets of a frame are read off the characters on the line, and the state of the receiver
follows them.
-/

namespace Lwip.Ppp

open Outcome

variable {s : PpposPcb} {c : UInt8}

/-! ## Octets on the line -/

/-- The octets behind an octet that may be left out. -/
def dropField (field : UInt8) (octets : List UInt8) : List UInt8 :=
  if octets.head? = some field then octets.tail else octets

/-- The octets of a frame behind its protocol field, if that is complete. The address, the control
field and the first octet of the protocol may be left out; the last octet of the protocol is odd. -/
def dataOctets (octets : List UInt8) : Option (List UInt8) :=
  match dropField 0x03 (dropField 0xff octets) with
  | [] => none
  | c :: rest => if c.toNat % 2 = 1 then some rest else if rest = [] then none else some rest.tail

/-- Whether a pbuf is allocated for a data octet behind `n` others: the first one, and each one
behind a full pbuf. -/
def allocTried (n : Nat) : Bool := n = 0 || (pbufLinkHlen + 2 + n) % pbufPoolBufsize = 0

/-- The characters on the line so far. -/
structure Line where
  /-- Whether the last character announces an escaped one. -/
  escaped : Bool := false
  /-- The octets of the frame, none before the first flag or address. -/
  octets : Option (List UInt8) := none

/-- One more octet. Without memory for it, the frame is dropped and the next one is waited for. -/
def addOctet (alloc : Bool) (c : UInt8) : Option (List UInt8) → Option (List UInt8)
  | none => if c = 0xff then some [c] else none
  | some octets =>
    if (dataOctets octets).any (fun data => allocTried data.length) && !alloc then some []
    else some (octets ++ [c])

/-- One more character. A flag begins a frame; other special characters are dropped. -/
def Line.step (line : Line) (char : InChar) : Line :=
  if escapeP char.accm char.c then
    if char.c = 0x7d then { line with escaped := true }
    else if char.c = 0x7e then { octets := some [] }
    else line
  else { octets := addOctet char.alloc (if line.escaped then char.c ^^^ 0x20 else char.c)
           line.octets }

/-- The octets of the frame that is being received. -/
def packetOctets (input : List InChar) : Option (List UInt8) := (input.foldl Line.step {}).octets

/-! ## The header -/

/-- The octets of an unfinished header, with the state of the receiver. -/
inductive Header : List UInt8 → InState → Prop
  | nothing (state : InState) (fresh : state = .start ∨ state = .address) : Header [] state
  | address : Header [0xff] .control
  | control (address : List UInt8) (known : address ∈ [[], [0xff]]) :
      Header (address ++ [0x03]) .protocol1
  | protocol (front : List UInt8) (c : UInt8) (known : front ∈ [[], [0xff], [0x03], [0xff, 0x03]])
      (even : c.toNat % 2 = 0) : Header (front ++ [c]) .protocol2

variable {octets data : List UInt8} {state : InState}

theorem dropField_append {field : UInt8} (some' : octets ≠ []) (more : List UInt8) :
    dropField field (octets ++ more) = dropField field octets ++ more := by
  obtain ⟨c, rest, rfl⟩ := List.exists_cons_of_ne_nil some'
  unfold dropField
  by_cases here : some c = some field
  · rw [List.cons_append, List.head?_cons, List.head?_cons, if_pos here, if_pos here]
    rfl
  · rw [List.cons_append, List.head?_cons, List.head?_cons, if_neg here, if_neg here]
    rfl

/-- One more octet behind the protocol field. -/
theorem dataOctets_append (known : dataOctets octets = some data) (c : UInt8) :
    dataOctets (octets ++ [c]) = some (data ++ [c]) := by
  have some' : dropField 0x03 (dropField 0xff octets) ≠ [] := by
    intro empty
    simp [dataOctets, empty] at known
  have second : dropField 0xff octets ≠ [] := fun empty => some' (by rw [empty]; rfl)
  have first : octets ≠ [] := fun empty => second (by rw [empty]; rfl)
  unfold dataOctets at known ⊢
  rw [dropField_append first, dropField_append second]
  obtain ⟨d, rest, parts⟩ := List.exists_cons_of_ne_nil some'
  rw [parts] at known ⊢
  simp only [List.cons_append] at known ⊢
  split at known
  · rename_i odd
    rw [if_pos odd, Option.some.inj known]
  · rename_i even
    rw [if_neg even]
    split at known
    · cases known
    · rename_i more
      rw [if_neg (by simp), List.tail_append_of_ne_nil more, Option.some.inj known]

/-- An unfinished header has no data behind it. -/
theorem Header.dataOctets_eq (header : Header octets state) : dataOctets octets = none := by
  cases header with
  | nothing => rfl
  | address => rfl
  | control address known =>
    simp only [List.mem_cons, List.not_mem_nil, or_false] at known
    rcases known with rfl | rfl <;> rfl
  | protocol front c known even =>
    have other : c ≠ 0xff ∧ c ≠ 0x03 := by
      constructor <;> rintro rfl <;> cases even
    simp only [List.mem_cons, List.not_mem_nil, or_false] at known
    rcases known with rfl | rfl | rfl | rfl <;>
      simp [dataOctets, dropField, other.1, other.2, even]

/-- The protocol field is complete with its odd octet. -/
theorem dataOctets_odd {front : List UInt8} (known : front ∈ [[], [0xff], [0x03], [0xff, 0x03]])
    (odd : c.toNat % 2 = 1) (address : front = [] → c ≠ 0xff)
    (control : front = [] ∨ front = [0xff] → c ≠ 0x03) :
    dataOctets (front ++ [c]) = some [] := by
  simp only [List.mem_cons, List.not_mem_nil, or_false] at known
  rcases known with rfl | rfl | rfl | rfl <;> simp_all [dataOctets, dropField]

theorem Header.state_ne (header : Header octets state) : state ≠ .idle ∧ state ≠ .data := by
  cases header with
  | nothing _ fresh => rcases fresh with rfl | rfl <;> decide
  | address | control | protocol => decide

/-- One more octet of the header. -/
theorem ppposInputHeader_header (header : Header octets state) (here : s.inState = state)
    (c : UInt8) :
    Header (octets ++ [c]) (ppposInputHeader c s).inState ∨
      ((ppposInputHeader c s).inState = .data ∧ dataOctets (octets ++ [c]) = some []) := by
  have parity := Nat.mod_two_eq_zero_or_one c.toNat
  -- the first octet of the protocol field
  have protocol : ∀ front ∈ [[], [0xff], [0x03], [0xff, 0x03]], (front = [] → c ≠ 0xff) →
      (front = [] ∨ front = [0xff] → c ≠ 0x03) →
      (ppposInputHeader c s).inState = (if c.toNat % 2 = 1 then .data else .protocol2) →
      Header (front ++ [c]) (ppposInputHeader c s).inState ∨
        ((ppposInputHeader c s).inState = .data ∧ dataOctets (front ++ [c]) = some []) := by
    intro front known address control next
    cases parity with
    | inl even =>
      rw [if_neg (by omega)] at next
      rw [next]
      exact .inl (.protocol front c known even)
    | inr odd =>
      rw [if_pos odd] at next
      exact .inr ⟨next, dataOctets_odd known odd address control⟩
  cases header with
  | nothing _ fresh =>
    by_cases address : c = 0xff
    · have next : (ppposInputHeader c s).inState = .control := by
        rcases fresh with rfl | rfl <;> simp [ppposInputHeader, here, address]
      rw [next, address]
      exact .inl .address
    by_cases control : c = 0x03
    · have next : (ppposInputHeader c s).inState = .protocol1 := by
        rcases fresh with rfl | rfl <;> simp [ppposInputHeader, here, control]
      rw [next, control]
      exact .inl (.control [] (by simp))
    · refine protocol [] (by simp) (fun _ => address) (fun _ => control) ?_
      rcases fresh with rfl | rfl <;>
        simp [ppposInputHeader, here, address, control, apply_ite PpposPcb.inState]
  | address =>
    by_cases control : c = 0x03
    · have next : (ppposInputHeader c s).inState = .protocol1 := by
        simp [ppposInputHeader, here, control]
      rw [next, control]
      exact .inl (.control [0xff] (by simp))
    · refine protocol [0xff] (by simp) (fun none' => by cases none') (fun _ => control) ?_
      simp [ppposInputHeader, here, control, apply_ite PpposPcb.inState]
  | control address known =>
    have next : (ppposInputHeader c s).inState =
        if c.toNat % 2 = 1 then .data else .protocol2 := by
      simp [ppposInputHeader, here, apply_ite PpposPcb.inState]
    simp only [List.mem_cons, List.not_mem_nil, or_false] at known
    rcases known with rfl | rfl
    · exact protocol [0x03] (by simp) (by simp) (by simp) next
    · exact protocol [0xff, 0x03] (by simp) (by simp) (by simp) next
  | protocol front d known even =>
    right
    have other : d ≠ 0xff ∧ d ≠ 0x03 := by
      constructor <;> rintro rfl <;> cases even
    constructor
    · simp [ppposInputHeader, here]
    · simp only [List.mem_cons, List.not_mem_nil, or_false] at known
      rcases known with rfl | rfl | rfl | rfl <;>
        simp [dataOctets, dropField, other.1, other.2, even]

/-- What the header leaves alone. The checksum begins with the first octet. -/
theorem ppposInputHeader_same (c : UInt8) (s : PpposPcb) (begun : s.inState ≠ .idle) :
    (ppposInputHeader c s).inTail = s.inTail ∧ (ppposInputHeader c s).inEscaped = s.inEscaped ∧
      (ppposInputHeader c s).inState ≠ .start ∧
      (ppposInputHeader c s).inFcs = if s.inState = .start then pppInitfcs else s.inFcs := by
  unfold ppposInputHeader
  grind

/-! ## Pbufs -/

/-- Number of bytes of a chain by the lengths of its pbufs. -/
def lens (chain : Chain) : Nat := (chain.map Pbuf.len).sum

/-- Number of bytes in the pbufs of the packet. -/
def held (s : PpposPcb) : Nat := lens s.inHead + (s.inTail.map Pbuf.len).getD 0

/-- What the receiver holds: nothing before the first of `n` data octets, then all of them behind
the room for the link header and the protocol. All pbufs but the last one are full. -/
structure Holds (n : Nat) (s : PpposPcb) : Prop where
  null : s.inTail = none ↔ n = 0
  count : ∀ tail, s.inTail = some tail → lens s.inHead + tail.len = pbufLinkHlen + 2 + n
  full : ∀ tail, s.inTail = some tail → lens s.inHead % pbufPoolBufsize = 0 ∧ 0 < tail.len ∧
    tail.len ≤ pbufPoolBufsize

theorem linkTail_lens (inHead : Chain) (tail : Pbuf) :
    Ensures AnyError (linkTail inHead tail) fun chain => lens chain = lens inHead + tail.len := by
  unfold linkTail
  dsimp only
  split
  · rename_i empty
    rw [empty]
    simp [lens, Ensures]
  · rename_i some'
    refine .of_forall (fun chain done => ?_) fun _ _ => trivial
    rw [((pbufCat_ok_iff some' (List.cons_ne_nil _ _)).1 done).2]
    simp [lens, relink, Function.comp_def]

theorem ppposInputDrop_eq (s : PpposPcb) : Ensures AnyError (ppposInputDrop s) fun s' =>
    s' = { s with inHead := [], inTail := none } := by
  unfold ppposInputDrop
  refine ensures_skip fun _ => ensures_skip fun _ => ?_
  exact rfl

/-- What a data octet does to the receiver: it is held, or the packet is dropped. -/
def DataTaken (n : Nat) (alloc : Bool) (s s' : PpposPcb) : Prop :=
  s'.inEscaped = s.inEscaped ∧
    if allocTried n && !alloc then s'.inTail = none ∧ s'.inState = .start
    else Holds (n + 1) s' ∧ s'.inState = .data ∧ s'.inFcs = s.inFcs

theorem noFreePbufs_taken {n : Nat} (tried : allocTried n = true) {s' : PpposPcb}
    (same : s'.inEscaped = s.inEscaped) :
    Ensures AnyError (noFreePbufs s') (DataTaken n false s) :=
  (ppposInputDrop_eq s').bind fun s'' dropped => by
    rw [dropped]
    refine ⟨same, ?_⟩
    rw [tried]
    exact ⟨rfl, rfl⟩

theorem loadChar_taken {n : Nat} {alloc : Bool} {inHead : Chain} {tail : Pbuf}
    (data : s.inState = .data) (kept : (allocTried n && !alloc) = false)
    (before : lens inHead + tail.len = pbufLinkHlen + 2 + n)
    (full : lens inHead % pbufPoolBufsize = 0) (room : tail.len < pbufPoolBufsize) :
    DataTaken n alloc s (loadChar inHead tail c s) := by
  refine ⟨rfl, ?_⟩
  rw [kept, if_neg Bool.false_ne_true]
  refine ⟨⟨by simp [loadChar], ?_, ?_⟩, data, rfl⟩
  · rintro tail' ⟨⟩
    show lens inHead + (tail.len + 1) = pbufLinkHlen + 2 + (n + 1)
    omega
  · rintro tail' ⟨⟩
    exact ⟨full, Nat.succ_pos _, room⟩

/-- A pbuf is allocated exactly if there is none or the last one is full. -/
theorem Holds.tried_iff {n : Nat} {tail : Pbuf} (holds : Holds n s) (some' : s.inTail = some tail) :
    allocTried n = true ↔ tail.len = pbufPoolBufsize := by
  have positive : n ≠ 0 := fun zero => by simp [holds.null.2 zero] at some'
  have count := holds.count tail some'
  have full := holds.full tail some'
  simp only [allocTried, Bool.or_eq_true, decide_eq_true_eq, positive, false_or, ← count]
  unfold pbufPoolBufsize at full ⊢
  omega

theorem ppposInputData_taken {n : Nat} (alloc : Bool) (holds : Holds n s)
    (data : s.inState = .data) :
    Ensures AnyError (ppposInputData alloc c s) (DataTaken n alloc s) := by
  unfold ppposInputData
  split
  · rename_i none'
    have zero := holds.null.1 none'
    subst zero
    cases alloc with
    | true =>
      exact loadChar_taken data (by simp) rfl rfl
        (show pbufLinkHlen + 2 < pbufPoolBufsize by decide)
    | false => exact noFreePbufs_taken rfl rfl
  · rename_i tail some'
    have tried := holds.tried_iff some'
    have count := holds.count tail some'
    have full := holds.full tail some'
    split
    · rename_i room
      refine loadChar_taken data ?_ count full.1 (by omega)
      simp [show allocTried n = false by simpa using fun given => room (tried.1 given)]
    · rename_i filled
      have tried' : allocTried n = true := tried.2 (by simpa using filled)
      refine (linkTail_lens s.inHead tail).bind fun inHead same => ?_
      cases alloc with
      | true =>
        refine loadChar_taken data (by simp) ?_ ?_ (by decide)
        · rw [same]
          exact count
        · rw [same]
          have whole : tail.len = pbufPoolBufsize := by simpa using filled
          rw [whole, Nat.add_mod_right]
          exact full.1
      | false => exact noFreePbufs_taken tried' rfl

/-! ## The receiver follows the line -/

/-- The checksum over the octets of a frame. -/
def frameFcs (octets : List UInt8) : UInt16 := octets.foldl pppFcs pppInitfcs

/-- The receiver has received the octets of a frame. -/
inductive Received (s : PpposPcb) : Option (List UInt8) → Prop
  | idle (state : s.inState = .idle) (null : s.inTail = none) : Received s none
  | header (octets : List UInt8) (header : Header octets s.inState) (null : s.inTail = none)
      (fcs : s.inState ≠ .start → s.inFcs = frameFcs octets) : Received s (some octets)
  | data (octets data : List UInt8) (known : dataOctets octets = some data)
      (state : s.inState = .data) (holds : Holds data.length s)
      (fcs : s.inFcs = frameFcs octets) : Received s (some octets)

/-- The receiver has received the characters on a line. -/
structure Follows (line : Line) (s : PpposPcb) : Prop where
  escaped : s.inEscaped = line.escaped
  received : Received s line.octets

variable {line : Line}

/-- Nothing is held before the data. -/
theorem Received.null {octets : Option (List UInt8)} (received : Received s octets)
    (early : s.inState ≠ .data) : s.inTail = none := by
  cases received with
  | idle _ null | header _ _ null _ => exact null
  | data _ _ _ state _ _ => exact absurd state early

theorem Received.escape {octets : Option (List UInt8)} (received : Received s octets)
    (escaped : Bool) : Received { s with inEscaped := escaped } octets := by
  cases received with
  | idle state null => exact .idle state null
  | header octets header null fcs => exact .header octets header null fcs
  | data octets data known state holds fcs =>
    exact .data octets data known state ⟨holds.null, holds.count, holds.full⟩ fcs

theorem frameFcs_append (octets : List UInt8) (c : UInt8) :
    frameFcs (octets ++ [c]) = pppFcs (frameFcs octets) c := by
  rw [frameFcs, List.foldl_append]
  rfl

/-- One more octet of the header. -/
theorem Received.header_step (header : Header octets s.inState) (null : s.inTail = none)
    (fcs : s.inState ≠ .start → s.inFcs = frameFcs octets) (c : UInt8) :
    Received { ppposInputHeader c s with inFcs := pppFcs (ppposInputHeader c s).inFcs c }
      (some (octets ++ [c])) := by
  obtain ⟨tail, _, begun, sum⟩ := ppposInputHeader_same c s header.state_ne.1
  have total : pppFcs (ppposInputHeader c s).inFcs c = frameFcs (octets ++ [c]) := by
    rw [frameFcs_append, sum]
    split
    · rename_i start
      rw [start] at header
      cases header
      rfl
    · rename_i other
      rw [fcs other]
  cases ppposInputHeader_header header rfl c with
  | inl more => exact .header _ more (tail.trans null) fun _ => total
  | inr done =>
    refine .data _ [] done.2 done.1 ⟨?_, ?_, ?_⟩ total
    · exact ⟨fun _ => rfl, fun _ => tail.trans null⟩
    · intro tail' some'
      exact absurd (some'.symm.trans (tail.trans null)) (Option.some_ne_none _)
    · intro tail' some'
      exact absurd (some'.symm.trans (tail.trans null)) (Option.some_ne_none _)

/-- A character that is not special. -/
theorem ppposInputPlain_follows (follows : Follows line s) (alloc : Bool) (c : UInt8) :
    Ensures AnyError (ppposInputPlain alloc c s) (Follows
      { octets := addOctet alloc (if line.escaped then c ^^^ 0x20 else c) line.octets }) := by
  unfold ppposInputPlain
  rw [follows.escaped]
  generalize (if line.escaped then c ^^^ 0x20 else c) = c
  have received := follows.received.escape false
  have normal : ({ s with inEscaped := false } : PpposPcb).inEscaped = false := rfl
  generalize { s with inEscaped := false } = s at received normal
  generalize line.octets = octets at received
  dsimp only
  cases received with
  | idle state null =>
    rw [if_neg (by simp [state]), addOctet]
    by_cases address : c = 0xff
    · have next : ppposInputHeader c s = { s with inFcs := pppInitfcs, inState := .control } := by
        simp [ppposInputHeader, state, address]
      rw [next, if_pos address, address]
      exact ⟨normal, .header [0xff] .address null fun _ => rfl⟩
    · have next : ppposInputHeader c s = s := by simp [ppposInputHeader, state, address]
      rw [next, if_neg address]
      exact ⟨normal, .idle state null⟩
  | header octets header null fcs =>
    rw [if_neg header.state_ne.2]
    have same := ppposInputHeader_same c s header.state_ne.1
    refine ⟨same.2.1.trans normal, ?_⟩
    rw [addOctet, header.dataOctets_eq]
    exact .header_step header null fcs c
  | data octets data known state holds fcs =>
    rw [if_pos state]
    refine (ppposInputData_taken alloc holds state).bind fun s' taken => ?_
    obtain ⟨escaped, taken⟩ := taken
    refine ⟨escaped.trans normal, ?_⟩
    simp only [addOctet, known, Option.any_some]
    split at taken
    · rename_i dropped
      rw [if_pos dropped]
      refine .header [] ?_ taken.1 ?_
      · exact .nothing _ (.inl taken.2)
      · exact fun other => absurd taken.2 other
    · rename_i kept
      rw [if_neg kept]
      refine .data _ _ (dataOctets_append known c) taken.2.1 ?_ ?_
      · rw [List.length_append, List.length_singleton]
        exact ⟨taken.1.null, taken.1.count, taken.1.full⟩
      · rw [frameFcs_append, ← fcs, ← taken.2.2]

/-- The receiver is prepared for a new packet. -/
theorem nextPacket_follows (null : s.inTail = none) :
    Follows { octets := some [] } (nextPacket s) :=
  ⟨rfl, .header [] (.nothing _ (.inr rfl)) null fun _ => rfl⟩

theorem ppposInputFlag_follows (follows : Follows line s) :
    Ensures AnyError (ppposInputFlag s) fun result =>
      Follows { octets := some [] } result.2 := by
  unfold ppposInputFlag
  split
  · rename_i early
    exact nextPacket_follows (follows.received.null fun data => by simp [data] at early)
  split
  · exact ensures_skip fun _ => nextPacket_follows rfl
  · exact (ppposInputDrop_eq s).bind fun s' dropped => by
      rw [dropped]
      exact nextPacket_follows rfl

/-- `pppos_input` follows the characters on the line. -/
theorem ppposInput_follows (follows : Follows line s) (char : InChar) :
    Ensures AnyError ((ppposInput s char).map Prod.snd) (Follows (line.step char)) := by
  refine Ensures.map ?_
  unfold ppposInput Line.step
  by_cases special : escapeP char.accm char.c = true
  · rw [if_neg (by simp [special]), if_pos special]
    split
    · exact ⟨rfl, follows.received.escape true⟩
    split
    · exact ppposInputFlag_follows follows
    · exact follows
  · rw [if_pos (by simp [special]), if_neg special]
    exact (ppposInputPlain_follows follows char.alloc char.c).bind fun s' given => given

/-- A run over characters. -/
theorem ppposInput_run (follows : Follows line s) (input : List InChar) :
    Ensures AnyError (input.foldlM (fun s char => (ppposInput s char).map Prod.snd) s)
      (Follows (input.foldl Line.step line)) := by
  induction input generalizing line s with
  | nil => exact follows
  | cons char input ih =>
    rw [List.foldlM_cons]
    exact (ppposInput_follows follows char).bind fun s' next => ih next

/-- Whatever is received and whichever allocations fail: if a flag finds a good checksum behind the
protocol field, then the octets of the frame have this checksum, and the receiver holds a packet
with two bytes behind the protocol field exactly if two octets have come behind it. If none has
come, the flag accesses `in_tail`, which is `NULL`. -/
theorem pppos_holds_checksum_iff (input : List InChar) (s : PpposPcb)
    (run : input.foldlM (fun s char => (ppposInput s char).map Prod.snd) ppposConnect = .ok s)
    (data : s.inState = .data) (good : s.inFcs = pppGoodfcs) (flag : InChar)
    (special : escapeP flag.accm flag.c = true) (closing : flag.c = 0x7e) :
    ∃ octets behind, packetOctets input = some octets ∧ dataOctets octets = some behind ∧
      frameFcs octets = pppGoodfcs ∧
      ((s.inTail ≠ none ∧ pbufLinkHlen + 2 + 2 ≤ held s) ↔ 2 ≤ behind.length) ∧
      (behind = [] → ppposInput s flag = .error "in_tail") := by
  have connected : Follows {} ppposConnect := ⟨rfl, .idle rfl rfl⟩
  have follows := (ppposInput_run connected input).of_ok run
  have received := follows.received
  unfold packetOctets
  generalize (input.foldl Line.step {}).octets = octets at received ⊢
  cases received with
  | idle state _ => exact absurd (state.symm.trans data) (by decide)
  | header _ header _ _ => exact absurd data header.state_ne.2
  | data octets behind known _ holds fcs =>
    refine ⟨octets, behind, rfl, known, fcs.symm.trans good, ?_, ?_⟩
    · cases tail : s.inTail with
      | none =>
        have zero := holds.null.1 tail
        simp [zero]
      | some last =>
        have count := holds.count last tail
        rw [held, tail]
        simp only [Option.map_some, Option.getD_some, count]
        simp
    · intro empty
      have null : s.inTail = none := holds.null.2 (by rw [empty]; rfl)
      rw [ppposInput, if_neg (by simp [special]), if_neg (by simp [closing]), if_pos closing,
        ppposInputFlag, if_neg (by simp [data]), if_pos ⟨data, good⟩, trimFcs, null]
      rfl

/-- A data set for the theorem: a frame with the protocol `0x21`, one octet and its checksum. -/
theorem pppos_holds_checksum_frame :
    ∃ s, ([0x7e, 0x21, 0x45, 0x05, 0x20].map (InChar.mk connectAccm true)).foldlM
      (fun s char => (ppposInput s char).map Prod.snd) ppposConnect = .ok s ∧
      s.inState = .data ∧ s.inFcs = pppGoodfcs ∧ s.inTail ≠ none ∧
      pbufLinkHlen + 2 + 2 ≤ held s := by
  obtain ⟨s, run, data, good⟩ :
      ∃ s, ([0x7e, 0x21, 0x45, 0x05, 0x20].map (InChar.mk connectAccm true)).foldlM
        (fun s char => (ppposInput s char).map Prod.snd) ppposConnect = .ok s ∧
        s.inState = .data ∧ s.inFcs = pppGoodfcs := ⟨_, rfl, rfl, by decide +kernel⟩
  obtain ⟨octets, behind, received, known, _, holds, _⟩ :=
    pppos_holds_checksum_iff _ s run data good ⟨connectAccm, true, 0x7e⟩ (by decide) rfl
  have three : behind = [0x45, 0x05, 0x20] := by
    have octets' : octets = [0x21, 0x45, 0x05, 0x20] :=
      (Option.some.inj received).symm.trans (by decide +kernel)
    rw [octets'] at known
    exact (Option.some.inj known).symm
  exact ⟨s, run, data, good, holds.2 (by rw [three]; decide)⟩

/-- A flag and two zero octets, which are the checksum of no characters at all, are taken for the
protocol field; the next flag accesses `in_tail`, which is `NULL`. -/
theorem pppos_accepts_without_packet :
    ∃ s, [0x7e, 0x00, 0x00].foldlM (fun s c =>
        (ppposInput s ⟨connectAccm, true, c⟩).map Prod.snd) ppposConnect = .ok s ∧
      s.inState = .data ∧ s.inFcs = pppGoodfcs ∧ s.inTail = none ∧
      ppposInput s ⟨connectAccm, true, 0x7e⟩ = .error "in_tail" :=
  ⟨{ inFcs := 0xf0b8, inState := .data }, by decide +kernel⟩

end Lwip.Ppp
