import Lwip.Base.Feed
import Lwip.Verif.Assertions
import Lwip.Verif.Mqtt
import Mathlib.Data.Vector.Defs

/-!
# A stream of MQTT packets

What `mqtt_parse_incoming` does with received data is what a machine does that takes one byte
after the other: the local variables of the parser, which it builds up anew in each call, are
determined by the bytes of the message that the client holds. Packets are therefore handed to
`mqtt_message_received` in the same parts, however the stream is cut into pbufs.
-/

namespace Lwip.Mqtt

open Outcome Feed
open List hiding Vector

variable {seen next : List UInt8}

/-! ## What a byte does -/

/-- Number of bytes of the remaining length of the message that is being received, if its fixed
header is complete. -/
def heldCount (client : MqttClient) : Option Nat :=
  [1, 2, 3, 4].find? fun k => decide (k < client.msgIdx ∧ (rxByte client k).toNat < 128)

section Bytes

variable {τ : Type} (receive : MqttReceiver τ)

/-- A byte of the fixed header arrives. -/
def feedHeader (client : MqttClient) (x : UInt8) : Asserting (Nat × MqttClient × List τ) :=
  let stored := rxStore client client.msgIdx [x]
  if 1 ≤ client.msgIdx ∧ x.toNat < 128 ∧ remainingValue stored client.msgIdx = 0 then do
    let (_, client', calls) ← receive stored
      { fixedHdrIdx := client.msgIdx + 1, length := 0, remainingLength := 0 }
    .ok (mqttConnectAccepted, { client' with msgIdx := 0 }, calls)
  else .ok (mqttConnectAccepted, stored, [])

/-- Number of bytes that a message is longer than `received` bytes, if its remaining length has
`count` bytes. -/
def missingBehind (count : Nat) (client : MqttClient) (received : Nat) : Nat :=
  count + 1 + remainingValue client count - received

/-- Bytes of the rest of a message arrive, of which not more are taken than are missing and than
fit into the buffer. -/
def copyBody (count : Nat) (client : MqttClient) (data : List UInt8) :
    Asserting (Nat × MqttClient × List τ) :=
  let start := bodyStart (count + 1) client
  let stored := rxStore client start data
  let missing := missingBehind count client (client.msgIdx + data.length)
  if missing = 0 ∨ start + data.length = 128 then do
    let (res, client', calls) ← receive stored
      { fixedHdrIdx := count + 1, length := start + data.length - (count + 1)
        remainingLength := missing }
    if res ≠ mqttConnectAccepted then .ok (res, client', calls)
    else .ok (mqttConnectAccepted, if missing = 0 then { client' with msgIdx := 0 } else client',
      calls)
  else .ok (mqttConnectAccepted, stored, [])

/-- A byte arrives. -/
def feed (client : MqttClient) (x : UInt8) : Asserting (Nat × MqttClient × List τ) :=
  match heldCount client with
  | none => feedHeader receive client x
  | some count => copyBody receive count client [x]

end Bytes

/-- A header that is not complete is not taken for one. -/
theorem heldCount_header {client : MqttClient} (continuing : Continuing client client.msgIdx) :
    heldCount client = none := by
  unfold heldCount
  rw [find?_eq_none]
  intro k member complete
  have positive : 1 ≤ k := by
    simp only [mem_cons, not_mem_nil, or_false] at member
    omega
  have ends := of_decide_eq_true complete
  have more := continuing k positive ends.1
  omega

theorem heldCount_body {client : MqttClient} {count : Nat} (held : HeaderHeld client count)
    (begun : count + 1 ≤ client.msgIdx) : heldCount client = some count := by
  have ends : decide (count < client.msgIdx ∧ (rxByte client count).toNat < 128) = true :=
    decide_eq_true ⟨begun, held.last⟩
  have earlier : ∀ k, 1 ≤ k → k < count →
      decide (k < client.msgIdx ∧ (rxByte client k).toNat < 128) = false := by
    intro k positive before
    have more := held.continuing k positive before
    exact decide_eq_false fun both => by omega
  have positive := held.positive
  have few := held.few
  have four : count = 1 ∨ count = 2 ∨ count = 3 ∨ count = 4 := by omega
  unfold heldCount
  rcases four with one | two | three | four
  · rw [one] at ends ⊢
    simp only [find?_cons, ends]
  · rw [two] at ends earlier ⊢
    simp only [find?_cons, ends, earlier 1 (by omega) (by omega)]
  · rw [three] at ends earlier ⊢
    simp only [find?_cons, ends, earlier 1 (by omega) (by omega), earlier 2 (by omega) (by omega)]
  · rw [four] at ends earlier ⊢
    simp only [find?_cons, ends, earlier 1 (by omega) (by omega),
      earlier 2 (by omega) (by omega), earlier 3 (by omega) (by omega)]

/-! ## The rest of a message -/

theorem rxFill_append (buffer : Vector UInt8 mqttVarHeaderBufferLen) (idx : Nat)
    (data more : List UInt8) :
    rxFill buffer idx (data ++ more) =
      rxFill (rxFill buffer idx data) (idx + data.length) more := by
  induction data generalizing buffer idx with
  | nil => rfl
  | cons x data ih =>
    rw [cons_append, rxFill, rxFill, ih, length_cons, Nat.add_assoc, Nat.add_comm 1]

theorem rxStore_append (client : MqttClient) (idx : Nat) (data more : List UInt8) :
    rxStore client idx (data ++ more) =
      rxStore (rxStore client idx data) (idx + data.length) more := by
  unfold rxStore
  rw [rxFill_append, length_append, Nat.add_assoc]

/-- A message whose rest arrives: the header is complete, and something is missing. -/
structure Filling (count : Nat) (client : MqttClient) : Prop where
  held : HeaderHeld client count
  begun : count + 1 ≤ client.msgIdx

section Filling

variable {count : Nat} {client : MqttClient} {data more : List UInt8}

/-- The rest of a message goes behind its header. -/
theorem Filling.start (filling : Filling count client) :
    count + 1 ≤ bodyStart (count + 1) client ∧ bodyStart (count + 1) client < 128 := by
  have few := filling.held.few
  have range := bodyStart_range (show count + 1 ≤ 5 by omega) filling.begun
  exact ⟨range.1, range.2.1⟩

theorem Filling.header (filling : Filling count client) (data : List UInt8) {i : Nat}
    (inHeader : i ≤ count) :
    rxByte (rxStore client (bodyStart (count + 1) client) data) i = rxByte client i := by
  have start := filling.start
  exact rxByte_fill client _ data (by omega)

/-- The message goes on. -/
theorem Filling.store (filling : Filling count client) (data : List UInt8) :
    Filling count (rxStore client (bodyStart (count + 1) client) data) where
  held := filling.held.congr fun _ => filling.header data
  begun := Nat.le_add_right_of_le filling.begun

/-- The next bytes go behind the ones just stored. -/
theorem Filling.start_store (filling : Filling count client)
    (room : bodyStart (count + 1) client + data.length < 128) :
    bodyStart (count + 1) (rxStore client (bodyStart (count + 1) client) data) =
      bodyStart (count + 1) client + data.length := by
  have begun := filling.begun
  have shifted : client.msgIdx + data.length - (count + 1) =
      client.msgIdx - (count + 1) + data.length := by omega
  unfold bodyStart at room ⊢
  change (client.msgIdx + data.length - (count + 1)) % (128 - (count + 1)) + (count + 1) = _
  rw [shifted, ← Nat.mod_add_mod, Nat.mod_eq_of_lt (by omega)]
  omega

variable {τ : Type} {receive : MqttReceiver τ}

/-- Bytes that neither complete the message nor fill the buffer are only stored. -/
theorem copyBody_quiet (missing : missingBehind count client (client.msgIdx + data.length) ≠ 0)
    (room : bodyStart (count + 1) client + data.length < 128) :
    copyBody receive count client data =
      .ok (mqttConnectAccepted, rxStore client (bodyStart (count + 1) client) data, []) := by
  unfold copyBody
  rw [if_neg fun either => either.elim missing (Nat.ne_of_lt room)]

theorem copyBody_append (filling : Filling count client) (some' : more ≠ [])
    (missing : client.msgIdx + (data ++ more).length ≤ count + 1 + remainingValue client count)
    (room : bodyStart (count + 1) client + (data ++ more).length ≤ 128) :
    copyBody receive count client (data ++ more) =
      andThen mqttConnectAccepted (copyBody receive count client data) fun client' =>
        copyBody receive count client' more := by
  have positive := length_pos_iff.mpr some'
  rw [length_append] at missing room
  have quiet : copyBody receive count client data = _ :=
    copyBody_quiet (by unfold missingBehind; omega) (by omega)
  rw [quiet, andThen_start]
  have value : remainingValue (rxStore client (bodyStart (count + 1) client) data) count =
      remainingValue client count := remainingValue_congr fun _ => filling.header data
  have received : (rxStore client (bodyStart (count + 1) client) data).msgIdx + more.length =
      client.msgIdx + (data ++ more).length := by
    rw [length_append, ← Nat.add_assoc]
    rfl
  unfold copyBody missingBehind
  dsimp only
  rw [filling.start_store (by omega), ← rxStore_append, value, received, length_append,
    Nat.add_assoc (bodyStart (count + 1) client)]

/-- Bytes that arrive together do what they do one after the other. -/
theorem feedAll_body (filling : Filling count client) (some' : data ≠ [])
    (missing : client.msgIdx + data.length ≤ count + 1 + remainingValue client count)
    (room : bodyStart (count + 1) client + data.length ≤ 128) :
    feedAll mqttConnectAccepted (feed receive) client data =
      copyBody receive count client data := by
  have first (client : MqttClient) (filling : Filling count client) (x : UInt8) :
      feed receive client x = copyBody receive count client [x] := by
    unfold feed
    rw [heldCount_body filling.held filling.begun]
  induction data generalizing client with
  | nil => exact absurd rfl some'
  | cons x data ih =>
    cases data with
    | nil => rw [feedAll_singleton, first client filling]
    | cons y data =>
      have whole : copyBody receive count client ([x] ++ y :: data) = _ :=
        copyBody_append filling (cons_ne_nil y data) missing room
      rw [feedAll, first client filling]
      refine Eq.trans (andThen_congr ?_) whole.symm
      intro client' log stored
      simp only [length_cons] at missing room
      have quiet : copyBody receive count client [x] = _ :=
        copyBody_quiet (by unfold missingBehind; simp only [length_singleton]; omega)
          (by simp only [length_singleton]; omega)
      rw [quiet] at stored
      cases stored
      apply ih (filling.store [x]) (cons_ne_nil y data)
      · rw [remainingValue_congr fun _ => filling.header [x]]
        change client.msgIdx + 1 + (data.length + 1) ≤ _
        omega
      · rw [filling.start_store (by simp only [length_singleton]; omega)]
        simp only [length_nil, length_cons]
        omega

end Filling

/-! ## Packets -/

/-- The bytes of a remaining length: one to four, of which all but the last one have the highest
bit set. -/
structure IsLength (digits : List UInt8) : Prop where
  few : digits.length ≤ 4
  ends : ∃ init last, digits = init ++ [last] ∧ last.toNat < 128 ∧ ∀ d ∈ init, 128 ≤ d.toNat

/-- The remaining length that some bytes encode. -/
def lengthValue : List UInt8 → Nat
  | [] => 0
  | d :: more => d.toNat % 128 + 128 * lengthValue more

/-- MQTT packets: each has a byte for its type, the bytes of its remaining length and as many
bytes as they say, and meets a condition. -/
inductive PacketsWith (fits : UInt8 → List UInt8 → List UInt8 → Prop) : List UInt8 → Prop
  | nil : PacketsWith fits []
  | packet (kind : UInt8) (digits body rest : List UInt8) (isLength : IsLength digits)
      (size : body.length = lengthValue digits) (holds : fits kind digits body)
      (stream : PacketsWith fits rest) : PacketsWith fits (kind :: (digits ++ (body ++ rest)))

/-- Any MQTT packets. -/
abbrev PacketStream : List UInt8 → Prop := PacketsWith fun _ _ _ => True

/-- One MQTT packet. -/
def IsPacket (bytes : List UInt8) : Prop :=
  ∃ kind digits body, IsLength digits ∧ body.length = lengthValue digits ∧
    bytes = kind :: (digits ++ body)

/-- The last byte of a remaining length has the highest weight. -/
theorem lengthValue_concat (digits : List UInt8) (d : UInt8) :
    lengthValue (digits ++ [d]) = lengthValue digits + d.toNat % 128 * 128 ^ digits.length := by
  induction digits with
  | nil => simp [lengthValue]
  | cons e digits ih =>
    rw [cons_append, lengthValue, ih, lengthValue, length_cons, Nat.pow_succ, Nat.mul_add,
      Nat.mul_left_comm 128, Nat.mul_comm 128 (128 ^ digits.length), Nat.add_assoc]

/-- Bytes that are in the buffer from an index on. -/
def BytesHeld (client : MqttClient) (start : Nat) (bytes : List UInt8) : Prop :=
  ∀ i c, bytes[i]? = some c → rxByte client (start + i) = c

/-- The value of the bytes of a remaining length that the client has received. -/
theorem BytesHeld.value {client : MqttClient} {digits : List UInt8}
    (held : BytesHeld client 1 digits) :
    remainingValue client digits.length = lengthValue digits := by
  induction digits using List.reverseRecOn with
  | nil => rfl
  | append_singleton digits d ih =>
    have before : BytesHeld client 1 digits := by
      intro i e found
      apply held i e
      rw [getElem?_append_left (List.getElem?_eq_some_iff.1 found).1]
      exact found
    have last := held digits.length d getElem?_concat_length
    rw [Nat.add_comm] at last
    rw [length_append, length_singleton, remainingValue, ih before, last, lengthValue_concat]

/-- Bytes of a remaining length that all have a successor. -/
theorem BytesHeld.continuing {client : MqttClient} {digits : List UInt8}
    (held : BytesHeld client 1 digits) (more : ∀ d ∈ digits, 128 ≤ d.toNat) :
    Continuing client (digits.length + 1) := by
  intro i positive inside
  have bound : i - 1 < digits.length := by omega
  have byte := held (i - 1) digits[i - 1] (getElem?_eq_getElem bound)
  rw [Nat.add_sub_cancel' positive] at byte
  rw [byte]
  exact more _ (getElem_mem bound)

/-- What follows the bytes of a message that the client has received, where packets meet a
condition. -/
inductive Expects (fits : UInt8 → List UInt8 → List UInt8 → Prop) (client : MqttClient) :
    List UInt8 → Prop
  | packet {stream : List UInt8} (idle : client.msgIdx = 0) (packets : PacketsWith fits stream) :
      Expects fits client stream
  | digits (seen next body rest : List UInt8) (received : client.msgIdx = seen.length + 1)
      (held : BytesHeld client 1 seen) (isLength : IsLength (seen ++ next)) (some' : next ≠ [])
      (size : body.length = lengthValue (seen ++ next))
      (holds : fits (rxByte client 0) (seen ++ next) body) (packets : PacketsWith fits rest) :
      Expects fits client (next ++ (body ++ rest))
  | body (digits front body rest : List UInt8) (filling : Filling digits.length client)
      (received : client.msgIdx = digits.length + 1 + front.length)
      (held : client.msgIdx < 128 → BytesHeld client (digits.length + 1) front)
      (size : (front ++ body).length = remainingValue client digits.length) (some' : body ≠ [])
      (holds : fits (rxByte client 0) digits (front ++ body)) (packets : PacketsWith fits rest) :
      Expects fits client (body ++ rest)

variable {fits : UInt8 → List UInt8 → List UInt8 → Prop}

/-- Bytes of a remaining length in front of others have a successor. -/
theorem IsLength.continues (isLength : IsLength (seen ++ next)) (some' : next ≠ []) :
    ∀ d ∈ seen, 128 ≤ d.toNat := by
  obtain ⟨init, last, whole, _, more⟩ := isLength.ends
  intro d member
  apply more d
  have before : seen <+: init := by
    have split : next = next.dropLast ++ [next.getLast some'] :=
      (dropLast_append_getLast some').symm
    rw [split, ← append_assoc] at whole
    rw [← (append_inj' whole rfl).1]
    exact prefix_append _ _
  exact before.subset member

/-- Of a remaining length that is not complete, at most three bytes have been received. -/
theorem IsLength.seen_lt (isLength : IsLength (seen ++ next)) (some' : next ≠ []) :
    seen.length < 4 := by
  have few := isLength.few
  have positive := length_pos_iff.mpr some'
  rw [length_append] at few
  omega

/-- The buffer holds the message that is being received. -/
theorem Expects.toHeld {client : MqttClient} {stream : List UInt8}
    (expects : Expects fits client stream) : Held client := by
  cases expects with
  | packet idle packets =>
    refine .header (by omega) ?_
    intro i positive inside
    omega
  | digits seen next body rest received held isLength some' size holds packets =>
    have few := isLength.seen_lt some'
    refine .header (by omega) ?_
    rw [received]
    exact held.continuing (isLength.continues some')
  | body digits front body rest filling received held size some' holds packets =>
    have positive := length_pos_iff.mpr some'
    rw [length_append] at size
    exact .body digits.length filling.held filling.begun (by omega)

/-- A header of which all bytes so far have a successor has less than five bytes. -/
theorem Expects.few {client : MqttClient} {stream : List UInt8}
    (expects : Expects fits client stream) (continuing : Continuing client client.msgIdx) :
    client.msgIdx < 5 := by
  cases expects with
  | packet idle packets => omega
  | digits seen next body rest received held isLength some' size holds packets =>
    have few := isLength.seen_lt some'
    omega
  | body digits front body rest filling received held size some' holds packets =>
    have more := continuing digits.length filling.held.positive filling.begun
    have last := filling.held.last
    omega

/-- What a receiver must leave alone: the number of bytes received and the fixed header. -/
def KeepsMessage {τ : Type} (receive : MqttReceiver τ) : Prop :=
  ∀ client part status client' calls,
    receive client part = .ok (status, client', calls) → SameMessage part client client'

section Expecting

variable {τ : Type} {receive : MqttReceiver τ} {client client' : MqttClient} {x : UInt8}
  {stream : List UInt8} {log : List τ}

theorem rxByte_store (client : MqttClient) (x : UInt8) {idx : Nat} (i : Nat)
    (inside : idx < 128) :
    rxByte (rxStore client idx [x]) i = if idx = i then x else rxByte client i :=
  rxByte_set client idx i x inside

/-- Bytes of the buffer when another one has been put behind them. -/
theorem BytesHeld.store {start idx : Nat} (held : BytesHeld client start seen)
    (place : idx = start + seen.length) (inside : idx < 128) (x : UInt8) :
    BytesHeld (rxStore client idx [x]) start (seen ++ [x]) := by
  intro i c found
  rw [rxByte_store client x _ inside, place]
  by_cases last : i = seen.length
  · rw [last, getElem?_concat_length] at found
    rw [if_pos (by omega)]
    exact Option.some.inj found
  · have bound := (List.getElem?_eq_some_iff.1 found).1
    rw [length_append, length_singleton] at bound
    rw [getElem?_append_left (by omega)] at found
    rw [if_neg (by omega)]
    exact held i c found

/-- A byte of the fixed header. -/
theorem feed_header (continuing : Continuing client client.msgIdx) :
    feed receive client x = feedHeader receive client x := by
  unfold feed
  rw [heldCount_header continuing]

/-- The first byte of a packet. -/
theorem Expects.feed_kind (idle : client.msgIdx = 0) (packets : PacketsWith fits (x :: stream))
    (fed : feed receive client x = .ok (mqttConnectAccepted, client', log)) :
    Expects fits client' stream := by
  rw [feed_header fun i positive inside => by omega, feedHeader, if_neg (by omega)] at fed
  cases fed
  cases packets with
  | packet kind digits body rest isLength size holds packets =>
    obtain ⟨init, last, whole, _⟩ := isLength.ends
    have type : rxByte (rxStore client client.msgIdx [x]) 0 = x := by
      rw [rxByte_store client x 0 (by omega), if_pos idle]
    refine Expects.digits [] digits body rest ?_ nofun isLength ?_ size (by rwa [type]) packets
    · change client.msgIdx + 1 = 1
      rw [idle]
    · rw [whole]
      exact append_ne_nil_of_right_ne_nil init (cons_ne_nil last [])

/-- A byte of the remaining length. -/
theorem Expects.feed_digit {body rest : List UInt8} (received : client.msgIdx = seen.length + 1)
    (held : BytesHeld client 1 seen) (isLength : IsLength (seen ++ x :: next))
    (size : body.length = lengthValue (seen ++ x :: next))
    (holds : fits (rxByte client 0) (seen ++ x :: next) body) (packets : PacketsWith fits rest)
    (fed : feed receive client x = .ok (mqttConnectAccepted, client', log)) :
    Expects fits client' (next ++ (body ++ rest)) := by
  have few := isLength.seen_lt (cons_ne_nil x next)
  have continuing := held.continuing (isLength.continues (cons_ne_nil x next))
  have inside : client.msgIdx < 128 := by omega
  have stored := held.store (by omega) inside x
  have regroup : seen ++ x :: next = seen ++ [x] ++ next := by simp
  have same : ∀ i, i ≤ seen.length →
      rxByte (rxStore client client.msgIdx [x]) i = rxByte client i := by
    intro i low
    rw [rxByte_store client x i inside, if_neg (by omega)]
  rw [regroup] at isLength size holds
  rw [← same 0 (Nat.zero_le _)] at holds
  rw [feed_header (by rw [received]; exact continuing), feedHeader] at fed
  cases next with
  | cons y next =>
    have more := isLength.continues (cons_ne_nil y next) x (by simp)
    rw [if_neg (by omega)] at fed
    cases fed
    refine Expects.digits (seen ++ [x]) (y :: next) body rest ?_ stored isLength
      (cons_ne_nil y next) size holds packets
    change client.msgIdx + 1 = _
    rw [received, length_append, length_singleton]
  | nil =>
    rw [append_nil] at isLength size holds
    obtain ⟨init, last, whole, small, _⟩ := isLength.ends
    have isLast := append_inj' whole rfl
    rw [← singleton_inj.1 isLast.2] at small
    have count : (seen ++ [x]).length = client.msgIdx := by
      rw [received, length_append, length_singleton]
    have value := stored.value
    rw [count, ← size] at value
    by_cases empty : body.length = 0
    · rw [if_pos ⟨by omega, small, by omega⟩] at fed
      obtain ⟨result, _, returned⟩ := bind_ok.1 fed
      cases returned
      rw [length_eq_zero_iff.1 empty]
      exact .packet rfl packets
    rw [if_neg (by omega)] at fed
    cases fed
    have ends : rxByte (rxStore client client.msgIdx [x]) client.msgIdx = x := by
      rw [rxByte_store client x _ inside, if_pos rfl]
    have filling : Filling (seen ++ [x]).length (rxStore client client.msgIdx [x]) := by
      rw [count]
      refine ⟨⟨by omega, by omega, ?_, ?_, by omega⟩, Nat.le_refl _⟩
      · intro i positive before
        rw [same i (by omega)]
        exact continuing i positive (by omega)
      · rw [ends]
        exact small
    refine .body (seen ++ [x]) [] body rest filling ?_ (fun _ => nofun) ?_ ?_ holds packets
    · rw [count]
      rfl
    · rw [count, value]
      rfl
    · intro none
      rw [none] at empty
      exact empty rfl

/-- A byte of the rest of a packet. -/
theorem Expects.feed_body {digits front body rest : List UInt8} (keeps : KeepsMessage receive)
    (filling : Filling digits.length client)
    (received : client.msgIdx = digits.length + 1 + front.length)
    (held : client.msgIdx < 128 → BytesHeld client (digits.length + 1) front)
    (size : (front ++ x :: body).length = remainingValue client digits.length)
    (holds : fits (rxByte client 0) digits (front ++ x :: body)) (packets : PacketsWith fits rest)
    (fed : feed receive client x = .ok (mqttConnectAccepted, client', log)) :
    Expects fits client' (body ++ rest) := by
  have regroup : front ++ x :: body = front ++ [x] ++ body := by simp
  rw [feed, heldCount_body filling.held filling.begun] at fed
  have missing : missingBehind digits.length client (client.msgIdx + [x].length) =
      body.length := by
    rw [length_append, length_cons] at size
    unfold missingBehind
    rw [length_singleton]
    omega
  -- a message that goes on is still being copied, whatever is done with its part
  have still : ∀ client'', body.length ≠ 0 →
      (∀ i, i ≤ digits.length → rxByte client'' i =
        rxByte (rxStore client (bodyStart (digits.length + 1) client) [x]) i) →
      client''.msgIdx = client.msgIdx + 1 →
      (client''.msgIdx < 128 →
        client'' = rxStore client (bodyStart (digits.length + 1) client) [x]) →
      Expects fits client'' (body ++ rest) := by
    intro client'' open' header count kept
    have bytes : ∀ i, i ≤ digits.length → rxByte client'' i = rxByte client i :=
      fun i low => (header i low).trans (filling.header [x] low)
    rw [regroup, ← bytes 0 (Nat.zero_le _)] at holds
    refine .body digits (front ++ [x]) body rest ⟨filling.held.congr bytes, ?_⟩ ?_ ?_ ?_ ?_ holds
      packets
    · rw [count]
      exact Nat.le_succ_of_le filling.begun
    · rw [count, received, length_append, length_singleton, Nat.add_assoc]
    · intro inside
      have place : bodyStart (digits.length + 1) client = digits.length + 1 + front.length := by
        unfold bodyStart
        rw [Nat.mod_eq_of_lt (by omega)]
        omega
      rw [kept inside]
      exact (held (by omega)).store place (by omega) x
    · rw [← regroup, size, remainingValue_congr bytes]
    · intro none
      rw [none] at open'
      exact open' rfl
  unfold copyBody at fed
  dsimp only at fed
  rw [missing] at fed
  by_cases empty : body.length = 0
  · rw [if_pos (Or.inl empty)] at fed
    obtain ⟨result, _, returned⟩ := bind_ok.1 fed
    rw [length_eq_zero_iff.1 empty]
    split at returned
    · rename_i refused
      exact absurd (congrArg Prod.fst (Except.ok.inj returned)) refused
    · cases returned
      exact .packet rfl packets
  · split at fed
    · rename_i full
      obtain ⟨result, handled, returned⟩ := bind_ok.1 fed
      split at returned
      · rename_i refused
        exact absurd (congrArg Prod.fst (Except.ok.inj returned)) refused
      · cases returned
        have same := keeps _ _ _ _ _ handled
        have range := bodyStart_range (show digits.length + 1 ≤ 5 from Nat.succ_le_succ
          filling.held.few) filling.begun
        refine still _ empty (fun i low => same.header i (by dsimp only; omega)) same.msgIdx ?_
        intro inside
        rw [same.msgIdx] at inside
        change client.msgIdx + 1 < 128 at inside
        rw [length_singleton] at full
        omega
    · cases fed
      exact still _ empty (fun _ _ => rfl) rfl fun _ => rfl

/-- What is expected stays related to what the client holds. -/
theorem Expects.feed (keeps : KeepsMessage receive) (expects : Expects fits client (x :: stream))
    (fed : feed receive client x = .ok (mqttConnectAccepted, client', log)) :
    Expects fits client' stream := by
  generalize whole : x :: stream = data at expects
  cases expects with
  | packet idle packets =>
    rw [← whole] at packets
    exact Expects.feed_kind idle packets fed
  | digits seen next body rest received held isLength some' size holds packets =>
    cases next with
    | nil => exact absurd rfl some'
    | cons y next =>
      rw [cons_append] at whole
      obtain ⟨first, more⟩ := List.cons.inj whole
      rw [← first] at isLength size holds
      rw [more]
      exact Expects.feed_digit received held isLength size holds packets fed
  | body digits front body rest filling received held size some' holds packets =>
    cases body with
    | nil => exact absurd rfl some'
    | cons y body =>
      rw [cons_append] at whole
      obtain ⟨first, more⟩ := List.cons.inj whole
      rw [← first] at size holds
      rw [more]
      exact Expects.feed_body keeps filling received held size holds packets fed

end Expecting

/-! ## The parser -/

section Parser

variable {τ : Type} {receive : MqttReceiver τ} {p : Chain} {b rest : List UInt8}
  {l : ParseLocals} {client : MqttClient} {fuel : Nat}

/-- The loop behind a pass that returns a status or goes on. -/
theorem mqttParseLoopBy_step (more : l.inOffset < p.totLen) {parsed : ParsedBy τ}
    (passed : mqttParsePassBy receive p l client = .ok parsed) :
    mqttParseLoopBy receive p (fuel + 1) l client =
      match parsed.status with
      | some status => .ok (status, parsed.client, parsed.calls)
      | none => andThen mqttConnectAccepted (.ok (mqttConnectAccepted, parsed.client, parsed.calls))
          fun client' => mqttParseLoopBy receive p fuel parsed.locals client' := by
  rw [mqttParseLoopBy, if_pos more, passed, ok_bind]
  cases parsed.status with
  | some status => rfl
  | none =>
    rw [andThen_go]
    cases mqttParseLoopBy receive p fuel parsed.locals parsed.client with
    | error e => rfl
    | ok result => rfl

theorem mqttParseLoopBy_error (more : l.inOffset < p.totLen) {e : String}
    (failed : mqttParsePassBy receive p l client = .error e) :
    mqttParseLoopBy receive p (fuel + 1) l client = .error e := by
  rw [mqttParseLoopBy, if_pos more, failed]
  rfl

/-- The local variables when the fixed header of a message has been read. -/
def ParseLocals.atBody (l : ParseLocals) (client : MqttClient) : ParseLocals :=
  { l with msgRemLen := toU32 ((l.msgRemLen + l.fixedHdrIdx : Int) - client.msgIdx) }

/-- A pass that has read a byte of the fixed header. -/
theorem mqttParsePassBy_header (receive : MqttReceiver τ) (header : inFixedHeader l)
    {l' : ParseLocals} {client' : MqttClient}
    (parsed : mqttParseHeader p l client = .ok (l', client')) :
    mqttParsePassBy receive p l client =
      if headerComplete l' then
        if l'.msgRemLen = 0 then do
          let (_, client'', calls) ← receive client'
            { fixedHdrIdx := l'.fixedHdrIdx, length := 0, remainingLength := 0 }
          .ok (mqttNextMessage l' client'' calls)
        else .ok { status := none, locals := l'.atBody client', client := client', calls := [] }
      else .ok { status := none, locals := l', client := client', calls := [] } := by
  rw [mqttParsePassBy, if_pos header, parsed]
  rfl

/-- A pass that reads a byte of the fixed header again only counts it. -/
theorem mqttParseLoopBy_stored (receive : MqttReceiver τ) (fuel : Nat)
    (phase : HeaderPhase l client) (header : inFixedHeader l)
    (few : l.fixedHdrIdx < 5) (more : l.inOffset < p.totLen) (fits : p.totLen ≤ 65535)
    (stored : l.fixedHdrIdx < client.msgIdx) :
    ∃ l', mqttParseLoopBy receive p (fuel + 1) l client = mqttParseLoopBy receive p fuel l' client ∧
      l'.inOffset = l.inOffset ∧ InPhase l' client ∧
      passesLeft p l' client < passesLeft p l client := by
  obtain ⟨l', client', parsed, read⟩ := mqttParseHeader_ok phase few more fits
  have source : client' = client ∧ l'.inOffset = l.inOffset := by
    cases read.source with
    | inl again => exact again.2
    | inr received => exact absurd received.1 (Nat.ne_of_gt stored)
  have goes : ∀ l'', l''.inOffset = l'.inOffset → l''.fixedHdrIdx = l'.fixedHdrIdx →
      InPhase l'' client' →
      mqttParsePassBy receive p l client =
        .ok { status := none, locals := l'', client := client', calls := [] } →
      ∃ l', mqttParseLoopBy receive p (fuel + 1) l client =
          mqttParseLoopBy receive p fuel l' client ∧
        l'.inOffset = l.inOffset ∧ InPhase l' client ∧
        passesLeft p l' client < passesLeft p l client := by
    intro l'' offset count next passed
    have closer : passesLeft p l'' client' < passesLeft p l client :=
      read.closer few more header offset fun _ => ⟨count.trans read.next, rfl⟩
    refine ⟨l'', ?_, offset.trans source.2, source.1 ▸ next, source.1 ▸ closer⟩
    rw [mqttParseLoopBy_step more passed]
    rw [andThen_start, source.1]
  have passed := mqttParsePassBy_header receive header parsed
  by_cases complete : headerComplete l'
  · have nonempty : l'.msgRemLen ≠ 0 := by
      have ends := (headerComplete_iff l').1 complete
      have next := read.next
      have last : (rxByte client l.fixedHdrIdx).toNat < 128 := by
        rw [← source.1, ← read.byte]
        exact ends.2
      have found := phase.held.at_byte phase.continuing (by omega) stored last
      rw [read.value, source.1]
      exact Nat.ne_of_gt found.1.nonempty
    rw [if_pos complete, if_neg nonempty] at passed
    exact goes (l'.atBody client') rfl rfl (read.complete phase few complete nonempty) passed
  · rw [if_neg complete] at passed
    exact goes l' rfl rfl (read.goesOn phase few complete) passed

/-- A pass that receives a byte of the fixed header does what the byte does. -/
theorem mqttParseLoopBy_header (receive : MqttReceiver τ) (fuel : Nat) (denotes : Denotes p b)
    (phase : HeaderPhase l client)
    (header : inFixedHeader l) (few : l.fixedHdrIdx < 5) (more : l.inOffset < b.length)
    (here : l.fixedHdrIdx = client.msgIdx) :
    ∃ l', mqttParseLoopBy receive p (fuel + 1) l client =
        andThen mqttConnectAccepted (feed receive client b[l.inOffset]) (fun client' =>
          mqttParseLoopBy receive p fuel l' client') ∧
      l'.inOffset = l.inOffset + 1 ∧
      ∀ client' log, feed receive client b[l.inOffset] = .ok (mqttConnectAccepted, client', log) →
        InPhase l' client' ∧ passesLeft p l' client' < passesLeft p l client := by
  have total := denotes.totLen_eq
  have more' : l.inOffset < p.totLen := by omega
  have fits : p.totLen ≤ 65535 := by
    rw [total]
    exact denotes.fits
  obtain ⟨l', client', parsed, read⟩ := mqttParseHeader_ok phase few more' fits
  have source : l'.inOffset = l.inOffset + 1 ∧
      client' = rxStore client client.msgIdx [b[l.inOffset]] := by
    cases read.source with
    | inl again => exact absurd here (Nat.ne_of_lt again.1)
    | inr received =>
      have byte : pbufGetAt p l.inOffset = b[l.inOffset] := by
        rw [pbufGetAt, denotes.pbufTryGetAt, getElem?_eq_getElem more]
        rfl
      rw [← here, ← byte]
      exact received.2
  have next := read.next
  have byte : l'.b = b[l.inOffset] := by
    rw [read.byte, source.2, here, rxByte_store client _ _ (by omega), if_pos rfl]
  have complete := headerComplete_iff l'
  rw [next, byte, here] at complete
  have value : l'.msgRemLen =
      remainingValue (rxStore client client.msgIdx [b[l.inOffset]]) client.msgIdx := by
    rw [read.value, source.2, here]
  have passed := mqttParsePassBy_header receive header parsed
  have closer : ∀ l'' client'', l''.inOffset = l'.inOffset →
      (l''.fixedHdrIdx < client''.msgIdx → l''.fixedHdrIdx = l.fixedHdrIdx + 1 ∧
        client''.msgIdx = client'.msgIdx) → passesLeft p l'' client'' < passesLeft p l client :=
    fun _ _ => read.closer few more' header
  have fed : feed receive client b[l.inOffset] = feedHeader receive client b[l.inOffset] := by
    unfold feed
    rw [heldCount_header (here ▸ phase.continuing)]
  rw [fed]
  unfold feedHeader
  dsimp only
  rw [← source.2] at value ⊢
  rw [← value]
  by_cases ends : headerComplete l'
  · rw [if_pos ends] at passed
    have shown := complete.1 ends
    by_cases empty : l'.msgRemLen = 0
    · rw [if_pos empty] at passed
      rw [if_pos ⟨by omega, shown.2, empty⟩]
      refine ⟨{ l' with fixedHdrIdx := 0 }, ?_, source.1, ?_⟩
      · rw [next, here] at passed
        cases handled : receive client'
            { fixedHdrIdx := client.msgIdx + 1, length := 0, remainingLength := 0 } with
        | error e =>
          rw [handled] at passed
          exact mqttParseLoopBy_error more' passed
        | ok result =>
          rw [handled, ok_bind] at passed
          exact mqttParseLoopBy_step more' passed
      · intro client'' log handled
        obtain ⟨result, _, returned⟩ := bind_ok.1 handled
        cases returned
        exact ⟨inPhase_next l' _ empty, closer _ _ rfl fun again => absurd again (Nat.lt_irrefl 0)⟩
    · rw [if_neg empty] at passed
      rw [if_neg fun all => empty all.2.2]
      refine ⟨l'.atBody client', ?_, source.1, ?_⟩
      · rw [mqttParseLoopBy_step more' passed]
      · intro client'' log stored
        cases stored
        exact ⟨read.complete phase few ends empty, closer _ _ rfl fun _ => ⟨read.next, rfl⟩⟩
  · rw [if_neg ends] at passed
    rw [if_neg fun all => ends (complete.2 ⟨by omega, all.2.1⟩)]
    refine ⟨l', ?_, source.1, ?_⟩
    · rw [mqttParseLoopBy_step more' passed]
    · intro client'' log stored
      cases stored
      exact ⟨read.goesOn phase few ends, closer _ _ rfl fun _ => ⟨read.next, rfl⟩⟩

/-- A pass that has copied bytes of the rest of a message. -/
theorem mqttParsePassBy_body (denotes : Denotes p b) (phase : BodyPhase l client)
    (notHeader : ¬inFixedHeader l) (more : l.inOffset < p.totLen) :
    mqttParsePassBy receive p l client =
      if l.msgRemLen - bodyCount p l client = 0 ∨
          bodyStart l.fixedHdrIdx client + bodyCount p l client = 128 then do
        let (res, client', calls) ← receive
          (rxStore client (bodyStart l.fixedHdrIdx client) (bodyData b p l client))
          (bodyPart l client (bodyCount p l client))
        if res ≠ mqttConnectAccepted then
          .ok { status := some res, locals := l.copied (bodyCount p l client), client := client'
                calls := calls }
        else if l.msgRemLen - bodyCount p l client = 0 then
          .ok (mqttNextMessage (l.copied (bodyCount p l client)) client' calls)
        else .ok { status := none, locals := l.copied (bodyCount p l client), client := client'
                   calls := calls }
      else .ok { status := none, locals := l.copied (bodyCount p l client), calls := []
                 client := rxStore client (bodyStart l.fixedHdrIdx client)
                   (bodyData b p l client) } := by
  have start := bodyStart_range phase.bounds.1 phase.inside
  have full : bodyCount p l client = 128 - bodyStart l.fixedHdrIdx client ↔
      bodyStart l.fixedHdrIdx client + bodyCount p l client = 128 := by omega
  rw [mqttParsePassBy, if_neg notHeader, mqttParseBody_eq denotes phase more, ok_bind]
  simp only [decide_eq_true_eq, full]
  rfl

/-- The local variables behind a pass that copies bytes of the rest of a message. -/
def ParseLocals.behind (l : ParseLocals) (count : Nat) : ParseLocals :=
  if l.msgRemLen - count = 0 then { l.copied count with fixedHdrIdx := 0 } else l.copied count

/-- A pass that copies bytes of the rest of a message does what the bytes do. -/
theorem mqttParseLoopBy_body (fuel : Nat) (keeps : KeepsMessage receive) (denotes : Denotes p b)
    (phase : BodyPhase l client) (notHeader : ¬inFixedHeader l) (more : l.inOffset < p.totLen) :
    ∃ l', mqttParseLoopBy receive p (fuel + 1) l client =
        andThen mqttConnectAccepted
          (feedAll mqttConnectAccepted (feed receive) client (bodyData b p l client))
          (fun client' =>
            mqttParseLoopBy receive p fuel l' client') ∧
      l'.inOffset = l.inOffset + bodyCount p l client ∧
      ∀ client' log, feedAll mqttConnectAccepted (feed receive) client (bodyData b p l client) =
          .ok (mqttConnectAccepted, client', log) →
        InPhase l' client' ∧ passesLeft p l' client' < passesLeft p l client := by
  have size := length_bodyData denotes phase more
  have count := bodyCount_spec phase more
  have begun := phase.begun
  have total := phase.total
  have header : l.fixedHdrIdx - 1 + 1 = l.fixedHdrIdx := by omega
  have filling : Filling (l.fixedHdrIdx - 1) client :=
    ⟨phase.held, by rw [header]; exact phase.inside⟩
  have missing : missingBehind (l.fixedHdrIdx - 1) client
      (client.msgIdx + (bodyData b p l client).length) = l.msgRemLen - bodyCount p l client := by
    unfold missingBehind
    omega
  have fed : feedAll mqttConnectAccepted (feed receive) client (bodyData b p l client) =
      copyBody receive (l.fixedHdrIdx - 1) client (bodyData b p l client) := by
    apply feedAll_body filling
    · apply ne_nil_of_length_pos
      omega
    · omega
    · rw [header]
      omega
  rw [fed]
  unfold copyBody
  dsimp only
  rw [missing, header, size]
  have passed : mqttParsePassBy receive p l client = _ :=
    mqttParsePassBy_body denotes phase notHeader more
  unfold bodyPart at passed
  have offset : (l.behind (bodyCount p l client)).inOffset = l.inOffset + bodyCount p l client := by
    unfold ParseLocals.behind
    split <;> rfl
  -- a message that goes on is still being copied, whatever is done with its part
  have still : ∀ client', l.msgRemLen - bodyCount p l client ≠ 0 →
      SameMessage (bodyPart l client (bodyCount p l client))
        (rxStore client (bodyStart l.fixedHdrIdx client) (bodyData b p l client)) client' →
      InPhase (l.behind (bodyCount p l client)) client' ∧
        passesLeft p (l.behind (bodyCount p l client)) client' < passesLeft p l client := by
    intro client' open' same
    rw [ParseLocals.behind, if_neg open']
    refine ⟨?_, phase.closer more rfl fun again => notHeader again.2⟩
    rw [← size] at same open' ⊢
    exact phase.still notHeader same (Nat.lt_of_sub_ne_zero open')
  refine ⟨l.behind (bodyCount p l client), ?_, offset, ?_⟩
  · by_cases hands : l.msgRemLen - bodyCount p l client = 0 ∨
        bodyStart l.fixedHdrIdx client + bodyCount p l client = 128
    · rw [if_pos hands] at passed ⊢
      cases handled : receive
          (rxStore client (bodyStart l.fixedHdrIdx client) (bodyData b p l client))
          { fixedHdrIdx := l.fixedHdrIdx
            length := bodyStart l.fixedHdrIdx client + bodyCount p l client - l.fixedHdrIdx
            remainingLength := l.msgRemLen - bodyCount p l client } with
      | error e =>
        rw [handled] at passed
        exact mqttParseLoopBy_error more passed
      | ok result =>
        rw [handled, ok_bind] at passed
        rw [ok_bind]
        dsimp only at passed ⊢
        by_cases refused : result.1 ≠ mqttConnectAccepted
        · rw [if_pos refused] at passed ⊢
          rw [andThen_stop refused]
          exact mqttParseLoopBy_step more passed
        rw [if_neg refused] at passed ⊢
        by_cases empty : l.msgRemLen - bodyCount p l client = 0
        · rw [if_pos empty] at passed ⊢
          rw [ParseLocals.behind, if_pos empty]
          exact mqttParseLoopBy_step more passed
        · rw [if_neg empty] at passed ⊢
          rw [ParseLocals.behind, if_neg empty]
          exact mqttParseLoopBy_step more passed
    · rw [if_neg hands] at passed ⊢
      rw [ParseLocals.behind, if_neg fun none => hands (Or.inl none)]
      exact mqttParseLoopBy_step more passed
  · intro client' log returned
    by_cases hands : l.msgRemLen - bodyCount p l client = 0 ∨
        bodyStart l.fixedHdrIdx client + bodyCount p l client = 128
    · rw [if_pos hands] at returned
      obtain ⟨result, handled, finished⟩ := bind_ok.1 returned
      by_cases refused : result.1 ≠ mqttConnectAccepted
      · rw [if_pos refused] at finished
        exact absurd (congrArg Prod.fst (Except.ok.inj finished)) refused
      rw [if_neg refused] at finished
      have same := keeps _ _ _ _ _ handled
      by_cases empty : l.msgRemLen - bodyCount p l client = 0
      · rw [if_pos empty] at finished
        cases finished
        rw [ParseLocals.behind, if_pos empty]
        exact ⟨inPhase_next _ _ empty,
          phase.closer more rfl fun again => absurd again.1 (Nat.lt_irrefl 0)⟩
      · rw [if_neg empty] at finished
        cases finished
        exact still _ empty same
    · rw [if_neg hands] at returned
      cases returned
      exact still _ (fun none => hands (Or.inl none)) (SameMessage.refl _ _)

/-- The parser has read less than five bytes of a fixed header that it goes on reading. -/
theorem HeaderPhase.lt_five {stream : List UInt8} (phase : HeaderPhase l client)
    (expects : Expects fits client stream) : l.fixedHdrIdx < 5 := by
  by_cases here : l.fixedHdrIdx = client.msgIdx
  · rw [here]
    exact expects.few (here ▸ phase.continuing)
  have inside := phase.inside
  cases phase.held with
  | header few continuing => omega
  | body count held begun unfinished =>
    have last := held.last
    have few := held.few
    by_cases short : l.fixedHdrIdx < 5
    · exact short
    · have more := phase.continuing count held.positive (by omega)
      omega

/-- The loop of the parser does what the bytes in front of it do. -/
theorem mqttParseLoopBy_eq (keeps : KeepsMessage receive) (denotes : Denotes p b)
    (phase : InPhase l client) (inside : l.inOffset ≤ b.length)
    (expects : Expects fits client (b.drop l.inOffset ++ rest))
    (enough : passesLeft p l client < fuel) :
    mqttParseLoopBy receive p fuel l client =
      feedAll mqttConnectAccepted (feed receive) client (b.drop l.inOffset) := by
  have total := denotes.totLen_eq
  have kept : ∀ client x rest client' (log : List τ), Expects fits client (x :: rest) →
      feed receive client x = .ok (mqttConnectAccepted, client', log) → Expects fits client' rest :=
    fun _ _ _ _ _ => Expects.feed keeps
  induction fuel generalizing l client with
  | zero => exact absurd enough (Nat.not_lt_zero _)
  | succ fuel ih =>
    by_cases more : l.inOffset < b.length
    · have more' : l.inOffset < p.totLen := by omega
      by_cases header : inFixedHeader l
      · have phase' : HeaderPhase l client := by
          unfold InPhase at phase
          rwa [if_pos header] at phase
        have few := phase'.lt_five expects
        by_cases stored : l.fixedHdrIdx < client.msgIdx
        · obtain ⟨l', looped, offset, next, closer⟩ := mqttParseLoopBy_stored receive fuel phase'
            header few more' (by rw [total]; exact denotes.fits) stored
          rw [← offset] at expects inside ⊢
          rw [looped]
          exact ih next inside expects (by omega)
        · have here := Nat.le_antisymm phase'.inside (Nat.le_of_not_lt stored)
          obtain ⟨l', looped, offset, next⟩ := mqttParseLoopBy_header receive fuel denotes phase'
            header few more here
          rw [drop_eq_getElem_cons more, ← offset] at expects ⊢
          rw [looped, feedAll]
          apply andThen_congr
          intro client' log fed
          have after := next client' log fed
          exact ih after.1 (by omega) (kept _ _ _ _ _ expects fed) (by omega)
      · have phase' : BodyPhase l client := by
          unfold InPhase at phase
          rwa [if_neg header] at phase
        obtain ⟨l', looped, offset, next⟩ := mqttParseLoopBy_body fuel keeps denotes phase'
          header more'
        have count := bodyCount_spec phase' more'
        have split : b.drop l.inOffset = bodyData b p l client ++ b.drop l'.inOffset := by
          rw [offset, bodyData, ← drop_drop, take_append_drop]
        rw [looped, split, feedAll_append]
        rw [split, append_assoc] at expects
        apply andThen_congr
        intro client' log fed
        have after := next client' log fed
        exact ih after.1 (by omega) (feedAll_invariant kept expects fed) (by omega)
    · rw [mqttParseLoopBy, if_neg (by omega), drop_of_length_le (by omega)]
      rfl

/-- `mqtt_parse_incoming` does what the bytes of the pbufs do. -/
theorem mqttParseIncomingBy_eq (keeps : KeepsMessage receive) (denotes : Denotes p b)
    (expects : Expects fits client (b ++ rest)) :
    mqttParseIncomingBy receive p client =
      feedAll mqttConnectAccepted (feed receive) client b := by
  have enough : passesLeft p {} client < p.totLen + mqttVarHeaderBufferLen + 1 := by
    unfold passesLeft mqttVarHeaderBufferLen
    split <;> omega
  exact mqttParseLoopBy_eq keeps denotes expects.toHeld.inPhase (Nat.zero_le _) expects enough

end Parser

/-! ## Messages that are handled -/

section Handling

variable (read : PartReader) (app : MqttApp)

/-- A write to `rx_buffer` behind the header of a message. -/
theorem rxWrite_same {part : MqttPart} {client : MqttClient} {idx : Nat} (b : UInt8)
    (behind : part.fixedHdrIdx ≤ idx) :
    Ensures AnyError (rxWrite client idx b) (SameMessage part client) := by
  unfold rxWrite
  apply ensures_assert fun _ => trivial
  intro inside
  refine .ok ⟨rfl, ?_⟩
  intro i inHeader
  rw [rxByte_set client idx i b inside, if_neg (by omega)]

variable {client : MqttClient} {part : MqttPart}

/-- The topic of a `PUBLISH` is terminated and restored behind the header. -/
theorem mqttPublishNotify_same (topicLen pktId afterTopic : Nat) :
    Ensures AnyError (mqttPublishNotify read app client part topicLen pktId afterTopic)
      fun result =>
      SameMessage part client result.1 := by
  unfold mqttPublishNotify
  apply ensures_skip
  intro bkp
  apply (rxWrite_same 0 (show part.fixedHdrIdx ≤ part.fixedHdrIdx + 2 + topicLen by omega)).bind
  intro terminated first
  apply ensures_skip
  intro topic
  apply (rxWrite_same _ (show part.fixedHdrIdx ≤ part.fixedHdrIdx + 2 + topicLen by omega)).bind
  intro restored second
  apply Ensures.ok
  exact SameMessage.trans ⟨first.msgIdx, first.header⟩ ⟨second.msgIdx, second.header⟩

theorem mqttPublishTopic_same (qos : Nat) :
    Ensures AnyError (mqttPublishTopic read app client part qos) fun result =>
      ∀ found ∈ result, SameMessage part client found.2.1 := by
  unfold mqttPublishTopic
  apply ensures_skip
  intro high
  apply ensures_skip
  intro low
  dsimp only
  generalize (if u16 (2 + u16 (high * 256 + low)) + qos ≠ 0 then 2 else 1) = needed
  split
  · exact .ok nofun
  apply ensures_skip
  intro identified
  apply (mqttPublishNotify_same read app _ _ _).bind
  intro notified same
  apply Ensures.ok
  intro found isSome
  rw [← Option.some.inj isSome]
  exact same

theorem mqttPublishData_same (qos payloadOffset : Nat) :
    Ensures AnyError (mqttPublishData read app client part qos payloadOffset) fun result =>
      SameMessage part client result.1 := by
  unfold mqttPublishData
  dsimp only
  split
  · apply ensures_skip
    intro payload
    exact .ok ⟨rfl, fun _ _ => rfl⟩
  · exact .ok (SameMessage.refl part client)

theorem mqttPublish_same :
    Ensures AnyError (mqttPublish read app client part) fun result =>
      SameMessage part client result.2.1 := by
  unfold mqttPublish
  split
  · apply (mqttPublishTopic_same read app _).bind
    intro found same
    cases found with
    | none => exact .ok (SameMessage.refl part client)
    | some found =>
      apply (mqttPublishData_same read app _ _).bind
      intro handed same'
      exact .ok ((same found rfl).trans same')
  · apply (mqttPublishData_same read app _ _).bind
    intro handed same
    exact .ok same

theorem mqttAnswered_same (pktType pktId : Nat) :
    Ensures AnyError (mqttAnswered read app client part pktType pktId) fun result =>
      SameMessage part client result.2.1 := by
  unfold mqttAnswered
  split
  · exact .ok (SameMessage.refl part client)
  dsimp only
  split
  · split
    · exact .ok ⟨rfl, fun _ _ => rfl⟩
    · apply ensures_skip
      intro result
      apply Ensures.ok
      split <;> exact ⟨rfl, fun _ _ => rfl⟩
  · apply Ensures.ok
    split <;> exact ⟨rfl, fun _ _ => rfl⟩

/-- `mqtt_message_received` keeps the message, whatever it reads. -/
theorem mqttMessageReceivedBy_same :
    Ensures AnyError (mqttMessageReceivedBy read app client part) fun result =>
      SameMessage part client result.2.1 := by
  have unchanged (res : Nat) (calls : List MqttCall) :
      Ensures AnyError (.ok (res, client, calls)) fun result : Nat × MqttClient × List MqttCall =>
        SameMessage part client result.2.1 := Ensures.ok (SameMessage.refl part client)
  unfold mqttMessageReceivedBy
  dsimp only
  split
  · unfold mqttConnack
    split
    · apply ensures_skip
      intro res
      split
      · exact .ok ⟨rfl, fun _ _ => rfl⟩
      · exact unchanged _ _
    · exact unchanged _ _
  · split
    · exact unchanged _ _
    · split
      · exact mqttPublish_same read app
      · unfold mqttIdentified
        apply ensures_skip
        intro high
        apply ensures_skip
        intro low
        dsimp only
        split
        · exact unchanged _ _
        split
        · exact unchanged _ _
        · split
          · exact unchanged _ _
          · split
            · exact mqttAnswered_same read app _ _
            · exact unchanged _ _

end Handling

/-! ## Cuts of a stream -/

/-- A call of `mqtt_message_received`: its arguments, and the calls that it makes or the access
outside of `rx_buffer` that it makes. -/
structure MqttReceipt where
  rxBuffer : Vector UInt8 mqttVarHeaderBufferLen
  /-- The arguments `fixed_hdr_idx`, `length` and `remaining_length`. -/
  part : MqttPart
  calls : Asserting (List MqttCall)

/-- `mqtt_message_received`, recorded. It reads what is in `rx_buffer`, also outside of the
received part of the message; an access outside of `rx_buffer` is the last thing recorded. -/
def mqttMessageRecorded (app : MqttApp) : MqttReceiver MqttReceipt := fun client part =>
  match mqttMessageReceivedBy bufferRead app client part with
  | .ok (res, client', calls) =>
    .ok (res, client', [{ rxBuffer := client.rxBuffer, part := part, calls := .ok calls }])
  | .error message =>
    .ok (mqttConnectDisconnected, client,
      [{ rxBuffer := client.rxBuffer, part := part, calls := .error message }])

/-- Pbufs are received one after the other by `mqtt_tcp_recv_cb`, until a status other than
`MQTT_CONNECT_ACCEPTED` closes the connection. -/
def mqttTcpRecvAll (app : MqttApp) : MqttClient → List Chain →
    Asserting (Nat × MqttClient × List MqttReceipt) :=
  feedAll mqttConnectAccepted fun client p => mqttParseIncomingBy (mqttMessageRecorded app) p client

/-- A call that is recorded keeps the message. -/
theorem mqttMessageRecorded_keeps (app : MqttApp) : KeepsMessage (mqttMessageRecorded app) := by
  intro client part status client' calls recorded
  unfold mqttMessageRecorded at recorded
  cases handled : mqttMessageReceivedBy bufferRead app client part with
  | error message =>
    rw [handled] at recorded
    cases recorded
    exact SameMessage.refl part client
  | ok result =>
    rw [handled] at recorded
    cases recorded
    exact (mqttMessageReceivedBy_same bufferRead app).of_ok handled

/-- Received pbufs do what their bytes do. -/
theorem mqttTcpRecvAll_eq (app : MqttApp) {client : MqttClient} (idle : client.msgIdx = 0)
    {ps : List Chain} {data : List (List UInt8)} {rest : List UInt8}
    (pbufs : List.Forall₂ Denotes ps data) (packets : PacketStream (data.flatten ++ rest)) :
    mqttTcpRecvAll app client ps =
      feedAll mqttConnectAccepted (feed (mqttMessageRecorded app)) client data.flatten := by
  have keeps := mqttMessageRecorded_keeps app
  have agrees : ∀ client p bytes rest, Denotes p bytes →
      Expects (fun _ _ _ => True) client (bytes ++ rest) →
      mqttParseIncomingBy (mqttMessageRecorded app) p client =
        feedAll mqttConnectAccepted (feed (mqttMessageRecorded app)) client bytes :=
    fun _ _ _ _ => mqttParseIncomingBy_eq keeps
  exact feedAll_chunks (fun _ _ _ _ _ expects => expects.feed keeps) agrees pbufs
    (.packet idle packets)

/-- For MQTT packets that are received in two ways of cutting them into pbufs, the calls of
`mqtt_message_received`, with the contents of `rx_buffer` and the calls that they make, the
status and the client at the end, with its `msg_idx`, are the same. The last packet may be
incomplete. -/
theorem mqtt_parse_any_cut (app : MqttApp) (client : MqttClient) (idle : client.msgIdx = 0)
    (ps qs : List Chain) (data cut : List (List UInt8)) (rest : List UInt8)
    (pbufs : List.Forall₂ Denotes ps data) (others : List.Forall₂ Denotes qs cut)
    (same : data.flatten = cut.flatten) (packets : PacketStream (data.flatten ++ rest)) :
    mqttTcpRecvAll app client ps = mqttTcpRecvAll app client qs := by
  rw [mqttTcpRecvAll_eq app idle pbufs packets, same,
    ← mqttTcpRecvAll_eq app idle others (same ▸ packets)]

/-- A client that waits for the answer to its `CONNECT` and has received some bytes of it. -/
def waitingClient (received : List UInt8) : MqttClient :=
  { session := { connState := .mqttConnecting, pendReqQueue := [] }, inpubPktId := 0
    msgIdx := received.length, rxBuffer := rxFill (Vector.replicate 128 0) 0 received }

/-- An application without callbacks. -/
def noCallbacks : MqttApp := fun _ session => session

/-- A `CONNACK` that accepts the connection. -/
def connack : List UInt8 := [0x20, 0x02, 0x00, 0x00]

/-- A `CONNACK` in one pbuf and in two. -/
theorem mqtt_parse_any_cut_connack :
    mqttTcpRecvAll noCallbacks (waitingClient []) [[pbufRam 0 connack]] =
      mqttTcpRecvAll noCallbacks (waitingClient [])
        [[pbufRam 0 [0x20]], [pbufRam 0 [0x02, 0x00, 0x00]]] := by
  have packets : PacketStream ([connack].flatten ++ []) :=
    .packet 0x20 [0x02] [0x00, 0x00] [] ⟨by decide, [], 0x02, rfl, by decide, nofun⟩ rfl trivial
      .nil
  refine mqtt_parse_any_cut noCallbacks (waitingClient []) rfl _ _ [connack]
    [[0x20], [0x02, 0x00, 0x00]] [] ?_ ?_ rfl packets
  · exact .cons (Denotes.single rfl (by decide) rfl (by decide)) .nil
  · exact .cons (Denotes.single rfl (by decide) rfl (by decide))
      (.cons (Denotes.single rfl (by decide) rfl (by decide)) .nil)

end Lwip.Mqtt
