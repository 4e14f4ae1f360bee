import Lwip.Base.Transition
import Lwip.Verif.MqttStream

/-!
# Accesses to the receive buffer of an MQTT client

In every run in which the received bytes are packets that are long enough for the fields of their
type, no access to `rx_buffer` leaves the buffer or the received part of the message. The bytes of
a packet are still in the buffer when the fields in its first part are read.
-/

namespace Lwip.Mqtt

open Transition Outcome Feed
open List hiding Vector

/-! ## Packets that are long enough -/

/-- Number of bytes that the buffer holds behind the fixed header of a packet. -/
def partSize (digits : List UInt8) : Nat := mqttVarHeaderBufferLen - (digits.length + 1)

/-- A packet has the fields that its type must have. The first part of a `PUBLISH` holds the length
of the topic, the topic, and the packet identifier or the byte that is overwritten behind the topic.
Of the other types but `PINGRESP`, each part has the two bytes that are read as a return code or a
packet identifier. -/
def PacketFits (kind : UInt8) (digits body : List UInt8) : Prop :=
  if mqttCtlPacketType kind = 13 then True
  else if mqttCtlPacketType kind = 3 then
    2 + ((body.getD 0 0).toNat * 256 + (body.getD 1 0).toNat) +
      (if mqttCtlPacketQos kind > 0 then 2 else 1) ≤ min body.length (partSize digits)
  else 2 ≤ body.length ∧ body.length % partSize digits ≠ 1

/-! ## Reads of a part -/

/-- A part of a message is in the buffer. -/
def InBuffer (client : MqttClient) (part : MqttPart) : Prop :=
  part.fixedHdrIdx + part.length ≤ 128 ∧ part.fixedHdrIdx + part.length ≤ client.msgIdx

/-- A read inside the received part succeeds. -/
theorem partRead_ok (client : MqttClient) (part : MqttPart) (offset count : Nat)
    (inPart : offset + count ≤ part.length) (received : InBuffer client part) :
    ∃ bytes, partRead client part offset count = .ok bytes := by
  unfold InBuffer at received
  rw [partRead, lwipAssert_pos (by unfold mqttVarHeaderBufferLen; omega), ok_bind,
    lwipAssert_pos (by omega)]
  exact ⟨_, rfl⟩

/-- A read of one byte inside the received part succeeds. -/
theorem partByte_ok (client : MqttClient) (part : MqttPart) (offset : Nat)
    (inPart : offset < part.length) (received : InBuffer client part) :
    partByte partRead client part offset =
      .ok (rxByte client (part.fixedHdrIdx + offset)).toNat := by
  unfold InBuffer at received
  rw [partByte, partRead, lwipAssert_pos (by unfold mqttVarHeaderBufferLen; omega), ok_bind,
    lwipAssert_pos (by omega), ok_bind, ok_bind]
  have size := length_rxBuffer client
  have bound : part.fixedHdrIdx + offset < client.rxBuffer.toList.length := by omega
  rw [drop_eq_getElem_cons bound, rxByte, getD_eq_getElem?_getD, getElem?_eq_getElem bound]
  rfl

/-- Length of the topic that a `PUBLISH` in the buffer announces. -/
def topicLength (client : MqttClient) (part : MqttPart) : Nat :=
  (rxByte client part.fixedHdrIdx).toNat * 256 + (rxByte client (part.fixedHdrIdx + 1)).toNat

/-- A part in the buffer holds the fields that `mqtt_message_received` reads. -/
def PartFits (client : MqttClient) (part : MqttPart) : Prop :=
  if mqttCtlPacketType (rxByte client 0) = 13 then True
  else if mqttCtlPacketType (rxByte client 0) = 3 then
    client.msgIdx ≤ mqttVarHeaderBufferLen → 2 + topicLength client part +
      (if mqttCtlPacketQos (rxByte client 0) > 0 then 2 else 1) ≤ part.length
  else 2 ≤ part.length

section Received

variable (app : MqttApp) {client : MqttClient} {part : MqttPart}

/-- The payload of a `PUBLISH` lies in the received part. -/
theorem mqttPublishData_ok (received : InBuffer client part) (qos : Nat) {payloadOffset : Nat}
    (inside : payloadOffset ≤ part.length) :
    ∃ result, mqttPublishData partRead app client part qos payloadOffset = .ok result := by
  have exact : toU16 ((part.length : Int) - payloadOffset) = part.length - payloadOffset :=
    toU16_eq (by omega) (by unfold InBuffer at received; omega)
  unfold mqttPublishData
  simp only [exact]
  split
  · obtain ⟨payload, read⟩ := partRead_ok client part payloadOffset
      (part.length - payloadOffset) (by omega) received
    rw [read, ok_bind]
    exact ⟨_, rfl⟩
  · exact ⟨_, rfl⟩

/-- The topic lies in the received part, with the byte behind it. -/
theorem mqttPublishNotify_ok {topicLen : Nat} (pktId afterTopic : Nat)
    (fits : 2 + topicLen + 1 ≤ part.length) (received : InBuffer client part) :
    ∃ result, mqttPublishNotify partRead app client part topicLen pktId afterTopic =
      .ok result := by
  have written : part.fixedHdrIdx + 2 + topicLen < 128 := by
    have inBuffer := received.1
    omega
  obtain ⟨bytes, read⟩ := partRead_ok { client with
    inpubPktId := pktId
    rxBuffer := client.rxBuffer.setIfInBounds (part.fixedHdrIdx + 2 + topicLen) 0 }
    part 2 topicLen (by omega) received
  unfold mqttPublishNotify
  rw [partByte_ok _ _ _ (by omega) received, ok_bind, rxWrite_ok _ written, ok_bind]
  simp only [read, ok_bind]
  rw [rxWrite_ok _ written, ok_bind]
  exact ⟨_, rfl⟩

/-- The packet identifier lies in the received part. -/
theorem mqttPublishId_ok {qos afterTopic : Nat}
    (fits : afterTopic + (if qos > 0 then 2 else 1) ≤ part.length)
    (received : InBuffer client part) :
    ∃ pktId behind, mqttPublishId partRead client part qos afterTopic = .ok (pktId, behind) ∧
      behind ≤ part.length := by
  unfold mqttPublishId
  split
  · rename_i identified
    rw [if_pos identified] at fits
    have short : afterTopic + 2 < 65536 := by
      have inBuffer := received.1
      omega
    rw [partByte_ok _ _ _ (by omega) received, ok_bind, partByte_ok _ _ _ (by omega) received,
      ok_bind, u16_of_lt short]
    exact ⟨_, _, rfl, fits⟩
  · exact ⟨_, _, rfl, by omega⟩

/-- A part that fits holds the topic and the packet identifier of a `PUBLISH`. -/
theorem mqttPublishTopic_ok {qos : Nat}
    (fits : 2 + topicLength client part + (if qos > 0 then 2 else 1) ≤ part.length)
    (received : InBuffer client part) :
    ∃ payloadOffset client' calls,
      mqttPublishTopic partRead app client part qos = .ok (some (payloadOffset, client', calls)) ∧
        payloadOffset ≤ part.length := by
  have behind : 2 + topicLength client part + 1 ≤ part.length := by
    split at fits <;> omega
  have inBuffer := received.1
  have high := partByte_ok client part 0 (by omega) received
  have low := partByte_ok client part 1 (by omega) received
  have topic : u16 ((rxByte client (part.fixedHdrIdx + 0)).toNat * 256 +
      (rxByte client (part.fixedHdrIdx + 1)).toNat) = topicLength client part :=
    u16_of_lt (by unfold topicLength at behind; simp only [Nat.add_zero]; omega)
  have after : u16 (2 + topicLength client part) = 2 + topicLength client part :=
    u16_of_lt (by omega)
  have enough : ¬(if 2 + topicLength client part + qos ≠ 0 then 2 else 1) > part.length := by
    rw [if_pos (by omega)]
    omega
  obtain ⟨pktId, payloadOffset, identified, inside⟩ := mqttPublishId_ok fits received
  obtain ⟨result, notified⟩ := mqttPublishNotify_ok app pktId payloadOffset behind received
  unfold mqttPublishTopic
  rw [high, ok_bind, low, ok_bind]
  simp only [topic, after, if_neg enough, identified, ok_bind, notified]
  exact ⟨_, _, _, rfl, inside⟩

/-- A `PUBLISH` that fits is read inside the received part. -/
theorem mqttPublish_ok
    (fits : client.msgIdx ≤ mqttVarHeaderBufferLen → 2 + topicLength client part +
      (if mqttCtlPacketQos (rxByte client 0) > 0 then 2 else 1) ≤ part.length)
    (received : InBuffer client part) :
    ∃ result, mqttPublish partRead app client part = .ok result := by
  unfold mqttPublish
  dsimp only
  split
  · rename_i first
    obtain ⟨payloadOffset, client', calls, notified, inside⟩ :=
      mqttPublishTopic_ok app (fits first) received
    have same := (mqttPublishTopic_same partRead app _).of_ok notified _ rfl
    have received' : InBuffer client' part := by
      rw [InBuffer, same.msgIdx]
      exact received
    obtain ⟨result, handed⟩ := mqttPublishData_ok app received'
      (mqttCtlPacketQos (rxByte client 0)) inside
    rw [notified, ok_bind]
    dsimp only
    rw [handed, ok_bind]
    exact ⟨_, rfl⟩
  · obtain ⟨result, handed⟩ := mqttPublishData_ok app received
      (mqttCtlPacketQos (rxByte client 0)) (Nat.zero_le part.length)
    rw [handed, ok_bind]
    exact ⟨_, rfl⟩

/-- An answer to a request is read inside the received part. -/
theorem mqttAnswered_ok (received : InBuffer client part) (pktType pktId : Nat) :
    ∃ result, mqttAnswered partRead app client part pktType pktId = .ok result := by
  unfold mqttAnswered
  split
  · exact ⟨_, rfl⟩
  rename_i r queue _
  dsimp only
  split
  · split
    · exact ⟨_, rfl⟩
    · have read := partByte_ok { client with
        session := { client.session with pendReqQueue := queue } } part 2 (by omega) received
      rw [read, ok_bind]
      exact ⟨_, rfl⟩
  · exact ⟨_, rfl⟩

/-- The types with a packet identifier are read inside a received part of at least two bytes. -/
theorem mqttIdentified_ok {pktType : Nat} (fits : 2 ≤ part.length)
    (received : InBuffer client part) :
    ∃ result, mqttIdentified partRead app client part pktType = .ok result := by
  unfold mqttIdentified
  rw [partByte_ok _ _ _ (by omega) received, ok_bind, partByte_ok _ _ _ (by omega) received,
    ok_bind]
  dsimp only
  split
  · exact ⟨_, rfl⟩
  split
  · exact ⟨_, rfl⟩
  · split
    · exact ⟨_, rfl⟩
    · split
      · exact mqttAnswered_ok app received _ _
      · exact ⟨_, rfl⟩

/-- A part that fits is handled without an access outside of it. -/
theorem mqttMessageReceived_ok (fits : PartFits client part) (received : InBuffer client part) :
    ∃ result, mqttMessageReceived app client part = .ok result := by
  unfold PartFits at fits
  unfold mqttMessageReceived mqttMessageReceivedBy
  dsimp only
  by_cases pingresp : mqttCtlPacketType (rxByte client 0) = 13
  · rw [if_neg (by omega), if_pos pingresp]
    exact ⟨_, rfl⟩
  rw [if_neg pingresp] at fits
  by_cases publish : mqttCtlPacketType (rxByte client 0) = 3
  · rw [if_pos publish] at fits
    rw [if_neg (by omega), if_neg pingresp, if_pos publish]
    exact mqttPublish_ok app fits received
  rw [if_neg publish] at fits
  split
  · unfold mqttConnack
    split
    · rw [partByte_ok _ _ _ (by omega) received, ok_bind]
      split <;> exact ⟨_, rfl⟩
    · exact ⟨_, rfl⟩
  · exact mqttIdentified_ok app fits received

end Received

/-! ## Bytes of fitting packets -/

section Fitting

variable {app : MqttApp} {client : MqttClient} {x : UInt8} {digits front body : List UInt8}

/-- Only a `PINGRESP` is empty. -/
theorem PacketFits.empty (fits : PacketFits x digits []) : mqttCtlPacketType x = 13 := by
  unfold PacketFits at fits
  split at fits
  · assumption
  · split at fits
    · simp only [length_nil, Nat.zero_min] at fits
      omega
    · exact absurd fits.1 (by decide)

/-- A byte of the fixed header is handled. -/
theorem feedHeader_ok {seen next : List UInt8} (received : client.msgIdx = seen.length + 1)
    (held : BytesHeld client 1 seen) (isLength : IsLength (seen ++ x :: next))
    (size : body.length = lengthValue (seen ++ x :: next))
    (fits : PacketFits (rxByte client 0) (seen ++ x :: next) body) :
    ∃ result, feedHeader (mqttMessageReceived app) client x = .ok result := by
  have few := isLength.seen_lt (cons_ne_nil x next)
  have inside : client.msgIdx < 128 := by omega
  unfold feedHeader
  dsimp only
  split
  · rename_i ends
    -- the remaining length is complete and zero
    have last : next = [] := by
      by_contra more
      have continues := @IsLength.continues (seen ++ [x]) next (by simpa using isLength) more x
        (by simp)
      omega
    rw [last] at size fits
    have value := (held.store (by omega) inside x).value
    rw [length_append, length_singleton, ← received, ← size, ends.2.2] at value
    rw [length_eq_zero_iff.1 value.symm] at fits
    have type : rxByte (rxStore client client.msgIdx [x]) 0 = rxByte client 0 := by
      rw [rxByte_store client x 0 inside, if_neg (by omega)]
    have pingresp : PartFits (rxStore client client.msgIdx [x])
        { fixedHdrIdx := client.msgIdx + 1, length := 0, remainingLength := 0 } := by
      unfold PartFits
      rw [type, if_pos fits.empty]
      trivial
    obtain ⟨result, handled⟩ := mqttMessageReceived_ok app pingresp
      ⟨show client.msgIdx + 1 + 0 ≤ 128 by omega, Nat.le_refl _⟩
    rw [handled, ok_bind]
    exact ⟨_, rfl⟩
  · exact ⟨_, rfl⟩

theorem BytesHeld.getD {bytes : List UInt8} {start i : Nat} (held : BytesHeld client start bytes)
    (inside : i < bytes.length) (more : List UInt8) :
    (bytes ++ more).getD i 0 = rxByte client (start + i) := by
  rw [held i bytes[i] (getElem?_eq_getElem inside), getD_eq_getElem?_getD,
    getElem?_append_left inside, getElem?_eq_getElem inside]
  rfl

/-- The part that is handed on with a byte of a packet that fits. -/
theorem partFits_of_packet (filling : Filling digits.length client)
    (received : client.msgIdx = digits.length + 1 + front.length)
    (held : client.msgIdx < 128 → BytesHeld client (digits.length + 1) front)
    (fits : PacketFits (rxByte client 0) digits (front ++ x :: body))
    (hands : body.length = 0 ∨ bodyStart (digits.length + 1) client + 1 = 128)
    {part : MqttPart} (header : part.fixedHdrIdx = digits.length + 1)
    (size : part.length = bodyStart (digits.length + 1) client + 1 - (digits.length + 1)) :
    PartFits (rxStore client (bodyStart (digits.length + 1) client) [x]) part := by
  have few := filling.held.few
  have start : bodyStart (digits.length + 1) client =
      front.length % (127 - digits.length) + (digits.length + 1) := by
    unfold bodyStart
    rw [show client.msgIdx - (digits.length + 1) = front.length by omega,
      show 128 - (digits.length + 1) = 127 - digits.length by omega]
  have room : partSize digits = 127 - digits.length := by
    unfold partSize mqttVarHeaderBufferLen
    omega
  have total : (front ++ x :: body).length = front.length + 1 + body.length := by
    rw [length_append, length_cons]
    omega
  unfold PartFits
  unfold PacketFits at fits
  rw [filling.header [x] (Nat.zero_le _)]
  split
  · trivial
  rename_i notPingresp
  rw [if_neg notPingresp, room, total] at fits
  split
  · rename_i publish
    rw [if_pos publish] at fits
    intro first
    change client.msgIdx + 1 ≤ 128 at first
    have short : front.length % (127 - digits.length) = front.length :=
      Nat.mod_eq_of_lt (by omega)
    rw [short] at start
    -- this is the first part, and it is as long as the packet or as the buffer
    have whole : min (front.length + 1 + body.length) (127 - digits.length) = part.length := by
      omega
    have stored := (held (by omega)).store (show bodyStart (digits.length + 1) client = _ by
      omega) (by omega) x
    have inside : 1 < (front ++ [x]).length := by
      rw [length_append, length_singleton]
      omega
    have high := stored.getD (Nat.lt_of_succ_lt inside) body
    have low := stored.getD inside body
    rw [append_assoc, singleton_append] at high low
    rw [whole, high, low] at fits
    unfold topicLength
    rw [header]
    exact fits
  · rename_i notPublish
    rw [if_neg notPublish] at fits
    have positive : front.length % (127 - digits.length) ≠ 0 := by
      intro zero
      cases hands with
      | inl last =>
        apply fits.2
        rw [last, Nat.add_zero, ← Nat.mod_add_mod, zero]
        exact Nat.mod_eq_of_lt (by omega)
      | inr full => omega
    omega

/-- A byte of a packet that fits is handled without an access outside the received part. -/
theorem feed_ok {stream : List UInt8} (expects : Expects PacketFits client (x :: stream)) :
    ∃ result, feed (mqttMessageReceived app) client x = .ok result := by
  generalize whole : x :: stream = data at expects
  cases expects with
  | packet idle packets =>
    rw [feed_header fun i positive inside => by omega, feedHeader, if_neg (by omega)]
    exact ⟨_, rfl⟩
  | digits seen next body rest received held isLength some' size holds packets =>
    cases next with
    | nil => exact absurd rfl some'
    | cons y next =>
      obtain ⟨rfl, _⟩ := List.cons.inj whole
      rw [feed_header (by rw [received]; exact held.continuing (isLength.continues some'))]
      exact feedHeader_ok received held isLength size holds
  | body digits front body rest filling received held size some' holds packets =>
    cases body with
    | nil => exact absurd rfl some'
    | cons y body =>
      obtain ⟨rfl, _⟩ := List.cons.inj whole
      rw [feed, heldCount_body filling.held filling.begun]
      have range := bodyStart_range (show digits.length + 1 ≤ 5 from Nat.succ_le_succ
        filling.held.few) filling.begun
      rw [length_append, length_cons] at size
      unfold copyBody
      dsimp only
      split
      · rename_i hands
        have missing : missingBehind digits.length client (client.msgIdx + [x].length) =
            body.length := by
          unfold missingBehind
          rw [length_singleton]
          omega
        have length : digits.length + 1 +
            (bodyStart (digits.length + 1) client + 1 - (digits.length + 1)) =
              bodyStart (digits.length + 1) client + 1 := by omega
        have inBuffer : InBuffer (rxStore client (bodyStart (digits.length + 1) client) [x])
            { fixedHdrIdx := digits.length + 1
              length := bodyStart (digits.length + 1) client + 1 - (digits.length + 1)
              remainingLength := body.length } :=
          ⟨length.trans_le range.2.1, length.trans_le (Nat.succ_le_succ range.2.2)⟩
        rw [missing] at hands ⊢
        obtain ⟨result, handled⟩ := mqttMessageReceived_ok app
          (partFits_of_packet filling received held holds hands rfl rfl) inBuffer
        rw [length_singleton, handled, ok_bind]
        split <;> exact ⟨_, rfl⟩
      · exact ⟨_, rfl⟩

end Fitting

/-! ## Runs -/

theorem mqttMessageReceived_keeps (app : MqttApp) : KeepsMessage (mqttMessageReceived app) :=
  fun _ _ _ _ _ handled => (mqttMessageReceivedBy_same partRead app).of_ok handled

/-- What is expected does not depend on the session. -/
theorem Expects.session {fits : UInt8 → List UInt8 → List UInt8 → Prop} {client : MqttClient}
    {data : List UInt8} (expects : Expects fits client data) (session : MqttSession) :
    Expects fits { client with session := session } data := by
  have same : ∀ i, rxByte { client with session := session } i = rxByte client i := fun _ => rfl
  cases expects with
  | packet idle packets => exact .packet idle packets
  | digits seen next body rest received held isLength some' size holds packets =>
    exact .digits seen next body rest received held isLength some' size holds packets
  | body digits front body rest filling received held size some' holds packets =>
    refine .body digits front body rest ⟨filling.held.congr fun i _ => same i, filling.begun⟩
      received held ?_ some' holds packets
    rw [remainingValue_congr fun i _ => same i]
    exact size

/-- A client with the bytes that it has received since its connection was established. -/
structure MqttWire where
  conn : MqttConn
  received : List UInt8

/-- One event of a client, with the bytes that it receives. -/
def MqttWireStep (s : MqttWire) (event : MqttEvent) (s' : MqttWire) : Prop :=
  MqttStep s.conn event s'.conn ∧ s'.received =
    match event with
    | .connected => []
    | .received _ p => s.received ++ p.bytes
    | .session _ => s.received

/-- Data that is received is in proper pbufs, and it goes on with packets that fit. The last one may
be incomplete. -/
def MessagesFit (s : MqttWire) : MqttEvent → Prop
  | .received _ p => ∃ b rest, Denotes p b ∧ PacketsWith PacketFits (s.received ++ (b ++ rest))
  | _ => True

/-- While the connection delivers data, the client expects what goes on with packets that fit. -/
def Expecting (s : MqttWire) : Prop :=
  s.conn.established = true → ∀ data, PacketsWith PacketFits (s.received ++ data) →
    Expects PacketFits s.conn.client data

/-- Received data that fits is parsed without an access outside the received part. -/
theorem mqttParseIncoming_ok {app : MqttApp} {p : Chain} {client : MqttClient} {b rest : List UInt8}
    (denotes : Denotes p b) (expects : Expects PacketFits client (b ++ rest)) :
    ∃ result, mqttParseIncoming app p client = .ok result := by
  unfold mqttParseIncoming
  rw [mqttParseIncomingBy_eq (mqttMessageReceived_keeps app) denotes expects]
  exact feedAll_ok (fun _ _ _ _ _ expects => expects.feed (mqttMessageReceived_keeps app))
    (fun _ _ _ => feed_ok) expects

/-- Every event keeps what is expected. -/
theorem MqttWireStep.expecting {s s' : MqttWire} {event : MqttEvent} (expecting : Expecting s)
    (meets : MessagesFit s event) (step : MqttWireStep s event s') : Expecting s' := by
  obtain ⟨step, received⟩ := step
  cases event with
  | connected =>
    intro _ data packets
    rw [received] at packets
    rw [← Option.some.inj (Except.ok.inj step)]
    exact .packet rfl packets
  | received app p =>
    intro established data packets
    obtain ⟨b, _, denotes, _⟩ := meets
    unfold MqttStep mqttEvent at step
    dsimp only at step received
    split at step
    · rename_i before
      obtain ⟨⟨status, client', calls⟩, parsed, returned⟩ := bind_ok.1 step
      rw [received, denotes.bytes, append_assoc] at packets
      have expects := expecting before (b ++ data) packets
      rw [← Option.some.inj (Except.ok.inj returned)] at established ⊢
      have accepted : status = mqttConnectAccepted := of_decide_eq_true established
      rw [accepted, mqttParseIncoming,
        mqttParseIncomingBy_eq (mqttMessageReceived_keeps app) denotes expects] at parsed
      exact feedAll_invariant
        (fun _ _ _ _ _ expects => expects.feed (mqttMessageReceived_keeps app)) expects parsed
    · cases step
  | session session =>
    intro established data packets
    rw [received] at packets
    rw [← Option.some.inj (Except.ok.inj step)] at established ⊢
    exact (expecting established data packets).session session

/-- In every state that a client reaches with packets that fit, further data of this kind is parsed
to its end without an access outside `rx_buffer` or outside the received part of the message,
however the bytes are cut into pbufs. -/
theorem mqtt_accesses_inside {client : MqttClient} {s : MqttWire}
    (run : Run MqttWireStep MessagesFit
      { conn := { client := client, established := false }, received := [] } s)
    (event : MqttEvent) (meets : MessagesFit s event) :
    ∃ next, mqttEvent s.conn event = .ok next := by
  have initial : Expecting
      { conn := { client := client, established := false }, received := [] } :=
    fun established => absurd established Bool.false_ne_true
  have expecting := run.invariant initial fun _ _ _ => MqttWireStep.expecting
  cases event with
  | connected => exact ⟨_, rfl⟩
  | received app p =>
    obtain ⟨b, rest, denotes, packets⟩ := meets
    unfold mqttEvent
    dsimp only
    split
    · rename_i established
      obtain ⟨result, parsed⟩ := @mqttParseIncoming_ok app _ _ _ _ denotes
        (expecting established (b ++ rest) packets)
      rw [parsed, ok_bind]
      exact ⟨_, rfl⟩
    · exact ⟨_, rfl⟩
  | session session => exact ⟨_, rfl⟩

/-- The answer of the server to a `CONNECT` is read inside `rx_buffer`. -/
theorem mqtt_accesses_inside_connack :
    ∃ next, mqttEvent { client := waitingClient [], established := true }
      (.received noCallbacks [pbufRam 0 connack]) = .ok next := by
  have opened : Run MqttWireStep MessagesFit
      { conn := { client := waitingClient [], established := false }, received := [] }
      { conn := { client := waitingClient [], established := true }, received := [] } :=
    Run.single .connected trivial ⟨rfl, rfl⟩
  have packets : PacketsWith PacketFits ([] ++ (connack ++ [])) :=
    .packet 0x20 [0x02] [0x00, 0x00] [] ⟨by decide, [], 0x02, rfl, by decide, nofun⟩ rfl
      (by unfold PacketFits; decide) .nil
  exact mqtt_accesses_inside opened (.received noCallbacks [pbufRam 0 connack])
    ⟨connack, [], Denotes.single rfl (by decide) rfl (by decide), packets⟩

/-- A `PUBLISH` of four bytes announces a topic of 4096 bytes. Its length is only compared with
two, so the byte behind the topic is read and written far outside of `rx_buffer`. -/
theorem mqttPublish_writes_outside :
    Run MqttStep (fun _ _ => True) { client := waitingClient [], established := false }
        { client := waitingClient [], established := true } ∧
      mqttEvent { client := waitingClient [], established := true }
        (.received noCallbacks [pbufRam 0 [0x30, 0x02, 0x10, 0x00]]) =
          .error "rx_buffer: index out of bounds" := by
  have parsed : mqttParseIncoming noCallbacks [pbufRam 0 [0x30, 0x02, 0x10, 0x00]]
      (waitingClient []) = .error "rx_buffer: index out of bounds" := by decide +kernel
  constructor
  · exact Run.refl.tail .connected trivial rfl
  · rw [mqttEvent, if_pos rfl, parsed]
    rfl

end Lwip.Mqtt
