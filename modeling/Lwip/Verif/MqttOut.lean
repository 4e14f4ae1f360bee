import Lwip.Base.Ring
import Lwip.Core.MqttOut
import Lwip.Verif.MqttStream

/-!
# The output ring buffer of an MQTT client

Every message is put into the ring buffer behind the others, and `mqtt_output_send` hands the
bytes to `tcp_write` in the order in which they were put. The remaining length is computed with
16 bits: close to the largest value, the sum with the packet identifier and the size of the whole
message wrap around, and a message that is far too long passes the check of the space. Two
messages also leave out fields that their remaining length counts: a `PUBLISH` without a payload
but with a payload length, and a `CONNECT` with a will that has an empty topic.
-/

namespace Lwip.Mqtt.Out

open Outcome Transition List

variable {rLength len : Nat} {control : UInt8} {body : List UInt8} {args : PublishArgs}
  {info : ClientInfo}

/-! ## Bytes of a message -/

/-- Bytes put one after the other. -/
def putAll (rb : MqttRingbuf) (bytes : List UInt8) : MqttRingbuf := bytes.foldl mqttRingbufPut rb

theorem putAll_putAll (rb : MqttRingbuf) (bytes more : List UInt8) :
    putAll (putAll rb bytes) more = putAll rb (bytes ++ more) :=
  (foldl_append ..).symm

/-- The bytes of a `u16_t`. -/
def u16Bytes (value : Nat) : List UInt8 := [UInt8.ofNat (value >>> 8), UInt8.ofNat (value &&& 0xff)]

/-- The first bytes of some memory. -/
def dataBytes (data : List UInt8) (length : Nat) : List UInt8 :=
  (List.range length).map fun n => data.getD n 0

/-- Seven bits of a remaining length and the bit for a successor. -/
def lengthByte (rLength : Nat) : UInt8 :=
  UInt8.ofNat ((rLength &&& 0x7f) ||| (if rLength ≥ 128 then 0x80 else 0))

/-- The bytes of a remaining length. -/
def lengthBytes : Nat → Nat → List UInt8
  | 0, _ => []
  | passes + 1, rLength =>
    lengthByte rLength :: if rLength >>> 7 > 0 then lengthBytes passes (rLength >>> 7) else []

theorem mqttOutputAppendU16_eq (rb : MqttRingbuf) (value : Nat) :
    mqttOutputAppendU16 rb value = putAll rb (u16Bytes value) := rfl

theorem mqttOutputAppendBuf_eq (rb : MqttRingbuf) (data : List UInt8) (length : Nat) :
    mqttOutputAppendBuf rb data length = putAll rb (dataBytes data length) := by
  rw [mqttOutputAppendBuf, putAll, dataBytes, foldl_map]

/-- `mqtt_output_append_string` puts the length and the data. -/
theorem mqttOutputAppendString_eq (rb : MqttRingbuf) (str : List UInt8) (length : Nat) :
    mqttOutputAppendString rb str length =
      putAll rb (u16Bytes length ++ dataBytes str length) := by
  rw [← putAll_putAll]
  exact mqttOutputAppendBuf_eq _ str length

/-- The loop over the remaining length puts its bytes. -/
theorem mqttOutputAppendLength_eq (passes : Nat) (rb : MqttRingbuf) (rLength : Nat) :
    mqttOutputAppendLength passes rb rLength = putAll rb (lengthBytes passes rLength) := by
  induction passes generalizing rb rLength with
  | zero => rfl
  | succ passes ih =>
    rw [mqttOutputAppendLength, lengthBytes]
    split
    · rw [ih]
      rfl
    · rfl

/-- The first byte of a fixed header. -/
def controlByte (msgType dup qos retain : Nat) : UInt8 :=
  UInt8.ofNat (((msgType &&& 0x0f) <<< 4) ||| ((dup &&& 1) <<< 3) ||| ((qos &&& 3) <<< 1) |||
    (retain &&& 1))

/-- `mqtt_output_append_fixed_header` puts the first byte and the remaining length. -/
theorem mqttOutputAppendFixedHeader_eq (rb : MqttRingbuf) (msgType dup qos retain rLength : Nat) :
    mqttOutputAppendFixedHeader rb msgType dup qos retain rLength =
      putAll rb (controlByte msgType dup qos retain :: lengthBytes u16Passes rLength) :=
  mqttOutputAppendLength_eq u16Passes _ rLength

theorem toNat_lengthByte (rLength : Nat) :
    (lengthByte rLength).toNat = rLength % 128 + if rLength ≥ 128 then 128 else 0 := by
  have low : rLength &&& 0x7f = rLength % 128 := Nat.and_two_pow_sub_one_eq_mod rLength 7
  have digit := Nat.mod_lt rLength (show 0 < 128 by decide)
  have sum : (rLength % 128 ||| if rLength ≥ 128 then 0x80 else 0) =
      rLength % 128 + if rLength ≥ 128 then 128 else 0 := by
    split
    · rw [Nat.or_comm, ← Nat.two_pow_add_eq_or_of_lt (i := 7) digit 1, Nat.add_comm]
    · rw [Nat.or_zero, Nat.add_zero]
  have fits : (rLength % 128 + if rLength ≥ 128 then 128 else 0) < 256 := by
    split <;> omega
  rw [lengthByte, low, sum, UInt8.toNat_ofNat_of_lt' fits]

theorem lengthBytes_spec {passes : Nat} (small : rLength < 128 ^ (passes + 1)) :
    lengthValue (lengthBytes (passes + 1) rLength) = rLength ∧
      (lengthBytes (passes + 1) rLength).length ≤ passes + 1 ∧
      ∃ init last, lengthBytes (passes + 1) rLength = init ++ [last] ∧ last.toNat < 128 ∧
        ∀ d ∈ init, 128 ≤ d.toNat := by
  have byte := toNat_lengthByte rLength
  induction passes generalizing rLength with
  | zero =>
    have none : ¬rLength >>> 7 > 0 := by
      rw [Nat.shiftRight_eq_div_pow]
      omega
    rw [lengthBytes, if_neg none]
    rw [if_neg (by omega), Nat.add_zero] at byte
    refine ⟨?_, Nat.le_refl 1, [], _, rfl, by omega, nofun⟩
    rw [lengthValue, lengthValue, byte]
    omega
  | succ passes ih =>
    rw [lengthBytes]
    by_cases more : rLength >>> 7 > 0
    · rw [if_pos more]
      rw [if_pos (by omega)] at byte
      have next : rLength >>> 7 < 128 ^ (passes + 1) := by
        rw [Nat.pow_succ] at small
        omega
      obtain ⟨value, count, init, last, split, ends, continues⟩ :=
        ih next (toNat_lengthByte (rLength >>> 7))
      refine ⟨?_, Nat.succ_le_succ count, lengthByte rLength :: init, last, ?_, ends, ?_⟩
      · rw [lengthValue, value, byte]
        omega
      · rw [split]
        rfl
      · intro d member
        cases mem_cons.1 member with
        | inl first =>
          rw [first, byte]
          omega
        | inr later => exact continues d later
    · rw [if_neg more]
      rw [if_neg (by omega), Nat.add_zero] at byte
      refine ⟨?_, Nat.succ_le_succ (Nat.zero_le _), [], _, rfl, by omega, nofun⟩
      rw [lengthValue, lengthValue, byte]
      omega

/-- A message: the first byte, the remaining length and the rest. -/
def messageBytes (control : UInt8) (rLength : Nat) (body : List UInt8) : List UInt8 :=
  control :: lengthBytes u16Passes rLength ++ body

/-- A message whose rest is as long as its remaining length is a packet. -/
theorem isPacket_message (small : rLength < 65536) (size : body.length = rLength) :
    IsPacket (messageBytes control rLength body) := by
  have spec := lengthBytes_spec (show rLength < 128 ^ (2 + 1) by omega)
  exact ⟨control, lengthBytes u16Passes rLength, body, ⟨Nat.le_succ_of_le spec.2.1, spec.2.2⟩,
    size.trans spec.1.symm, rfl⟩

/-! ## The ring buffer -/

/-- The bytes in the ring buffer. -/
def MqttRingbuf.contents (rb : MqttRingbuf) : List UInt8 :=
  Ring.contents rb.buf.toList rb.get (mqttRingbufLen rb)

/-- A ring buffer that has never been overrun: what has been put is what `tcp_write` has taken and
what is still there. -/
structure MqttRingbuf.Sound (rb : MqttRingbuf) : Prop where
  indices : rb.put < 65536 ∧ rb.get < 65536
  /-- It has never held more than it has slots. -/
  peak : rb.peak ≤ mqttOutputRingbufSize
  room : mqttRingbufLen rb ≤ mqttOutputRingbufSize
  /-- No byte has been lost. -/
  record : rb.appended = rb.written ++ rb.contents

theorem sound_empty : mqttRingbufEmpty.Sound where
  indices := by decide
  peak := Nat.zero_le _
  room := by decide
  record := by
    have none : mqttRingbufLen mqttRingbufEmpty = 0 := rfl
    rw [MqttRingbuf.contents, none, Ring.contents_zero]
    rfl

theorem and_idxMask (idx : Nat) : idx &&& mqttRingbufIdxMask = idx % mqttOutputRingbufSize :=
  Nat.and_two_pow_sub_one_eq_mod idx 8

section Ring

variable {rb : MqttRingbuf}

theorem length_buf (rb : MqttRingbuf) : rb.buf.toList.length = 256 := Vector.length_toList

/-- A byte put behind the others, if there is a free slot. -/
theorem MqttRingbuf.Sound.put (sound : rb.Sound) (item : UInt8)
    (free : mqttRingbufLen rb < mqttOutputRingbufSize) :
    (mqttRingbufPut rb item).Sound ∧
      mqttRingbufLen (mqttRingbufPut rb item) = mqttRingbufLen rb + 1 := by
  have indices := sound.indices
  have size := length_buf rb
  have slot : rb.put &&& mqttRingbufIdxMask =
      (rb.get + mqttRingbufLen rb) % rb.buf.toList.length := by
    rw [and_idxMask, size]
    unfold mqttRingbufLen toU16 mqttOutputRingbufSize
    omega
  have longer : mqttRingbufLen (mqttRingbufPut rb item) = mqttRingbufLen rb + 1 := by
    unfold mqttOutputRingbufSize at free
    unfold mqttRingbufLen mqttRingbufPut toU16 u16 at *
    dsimp only
    omega
  have peak : (mqttRingbufPut rb item).peak = max rb.peak (mqttRingbufLen rb + 1) := by
    rw [← longer]
    rfl
  refine ⟨⟨⟨?_, indices.2⟩, ?_, ?_, ?_⟩, longer⟩
  · exact Nat.mod_lt _ (by decide)
  · rw [peak]
    exact Nat.max_le.2 ⟨sound.peak, free⟩
  · rw [longer]
    exact free
  · have held : (mqttRingbufPut rb item).contents = rb.contents ++ [item] := by
      unfold MqttRingbuf.contents
      rw [longer]
      change Ring.contents (rb.buf.setIfInBounds (rb.put &&& mqttRingbufIdxMask) item).toList rb.get
        (mqttRingbufLen rb + 1) = _
      rw [Vector.toList_setIfInBounds, slot, Ring.contents_push _ _ (by rw [size]; exact free)]
    rw [held, ← append_assoc]
    change rb.appended ++ [item] = rb.written ++ rb.contents ++ [item]
    rw [sound.record]

/-- Bytes put behind the others, if there are enough free slots. -/
theorem MqttRingbuf.Sound.putAll (sound : rb.Sound) (bytes : List UInt8)
    (free : mqttRingbufLen rb + bytes.length ≤ mqttOutputRingbufSize) :
    (putAll rb bytes).Sound := by
  induction bytes generalizing rb with
  | nil => exact sound
  | cons item bytes ih =>
    rw [length_cons] at free
    have next := sound.put item (by omega)
    apply ih next.1
    rw [next.2]
    omega

theorem appended_putAll (rb : MqttRingbuf) (bytes : List UInt8) :
    (putAll rb bytes).appended = rb.appended ++ bytes := by
  induction bytes generalizing rb with
  | nil => exact (append_nil _).symm
  | cons item bytes ih =>
    change (Out.putAll (mqttRingbufPut rb item) bytes).appended = _
    rw [ih, append_cons]
    rfl

/-- Bytes that `tcp_write` takes from the slots up to the end of the memory. -/
theorem MqttRingbuf.Sound.take (sound : rb.Sound) (linear : len ≤ mqttRingbufLinearReadLength rb) :
    (mqttRingbufAdvanceGetIdx (mqttTcpWrite .ok rb len) len).Sound := by
  have indices := sound.indices
  have room := sound.room
  have size := length_buf rb
  unfold mqttRingbufLinearReadLength at linear
  rw [and_idxMask] at linear
  have fewer : len ≤ mqttRingbufLen rb := by omega
  have straight : rb.get % rb.buf.toList.length + len ≤ rb.buf.toList.length := by
    rw [size]
    unfold mqttOutputRingbufSize at linear
    omega
  have shorter : mqttRingbufLen (mqttRingbufAdvanceGetIdx (mqttTcpWrite .ok rb len) len) =
      mqttRingbufLen rb - len := by
    change toU16 ((rb.put : Int) - u16 (rb.get + len)) = _
    unfold mqttRingbufLen toU16 u16 at *
    omega
  have around : (u16 (rb.get + len)) % rb.buf.toList.length =
      (rb.get + len) % rb.buf.toList.length := by
    rw [size]
    unfold u16
    omega
  refine ⟨⟨indices.1, Nat.mod_lt _ (by decide)⟩, sound.peak, ?_, ?_⟩
  · rw [shorter]
    omega
  unfold MqttRingbuf.contents
  rw [shorter]
  change rb.appended =
    rb.written ++ (rb.buf.toList.drop (rb.get &&& mqttRingbufIdxMask)).take len ++ Ring.contents
      rb.buf.toList (u16 (rb.get + len)) (mqttRingbufLen rb - len)
  rw [sound.record, MqttRingbuf.contents, append_assoc, and_idxMask,
    ← Ring.contents_mod _ (u16 (rb.get + len)), around, Ring.contents_mod]
  have read := Ring.contents_straight rb.buf.toList rb.get straight
  rw [size] at read
  rw [Ring.contents_split _ _ fewer (by rw [size]; exact room), read]
  rfl

/-- The contents that `tcp_write` gets in one piece fit a `u16_t`. -/
theorem u16_linear (rb : MqttRingbuf) :
    u16 (mqttRingbufLinearReadLength rb) = mqttRingbufLinearReadLength rb := by
  apply u16_of_lt
  unfold mqttRingbufLinearReadLength mqttOutputRingbufSize
  omega

/-- `mqtt_output_send` takes bytes from the front. -/
theorem MqttRingbuf.Sound.send (sound : rb.Sound) (tcp : MqttTcp) :
    (mqttOutputSend tcp rb).Sound ∧ (mqttOutputSend tcp rb).appended = rb.appended := by
  -- the length of a call of `tcp_write` that succeeds is the length by which `get` advances
  have taken (rb : MqttRingbuf) (sound : rb.Sound) (err : Err) (len : Nat)
      (linear : len ≤ mqttRingbufLinearReadLength rb) (isOk : err = .ok) :
      (mqttRingbufAdvanceGetIdx (mqttTcpWrite err rb len) len).Sound ∧
        (mqttRingbufAdvanceGetIdx (mqttTcpWrite err rb len) len).appended = rb.appended := by
    rw [isOk]
    exact ⟨sound.take linear, rfl⟩
  have kept (rb : MqttRingbuf) (err : Err) (len : Nat) (failed : ¬err = .ok) :
      mqttTcpWrite err rb len = rb := if_neg failed
  unfold mqttOutputSend
  dsimp only
  rw [u16_linear]
  split
  · exact ⟨sound, rfl⟩
  have linear : (if u16 (tcp.sndbuf 0) > mqttRingbufLinearReadLength rb then
      mqttRingbufLinearReadLength rb else u16 (tcp.sndbuf 0)) ≤
        mqttRingbufLinearReadLength rb := by
    split <;> omega
  generalize (if u16 (tcp.sndbuf 0) > mqttRingbufLinearReadLength rb then
    mqttRingbufLinearReadLength rb else u16 (tcp.sndbuf 0)) = sendLen at linear ⊢
  split
  · rename_i goesOn
    have first := taken rb sound (tcp.write 0) sendLen linear goesOn.1
    generalize mqttRingbufAdvanceGetIdx (mqttTcpWrite (tcp.write 0) rb sendLen) sendLen = rb'
      at first ⊢
    split
    · rename_i isOk
      have fits : u16 (min (u16 (tcp.sndbuf 1)) (mqttRingbufLinearReadLength rb')) ≤
          mqttRingbufLinearReadLength rb' :=
        Nat.le_trans (Nat.mod_le _ _) (Nat.min_le_right _ _)
      have second := taken rb' first.1 (tcp.write 1) _ fits isOk
      exact ⟨second.1, second.2.trans first.2⟩
    · rename_i failed
      rw [kept _ _ _ failed]
      exact first
  · split
    · rename_i isOk
      exact taken rb sound (tcp.write 0) sendLen linear isOk
    · rename_i failed
      rw [kept _ _ _ failed]
      exact ⟨sound, rfl⟩

/-! ## The check of the space -/

/-- The check counts the bytes of the remaining length. -/
theorem mqttOutputCountLength_eq (passes totalLen rLength : Nat) :
    mqttOutputCountLength (passes + 1) totalLen rLength =
      u16 (totalLen + (lengthBytes (passes + 1) rLength).length) := by
  induction passes generalizing totalLen rLength with
  | zero =>
    rw [mqttOutputCountLength, lengthBytes]
    split <;> rfl
  | succ passes ih =>
    rw [mqttOutputCountLength, lengthBytes]
    split
    · rw [ih, length_cons]
      unfold u16
      omega
    · rfl

/-- A message that passes the check fits if its size has 16 bits. -/
theorem free_of_checkSpace (passes : mqttOutputCheckSpace rb rLength = true)
    (small : rLength ≤ 65531) (size : body.length = rLength) :
    mqttRingbufLen rb + (messageBytes control rLength body).length ≤ mqttOutputRingbufSize := by
  have counted : mqttOutputCountLength u16Passes (u16 (1 + rLength)) rLength =
      u16 (u16 (1 + rLength) + (lengthBytes u16Passes rLength).length) :=
    mqttOutputCountLength_eq 2 (u16 (1 + rLength)) rLength
  have most : (lengthBytes u16Passes rLength).length ≤ 3 :=
    (lengthBytes_spec (show rLength < 128 ^ (2 + 1) by omega)).2.1
  have total : (messageBytes control rLength body).length =
      1 + rLength + (lengthBytes u16Passes rLength).length := by
    rw [messageBytes, length_append, length_cons, size]
    omega
  have fits := of_decide_eq_true passes
  unfold mqttRingbufFree at fits
  rw [counted, u16_of_lt (show 1 + rLength < 65536 by omega), u16_of_lt (by omega)] at fits
  rw [total]
  omega

/-- A message that passes the check, has a size of 16 bits and is as long as it says is a packet
that is put behind the others. -/
theorem MqttRingbuf.Sound.message (sound : rb.Sound)
    (passes : mqttOutputCheckSpace rb rLength = true) (small : rLength ≤ 65531)
    (size : body.length = rLength) :
    (Out.putAll rb (messageBytes control rLength body)).Sound ∧
      IsPacket (messageBytes control rLength body) :=
  ⟨sound.putAll _ (free_of_checkSpace passes small size), isPacket_message (by omega) size⟩

end Ring

/-! ## The messages -/

/-- The rest of a `PUBLISH`. -/
def publishBody (args : PublishArgs) (pktId : Nat) : List UInt8 :=
  u16Bytes args.topic.length ++ dataBytes args.topic args.topic.length ++
    (if args.qos.toNat > 0 then u16Bytes pktId else []) ++
    match args.payload with
    | none => []
    | some payload => dataBytes payload args.payloadLength.toNat

/-- Length of the rest of a `PUBLISH`. -/
def publishLength (args : PublishArgs) : Nat :=
  2 + args.topic.length + args.payloadLength.toNat + if args.qos.toNat > 0 then 2 else 0

@[simp] theorem length_dataBytes (data : List UInt8) (length : Nat) :
    (dataBytes data length).length = length := by
  rw [dataBytes, length_map, length_range]

@[simp] theorem length_u16Bytes (value : Nat) : (u16Bytes value).length = 2 := rfl

/-- A `PUBLISH` is as long as it says if there is a payload for the length of it. -/
theorem length_publishBody (given : args.payload = none → args.payloadLength = 0) (pktId : Nat) :
    (publishBody args pktId).length = publishLength args := by
  unfold publishBody publishLength
  cases payload : args.payload with
  | none =>
    rw [given payload]
    simp only [length_append, length_u16Bytes, length_dataBytes]
    split <;> rfl
  | some payload =>
    simp only [length_append, length_u16Bytes, length_dataBytes]
    split
    · rw [length_u16Bytes]
      omega
    · rw [length_nil]
      omega

theorem mqttPublishMessage_eq (rb : MqttRingbuf) (args : PublishArgs) (pktId rLength : Nat) :
    mqttPublishMessage rb args args.topic.length pktId rLength =
      putAll rb (messageBytes (controlByte 3 0 args.qos.toNat args.retain.toNat) rLength
        (publishBody args pktId)) := by
  unfold mqttPublishMessage
  dsimp only
  rw [mqttOutputAppendFixedHeader_eq, mqttOutputAppendString_eq, putAll_putAll]
  have identified (rb : MqttRingbuf) :
      (if args.qos.toNat > 0 then mqttOutputAppendU16 rb pktId else rb) =
        putAll rb (if args.qos.toNat > 0 then u16Bytes pktId else []) := by
    split <;> rfl
  rw [identified, putAll_putAll]
  unfold messageBytes publishBody
  cases args.payload with
  | none => simp only [append_nil, append_assoc]
  | some payload =>
    dsimp only
    split
    · rw [mqttOutputAppendBuf_eq, putAll_putAll]
      simp only [append_assoc]
    · rename_i none
      have zero : args.payloadLength.toNat = 0 := by omega
      rw [zero]
      simp only [dataBytes, range_zero, map_nil, append_nil, append_assoc]

/-- The rest of a `SUBSCRIBE` or an `UNSUBSCRIBE`. -/
def subUnsubBody (args : SubscribeArgs) (pktId : Nat) : List UInt8 :=
  u16Bytes pktId ++ (u16Bytes args.topic.length ++ dataBytes args.topic args.topic.length) ++
    if args.sub then [min args.qos 2] else []

/-- Length of the rest of a `SUBSCRIBE` or an `UNSUBSCRIBE`. -/
def subUnsubLength (args : SubscribeArgs) : Nat :=
  args.topic.length + 2 + 2 + if args.sub then 1 else 0

theorem length_subUnsubBody (args : SubscribeArgs) (pktId : Nat) :
    (subUnsubBody args pktId).length = subUnsubLength args := by
  unfold subUnsubBody subUnsubLength
  simp only [length_append, length_u16Bytes, length_dataBytes]
  split
  · rw [length_singleton]
    omega
  · rw [length_nil]
    omega

theorem mqttSubUnsubMessage_eq (rb : MqttRingbuf) (args : SubscribeArgs) (pktId rLength : Nat) :
    mqttSubUnsubMessage rb args args.topic.length pktId rLength =
      putAll rb (messageBytes (controlByte (if args.sub then 8 else 10) 0 1 0) rLength
        (subUnsubBody args pktId)) := by
  unfold mqttSubUnsubMessage
  dsimp only
  rw [mqttOutputAppendFixedHeader_eq, mqttOutputAppendU16_eq, putAll_putAll,
    mqttOutputAppendString_eq, putAll_putAll]
  unfold messageBytes subUnsubBody
  split
  · change putAll (putAll rb _) [min args.qos 2] = _
    rw [putAll_putAll]
    simp only [append_assoc]
  · simp only [append_nil, append_assoc]

/-- The rest of a `CONNECT`. -/
def connectBody (info : ClientInfo) : List UInt8 :=
  u16Bytes 4 ++ dataBytes [0x4d, 0x51, 0x54, 0x54] 4 ++ [4, UInt8.ofNat (mqttConnectFlags info)] ++
    u16Bytes info.keepAlive.toNat ++
    (u16Bytes info.clientId.length ++ dataBytes info.clientId info.clientId.length) ++
    match info.will with
    | none => []
    | some (topic, msg) =>
      if topic.length > 0 then
        u16Bytes topic.length ++ dataBytes topic topic.length ++
          (u16Bytes msg.length ++ dataBytes msg msg.length)
      else []

/-- Length of the rest of a `CONNECT`. -/
def connectLength (info : ClientInfo) : Nat :=
  12 + info.clientId.length +
    match info.will with
    | none => 0
    | some (topic, msg) => 4 + topic.length + msg.length

/-- A `CONNECT` is as long as it says if its will has a topic. -/
theorem length_connectBody (given : ∀ topic msg, info.will = some (topic, msg) → topic ≠ []) :
    (connectBody info).length = connectLength info := by
  unfold connectBody connectLength
  cases will : info.will with
  | none =>
    simp only [length_append, length_u16Bytes, length_dataBytes, length_cons, length_nil]
    omega
  | some pair =>
    have positive := length_pos_iff.2 (given pair.1 pair.2 will)
    dsimp only
    rw [if_pos positive]
    simp only [length_append, length_u16Bytes, length_dataBytes, length_cons, length_nil]
    omega

theorem mqttConnectMessage_eq (rb : MqttRingbuf) (info : ClientInfo) {topicLen msgLen : Nat}
    (will : mqttConnectWill info len = some (topicLen, msgLen, rLength)) (remaining : Nat) :
    mqttConnectMessage rb info info.clientId.length topicLen msgLen remaining =
      putAll rb (messageBytes (controlByte 1 0 0 0) remaining (connectBody info)) := by
  have start : putAll rb (messageBytes (controlByte 1 0 0 0) remaining (connectBody info)) =
      putAll (mqttConnectMessage rb info info.clientId.length 0 0 remaining)
        (match info.will with
        | none => []
        | some (topic, msg) =>
          if topic.length > 0 then
            u16Bytes topic.length ++ dataBytes topic topic.length ++
              (u16Bytes msg.length ++ dataBytes msg msg.length)
          else []) := by
    unfold mqttConnectMessage
    rw [if_neg (Nat.lt_irrefl 0), mqttOutputAppendFixedHeader_eq, mqttOutputAppendString_eq,
      mqttOutputAppendU16_eq, mqttOutputAppendString_eq]
    change _ = putAll (putAll (putAll (putAll (putAll (putAll rb _) _)
      [4, UInt8.ofNat (mqttConnectFlags info)]) _) _) _
    simp only [putAll_putAll, messageBytes, connectBody, append_assoc, cons_append]
  rw [start]
  unfold mqttConnectWill at will
  unfold ClientInfo.will at will ⊢
  cases given : info.willTopic with
  | none =>
    rw [given] at will
    cases will
    rfl
  | some topic =>
    cases message : info.willMsg with
    | none =>
      rw [given, message] at will
      cases will
      rfl
    | some msg =>
      rw [given, message] at will
      dsimp only at will ⊢
      split at will
      · cases will
      split at will
      · cases will
      split at will
      · cases will
      cases will
      unfold mqttConnectMessage
      dsimp only
      rw [given, message, Option.getD_some, Option.getD_some]
      split
      · rw [mqttOutputAppendString_eq _ topic, mqttOutputAppendString_eq _ msg, putAll_putAll]
        rfl
      · rfl

/-! ## Calls -/

/-- A message of a remaining length has passed the check and been put, and perhaps some bytes have
been sent behind it. -/
structure Appends (rb : MqttRingbuf) (rLength : Nat) (body : List UInt8) (rb' : MqttRingbuf) :
    Prop where
  passes : mqttOutputCheckSpace rb rLength = true
  put : ∃ control, rb' = putAll rb (messageBytes control rLength body) ∨
    ∃ tcp, rb' = mqttOutputSend tcp (putAll rb (messageBytes control rLength body))

/-- A message that is as long as it says is one packet, and the ring buffer stays sound. -/
theorem Appends.sound {rb rb' : MqttRingbuf} (appends : Appends rb rLength body rb')
    (sound : rb.Sound) (small : rLength ≤ 65531) (size : body.length = rLength) :
    rb'.Sound ∧ ∃ packet, IsPacket packet ∧ rb'.appended = rb.appended ++ packet := by
  obtain ⟨control, put⟩ := appends.put
  have message : (putAll rb (messageBytes control rLength body)).Sound ∧
      IsPacket (messageBytes control rLength body) := sound.message appends.passes small size
  have recorded := appended_putAll rb (messageBytes control rLength body)
  cases put with
  | inl put =>
    rw [put]
    exact ⟨message.1, _, message.2, recorded⟩
  | inr sent =>
    obtain ⟨tcp, sent⟩ := sent
    have kept := message.1.send tcp
    rw [sent]
    exact ⟨kept.1, _, message.2, kept.2.trans recorded⟩

/-- A call that fails leaves the output as it is, and one that succeeds appends a message. -/
def Leaves (rb : MqttRingbuf) (rLength : Nat) (body : List UInt8) (result : Err × MqttSender) :
    Prop :=
  (result.1 ≠ .ok ∧ result.2.output = rb) ∨
    (result.1 = .ok ∧ Appends rb rLength body result.2.output)

section Calls

variable (tcp : MqttTcp) (s : MqttSender)

theorem leaves_failed {err : Err} {rb : MqttRingbuf} {s : MqttSender} (failed : err ≠ .ok)
    (same : s.output = rb) : Leaves rb rLength body (err, s) := Or.inl ⟨failed, same⟩

/-- A request that can be queued is sent behind its message. -/
theorem mqttQueueRequest_leaves {rb : MqttRingbuf} (slot pktId : Nat) (cb : Bool)
    (passes : ¬(!mqttOutputCheckSpace rb rLength) = true) :
    Ensures AnyError (mqttQueueRequest tcp s slot pktId cb
      (putAll rb (messageBytes control rLength body))) (Leaves rb rLength body) := by
  rw [Bool.not_eq_true', Bool.not_eq_false] at passes
  exact (ensures_any _).bind fun queue _ => .ok (.inr ⟨rfl, passes, control, Or.inr ⟨tcp, rfl⟩⟩)

/-- The remaining length of a `PUBLISH`, as `mqtt_publish` computes it. -/
def publishRemaining (args : PublishArgs) : Nat :=
  if args.qos.toNat > 0 then
    u16 (u16 (2 + u16 args.topic.length + args.payloadLength.toNat) + 2)
  else u16 (2 + u16 args.topic.length + args.payloadLength.toNat)

/-- The remaining length of a `PUBLISH` is right if it has 16 bits. -/
theorem publishRemaining_eq (small : publishLength args ≤ 65531) :
    publishRemaining args = publishLength args := by
  unfold publishLength at small ⊢
  unfold publishRemaining
  have topic : u16 args.topic.length = args.topic.length := u16_of_lt (by omega)
  rw [topic]
  unfold u16
  split at small <;> rename_i identified
  · rw [if_pos identified, if_pos identified]
    omega
  · rw [if_neg identified, if_neg identified]
    omega

/-- The packet identifier of a `PUBLISH`. -/
def publishPktId (args : PublishArgs) (s : MqttSender) : Nat :=
  if args.qos.toNat > 0 then msgGeneratePacketId s else 0

theorem mqttPublish_output (args : PublishArgs) :
    Ensures AnyError (mqttPublish tcp args s)
      (Leaves s.output (publishRemaining args) (publishBody args (publishPktId args s))) := by
  unfold mqttPublish publishPktId
  split
  · exact .ok (leaves_failed (by decide) rfl)
  split
  · exact .ok (leaves_failed (by decide) rfl)
  have topic : u16 args.topic.length = args.topic.length := u16_of_lt (by omega)
  dsimp only
  split
  · exact .ok (leaves_failed (by decide) rfl)
  have output : (if args.qos.toNat > 0 then { s with
      pktIdSeq := if args.qos.toNat > 0 then msgGeneratePacketId s else 0 } else s).output =
        s.output := by
    split <;> rfl
  generalize (if args.qos.toNat > 0 then { s with
      pktIdSeq := if args.qos.toNat > 0 then msgGeneratePacketId s else 0 } else s) = numbered
    at output ⊢
  generalize (if args.qos.toNat > 0 then msgGeneratePacketId s else 0) = pktId
  split
  · exact .ok (leaves_failed (by decide) output)
  change Ensures _ (if !mqttOutputCheckSpace numbered.output (publishRemaining args) then _ else
    mqttQueueRequest tcp numbered _ pktId args.cb (mqttPublishMessage numbered.output args
      (u16 args.topic.length) pktId (publishRemaining args))) _
  rw [output, topic, mqttPublishMessage_eq]
  split
  · exact .ok (leaves_failed (by decide) output)
  · rename_i passes
    exact mqttQueueRequest_leaves tcp numbered _ _ _ passes

theorem mqttSubUnsub_output (args : SubscribeArgs) :
    Ensures AnyError (mqttSubUnsub tcp args s)
      (Leaves s.output (subUnsubLength args) (subUnsubBody args (msgGeneratePacketId s))) := by
  unfold mqttSubUnsub
  split
  · exact .ok (leaves_failed (by decide) rfl)
  have topic : u16 args.topic.length = args.topic.length := u16_of_lt (by omega)
  have length : args.topic.length + 2 + 2 + (if args.sub = true then 1 else 0) =
      subUnsubLength args := rfl
  dsimp only
  rw [topic, length]
  split
  · exact .ok (leaves_failed (by decide) rfl)
  apply ensures_pass trivial
  rw [u16_of_lt (by omega)]
  unfold mqttSubUnsubChecked
  split
  · exact .ok (leaves_failed (by decide) rfl)
  dsimp only
  split
  · exact .ok (leaves_failed (by decide) rfl)
  rw [mqttSubUnsubMessage_eq]
  split
  · exact .ok (leaves_failed (by decide) rfl)
  · rename_i passes
    exact mqttQueueRequest_leaves tcp _ _ _ _ passes

/-- The ring buffer a call of `mqtt_client_connect` starts with: it is cleared if there is no
connection. -/
def connectRingbuf (s : MqttSender) : MqttRingbuf :=
  if s.connState = .tcpDisconnected then mqttRingbufEmpty else s.output

theorem mqttConnectWill_spec {topicLen msgLen : Nat}
    (will : mqttConnectWill info len = some (topicLen, msgLen, rLength)) :
    rLength = len + match info.will with
      | none => 0
      | some (topic, msg) => 4 + topic.length + msg.length := by
  unfold mqttConnectWill at will
  cases given : info.will with
  | none =>
    rw [given] at will
    cases will
    rfl
  | some both =>
    rw [given] at will
    dsimp only at will
    split at will
    · cases will
    split at will
    · cases will
    split at will
    · cases will
    · cases will
      dsimp only
      rw [u16_of_lt (by omega)]
      omega

/-- What `mqtt_client_connect` does to the output. -/
theorem mqttClientConnect_output (info : ClientInfo) :
    Leaves (connectRingbuf s) (connectLength info) (connectBody info)
      (mqttClientConnect tcp info s) := by
  unfold mqttClientConnect
  split
  · rename_i connected
    rw [connectRingbuf, if_neg connected]
    exact leaves_failed (by decide) rfl
  rename_i unconnected
  rw [Decidable.not_not] at unconnected
  rw [connectRingbuf, if_pos unconnected]
  dsimp only
  split
  · exact leaves_failed (by decide) rfl
  rename_i topicLen msgLen rLength will
  have remaining := mqttConnectWill_spec will
  split
  · exact leaves_failed (by decide) rfl
  have identifier : u16 info.clientId.length = info.clientId.length := u16_of_lt (by omega)
  rw [identifier]
  split
  · exact leaves_failed (by decide) rfl
  have length : u16 (rLength + 2 + info.clientId.length) = connectLength info := by
    rw [u16_of_lt (by omega), remaining]
    unfold connectLength
    omega
  rw [length, mqttConnectMessage_eq _ info will]
  split
  · exact leaves_failed (by decide) rfl
  rename_i passes
  rw [Bool.not_eq_true', Bool.not_eq_false] at passes
  split
  · exact leaves_failed (by decide) rfl
  split
  · rename_i refused
    exact leaves_failed refused rfl
  split
  · rename_i refused
    exact leaves_failed refused rfl
  · exact .inr ⟨rfl, passes, _, Or.inl rfl⟩

theorem pubAckRecRelResponse_output (msg pktId qos : Nat) :
    Leaves s.output 2 (u16Bytes pktId) (pubAckRecRelResponse tcp msg pktId qos s) := by
  unfold pubAckRecRelResponse
  split
  · rename_i passes
    rw [mqttOutputAppendFixedHeader_eq, mqttOutputAppendU16_eq, putAll_putAll]
    exact .inr ⟨rfl, passes, _, Or.inr ⟨tcp, rfl⟩⟩
  · exact leaves_failed (by decide) rfl

/-- What the keep-alive message does to the output. -/
theorem mqttPingreq_output : Leaves s.output 0 [] (mqttPingreq s) := by
  unfold mqttPingreq
  split
  · rename_i passes
    rw [mqttOutputAppendFixedHeader_eq]
    exact .inr ⟨rfl, passes, controlByte 12 0 0 0, Or.inl rfl⟩
  · exact leaves_failed (by decide) rfl

end Calls

/-! ## Runs -/

/-- Whether an event appends a message. -/
def MqttOutEvent.appends : MqttOutEvent → Bool
  | .send _ | .session .. => false
  | _ => true

/-- The ring buffer an event starts with. -/
def MqttOutEvent.ringbuf (s : MqttSender) : MqttOutEvent → MqttRingbuf
  | .connect _ _ => connectRingbuf s
  | _ => s.output

/-- A call that succeeds is for a message whose size has 16 bits and that has all the fields that
are counted. -/
def MqttOutEvent.Counted (s : MqttSender) : MqttOutEvent → Prop
  | .connect tcp info => (mqttClientConnect tcp info s).1 = .ok →
      connectLength info ≤ 65531 ∧ ∀ topic msg, info.will = some (topic, msg) → topic ≠ []
  | .publish tcp args => (mqttPublish tcp args s).map Prod.fst = .ok .ok →
      publishLength args ≤ 65531 ∧ (args.payload = none → args.payloadLength = 0)
  | .subUnsub tcp args => (mqttSubUnsub tcp args s).map Prod.fst = .ok .ok →
      subUnsubLength args ≤ 65531
  | _ => True

section Runs

variable {s s' : MqttSender} {event : MqttOutEvent} {err : Err}

/-- What an event does to the output: it appends one message, or none. -/
theorem mqttOutEvent_output (counted : event.Counted s)
    (called : mqttOutEvent s event = .ok (err, s')) :
    (event.appends = true ∧ err = .ok ∧ ∃ rLength body, rLength ≤ 65531 ∧ body.length = rLength ∧
        Appends (event.ringbuf s) rLength body s'.output) ∨
      ((event.appends = true → err ≠ .ok) ∧
        (s'.output = event.ringbuf s ∨
          ∃ tcp, s'.output = mqttOutputSend tcp (event.ringbuf s))) := by
  have message {rLength : Nat} {body : List UInt8} (isMessage : event.appends = true)
      (leaves : Leaves (event.ringbuf s) rLength body (err, s'))
      (right : err = .ok → rLength ≤ 65531 ∧ body.length = rLength) :
      (event.appends = true ∧ err = .ok ∧ ∃ rLength body, rLength ≤ 65531 ∧ body.length = rLength ∧
          Appends (event.ringbuf s) rLength body s'.output) ∨
        ((event.appends = true → err ≠ .ok) ∧ (s'.output = event.ringbuf s ∨
          ∃ tcp, s'.output = mqttOutputSend tcp (event.ringbuf s))) := by
    rcases leaves with ⟨failed, same⟩ | ⟨succeeds, appends⟩
    · exact .inr ⟨fun _ => failed, Or.inl same⟩
    · have given := right succeeds
      exact .inl ⟨isMessage, succeeds, _, _, given.1, given.2, appends⟩
  cases event with
  | connect tcp info =>
    have called : mqttClientConnect tcp info s = (err, s') := Except.ok.inj called
    refine message rfl (called ▸ mqttClientConnect_output tcp s info) fun succeeds => ?_
    have fields := counted ((congrArg Prod.fst called).trans succeeds)
    exact ⟨fields.1, length_connectBody fields.2⟩
  | publish tcp args =>
    have called : mqttPublish tcp args s = .ok (err, s') := called
    refine message rfl ((mqttPublish_output tcp s args).of_ok called) fun succeeds => ?_
    have fields := counted (by rw [called, succeeds]; rfl)
    rw [publishRemaining_eq fields.1]
    exact ⟨fields.1, length_publishBody fields.2 _⟩
  | subUnsub tcp args =>
    have called : mqttSubUnsub tcp args s = .ok (err, s') := called
    refine message rfl ((mqttSubUnsub_output tcp s args).of_ok called) fun succeeds => ?_
    exact ⟨counted (by rw [called, succeeds]; rfl), length_subUnsubBody args _⟩
  | response tcp msg pktId qos =>
    have leaves := pubAckRecRelResponse_output tcp s msg pktId qos
    rw [Except.ok.inj called] at leaves
    exact message rfl leaves fun _ => ⟨by decide, rfl⟩
  | pingreq =>
    have leaves := mqttPingreq_output s
    rw [Except.ok.inj called] at leaves
    exact message rfl leaves fun _ => ⟨by decide, rfl⟩
  | send tcp =>
    cases called
    exact .inr ⟨nofun, Or.inr ⟨tcp, rfl⟩⟩
  | session connState reqUsed pendReqQueue =>
    cases called
    exact .inr ⟨nofun, Or.inl rfl⟩

/-- The ring buffer an event starts with is sound. -/
theorem sound_ringbuf (sound : s.output.Sound) (event : MqttOutEvent) :
    (event.ringbuf s).Sound := by
  cases event with
  | connect tcp info =>
    change (connectRingbuf s).Sound
    unfold connectRingbuf
    split
    · exact sound_empty
    · exact sound
  | publish | subUnsub | response | pingreq | send | session => exact sound

/-- An event keeps the ring buffer sound, and appends one packet if it is a call that succeeds and
nothing otherwise. -/
theorem mqttOutEvent_sound (sound : s.output.Sound) (counted : event.Counted s)
    (called : mqttOutEvent s event = .ok (err, s')) :
    s'.output.Sound ∧
      if event.appends ∧ err = .ok then
        ∃ packet, IsPacket packet ∧ s'.output.appended = (event.ringbuf s).appended ++ packet
      else s'.output.appended = (event.ringbuf s).appended := by
  have start := sound_ringbuf sound event
  rcases mqttOutEvent_output counted called with
    ⟨isMessage, isOk, rLength, body, small, size, appends⟩ | ⟨failed, output⟩
  · rw [if_pos ⟨isMessage, isOk⟩]
    exact appends.sound start small size
  rw [if_neg (fun succeeds => failed succeeds.1 succeeds.2)]
  cases output with
  | inl same =>
    rw [same]
    exact ⟨start, rfl⟩
  | inr sent =>
    obtain ⟨tcp, sent⟩ := sent
    rw [sent]
    exact start.send tcp

end Runs

/-- In every run whose calls that succeed have messages whose size has 16 bits and all the fields
that are counted, the ring buffer is never overrun, and what has been put is what `tcp_write` has
taken, in that order, and what is still there. A call that succeeds appends one well-formed packet,
and one that fails appends nothing. -/
theorem mqtt_output_in_order {s : MqttSender}
    (run : Run MqttOutStep (fun s event => event.Counted s) mqttClientNew s) :
    s.output.peak ≤ mqttOutputRingbufSize ∧
      s.output.appended = s.output.written ++ s.output.contents ∧
      ∀ event err s', event.Counted s → mqttOutEvent s event = .ok (err, s') →
        if event.appends ∧ err = .ok then
          ∃ packet, IsPacket packet ∧ s'.output.appended = (event.ringbuf s).appended ++ packet
        else s'.output.appended = (event.ringbuf s).appended := by
  have kept (s : MqttSender) (event : MqttOutEvent) (s' : MqttSender) (sound : s.output.Sound)
      (counted : event.Counted s) (step : MqttOutStep s event s') : s'.output.Sound := by
    obtain ⟨err, called⟩ := step
    exact (mqttOutEvent_sound sound counted called).1
  have sound := run.invariant sound_empty kept
  refine ⟨sound.peak, sound.record, ?_⟩
  intro event err s' counted called
  exact (mqttOutEvent_sound sound counted called).2

/-- The client after an event that succeeds. -/
def mqttOutNext (s : MqttSender) (event : MqttOutEvent) : MqttSender :=
  match mqttOutEvent s event with
  | .ok (_, s') => s'
  | .error _ => s

/-- An event without a failed assertion is a step. -/
theorem mqttOutStep_next {s : MqttSender} {event : MqttOutEvent}
    (succeeds : (mqttOutEvent s event).isOk = true) :
    MqttOutStep s event (mqttOutNext s event) := by
  unfold mqttOutNext
  cases called : mqttOutEvent s event with
  | ok result => exact ⟨result.1, called⟩
  | error message =>
    rw [called] at succeeds
    cases succeeds

/-- A TCP connection that takes everything. -/
def openTcp : MqttTcp :=
  { sndbuf := fun _ => 1000, write := fun _ => .ok, new := true, bind := .ok, connect := .ok }

/-- A client without a will. -/
def plainInfo : ClientInfo :=
  { clientId := [0x61], keepAlive := 0, willTopic := none, willMsg := none, willQos := 0
    willRetain := false }

/-- The client behind its first call of `mqtt_client_connect`. -/
def connected : MqttSender := mqttOutNext mqttClientNew (.connect openTcp plainInfo)

/-- Two bytes for a topic. -/
def twoBytes : PublishArgs :=
  { topic := [0x74], payload := some [1, 2], payloadLength := 2, qos := 1, retain := 0
    cb := false }

/-- A client connects and publishes two bytes. -/
theorem mqtt_output_in_order_published :
    ∃ s, Run MqttOutStep (fun s event => event.Counted s) mqttClientNew s ∧
      s.output.written = [0x10, 13, 0, 4, 0x4d, 0x51, 0x54, 0x54, 4, 2, 0, 0, 0, 1, 0x61] ++
        [0x32, 7, 0, 1, 0x74, 0, 1, 1, 2] ∧
      s.output.peak ≤ mqttOutputRingbufSize ∧
      s.output.appended = s.output.written ++ s.output.contents := by
  have first : MqttOutStep mqttClientNew (.connect openTcp plainInfo) connected :=
    mqttOutStep_next rfl
  have second : MqttOutStep connected (.publish openTcp twoBytes)
      (mqttOutNext connected (.publish openTcp twoBytes)) := mqttOutStep_next (by decide +kernel)
  have run : Run MqttOutStep (fun s event => event.Counted s) mqttClientNew
      (mqttOutNext connected (.publish openTcp twoBytes)) :=
    (Run.single (.connect openTcp plainInfo) (fun _ => ⟨by decide, nofun⟩) first).tail
      (.publish openTcp twoBytes) (fun _ => ⟨by decide, nofun⟩) second
  have order := mqtt_output_in_order run
  exact ⟨_, run, by decide +kernel, order.1, order.2.1⟩

/-- A packet whose remaining length has one byte is as long as that byte says. -/
theorem isPacket_length {kind digit : UInt8} {rest : List UInt8}
    (packet : IsPacket (kind :: digit :: rest)) (single : digit.toNat < 128) :
    rest.length = digit.toNat := by
  obtain ⟨kind', digits, body, isLength, size, same⟩ := packet
  obtain ⟨init, last, split, ends, continues⟩ := isLength.ends
  have tail : digit :: rest = init ++ [last] ++ body := by
    rw [← split]
    exact (List.cons.inj same).2
  cases init with
  | nil =>
    have parts : digit = last ∧ rest = body := List.cons.inj tail
    rw [split, nil_append, lengthValue, lengthValue, ← parts.1] at size
    rw [parts.2, size]
    omega
  | cons first init =>
    have parts := List.cons.inj tail
    have more := continues first mem_cons_self
    rw [parts.1] at single
    omega

section Overrun

variable {rb : MqttRingbuf}

theorem peak_le_putAll (rb : MqttRingbuf) (bytes : List UInt8) :
    rb.peak ≤ (putAll rb bytes).peak := by
  induction bytes generalizing rb with
  | nil => exact Nat.le_refl _
  | cons item bytes ih => exact Nat.le_trans (Nat.le_max_left _ _) (ih (mqttRingbufPut rb item))

/-- More bytes than there are slots overrun the ring buffer. -/
theorem overrun_putAll (indices : rb.put < 65536 ∧ rb.get < 65536) {bytes : List UInt8}
    (fits : mqttRingbufLen rb ≤ mqttOutputRingbufSize)
    (many : mqttOutputRingbufSize < mqttRingbufLen rb + bytes.length) :
    mqttOutputRingbufSize < (putAll rb bytes).peak := by
  induction bytes generalizing rb with
  | nil => exact absurd many (Nat.not_lt.2 fits)
  | cons item bytes ih =>
    have longer : mqttRingbufLen (mqttRingbufPut rb item) = mqttRingbufLen rb + 1 := by
      unfold mqttOutputRingbufSize at fits
      unfold mqttRingbufLen mqttRingbufPut toU16 u16 at *
      dsimp only
      omega
    have held : mqttRingbufLen (mqttRingbufPut rb item) ≤ (mqttRingbufPut rb item).peak :=
      Nat.le_max_right _ _
    by_cases full : mqttRingbufLen rb = mqttOutputRingbufSize
    · have beyond := peak_le_putAll (mqttRingbufPut rb item) bytes
      change _ < (putAll (mqttRingbufPut rb item) bytes).peak
      omega
    · rw [length_cons] at many
      exact ih ⟨Nat.mod_lt _ (by decide), indices.2⟩ (by omega) (by omega)

/-- `mqtt_output_send` does not change the largest number of bytes held. -/
theorem peak_mqttOutputSend (tcp : MqttTcp) (rb : MqttRingbuf) :
    (mqttOutputSend tcp rb).peak = rb.peak := by
  have written (err : Err) (rb : MqttRingbuf) (len : Nat) :
      (mqttTcpWrite err rb len).peak = rb.peak := by
    unfold mqttTcpWrite
    split <;> rfl
  have advanced (rb : MqttRingbuf) (len : Nat) :
      (mqttRingbufAdvanceGetIdx rb len).peak = rb.peak := rfl
  unfold mqttOutputSend
  dsimp only
  split
  · rfl
  · generalize (if u16 (tcp.sndbuf 0) > _ then _ else _) = sendLen
    split
    · split <;> simp only [written, advanced]
    · split <;> simp only [written, advanced]

end Overrun

/-- A payload that is `NULL`, with a length of five. -/
def missingPayload : PublishArgs :=
  { topic := [0x74], payload := none, payloadLength := 5, qos := 0, retain := 0, cb := false }

/-- A will with an empty topic. -/
def emptyWill : ClientInfo := { plainInfo with willTopic := some [], willMsg := some [0x78] }

/-- A payload for which the remaining length is one byte too long for 16 bits. -/
def longPayload : PublishArgs :=
  { topic := [0x74, 0x74, 0x74], payload := some [], payloadLength := 65530, qos := 1, retain := 0
    cb := false }

/-- `mqtt_publish` with the long payload succeeds and overruns the ring buffer. -/
theorem mqttPublish_longPayload :
    ∃ s', mqttPublish openTcp longPayload connected = .ok (.ok, s') ∧
      mqttOutputRingbufSize < s'.output.peak := by
  have isOpen : ¬connected.connState = .tcpDisconnected := by decide +kernel
  have identified : longPayload.qos.toNat > 0 := by decide
  have remaining : u16 (u16 (2 + u16 longPayload.topic.length + longPayload.payloadLength.toNat) +
      2) = 1 := by decide
  have pktId : msgGeneratePacketId connected = 1 := by decide +kernel
  have slot : mqttCreateRequest { connected with pktIdSeq := 1 } = some 0 := by decide +kernel
  have passes : mqttOutputCheckSpace connected.output 1 = true := by decide +kernel
  have queue : mqttAppendRequest connected.pendReqQueue
      { slot := 0, cb := longPayload.cb, pktId := 1, timeoutDiff := 0 } =
        .ok [{ slot := 0, cb := false, pktId := 1, timeoutDiff := 30 }] := by decide +kernel
  have returns : ∃ s', mqttPublish openTcp longPayload connected = .ok (.ok, s') := by
    unfold mqttPublish
    rw [if_neg isOpen, if_neg (by decide)]
    dsimp only
    rw [if_neg (by decide), if_pos identified, if_pos identified, if_pos identified, remaining,
      pktId, slot]
    dsimp only
    rw [passes]
    unfold mqttQueueRequest
    rw [queue]
    exact ⟨_, rfl⟩
  obtain ⟨s', called⟩ := returns
  refine ⟨s', called, ?_⟩
  have appends := (((mqttPublish_output _ _ _).of_ok called).resolve_left fun failed =>
    failed.1 rfl).2
  generalize publishPktId longPayload connected = pktId at appends
  have indices : connected.output.put < 65536 ∧ connected.output.get < 65536 := by decide +kernel
  have room : mqttRingbufLen connected.output ≤ mqttOutputRingbufSize := by decide +kernel
  have beyond (control : UInt8) : mqttOutputRingbufSize < (putAll connected.output
      (messageBytes control (publishRemaining longPayload)
        (publishBody longPayload pktId))).peak := by
    apply overrun_putAll indices room
    have size : (publishBody longPayload pktId).length = publishLength longPayload :=
      length_publishBody (fun missing => absurd missing (Option.some_ne_none _)) pktId
    have long : mqttOutputRingbufSize < publishLength longPayload := by decide
    rw [messageBytes, length_append, size]
    omega
  obtain ⟨control, put | ⟨tcp, sent⟩⟩ := appends.put
  · rw [put]
    exact beyond control
  · rw [sent, peak_mqttOutputSend]
    exact beyond control

/-- Messages that are not counted right: a `PUBLISH` without its payload, a `CONNECT` without its
will, and a `PUBLISH` whose remaining length wraps around, which overruns the ring buffer. -/
theorem mqtt_output_miscounted :
    (Run MqttOutStep (fun _ _ => True) mqttClientNew connected) ∧
      (∃ s', mqttPublish openTcp missingPayload connected = .ok (.ok, s') ∧
        ¬∃ packet, IsPacket packet ∧ s'.output.appended = connected.output.appended ++ packet) ∧
      (∃ s', mqttClientConnect openTcp emptyWill mqttClientNew = (.ok, s') ∧
        ¬IsPacket s'.output.appended) ∧
      ∃ s', mqttPublish openTcp longPayload connected = .ok (.ok, s') ∧
        mqttOutputRingbufSize < s'.output.peak := by
  have step : MqttOutStep mqttClientNew (.connect openTcp plainInfo) connected :=
    mqttOutStep_next rfl
  refine ⟨Run.single _ trivial step, ?_, ?_, mqttPublish_longPayload⟩
  · have returns : (mqttPublish openTcp missingPayload connected).map
        (fun result => (result.1, result.2.output.appended)) =
          .ok (.ok, connected.output.appended ++ [0x30, 8, 0, 1, 0x74]) := by
      decide +kernel
    cases called : mqttPublish openTcp missingPayload connected with
    | error message =>
      rw [called] at returns
      cases returns
    | ok result =>
      rw [called] at returns
      have values : (result.1, result.2.output.appended) = _ := Except.ok.inj returns
      have returned : result.1 = .ok := congrArg Prod.fst values
      refine ⟨result.2, congrArg Except.ok (Prod.ext returned rfl), ?_⟩
      rintro ⟨packet, isPacket, appended⟩
      have same := append_cancel_left (appended.symm.trans (congrArg Prod.snd values))
      rw [same] at isPacket
      exact absurd (isPacket_length isPacket (by decide)) (by decide)
  · have returned : (mqttClientConnect openTcp emptyWill mqttClientNew).1 = .ok := by decide +kernel
    have appended : (mqttClientConnect openTcp emptyWill mqttClientNew).2.output.appended =
        [0x10, 18, 0, 4, 0x4d, 0x51, 0x54, 0x54, 4, 6, 0, 0, 0, 1, 0x61] := by
      decide +kernel
    refine ⟨(mqttClientConnect openTcp emptyWill mqttClientNew).2, Prod.ext returned rfl, ?_⟩
    rw [appended]
    intro isPacket
    exact absurd (isPacket_length isPacket (by decide)) (by decide)

end Lwip.Mqtt.Out
