import Lwip.Core.Mqtt

/-!
# MQTT client: sent messages

The output ring buffer of `apps/mqtt/mqtt.c`, the functions that append a message to it, and
`mqtt_output_send`. A string is given by its bytes without the final zero. What the functions of
the TCP connection return is an argument. The ring buffer records the bytes that are put into it
and those that `tcp_write` takes.
-/

namespace Lwip.Mqtt.Out

def mqttOutputRingbufSize : Nat := 256

def mqttRingbufIdxMask : Nat := mqttOutputRingbufSize - 1

/-- `struct mqtt_ringbuf_t`, with a record of what has happened to it. -/
structure MqttRingbuf where
  /-- Number of bytes put, modulo `2 ^ 16`. -/
  put : Nat
  /-- Number of bytes taken, modulo `2 ^ 16`. -/
  get : Nat
  buf : Vector UInt8 mqttOutputRingbufSize
  /-- All bytes that have been put. -/
  appended : List UInt8
  /-- All bytes that `tcp_write` has taken. -/
  written : List UInt8
  /-- The largest value of `put - get`. -/
  peak : Nat
  deriving DecidableEq, Repr

/-- A ring buffer that has been cleared. -/
def mqttRingbufEmpty : MqttRingbuf :=
  { put := 0, get := 0, buf := Vector.replicate mqttOutputRingbufSize 0, appended := []
    written := [], peak := 0 }

def mqttRingbufLen (rb : MqttRingbuf) : Nat := toU16 ((rb.put : Int) - rb.get)

def mqttRingbufPut (rb : MqttRingbuf) (item : UInt8) : MqttRingbuf :=
  { rb with
    buf := rb.buf.setIfInBounds (rb.put &&& mqttRingbufIdxMask) item
    put := u16 (rb.put + 1)
    appended := rb.appended ++ [item]
    peak := max rb.peak (toU16 ((u16 (rb.put + 1) : Int) - rb.get)) }

def mqttRingbufFree (rb : MqttRingbuf) : Int := (mqttOutputRingbufSize : Int) - mqttRingbufLen rb

def mqttRingbufLinearReadLength (rb : MqttRingbuf) : Nat :=
  min (mqttRingbufLen rb) (mqttOutputRingbufSize - (rb.get &&& mqttRingbufIdxMask))

def mqttRingbufAdvanceGetIdx (rb : MqttRingbuf) (len : Nat) : MqttRingbuf :=
  { rb with get := u16 (rb.get + len) }

/-! ## Transmission -/

/-- What the functions of the TCP connection return during a call. -/
structure MqttTcp where
  /-- `tcp_sndbuf`, the first and the second time. -/
  sndbuf : Nat → Nat
  /-- `tcp_write`, the first and the second time. -/
  write : Nat → Err
  /-- Whether `tcp_new` finds memory. -/
  new : Bool
  bind : Err
  connect : Err

/-- A call of `tcp_write` for `len` bytes from `mqtt_ringbuf_get_ptr` on. -/
def mqttTcpWrite (err : Err) (rb : MqttRingbuf) (len : Nat) : MqttRingbuf :=
  if err = .ok then
    { rb with written :=
        rb.written ++ (rb.buf.toList.drop (rb.get &&& mqttRingbufIdxMask)).take len }
  else rb

def mqttOutputSend (tcp : MqttTcp) (rb : MqttRingbuf) : MqttRingbuf :=
  let ringbufLinLen := u16 (mqttRingbufLinearReadLength rb)
  let sndbuf := u16 (tcp.sndbuf 0)
  if sndbuf = 0 ∨ ringbufLinLen = 0 then rb
  else
    let sendLen := if sndbuf > ringbufLinLen then ringbufLinLen else sndbuf
    let wrap := sndbuf > ringbufLinLen ∧ mqttRingbufLen rb > ringbufLinLen
    let first := mqttTcpWrite (tcp.write 0) rb sendLen
    if tcp.write 0 = .ok ∧ wrap then
      let rb := mqttRingbufAdvanceGetIdx first sendLen
      let sendLen := u16 (min (u16 (tcp.sndbuf 1)) (mqttRingbufLinearReadLength rb))
      let second := mqttTcpWrite (tcp.write 1) rb sendLen
      if tcp.write 1 = .ok then mqttRingbufAdvanceGetIdx second sendLen else second
    else if tcp.write 0 = .ok then mqttRingbufAdvanceGetIdx first sendLen
    else first

/-! ## Messages -/

def mqttOutputAppendU8 (rb : MqttRingbuf) (value : UInt8) : MqttRingbuf := mqttRingbufPut rb value

def mqttOutputAppendU16 (rb : MqttRingbuf) (value : Nat) : MqttRingbuf :=
  mqttRingbufPut (mqttRingbufPut rb (UInt8.ofNat (value >>> 8))) (UInt8.ofNat (value &&& 0xff))

def mqttOutputAppendBuf (rb : MqttRingbuf) (data : List UInt8) (length : Nat) : MqttRingbuf :=
  (List.range length).foldl (fun rb n => mqttRingbufPut rb (data.getD n 0)) rb

def mqttOutputAppendString (rb : MqttRingbuf) (str : List UInt8) (length : Nat) : MqttRingbuf :=
  let rb := mqttRingbufPut (mqttRingbufPut rb (UInt8.ofNat (length >>> 8)))
    (UInt8.ofNat (length &&& 0xff))
  (List.range length).foldl (fun rb n => mqttRingbufPut rb (str.getD n 0)) rb

/-- The loop over the remaining length in `mqtt_output_append_fixed_header`. -/
def mqttOutputAppendLength : Nat → MqttRingbuf → Nat → MqttRingbuf
  | 0, rb, _ => rb
  | passes + 1, rb, rLength =>
    let rb := mqttOutputAppendU8 rb
      (UInt8.ofNat ((rLength &&& 0x7f) ||| (if rLength ≥ 128 then 0x80 else 0)))
    if rLength >>> 7 > 0 then mqttOutputAppendLength passes rb (rLength >>> 7) else rb

/-- Passes of a loop that takes seven bits of a `u16_t` at a time. -/
def u16Passes : Nat := 3

def mqttOutputAppendFixedHeader (rb : MqttRingbuf) (msgType dup qos retain rLength : Nat) :
    MqttRingbuf :=
  mqttOutputAppendLength u16Passes (mqttOutputAppendU8 rb (UInt8.ofNat
    (((msgType &&& 0x0f) <<< 4) ||| ((dup &&& 1) <<< 3) ||| ((qos &&& 3) <<< 1) |||
      (retain &&& 1)))) rLength

/-- The loop over the remaining length in `mqtt_output_check_space`. -/
def mqttOutputCountLength : Nat → Nat → Nat → Nat
  | 0, totalLen, _ => totalLen
  | passes + 1, totalLen, rLength =>
    if rLength >>> 7 > 0 then mqttOutputCountLength passes (u16 (totalLen + 1)) (rLength >>> 7)
    else u16 (totalLen + 1)

def mqttOutputCheckSpace (rb : MqttRingbuf) (rLength : Nat) : Bool :=
  (mqttOutputCountLength u16Passes (u16 (1 + rLength)) rLength : Int) ≤ mqttRingbufFree rb

/-! ## Requests -/

def mqttReqMaxInFlight : Nat := 4

def mqttReqTimeout : Nat := 30

/-- `struct mqtt_client_t`, as far as sent messages go. -/
structure MqttSender where
  connState : MqttConnState
  pktIdSeq : Nat
  reqUsed : List Bool
  pendReqQueue : List MqttRequest
  output : MqttRingbuf
  deriving DecidableEq, Repr

/-- `mqtt_client_new`: all is zero, which no unused item of `req_list` is. -/
def mqttClientNew : MqttSender :=
  { connState := .tcpDisconnected, pktIdSeq := 0
    reqUsed := List.replicate mqttReqMaxInFlight true, pendReqQueue := []
    output := mqttRingbufEmpty }

def mqttInitRequests (s : MqttSender) : MqttSender :=
  { s with reqUsed := List.replicate mqttReqMaxInFlight false }

/-- `msg_generate_packet_id`: the new value of `pkt_id_seq`. -/
def msgGeneratePacketId (s : MqttSender) : Nat :=
  if u16 (s.pktIdSeq + 1) = 0 then 1 else u16 (s.pktIdSeq + 1)

/-- `mqtt_create_request`: the item of `req_list` that is taken. -/
def mqttCreateRequest (s : MqttSender) : Option Nat :=
  (List.range mqttReqMaxInFlight).find? fun n => !s.reqUsed.getD n true

def mqttAppendRequest (queue : List MqttRequest) (r : MqttRequest) :
    Asserting (List MqttRequest) := do
  let timeBefore := queue.foldl (fun time iter => toS16 (time + iter.timeoutDiff)) 0
  lwipAssert "mqtt_append_request: time_before <= MQTT_REQ_TIMEOUT" (timeBefore ≤ mqttReqTimeout)
  .ok (queue ++ [{ r with timeoutDiff := toU16 ((mqttReqTimeout : Int) - timeBefore) }])

/-- The end of a call that has appended a message: its request is queued, and as much as possible
is sent. -/
def mqttQueueRequest (tcp : MqttTcp) (s : MqttSender) (slot pktId : Nat) (cb : Bool)
    (output : MqttRingbuf) : Asserting (Err × MqttSender) := do
  let queue ← mqttAppendRequest s.pendReqQueue
    { slot := slot, cb := cb, pktId := pktId, timeoutDiff := 0 }
  .ok (.ok, { s with
    reqUsed := s.reqUsed.set slot true, pendReqQueue := queue
    output := mqttOutputSend tcp output })

/-! ## Calls of the application -/

/-- Arguments of `mqtt_publish`. -/
structure PublishArgs where
  topic : List UInt8
  /-- Payload; `none` is `NULL`. -/
  payload : Option (List UInt8)
  payloadLength : UInt16
  qos : UInt8
  retain : UInt8
  cb : Bool
  deriving DecidableEq, Repr

/-- The message of `mqtt_publish`. -/
def mqttPublishMessage (rb : MqttRingbuf) (args : PublishArgs)
    (topicLen pktId remainingLength : Nat) : MqttRingbuf :=
  let rb := mqttOutputAppendFixedHeader rb 3 0 args.qos.toNat args.retain.toNat remainingLength
  let rb := mqttOutputAppendString rb args.topic topicLen
  let rb := if args.qos.toNat > 0 then mqttOutputAppendU16 rb pktId else rb
  match args.payload with
  | none => rb
  | some payload =>
    if args.payloadLength.toNat > 0 then mqttOutputAppendBuf rb payload args.payloadLength.toNat
    else rb

def mqttPublish (tcp : MqttTcp) (args : PublishArgs) (s : MqttSender) :
    Asserting (Err × MqttSender) :=
  if s.connState = .tcpDisconnected then .ok (.conn, s)
  else if args.topic.length > 0xffff - 2 then .ok (.arg, s)
  else
    let topicLen := u16 args.topic.length
    let totalLen := 2 + topicLen + args.payloadLength.toNat
    if totalLen > 0xffff then .ok (.arg, s)
    else
      let identified := args.qos.toNat > 0
      let remainingLength := if identified then u16 (u16 totalLen + 2) else u16 totalLen
      let pktId := if identified then msgGeneratePacketId s else 0
      let s := if identified then { s with pktIdSeq := pktId } else s
      match mqttCreateRequest s with
      | none => .ok (.mem, s)
      | some slot =>
        if !mqttOutputCheckSpace s.output remainingLength then .ok (.mem, s)
        else mqttQueueRequest tcp s slot pktId args.cb
          (mqttPublishMessage s.output args topicLen pktId remainingLength)

/-- Arguments of `mqtt_sub_unsub`. -/
structure SubscribeArgs where
  topic : List UInt8
  qos : UInt8
  cb : Bool
  sub : Bool
  deriving DecidableEq, Repr

/-- The message of `mqtt_sub_unsub`. -/
def mqttSubUnsubMessage (rb : MqttRingbuf) (args : SubscribeArgs)
    (topicLen pktId remainingLength : Nat) : MqttRingbuf :=
  let rb := mqttOutputAppendFixedHeader rb (if args.sub then 8 else 10) 0 1 0 remainingLength
  let rb := mqttOutputAppendU16 rb pktId
  let rb := mqttOutputAppendString rb args.topic topicLen
  if args.sub then mqttOutputAppendU8 rb (min args.qos 2) else rb

/-- `mqtt_sub_unsub` behind the checks of its arguments. -/
def mqttSubUnsubChecked (tcp : MqttTcp) (args : SubscribeArgs) (topicLen remainingLength : Nat)
    (s : MqttSender) : Asserting (Err × MqttSender) :=
  if s.connState = .tcpDisconnected then .ok (.conn, s)
  else
    let pktId := msgGeneratePacketId s
    let s := { s with pktIdSeq := pktId }
    match mqttCreateRequest s with
    | none => .ok (.mem, s)
    | some slot =>
      if !mqttOutputCheckSpace s.output remainingLength then .ok (.mem, s)
      else mqttQueueRequest tcp s slot pktId args.cb
        (mqttSubUnsubMessage s.output args topicLen pktId remainingLength)

def mqttSubUnsub (tcp : MqttTcp) (args : SubscribeArgs) (s : MqttSender) :
    Asserting (Err × MqttSender) :=
  if args.topic.length > 0xffff - 2 then .ok (.arg, s)
  else
    let topicLen := u16 args.topic.length
    let totalLen := topicLen + 2 + 2 + (if args.sub then 1 else 0)
    if totalLen > 0xffff then .ok (.arg, s)
    else do
      lwipAssert "mqtt_sub_unsub: qos < 3" (args.qos < 3)
      mqttSubUnsubChecked tcp args topicLen (u16 totalLen) s

/-- `struct mqtt_connect_client_info_t`, without what `mqtt_client_connect` does not read. -/
structure ClientInfo where
  clientId : List UInt8
  /-- Keep alive time in seconds. -/
  keepAlive : UInt16
  /-- Topic of the will; `none` is `NULL`. -/
  willTopic : Option (List UInt8)
  /-- Message of the will; `none` is `NULL`. -/
  willMsg : Option (List UInt8)
  willQos : UInt8
  willRetain : Bool
  deriving DecidableEq, Repr

/-- The will: topic and message, if both are given. -/
def ClientInfo.will (info : ClientInfo) : Option (List UInt8 × List UInt8) :=
  match info.willTopic, info.willMsg with
  | some topic, some msg => some (topic, msg)
  | _, _ => none

/-- Flags of a `CONNECT`. -/
def mqttConnectFlags (info : ClientInfo) : Nat :=
  (if info.will.isSome then
    4 ||| ((info.willQos.toNat &&& 3) <<< 3) ||| (if info.willRetain then 32 else 0) else 0) ||| 2

/-- Lengths of the topic and the message of the will and the remaining length with them; `none` if
one of them is too long. -/
def mqttConnectWill (info : ClientInfo) (remainingLength : Nat) : Option (Nat × Nat × Nat) :=
  match info.will with
  | none => some (0, 0, remainingLength)
  | some (topic, msg) =>
    if topic.length > 0xff then none
    else if msg.length > 0xff then none
    else
      let len := remainingLength + 2 + topic.length + 2 + msg.length
      if len > 0xffff then none else some (topic.length, msg.length, u16 len)

/-- The message of `mqtt_client_connect`. -/
def mqttConnectMessage (rb : MqttRingbuf) (info : ClientInfo)
    (clientIdLength willTopicLen willMsgLen remainingLength : Nat) : MqttRingbuf :=
  let rb := mqttOutputAppendFixedHeader rb 1 0 0 0 remainingLength
  let rb := mqttOutputAppendString rb [0x4d, 0x51, 0x54, 0x54] 4
  let rb := mqttOutputAppendU8 rb 4
  let rb := mqttOutputAppendU8 rb (UInt8.ofNat (mqttConnectFlags info))
  let rb := mqttOutputAppendU16 rb info.keepAlive.toNat
  let rb := mqttOutputAppendString rb info.clientId clientIdLength
  if willTopicLen > 0 then
    mqttOutputAppendString (mqttOutputAppendString rb (info.willTopic.getD []) willTopicLen)
      (info.willMsg.getD []) willMsgLen
  else rb

def mqttClientConnect (tcp : MqttTcp) (info : ClientInfo) (s : MqttSender) : Err × MqttSender :=
  if s.connState ≠ .tcpDisconnected then (.isconn, s)
  else
    -- the client is wiped clean
    let s := mqttInitRequests mqttClientNew
    match mqttConnectWill info (2 + 4 + 1 + 1 + 2) with
    | none => (.val, s)
    | some (willTopicLen, willMsgLen, remainingLength) =>
      if info.clientId.length > 0xffff then (.val, s)
      else
        let clientIdLength := u16 info.clientId.length
        let len := remainingLength + 2 + clientIdLength
        if len > 0xffff then (.val, s)
        else
          let remainingLength := u16 len
          if !mqttOutputCheckSpace s.output remainingLength then (.mem, s)
          else if !tcp.new then (.mem, s)
          else if tcp.bind ≠ .ok then (tcp.bind, s)
          else if tcp.connect ≠ .ok then (tcp.connect, s)
          else (.ok, { s with
            connState := .tcpConnecting
            output := mqttConnectMessage s.output info clientIdLength willTopicLen willMsgLen
              remainingLength })

/-! ## Other messages -/

def pubAckRecRelResponse (tcp : MqttTcp) (msg pktId qos : Nat) (s : MqttSender) :
    Err × MqttSender :=
  if mqttOutputCheckSpace s.output 2 then
    let output := mqttOutputAppendU16 (mqttOutputAppendFixedHeader s.output msg 0 qos 0 2) pktId
    (.ok, { s with output := mqttOutputSend tcp output })
  else (.mem, s)

/-- The keep-alive message of `mqtt_cyclic_timer`. -/
def mqttPingreq (s : MqttSender) : Err × MqttSender :=
  if mqttOutputCheckSpace s.output 0 then
    (.ok, { s with output := mqttOutputAppendFixedHeader s.output 12 0 0 0 0 })
  else (.mem, s)

/-! ## Events -/

/-- What happens to the messages of a client. -/
inductive MqttOutEvent where
  | connect (tcp : MqttTcp) (info : ClientInfo)
  | publish (tcp : MqttTcp) (args : PublishArgs)
  | subUnsub (tcp : MqttTcp) (args : SubscribeArgs)
  | response (tcp : MqttTcp) (msg pktId qos : Nat)
  | pingreq
  /-- `mqtt_output_send` in one of the callbacks for the TCP connection. -/
  | send (tcp : MqttTcp)
  /-- What answers of the server, timers and `mqtt_close` do to the connection and its requests. -/
  | session (connState : MqttConnState) (reqUsed : List Bool) (pendReqQueue : List MqttRequest)

/-- The value returned and the client after an event. -/
def mqttOutEvent (s : MqttSender) : MqttOutEvent → Asserting (Err × MqttSender)
  | .connect tcp info => .ok (mqttClientConnect tcp info s)
  | .publish tcp args => mqttPublish tcp args s
  | .subUnsub tcp args => mqttSubUnsub tcp args s
  | .response tcp msg pktId qos => .ok (pubAckRecRelResponse tcp msg pktId qos s)
  | .pingreq => .ok (mqttPingreq s)
  | .send tcp => .ok (.ok, { s with output := mqttOutputSend tcp s.output })
  | .session connState reqUsed pendReqQueue =>
    .ok (.ok, { s with connState := connState, reqUsed := reqUsed, pendReqQueue := pendReqQueue })

/-- One event of a client. -/
def MqttOutStep (s : MqttSender) (event : MqttOutEvent) (s' : MqttSender) : Prop :=
  ∃ err, mqttOutEvent s event = .ok (err, s')

end Lwip.Mqtt.Out
