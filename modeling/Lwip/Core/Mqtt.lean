import Lwip.Core.Pbuf

/-!
# MQTT client: received messages

`mqtt_parse_incoming` and `mqtt_message_received` of `apps/mqtt/mqtt.c`. Every access to
`rx_buffer` is checked: an index outside the buffer, and a byte that `mqtt_message_received`
reads outside the received part of the message, are errors of the program. What a callback of
the application does to the client is an argument.
-/

namespace Lwip.Mqtt

def mqttVarHeaderBufferLen : Nat := 128

/-- Connection states of a client. -/
inductive MqttConnState where
  | tcpDisconnected
  | tcpConnecting
  | mqttConnecting
  | mqttConnected
  deriving DecidableEq, Repr

/-- `struct mqtt_request_t` on the queue of pending requests. -/
structure MqttRequest where
  /-- Index into `req_list`. -/
  slot : Nat
  cb : Bool
  pktId : Nat
  /-- Expire time relative to the request before this one. -/
  timeoutDiff : Nat
  deriving DecidableEq, Repr

/-- The part of a client that callbacks of the application can change. -/
structure MqttSession where
  connState : MqttConnState
  pendReqQueue : List MqttRequest
  deriving DecidableEq, Repr

/-- `struct mqtt_client_t`, as far as received data goes. -/
structure MqttClient where
  /-- What callbacks can change. -/
  session : MqttSession
  inpubPktId : Nat
  /-- Number of bytes of the current message received so far. -/
  msgIdx : Nat
  rxBuffer : Vector UInt8 mqttVarHeaderBufferLen
  deriving DecidableEq, Repr

/-- Calls that `mqtt_message_received` makes. -/
inductive MqttCall where
  | connectCb
  /-- `pub_cb` with the topic and the total length of the payload. -/
  | pubCb (topic : List UInt8) (totLen : Nat)
  /-- `data_cb` with a slice of the payload and the flag for the last one. -/
  | dataCb (payload : List UInt8) (last : Bool)
  | response (msg pktId qos : Nat)
  /-- The callback of a request. -/
  | requestCb (request : MqttRequest) (err : Err)
  deriving DecidableEq, Repr

def mqttConnectAccepted : Nat := 0

def mqttConnectDisconnected : Nat := 256

/-! ## The receive buffer -/

/-- `rx_buffer[idx]`. -/
def rxByte (client : MqttClient) (idx : Nat) : UInt8 := client.rxBuffer.toList.getD idx 0

/-- A read of `rx_buffer[idx]`. -/
def rxRead (client : MqttClient) (idx : Nat) : Asserting UInt8 := do
  lwipAssert "rx_buffer: index out of bounds" (idx < mqttVarHeaderBufferLen)
  .ok (rxByte client idx)

/-- A write of `rx_buffer[idx]`. -/
def rxWrite (client : MqttClient) (idx : Nat) (b : UInt8) : Asserting MqttClient := do
  lwipAssert "rx_buffer: index out of bounds" (idx < mqttVarHeaderBufferLen)
  .ok { client with rxBuffer := client.rxBuffer.setIfInBounds idx b }

/-- Bytes put into `rx_buffer` from `idx` on. -/
def rxFill (buffer : Vector UInt8 mqttVarHeaderBufferLen) (idx : Nat) :
    List UInt8 → Vector UInt8 mqttVarHeaderBufferLen
  | [] => buffer
  | b :: more => rxFill (buffer.setIfInBounds idx b) (idx + 1) more

/-- Arguments of `mqtt_message_received`: the part of a message that has been received. -/
structure MqttPart where
  fixedHdrIdx : Nat
  /-- Length of the received part. -/
  length : Nat
  /-- Bytes of the message that are still to come. -/
  remainingLength : Nat
  deriving DecidableEq, Repr

/-- A read of `count` bytes from `var_hdr_payload + offset` on, which are to belong to the
received part of the message. -/
def partRead (client : MqttClient) (part : MqttPart) (offset count : Nat) :
    Asserting (List UInt8) := do
  lwipAssert "rx_buffer: index out of bounds"
    (part.fixedHdrIdx + offset + count ≤ mqttVarHeaderBufferLen)
  lwipAssert "rx_buffer: outside of the received part" (offset + count ≤ part.length ∧
    part.fixedHdrIdx + offset + count ≤ client.msgIdx)
  .ok ((client.rxBuffer.toList.drop (part.fixedHdrIdx + offset)).take count)

/-- A read of `count` bytes from `var_hdr_payload + offset` on, which are to belong to
`rx_buffer`; they may be left from another message. -/
def bufferRead (client : MqttClient) (part : MqttPart) (offset count : Nat) :
    Asserting (List UInt8) := do
  lwipAssert "rx_buffer: index out of bounds"
    (part.fixedHdrIdx + offset + count ≤ mqttVarHeaderBufferLen)
  .ok ((client.rxBuffer.toList.drop (part.fixedHdrIdx + offset)).take count)

/-- How `mqtt_message_received` reads: `partRead` for what it may read, `bufferRead` for what it
can read. -/
abbrev PartReader := MqttClient → MqttPart → Nat → Nat → Asserting (List UInt8)

/-- A read of `var_hdr_payload[offset]`. -/
def partByte (read : PartReader) (client : MqttClient) (part : MqttPart) (offset : Nat) :
    Asserting Nat := do
  let bytes ← read client part offset 1
  .ok (bytes.headD 0).toNat

/-! ## `mqtt_message_received` -/

/-- What a callback of the application does to the client. A callback that is not set is one that
does nothing. -/
abbrev MqttApp := MqttCall → MqttSession → MqttSession

/-- A call of a callback. -/
def mqttNotify (app : MqttApp) (call : MqttCall) (client : MqttClient) : MqttClient :=
  { client with session := app call client.session }

def mqttCtlPacketType (b : UInt8) : Nat := (b.toNat &&& 0xf0) >>> 4

def mqttCtlPacketQos (b : UInt8) : Nat := (b.toNat &&& 0x6) >>> 1

/-- `mqtt_take_request`: the request with an identifier and the queue without it; its time goes
to its successor. -/
def mqttTakeRequest (pktId : Nat) : List MqttRequest → Option MqttRequest × List MqttRequest
  | [] => (none, [])
  | iter :: next =>
    if iter.pktId = pktId then
      (some iter, match next with
        | [] => []
        | r :: more => { r with timeoutDiff := u16 (r.timeoutDiff + iter.timeoutDiff) } :: more)
    else
      match mqttTakeRequest pktId next with
      | (found, rest) => (found, iter :: rest)

/-- The type `CONNACK`. -/
def mqttConnack (read : PartReader) (app : MqttApp) (client : MqttClient) (part : MqttPart) :
    Asserting (Nat × MqttClient × List MqttCall) :=
  if client.session.connState = .mqttConnecting then do
    let res ← partByte read client part 1
    if res = mqttConnectAccepted then
      .ok (res, mqttNotify app .connectCb
        { client with session := { client.session with connState := .mqttConnected } },
        [.connectCb])
    else .ok (res, client, [])
  else .ok (mqttConnectAccepted, client, [])

/-- The end of the first part of a `PUBLISH`: the topic is terminated by a zero while `pub_cb`
runs. -/
def mqttPublishNotify (read : PartReader) (app : MqttApp) (client : MqttClient) (part : MqttPart)
    (topicLen pktId afterTopic : Nat) : Asserting (MqttClient × List MqttCall) := do
  let bkp ← partByte read client part (2 + topicLen)
  let terminated ← rxWrite { client with inpubPktId := pktId } (part.fixedHdrIdx + 2 + topicLen) 0
  let topic ← read terminated part 2 topicLen
  let call : MqttCall :=
    .pubCb topic (part.remainingLength + toU16 ((part.length : Int) - afterTopic))
  let restored ← rxWrite (mqttNotify app call terminated) (part.fixedHdrIdx + 2 + topicLen)
    (UInt8.ofNat bkp)
  .ok (restored, [call])

/-- The packet identifier behind the topic of a `PUBLISH`, if its QoS is not zero, and the offset
behind it. -/
def mqttPublishId (read : PartReader) (client : MqttClient) (part : MqttPart)
    (qos afterTopic : Nat) :
    Asserting (Nat × Nat) :=
  if qos > 0 then do
    let high ← partByte read client part afterTopic
    let low ← partByte read client part (afterTopic + 1)
    .ok (u16 (high * 256 + low), u16 (afterTopic + 2))
  else .ok (0, afterTopic)

/-- The first part of a `PUBLISH`: topic and packet identifier. `none` is the jump to
`out_disconnect`; otherwise the offset of the payload. -/
def mqttPublishTopic (read : PartReader) (app : MqttApp) (client : MqttClient) (part : MqttPart)
    (qos : Nat) :
    Asserting (Option (Nat × MqttClient × List MqttCall)) := do
  let high ← partByte read client part 0
  let low ← partByte read client part 1
  let topicLen := u16 (high * 256 + low)
  let afterTopic := u16 (2 + topicLen)
  -- `?:` binds less tightly than `+`, so the length of the topic does not count
  if (if afterTopic + qos ≠ 0 then 2 else 1) > part.length then .ok none
  else do
    let (pktId, afterTopic) ← mqttPublishId read client part qos afterTopic
    let (client, calls) ← mqttPublishNotify read app client part topicLen pktId afterTopic
    .ok (some (afterTopic, client, calls))

/-- The payload of a `PUBLISH`. -/
def mqttPublishData (read : PartReader) (app : MqttApp) (client : MqttClient) (part : MqttPart)
    (qos payloadOffset : Nat) : Asserting (MqttClient × List MqttCall) :=
  let payloadLength := toU16 ((part.length : Int) - payloadOffset)
  if payloadLength > 0 ∨ part.remainingLength = 0 then do
    let payload ← read client part payloadOffset payloadLength
    let call : MqttCall := .dataCb payload (part.remainingLength = 0)
    .ok (mqttNotify app call client,
      if part.remainingLength = 0 ∧ qos > 0 then
        [call, .response (if qos = 1 then 4 else 5) client.inpubPktId 0]
      else [call])
  else .ok (client, [])

/-- The type `PUBLISH`. -/
def mqttPublish (read : PartReader) (app : MqttApp) (client : MqttClient) (part : MqttPart) :
    Asserting (Nat × MqttClient × List MqttCall) := do
  let qos := mqttCtlPacketQos (rxByte client 0)
  if client.msgIdx ≤ mqttVarHeaderBufferLen then do
    match ← mqttPublishTopic read app client part qos with
    | none => .ok (mqttConnectDisconnected, client, [])
    | some (payloadOffset, client, calls) => do
      let (client, more) ← mqttPublishData read app client part qos payloadOffset
      .ok (mqttConnectAccepted, client, calls ++ more)
  else do
    let (client, calls) ← mqttPublishData read app client part qos 0
    .ok (mqttConnectAccepted, client, calls)

/-- An answer to a request. -/
def mqttAnswered (read : PartReader) (app : MqttApp) (client : MqttClient) (part : MqttPart)
    (pktType pktId : Nat) :
    Asserting (Nat × MqttClient × List MqttCall) :=
  match mqttTakeRequest pktId client.session.pendReqQueue with
  | (none, _) => .ok (mqttConnectAccepted, client, [])
  | (some r, queue) =>
    let client := { client with session := { client.session with pendReqQueue := queue } }
    if pktType = 9 then
      if part.length < 3 then .ok (mqttConnectDisconnected, client, [])
      else do
        let result ← partByte read client part 2
        let call : MqttCall := .requestCb r (if result < 3 then .ok else .abrt)
        .ok (mqttConnectAccepted, if r.cb then mqttNotify app call client else client,
          if r.cb then [call] else [])
    else
      let call : MqttCall := .requestCb r .ok
      .ok (mqttConnectAccepted, if r.cb then mqttNotify app call client else client,
        if r.cb then [call] else [])

/-- The types that start with a packet identifier. -/
def mqttIdentified (read : PartReader) (app : MqttApp) (client : MqttClient) (part : MqttPart)
    (pktType : Nat) :
    Asserting (Nat × MqttClient × List MqttCall) := do
  let high ← partByte read client part 0
  let low ← partByte read client part 1
  let pktId := u16 (high * 256 + low)
  if pktId = 0 then .ok (mqttConnectDisconnected, client, [])
  else if pktType = 5 then .ok (mqttConnectAccepted, client, [.response 6 pktId 1])
  else if pktType = 6 then .ok (mqttConnectAccepted, client, [.response 7 pktId 0])
  else if pktType = 9 ∨ pktType = 11 ∨ pktType = 7 ∨ pktType = 4 then
    mqttAnswered read app client part pktType pktId
  else .ok (mqttConnectDisconnected, client, [])

/-- `mqtt_message_received` with a way to read: the status, the client and the calls made. -/
def mqttMessageReceivedBy (read : PartReader) (app : MqttApp) (client : MqttClient)
    (part : MqttPart) : Asserting (Nat × MqttClient × List MqttCall) :=
  let pktType := mqttCtlPacketType (rxByte client 0)
  if pktType = 2 then mqttConnack read app client part
  else if pktType = 13 then .ok (mqttConnectAccepted, client, [])
  else if pktType = 3 then mqttPublish read app client part
  else mqttIdentified read app client part pktType

/-- `mqtt_message_received`, where a read outside of the received part is an error. -/
def mqttMessageReceived (app : MqttApp) : MqttClient → MqttPart →
    Asserting (Nat × MqttClient × List MqttCall) := mqttMessageReceivedBy partRead app

/-! ## `mqtt_parse_incoming` -/

/-- Local variables of `mqtt_parse_incoming`. -/
structure ParseLocals where
  inOffset : Nat := 0
  /-- Bytes of the message that are still to come. -/
  msgRemLen : Nat := 0
  /-- Number of bytes of the fixed header read so far. -/
  fixedHdrIdx : Nat := 0
  /-- The last of them. -/
  b : UInt8 := 0
  deriving DecidableEq, Repr

/-- Whether a pass reads a byte of the fixed header. -/
def inFixedHeader (l : ParseLocals) : Bool := l.fixedHdrIdx < 2 || l.b &&& 0x80 ≠ 0

/-- The next byte of the fixed header, from `rx_buffer` if an earlier call has stored it. -/
def mqttHeaderByte (p : Chain) (l : ParseLocals) (client : MqttClient) :
    Asserting (UInt8 × Nat × MqttClient) :=
  if l.fixedHdrIdx < client.msgIdx then do
    let b ← rxRead client l.fixedHdrIdx
    .ok (b, l.inOffset, client)
  else do
    let b := pbufGetAt p l.inOffset
    let client ← rxWrite client client.msgIdx b
    .ok (b, u16 (l.inOffset + 1), { client with msgIdx := (client.msgIdx + 1) % 2 ^ 32 })

/-- The part of a pass that reads a byte of the fixed header. A shift by 32 or more, which C
leaves undefined, gives zero. -/
def mqttParseHeader (p : Chain) (l : ParseLocals) (client : MqttClient) :
    Asserting (ParseLocals × MqttClient) := do
  let (b, inOffset, client) ← mqttHeaderByte p l client
  let fixedHdrIdx := (l.fixedHdrIdx + 1) % 256
  .ok ({ inOffset := inOffset, b := b, fixedHdrIdx := fixedHdrIdx
         msgRemLen := if fixedHdrIdx ≥ 2 then
           l.msgRemLen ||| ((b &&& 0x7f).toNat <<< ((fixedHdrIdx - 2) * 7)) % 2 ^ 32
           else l.msgRemLen }, client)

/-- Whether the byte just read completes the fixed header. -/
def headerComplete (l : ParseLocals) : Bool := l.fixedHdrIdx ≥ 2 && l.b &&& 0x80 = 0

/-- The part of a pass that copies bytes of the message, with what is then to be handed to
`mqtt_message_received`, and whether the buffer is full. -/
def mqttParseBody (p : Chain) (l : ParseLocals) (client : MqttClient) :
    Asserting (ParseLocals × MqttClient × MqttPart × Bool) := do
  lwipAssert "division by zero" (l.fixedHdrIdx ≠ mqttVarHeaderBufferLen)
  let cpyStart := u16 (toU32 ((client.msgIdx : Int) - l.fixedHdrIdx) %
    toU32 ((mqttVarHeaderBufferLen : Int) - l.fixedHdrIdx) + l.fixedHdrIdx)
  let cpyLen := u16 (min (toU16 ((p.totLen : Int) - l.inOffset)) l.msgRemLen)
  let bufferSpace := toU16 ((mqttVarHeaderBufferLen : Int) - cpyStart)
  let cpyLen := if cpyLen > bufferSpace then bufferSpace else cpyLen
  lwipAssert "rx_buffer: index out of bounds" (cpyStart + cpyLen ≤ mqttVarHeaderBufferLen)
  .ok ({ l with inOffset := u16 (l.inOffset + cpyLen), msgRemLen := l.msgRemLen - cpyLen },
    { client with
      rxBuffer := rxFill client.rxBuffer cpyStart (pbufCopyPartial p cpyLen l.inOffset)
      msgIdx := (client.msgIdx + cpyLen) % 2 ^ 32 },
    { fixedHdrIdx := l.fixedHdrIdx, length := toU16 ((cpyStart + cpyLen : Int) - l.fixedHdrIdx)
      remainingLength := l.msgRemLen - cpyLen }, cpyLen = bufferSpace)

/-- What the loop of `mqtt_parse_incoming` has come to, with a record of what happened. -/
structure ParsedBy (τ : Type) where
  status : Option Nat
  locals : ParseLocals
  client : MqttClient
  calls : List τ

section Parsing

variable {τ : Type}

/-- A message has ended; the next one starts. -/
def mqttNextMessage (l : ParseLocals) (client : MqttClient) (calls : List τ) : ParsedBy τ :=
  { status := none, locals := { l with fixedHdrIdx := 0 }, client := { client with msgIdx := 0 }
    calls := calls }

/-- What is done with a message: the status, the client and a record of what happened. -/
abbrev MqttReceiver (τ : Type) :=
  MqttClient → MqttPart → Asserting (Nat × MqttClient × List τ)

/-- One pass of the loop of `mqtt_parse_incoming`. -/
def mqttParsePassBy (receive : MqttReceiver τ) (p : Chain) (l : ParseLocals)
    (client : MqttClient) : Asserting (ParsedBy τ) :=
  if inFixedHeader l then do
    let (l, client) ← mqttParseHeader p l client
    if headerComplete l then
      if l.msgRemLen = 0 then do
        -- the status is not looked at
        let (_, client, calls) ← receive client
          { fixedHdrIdx := l.fixedHdrIdx, length := 0, remainingLength := 0 }
        .ok (mqttNextMessage l client calls)
      else
        .ok { status := none, client := client, calls := []
              locals := { l with
                msgRemLen := toU32 ((l.msgRemLen + l.fixedHdrIdx : Int) - client.msgIdx) } }
    else .ok { status := none, locals := l, client := client, calls := [] }
  else do
    let (l, client, part, full) ← mqttParseBody p l client
    if l.msgRemLen = 0 ∨ full then do
      let (res, client, calls) ← receive client part
      if res ≠ mqttConnectAccepted then
        .ok { status := some res, locals := l, client := client, calls := calls }
      else if l.msgRemLen = 0 then .ok (mqttNextMessage l client calls)
      else .ok { status := none, locals := l, client := client, calls := calls }
    else .ok { status := none, locals := l, client := client, calls := [] }

/-- The loop of `mqtt_parse_incoming`. -/
def mqttParseLoopBy (receive : MqttReceiver τ) (p : Chain) :
    Nat → ParseLocals → MqttClient → Asserting (Nat × MqttClient × List τ)
  | 0, _, _ => .error "mqtt_parse_incoming: no end of the loop"
  | fuel + 1, l, client =>
    if p.totLen > l.inOffset then do
      let parsed ← mqttParsePassBy receive p l client
      match parsed.status with
      | some status => .ok (status, parsed.client, parsed.calls)
      | none => do
        let (status, client, calls) ← mqttParseLoopBy receive p fuel parsed.locals parsed.client
        .ok (status, client, parsed.calls ++ calls)
    else .ok (mqttConnectAccepted, client, [])

/-- `mqtt_parse_incoming`. A pass takes a byte of the pbufs or reads one of the at most 128
stored bytes of the fixed header again. -/
def mqttParseIncomingBy (receive : MqttReceiver τ) (p : Chain) (client : MqttClient) :
    Asserting (Nat × MqttClient × List τ) :=
  mqttParseLoopBy receive p (p.totLen + mqttVarHeaderBufferLen + 1) {} client

end Parsing

/-- `mqtt_parse_incoming`, with the calls made. -/
def mqttParseIncoming (app : MqttApp) : Chain → MqttClient →
    Asserting (Nat × MqttClient × List MqttCall) :=
  mqttParseIncomingBy (mqttMessageReceived app)

/-! ## A connection in the course of time -/

/-- A client with its TCP connection. -/
structure MqttConn where
  client : MqttClient
  /-- Whether the TCP connection delivers data to the client. -/
  established : Bool

/-- What happens to a client. -/
inductive MqttEvent where
  | connected
  | received (app : MqttApp) (p : Chain)
  | session (session : MqttSession)

/-- The client after an event; `none` if it cannot happen. -/
def mqttEvent (conn : MqttConn) : MqttEvent → Asserting (Option MqttConn)
  | .connected =>
    .ok (some { established := true, client := { conn.client with
      msgIdx := 0, session := { conn.client.session with connState := .mqttConnecting } } })
  | .received app p =>
    if conn.established then do
      let (status, client, _) ← mqttParseIncoming app p conn.client
      .ok (some { client := client, established := status = mqttConnectAccepted })
    else .ok none
  | .session session => .ok (some { conn with client := { conn.client with session := session } })

/-- One event of a client. -/
def MqttStep (conn : MqttConn) (event : MqttEvent) (conn' : MqttConn) : Prop :=
  mqttEvent conn event = .ok (some conn')

end Lwip.Mqtt
