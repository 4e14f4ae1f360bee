import Lwip.Core.Mqtt
import Lwip.Verif.Pbuf

/-!
# The receive buffer of an MQTT client

Between two calls of `mqtt_parse_incoming` the buffer holds the fixed header of the message that is
being received, and the header is found again in it. One pass of the parser reads a byte of the
header or copies bytes of the rest of the message.
-/

namespace Lwip.Mqtt

open List

variable {client' : MqttClient} {count : Nat} {l' : ParseLocals}

/-! ## Bytes of the buffer -/

theorem length_rxBuffer (client : MqttClient) : client.rxBuffer.toList.length = 128 :=
  Vector.length_toList

theorem rxByte_set (client : MqttClient) (idx i : Nat) (b : UInt8) (inside : idx < 128) :
    rxByte { client with rxBuffer := client.rxBuffer.setIfInBounds idx b } i =
      if idx = i then b else rxByte client i := by
  have size := length_rxBuffer client
  unfold rxByte
  simp only [Vector.toList_setIfInBounds, getD_eq_getElem?_getD, getElem?_set]
  by_cases same : idx = i
  · simp only [same, ↓reduceIte]
    rw [if_pos (by omega)]
    rfl
  · simp only [same, ↓reduceIte]

/-- Bytes put into the buffer leave those in front of them alone. -/
theorem rxByte_fill (client : MqttClient) (idx : Nat) (data : List UInt8) {i : Nat}
    (before : i < idx) :
    rxByte { client with rxBuffer := rxFill client.rxBuffer idx data } i = rxByte client i := by
  induction data generalizing client idx with
  | nil => rfl
  | cons b more ih =>
    have later := ih { client with rxBuffer := client.rxBuffer.setIfInBounds idx b } (idx + 1)
      (by omega)
    rw [rxFill, later]
    unfold rxByte
    simp only [Vector.toList_setIfInBounds, getD_eq_getElem?_getD, getElem?_set]
    rw [if_neg (by omega)]

theorem rxWrite_ok {client : MqttClient} {idx : Nat} (b : UInt8) (inside : idx < 128) :
    rxWrite client idx b =
      .ok { client with rxBuffer := client.rxBuffer.setIfInBounds idx b } := by
  rw [rxWrite, lwipAssert_pos (show idx < mqttVarHeaderBufferLen from inside)]
  rfl

/-- The client behind the handling of a part: the same message, the same header. -/
structure SameMessage (part : MqttPart) (client client' : MqttClient) : Prop where
  msgIdx : client'.msgIdx = client.msgIdx
  header : ∀ i, i < part.fixedHdrIdx → rxByte client' i = rxByte client i

theorem SameMessage.refl (part : MqttPart) (client : MqttClient) : SameMessage part client client :=
  ⟨rfl, fun _ _ => rfl⟩

theorem SameMessage.trans {part : MqttPart} {client client'' : MqttClient}
    (first : SameMessage part client client') (second : SameMessage part client' client'') :
    SameMessage part client client'' :=
  ⟨second.msgIdx.trans first.msgIdx,
    fun i inHeader => (second.header i inHeader).trans (first.header i inHeader)⟩

/-! ## The fixed header -/

/-- The highest bit of a byte of the remaining length: another byte follows. -/
theorem continues_iff (b : UInt8) : b &&& 0x80 ≠ 0 ↔ 128 ≤ b.toNat := by
  have all : ∀ k : Fin 256, UInt8.ofNat k &&& 0x80 ≠ 0 ↔ 128 ≤ k.val := by decide +kernel
  simpa using all ⟨b.toNat, b.toNat_lt⟩

theorem lowBits_eq (b : UInt8) : (b &&& 0x7f).toNat = b.toNat % 128 := by
  have all : ∀ k : Fin 256, (UInt8.ofNat k &&& 0x7f).toNat = k.val % 128 := by decide +kernel
  simpa using all ⟨b.toNat, b.toNat_lt⟩

/-- Value of the first `count` bytes of the remaining length. -/
def remainingValue (client : MqttClient) : Nat → Nat
  | 0 => 0
  | count + 1 => remainingValue client count + (rxByte client (count + 1)).toNat % 128 * 128 ^ count

/-- The value of some bytes is below the weight of the next one. -/
theorem remainingValue_lt (client : MqttClient) (count : Nat) :
    remainingValue client count < 128 ^ count := by
  induction count with
  | zero => simp [remainingValue]
  | succ count ih =>
    have digit := Nat.mod_lt (rxByte client (count + 1)).toNat (show 0 < 128 by decide)
    have weight : (rxByte client (count + 1)).toNat % 128 * 128 ^ count ≤ 127 * 128 ^ count :=
      Nat.mul_le_mul_right _ (Nat.le_of_lt_succ digit)
    rw [remainingValue, Nat.pow_succ]
    omega

theorem remainingValue_congr {client : MqttClient}
    (same : ∀ i, i ≤ count → rxByte client' i = rxByte client i) :
    remainingValue client' count = remainingValue client count := by
  induction count with
  | zero => rfl
  | succ count ih =>
    rw [remainingValue, remainingValue, ih fun i small => same i (Nat.le_succ_of_le small),
      same (count + 1) (Nat.le_refl _)]

/-- The next byte is added to the value of the ones before it. -/
theorem remainingValue_or (client : MqttClient) (few : count < 4) :
    remainingValue client count |||
        (((rxByte client (count + 1)) &&& 0x7f).toNat <<< (count * 7)) % 2 ^ 32 =
      remainingValue client (count + 1) := by
  have low := remainingValue_lt client count
  have weight : (128 : Nat) ^ count = 2 ^ (count * 7) := by
    rw [Nat.mul_comm, Nat.pow_mul]
  rw [lowBits_eq, Nat.shiftLeft_eq, ← weight, Nat.mod_eq_of_lt, remainingValue, Nat.or_comm]
  · rw [weight] at low ⊢
    rw [Nat.mul_comm _ (2 ^ (count * 7)), ← Nat.two_pow_add_eq_or_of_lt low, Nat.add_comm]
  · have cases4 : count = 0 ∨ count = 1 ∨ count = 2 ∨ count = 3 := by omega
    rcases cases4 with rfl | rfl | rfl | rfl <;> omega

/-- The bytes of the remaining length up to an index all have a successor. -/
def Continuing (client : MqttClient) (k : Nat) : Prop :=
  ∀ i, 1 ≤ i → i < k → 128 ≤ (rxByte client i).toNat

/-- A complete fixed header of `count + 1` bytes. -/
structure HeaderHeld (client : MqttClient) (count : Nat) : Prop where
  positive : 1 ≤ count
  few : count ≤ 4
  continuing : Continuing client count
  last : (rxByte client count).toNat < 128
  nonempty : 0 < remainingValue client count

/-- A header is found again if its bytes are the same. -/
theorem HeaderHeld.congr {client : MqttClient} (held : HeaderHeld client count)
    (same : ∀ i, i ≤ count → rxByte client' i = rxByte client i) : HeaderHeld client' count := by
  constructor
  · exact held.positive
  · exact held.few
  · intro i low high
    rw [same i (Nat.le_of_lt high)]
    exact held.continuing i low high
  · rw [same count (Nat.le_refl _)]
    exact held.last
  · rw [remainingValue_congr same]
    exact held.nonempty

/-- What the buffer holds of the message that is being received. -/
inductive Held (client : MqttClient) : Prop
  /-- A part of the fixed header. -/
  | header (few : client.msgIdx ≤ 5) (continuing : Continuing client client.msgIdx)
  /-- The fixed header and a part of the rest. -/
  | body (count : Nat) (held : HeaderHeld client count) (begun : count + 1 ≤ client.msgIdx)
      (open' : client.msgIdx < count + 1 + remainingValue client count)

/-- At the end of a header of which all bytes so far have a successor, the message has just
begun or the header is complete at this byte. -/
theorem Held.at_byte {client : MqttClient} {k : Nat} (held : Held client)
    (continuing : Continuing client k) (positive : 1 ≤ k) (inside : k < client.msgIdx)
    (ends : (rxByte client k).toNat < 128) :
    HeaderHeld client k ∧ client.msgIdx < k + 1 + remainingValue client k := by
  cases held with
  | header few all =>
    have more := all k positive inside
    omega
  | body count held begun unfinished =>
    have same : count = k := by
      apply Nat.le_antisymm
      · apply Nat.le_of_not_lt
        intro longer
        have more := held.continuing k positive longer
        omega
      · apply Nat.le_of_not_lt
        intro shorter
        have more := continuing count held.positive shorter
        have last := held.last
        omega
    rw [← same]
    exact ⟨held, unfinished⟩

/-! ## One pass -/

/-- The local variables of `mqtt_parse_incoming` while it reads the fixed header. -/
structure HeaderPhase (l : ParseLocals) (client : MqttClient) : Prop where
  held : Held client
  /-- Not more of the header has been read than received. -/
  inside : l.fixedHdrIdx ≤ client.msgIdx
  few : l.fixedHdrIdx ≤ 5
  continuing : Continuing client l.fixedHdrIdx
  value : l.msgRemLen = remainingValue client (l.fixedHdrIdx - 1)

/-- The local variables of `mqtt_parse_incoming` while it copies the rest of a message. -/
structure BodyPhase (l : ParseLocals) (client : MqttClient) : Prop where
  begun : 2 ≤ l.fixedHdrIdx
  held : HeaderHeld client (l.fixedHdrIdx - 1)
  inside : l.fixedHdrIdx ≤ client.msgIdx
  /-- What is received and what is missing make up the message. -/
  total : client.msgIdx + l.msgRemLen = l.fixedHdrIdx + remainingValue client (l.fixedHdrIdx - 1)
  missing : 0 < l.msgRemLen

/-- Either phase. -/
def InPhase (l : ParseLocals) (client : MqttClient) : Prop :=
  if inFixedHeader l then HeaderPhase l client else BodyPhase l client

/-- A call of `mqtt_parse_incoming` starts with reading the header of the message that the client
holds. -/
theorem Held.inPhase {client : MqttClient} (held : Held client) : InPhase {} client := by
  unfold InPhase
  rw [if_pos (by decide)]
  exact ⟨held, Nat.zero_le _, Nat.zero_le _, fun i _ high => absurd high (Nat.not_lt_zero i), rfl⟩

variable {p : Chain} {l : ParseLocals} {client : MqttClient}

/-- The client when received bytes have been put into the buffer. -/
def rxStore (client : MqttClient) (idx : Nat) (data : List UInt8) : MqttClient :=
  { client with
    rxBuffer := rxFill client.rxBuffer idx data, msgIdx := client.msgIdx + data.length }

/-- What a pass has read when it has read a byte of the fixed header. -/
structure HeaderRead (p : Chain) (l : ParseLocals) (client : MqttClient) (l' : ParseLocals)
    (client' : MqttClient) : Prop where
  next : l'.fixedHdrIdx = l.fixedHdrIdx + 1
  byte : l'.b = rxByte client' l.fixedHdrIdx
  before : ∀ i, i < l.fixedHdrIdx → rxByte client' i = rxByte client i
  value : l'.msgRemLen = remainingValue client' l.fixedHdrIdx
  /-- An earlier call has stored it, or it has just been received. -/
  source : (l.fixedHdrIdx < client.msgIdx ∧ client' = client ∧ l'.inOffset = l.inOffset) ∨
    (client.msgIdx = l.fixedHdrIdx ∧ l'.inOffset = l.inOffset + 1 ∧
      client' = rxStore client l.fixedHdrIdx [pbufGetAt p l.inOffset])

/-- A pass reads the next byte of the fixed header, inside the buffer. -/
theorem mqttParseHeader_ok (phase : HeaderPhase l client) (few : l.fixedHdrIdx < 5)
    (more : l.inOffset < p.totLen) (fits : p.totLen ≤ 65535) :
    ∃ l' client', mqttParseHeader p l client = .ok (l', client') ∧
      HeaderRead p l client l' client' := by
  have idx : (l.fixedHdrIdx + 1) % 256 = l.fixedHdrIdx + 1 := Nat.mod_eq_of_lt (by omega)
  have added : ∀ client' : MqttClient,
      (∀ i, i < l.fixedHdrIdx → rxByte client' i = rxByte client i) →
      (if l.fixedHdrIdx + 1 ≥ 2 then l.msgRemLen |||
        ((rxByte client' l.fixedHdrIdx &&& 0x7f).toNat <<< ((l.fixedHdrIdx + 1 - 2) * 7)) % 2 ^ 32
        else l.msgRemLen) = remainingValue client' l.fixedHdrIdx := by
    intro client' before
    have value := phase.value
    cases read : l.fixedHdrIdx with
    | zero =>
      rw [read] at value
      rw [if_neg (by omega), value]
      rfl
    | succ count =>
      rw [read, Nat.add_sub_cancel] at value
      have same : remainingValue client' count = remainingValue client count :=
        remainingValue_congr fun i small => before i (by omega)
      rw [if_pos (by omega), value, ← same]
      exact remainingValue_or client' (by omega)
  unfold mqttParseHeader mqttHeaderByte
  by_cases stored : l.fixedHdrIdx < client.msgIdx
  · rw [if_pos stored, rxRead, lwipAssert_pos (show l.fixedHdrIdx < mqttVarHeaderBufferLen by
        unfold mqttVarHeaderBufferLen; omega)]
    simp only [ok_bind, idx]
    exact ⟨_, _, rfl, rfl, rfl, fun _ _ => rfl, added client fun _ _ => rfl,
      Or.inl ⟨stored, rfl, rfl⟩⟩
  have inside := phase.inside
  have here : client.msgIdx = l.fixedHdrIdx := by omega
  have room : client.msgIdx < 128 := by omega
  have offset : u16 (l.inOffset + 1) = l.inOffset + 1 := u16_of_lt (by omega)
  have count : (client.msgIdx + 1) % 2 ^ 32 = l.fixedHdrIdx + 1 := by
    rw [here]
    exact Nat.mod_eq_of_lt (by omega)
  rw [if_neg stored]
  dsimp only
  rw [rxWrite_ok _ room]
  simp only [ok_bind, idx, offset, count]
  have written : ∀ i, rxByte { client with
      rxBuffer := client.rxBuffer.setIfInBounds client.msgIdx (pbufGetAt p l.inOffset)
      msgIdx := l.fixedHdrIdx + 1 } i =
        if client.msgIdx = i then pbufGetAt p l.inOffset else rxByte client i :=
    fun i => rxByte_set client client.msgIdx i _ room
  have before : ∀ i, i < l.fixedHdrIdx → rxByte { client with
      rxBuffer := client.rxBuffer.setIfInBounds client.msgIdx (pbufGetAt p l.inOffset)
      msgIdx := l.fixedHdrIdx + 1 } i = rxByte client i := by
    intro i small
    rw [written, if_neg (by omega)]
  have byte := (written l.fixedHdrIdx).trans (if_pos here)
  have value := added _ before
  rw [byte] at value
  refine ⟨_, _, rfl, rfl, byte.symm, before, value, Or.inr ⟨here, rfl, ?_⟩⟩
  unfold rxStore rxFill rxFill
  rw [here]
  rfl

/-- Where the next byte of a message goes that has a fixed header of `h` bytes. -/
def bodyStart (h : Nat) (client : MqttClient) : Nat := (client.msgIdx - h) % (128 - h) + h

theorem bodyStart_range {h : Nat} {client : MqttClient} (few : h ≤ 5) (inside : h ≤ client.msgIdx) :
    h ≤ bodyStart h client ∧ bodyStart h client < 128 ∧ bodyStart h client ≤ client.msgIdx := by
  have bound := Nat.mod_lt (client.msgIdx - h) (show 128 - h > 0 by omega)
  have low := Nat.mod_le (client.msgIdx - h) (128 - h)
  unfold bodyStart
  omega

/-- Number of bytes that a pass copies of the rest of a message. -/
def bodyCount (p : Chain) (l : ParseLocals) (client : MqttClient) : Nat :=
  min (min (p.totLen - l.inOffset) l.msgRemLen) (128 - bodyStart l.fixedHdrIdx client)

/-- The local variables when `count` bytes have been copied. -/
def ParseLocals.copied (l : ParseLocals) (count : Nat) : ParseLocals :=
  { l with inOffset := l.inOffset + count, msgRemLen := l.msgRemLen - count }

/-- The header of a message has five bytes at most, and the rest of it less than `2 ^ 28`. -/
theorem BodyPhase.bounds {l : ParseLocals} {client : MqttClient} (phase : BodyPhase l client) :
    l.fixedHdrIdx ≤ 5 ∧ client.msgIdx + l.msgRemLen < 5 + 2 ^ 28 := by
  have few := phase.held.few
  have total := phase.total
  have below := remainingValue_lt client (l.fixedHdrIdx - 1)
  have power : 128 ^ (l.fixedHdrIdx - 1) ≤ 128 ^ 4 := Nat.pow_le_pow_right (by decide) few
  omega

/-- The bytes that a pass copies of the rest of a message. -/
def bodyData (b : List UInt8) (p : Chain) (l : ParseLocals) (client : MqttClient) : List UInt8 :=
  (b.drop l.inOffset).take (bodyCount p l client)

/-- A pass copies as many bytes as are there, as are missing and as fit. -/
theorem bodyCount_spec (phase : BodyPhase l client) (more : l.inOffset < p.totLen) :
    1 ≤ bodyCount p l client ∧ l.inOffset + bodyCount p l client ≤ p.totLen ∧
      bodyCount p l client ≤ l.msgRemLen ∧
      bodyCount p l client ≤ 128 - bodyStart l.fixedHdrIdx client := by
  have missing := phase.missing
  have start := bodyStart_range phase.bounds.1 phase.inside
  unfold bodyCount
  omega

/-- The part of a message that is in the buffer when `count` more bytes are. -/
def bodyPart (l : ParseLocals) (client : MqttClient) (count : Nat) : MqttPart :=
  { fixedHdrIdx := l.fixedHdrIdx
    length := bodyStart l.fixedHdrIdx client + count - l.fixedHdrIdx
    remainingLength := l.msgRemLen - count }

variable {b : List UInt8}

theorem length_bodyData (denotes : Denotes p b) (phase : BodyPhase l client)
    (more : l.inOffset < p.totLen) :
    (bodyData b p l client).length = bodyCount p l client := by
  have count := bodyCount_spec phase more
  rw [denotes.totLen_eq] at count
  unfold bodyData
  rw [length_take, length_drop]
  omega

/-- A pass copies bytes of the message into the buffer. -/
theorem mqttParseBody_eq (denotes : Denotes p b) (phase : BodyPhase l client)
    (more : l.inOffset < p.totLen) :
    mqttParseBody p l client = .ok (l.copied (bodyCount p l client),
      rxStore client (bodyStart l.fixedHdrIdx client) (bodyData b p l client),
      bodyPart l client (bodyCount p l client),
      decide (bodyCount p l client = 128 - bodyStart l.fixedHdrIdx client)) := by
  have size := length_bodyData denotes phase more
  have fits : p.totLen ≤ 65535 := by
    rw [denotes.totLen_eq]
    exact denotes.fits
  have bounds := phase.bounds
  have inside := phase.inside
  have start := bodyStart_range bounds.1 inside
  have position : u16 (toU32 ((client.msgIdx : Int) - l.fixedHdrIdx) %
      toU32 ((mqttVarHeaderBufferLen : Int) - l.fixedHdrIdx) + l.fixedHdrIdx) =
        bodyStart l.fixedHdrIdx client := by
    unfold mqttVarHeaderBufferLen
    rw [toU32_of_range (by omega) (by omega), toU32_of_range (by omega) (by omega)]
    have received : ((client.msgIdx : Int) - l.fixedHdrIdx).toNat =
        client.msgIdx - l.fixedHdrIdx := by omega
    have room : (((128 : Nat) : Int) - l.fixedHdrIdx).toNat = 128 - l.fixedHdrIdx := by omega
    rw [received, room]
    exact u16_of_lt (Nat.lt_trans start.2.1 (by decide))
  unfold mqttParseBody
  rw [lwipAssert_pos (by unfold mqttVarHeaderBufferLen; omega), ok_bind]
  dsimp only
  rw [position]
  unfold rxStore
  rw [size]
  unfold bodyData bodyPart ParseLocals.copied bodyCount
  rw [denotes.pbufCopyPartial]
  generalize bodyStart l.fixedHdrIdx client = cpyStart at start ⊢
  have space : toU16 ((mqttVarHeaderBufferLen : Int) - cpyStart) = 128 - cpyStart := by
    unfold mqttVarHeaderBufferLen
    exact toU16_eq (by omega) (by omega)
  have available : u16 (min (toU16 ((p.totLen : Int) - l.inOffset)) l.msgRemLen) =
      min (p.totLen - l.inOffset) l.msgRemLen := by
    rw [toU16_of_range (by omega) (by omega), u16_of_lt (by omega)]
    omega
  rw [space, available]
  have length : (if min (p.totLen - l.inOffset) l.msgRemLen > 128 - cpyStart then 128 - cpyStart
      else min (p.totLen - l.inOffset) l.msgRemLen) =
        min (min (p.totLen - l.inOffset) l.msgRemLen) (128 - cpyStart) := by
    split <;> omega
  rw [length]
  have amount : min (min (p.totLen - l.inOffset) l.msgRemLen) (128 - cpyStart) ≤
        p.totLen - l.inOffset ∧
      min (min (p.totLen - l.inOffset) l.msgRemLen) (128 - cpyStart) ≤ l.msgRemLen ∧
      min (min (p.totLen - l.inOffset) l.msgRemLen) (128 - cpyStart) ≤ 128 - cpyStart := by
    omega
  generalize min (min (p.totLen - l.inOffset) l.msgRemLen) (128 - cpyStart) = count at amount ⊢
  rw [lwipAssert_pos (by unfold mqttVarHeaderBufferLen; omega), ok_bind]
  have offset : u16 (l.inOffset + count) = l.inOffset + count := u16_of_lt (by omega)
  have received : (client.msgIdx + count) % 2 ^ 32 = client.msgIdx + count :=
    Nat.mod_eq_of_lt (by omega)
  have behind : toU16 ((cpyStart + count : Int) - l.fixedHdrIdx) =
      cpyStart + count - l.fixedHdrIdx := toU16_eq (by omega) (by omega)
  rw [offset, received, behind]

/-- Passes that are left to make at most: one for each byte of the pbufs, and one for each byte
of the fixed header that is read again. -/
def passesLeft (p : Chain) (l : ParseLocals) (client : MqttClient) : Nat :=
  p.totLen - l.inOffset + if l.fixedHdrIdx < client.msgIdx ∧ inFixedHeader l then 5 - l.fixedHdrIdx
    else 0

/-- The start of a message is a phase of the parser. -/
theorem inPhase_next (l : ParseLocals) (client : MqttClient) (zero : l.msgRemLen = 0) :
    InPhase { l with fixedHdrIdx := 0 } { client with msgIdx := 0 } := by
  unfold InPhase
  rw [if_pos (by simp [inFixedHeader])]
  constructor
  · exact .header (Nat.zero_le _) fun i low high => absurd high (Nat.not_lt_zero i)
  · exact Nat.le_refl _
  · exact Nat.zero_le _
  · exact fun i low high => absurd high (Nat.not_lt_zero i)
  · exact zero

/-- Whether the last byte read ends the header. -/
theorem headerComplete_iff (l : ParseLocals) :
    headerComplete l = true ↔ 2 ≤ l.fixedHdrIdx ∧ l.b.toNat < 128 := by
  have continues := continues_iff l.b
  simp only [headerComplete, ge_iff_le, Bool.and_eq_true, decide_eq_true_eq]
  by_cases zero : l.b &&& 0x80 = 0
  · have below : ¬128 ≤ l.b.toNat := fun above => continues.mpr above zero
    simp only [zero, and_true, iff_self_and]
    omega
  · have above := continues.mp zero
    simp only [zero, and_false, false_iff, not_and]
    omega

theorem inFixedHeader_iff (l : ParseLocals) :
    inFixedHeader l = true ↔ l.fixedHdrIdx < 2 ∨ 128 ≤ l.b.toNat := by
  simp only [inFixedHeader, Bool.or_eq_true, decide_eq_true_eq]
  rw [← continues_iff]

/-- The bytes read so far have a successor if the last one has. -/
theorem HeaderRead.continuing (read : HeaderRead p l client l' client')
    (phase : HeaderPhase l client) (last : 1 ≤ l.fixedHdrIdx → 128 ≤ l'.b.toNat) :
    Continuing client' l'.fixedHdrIdx := by
  intro i low high
  rw [read.next] at high
  by_cases here : i = l.fixedHdrIdx
  · rw [here, ← read.byte]
    exact last (by omega)
  · rw [read.before i (by omega)]
    exact phase.continuing i low (by omega)

theorem HeaderRead.goesOn (read : HeaderRead p l client l' client') (phase : HeaderPhase l client)
    (few : l.fixedHdrIdx < 5) (incomplete : ¬headerComplete l') : InPhase l' client' := by
  rw [headerComplete_iff, read.next] at incomplete
  have continuing := read.continuing phase (by omega)
  have header : inFixedHeader l' := by
    rw [inFixedHeader_iff, read.next]
    omega
  unfold InPhase
  rw [if_pos header]
  have next := read.next
  have value := read.value
  rw [show l.fixedHdrIdx = l'.fixedHdrIdx - 1 by omega] at value
  cases read.source with
  | inl stored =>
    refine ⟨?_, ?_, by omega, continuing, value⟩
    · rw [stored.2.1]
      exact phase.held
    · rw [stored.2.1]
      omega
  | inr received =>
    have count : client'.msgIdx = l'.fixedHdrIdx := by
      rw [received.2.2, next, ← received.1]
      rfl
    refine ⟨.header (by omega) ?_, by omega, by omega, continuing, value⟩
    rw [count]
    exact continuing

/-- A header that is complete, of a message with something behind it. -/
theorem HeaderRead.complete (read : HeaderRead p l client l' client') (phase : HeaderPhase l client)
    (few : l.fixedHdrIdx < 5) (complete : headerComplete l') (nonempty : l'.msgRemLen ≠ 0) :
    InPhase { l' with
      msgRemLen := toU32 ((l'.msgRemLen + l'.fixedHdrIdx : Int) - client'.msgIdx) } client' := by
  rw [headerComplete_iff, read.next] at complete
  have next := read.next
  have ends : (rxByte client' l.fixedHdrIdx).toNat < 128 := by
    rw [← read.byte]
    exact complete.2
  have value := read.value
  have found : HeaderHeld client' l.fixedHdrIdx ∧
      l.fixedHdrIdx + 1 ≤ client'.msgIdx ∧
        client'.msgIdx < l.fixedHdrIdx + 1 + remainingValue client' l.fixedHdrIdx := by
    cases read.source with
    | inl stored =>
      rw [stored.2.1] at ends ⊢
      have held := phase.held.at_byte phase.continuing (by omega) stored.1 ends
      exact ⟨held.1, stored.1, held.2⟩
    | inr received =>
      have count : client'.msgIdx = l.fixedHdrIdx + 1 := by
        rw [received.2.2, ← received.1]
        rfl
      have positive : 0 < remainingValue client' l.fixedHdrIdx := by omega
      refine ⟨⟨by omega, by omega, ?_, ends, positive⟩, by omega, by omega⟩
      intro i low high
      rw [read.before i high]
      exact phase.continuing i low high
  have small : remainingValue client' l.fixedHdrIdx < 2 ^ 28 := by
    have below := remainingValue_lt client' l.fixedHdrIdx
    have power : 128 ^ l.fixedHdrIdx ≤ 128 ^ 4 := Nat.pow_le_pow_right (by decide) (by omega)
    omega
  have missing : toU32 ((l'.msgRemLen + l'.fixedHdrIdx : Int) - client'.msgIdx) =
      l'.msgRemLen + l'.fixedHdrIdx - client'.msgIdx := by
    rw [toU32_of_range (by omega) (by omega)]
    omega
  have notHeader : ¬inFixedHeader { l' with
      msgRemLen := toU32 ((l'.msgRemLen + l'.fixedHdrIdx : Int) - client'.msgIdx) } := by
    rw [inFixedHeader_iff]
    dsimp only
    omega
  unfold InPhase
  rw [if_neg notHeader]
  have idx : l'.fixedHdrIdx - 1 = l.fixedHdrIdx := by omega
  constructor
  · dsimp only
    omega
  · dsimp only
    rw [idx]
    exact found.1
  · dsimp only
    omega
  · dsimp only
    rw [missing, idx]
    omega
  · dsimp only
    rw [missing]
    omega

/-- Reading a byte of the header brings the parser closer to the end. -/
theorem HeaderRead.closer {l'' : ParseLocals} {client'' : MqttClient}
    (read : HeaderRead p l client l' client') (few : l.fixedHdrIdx < 5)
    (more : l.inOffset < p.totLen) (header : inFixedHeader l) (offset : l''.inOffset = l'.inOffset)
    (count : l''.fixedHdrIdx < client''.msgIdx → l''.fixedHdrIdx = l.fixedHdrIdx + 1 ∧
      client''.msgIdx = client'.msgIdx) :
    passesLeft p l'' client'' < passesLeft p l client := by
  unfold passesLeft
  rw [offset]
  cases read.source with
  | inl stored =>
    rw [stored.2.2, if_pos (show l.fixedHdrIdx < client.msgIdx ∧ inFixedHeader l = true from
      ⟨stored.1, header⟩)]
    split
    · rename_i again
      have := count again.1
      omega
    · omega
  | inr received =>
    have stored : client'.msgIdx = l.fixedHdrIdx + 1 := by
      rw [received.2.2, ← received.1]
      rfl
    rw [received.2.1, if_neg (show ¬(l''.fixedHdrIdx < client''.msgIdx ∧ inFixedHeader l'' = true)
      from fun again => by have := count again.1; omega)]
    split <;> omega

theorem rxByte_store_body (phase : BodyPhase l client) (data : List UInt8) {i : Nat}
    (inHeader : i < l.fixedHdrIdx) :
    rxByte (rxStore client (bodyStart l.fixedHdrIdx client) data) i = rxByte client i := by
  have start := bodyStart_range phase.bounds.1 phase.inside
  exact rxByte_fill client _ data (by omega)

/-- A message that is not complete is still being copied behind a pass. -/
theorem BodyPhase.still (phase : BodyPhase l client) (notHeader : ¬inFixedHeader l)
    {data : List UInt8}
    (same : SameMessage (bodyPart l client data.length)
      (rxStore client (bodyStart l.fixedHdrIdx client) data) client')
    (unfinished : data.length < l.msgRemLen) : InPhase (l.copied data.length) client' := by
  have total := phase.total
  have begun := phase.begun
  have inside := phase.inside
  have bytes : ∀ i, i ≤ l.fixedHdrIdx - 1 → rxByte client' i = rxByte client i := by
    intro i small
    have inHeader : i < l.fixedHdrIdx := by omega
    rw [same.header i inHeader, rxByte_store_body phase data inHeader]
  have received : client'.msgIdx = client.msgIdx + data.length := same.msgIdx
  unfold InPhase
  rw [if_neg (show ¬inFixedHeader (l.copied data.length) = true from notHeader)]
  constructor
  · exact begun
  · exact phase.held.congr bytes
  · rw [received]
    exact Nat.le_add_right_of_le inside
  · unfold ParseLocals.copied
    dsimp only
    rw [received, remainingValue_congr bytes]
    omega
  · unfold ParseLocals.copied
    dsimp only
    omega

theorem BodyPhase.closer (phase : BodyPhase l client) (more : l.inOffset < p.totLen)
    (offset : l'.inOffset = l.inOffset + bodyCount p l client)
    (none : ¬(l'.fixedHdrIdx < client'.msgIdx ∧ inFixedHeader l' = true)) :
    passesLeft p l' client' < passesLeft p l client := by
  have count := bodyCount_spec phase more
  unfold passesLeft
  rw [if_neg none, offset]
  omega

end Lwip.Mqtt
