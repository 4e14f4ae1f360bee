import Lwip.Base.Slice
import Lwip.Verif.TcpConn

/-!
# The received byte stream

When every segment carries bytes of one stream, the data that `tcp_receive` hands over is the
stream up to the next expected byte, whatever the order, overlap or loss of the segments, and
the `FIN` is reported behind the last byte. This needs the two interval tests on sequence
numbers to accept a segment only where it really lies: they also accept one number outside of an
empty interval, and they cannot tell places apart whose distance is a multiple of `2 ^ 32`.
-/

namespace Lwip

open Outcome Serial Slice Transition List

variable {recvData : Chain} {b : List UInt8}

/-! ## Segments of a stream -/

/-- A segment that carries the bytes of a stream at its place, with a `FIN` only at the end. -/
structure StreamGood (stream : List UInt8) (n : Nat) (seg : TcpSeg) : Prop where
  data : Denotes seg.p (slice stream n seg.len)
  within : n + seg.len ≤ stream.length
  fin : seg.tcphdr.flags.fin = true → n + seg.len = stream.length

/-- The bytes of the stream survive what is done to queued segments. -/
theorem streamGood_trimmable (stream : List UInt8) : Trimmable (StreamGood stream) where
  trim := by
    intro n m seg p rest good noFin shorter done
    have cut := (pbufRealloc_denotes good.data done).1
    rw [take_slice stream n shorter] at cut
    have within := good.within
    refine ⟨cut, ?_, fun fin => ?_⟩
    · show n + m ≤ stream.length
      omega
    · rw [noFin] at fin
      cases fin
  copyFin := by
    intro n m seg covered good coveredGood fin reaches
    have atEnd := coveredGood.fin fin
    have within := good.within
    refine ⟨good.data, good.within, fun _ => ?_⟩
    show n + seg.len = stream.length
    omega
  clearFin := by
    intro n seg good
    exact ⟨good.data, good.within, fun fin => by cases fin⟩

/-- Data for the application: nothing, or a chain that denotes it. -/
def Carries (recvData : Chain) (b : List UInt8) : Prop :=
  (recvData = [] ∧ b = []) ∨ Denotes recvData b

/-- The bytes of the data. -/
theorem Carries.bytes (carries : Carries recvData b) : Chain.bytes recvData = b := by
  rcases carries with empty | denotes
  · rw [empty.1, empty.2]
    rfl
  · exact denotes.bytes

/-- A dequeued segment is linked behind the data. -/
theorem Carries.link {p recvData' : Chain} {e : List UInt8} (carries : Carries recvData b)
    (denotes : Denotes p e) (total : b.length + e.length ≤ 65535)
    (done : tcpLinkData recvData p = .ok recvData') : Carries recvData' (b ++ e) := by
  have length := denotes.totLen_eq
  unfold tcpLinkData at done
  split at done
  · split at done
    · rename_i empty
      cases done
      rcases carries with nothing | something
      · rw [nothing.2]
        exact .inr denotes
      · exact absurd empty something.nonempty
    · rename_i nonempty
      rcases carries with nothing | something
      · exact absurd nothing.1 nonempty
      · exact .inr (pbufCat_denotes something denotes total done)
  · cases done
    have none : e = [] := eq_nil_of_length_eq_zero (by omega)
    rw [none, append_nil]
    exact carries

/-- What has been handed over when the receiver got from the place `start` to `r`: the bytes
between, and the `FIN` if the end was passed. -/
def StreamTaken (stream : List UInt8) (start r : Nat) (i : TcpInput) : Prop :=
  ∃ s, start ≤ s ∧ s ≤ stream.length ∧ (r = s + if i.tfGotFin = true then 1 else 0) ∧
    (i.tfGotFin = true → s = stream.length) ∧ Carries i.recvData (slice stream start (s - start))

section Taken

variable {stream : List UInt8} {base : UInt32} {hi start r : Nat} {i : TcpInput}

theorem StreamTaken.link {e : Nat} {cseg : TcpSeg} (taken : StreamTaken stream start r i)
    (located : SegAt base hi (StreamGood stream) r cseg) (small : e - start ≤ 65535)
    (inside : r + tcpTcplen cseg ≤ e) (done : tcpLinkData i.recvData cseg.p = .ok recvData) :
    StreamTaken stream start (r + tcpTcplen cseg) (deliverInput i recvData cseg) := by
  obtain ⟨s, forward, within, reached, atEnd, carries⟩ := taken
  have good := located.good
  have inStream := good.within
  have length := tcpTcplen_noSyn located.noSyn
  -- nothing is queued behind the end
  have noFin : i.tfGotFin = false := by
    rw [← Bool.not_eq_true]
    intro fin
    rw [if_pos fin] at reached
    have := atEnd fin
    omega
  rw [noFin] at reached
  simp only [Bool.false_eq_true, if_false, Nat.add_zero] at reached
  subst reached
  have own := length_slice inStream
  have before : (slice stream start (r - start)).length = r - start :=
    length_slice (by omega : start + (r - start) ≤ stream.length)
  have joined := carries.link good.data (by omega) done
  have adjoin := slice_append stream start (r - start) cseg.len
  rw [Nat.add_sub_cancel' forward] at adjoin
  rw [adjoin] at joined
  refine ⟨r + cseg.len, by omega, inStream, ?_, ?_, ?_⟩
  · show r + tcpTcplen cseg =
      r + cseg.len + if (i.tfGotFin || cseg.tcphdr.flags.fin) = true then 1 else 0
    rw [noFin, Bool.false_or, length, Nat.add_assoc]
  · intro fin
    have fin : (i.tfGotFin || cseg.tcphdr.flags.fin) = true := fin
    rw [noFin, Bool.false_or] at fin
    exact good.fin fin
  · show Carries recvData (slice stream start (r + cseg.len - start))
    rw [show r + cseg.len - start = r - start + cseg.len by omega]
    exact joined

/-- The segment in sequence is handed over. -/
theorem StreamTaken.inseq {inseg : TcpSeg} (nothing : i.recvData = []) (noFin : i.tfGotFin = false)
    (data : DataAt base (StreamGood stream) r inseg) :
    StreamTaken stream r (r + tcpTcplen inseg) (startInput i inseg) := by
  have good := data.good
  have length := good.data.totLen_eq
  have own := length_slice good.within
  refine ⟨r + inseg.len, by omega, good.within, ?_, ?_, ?_⟩
  · show r + tcpTcplen inseg =
      r + inseg.len + if (i.tfGotFin || inseg.tcphdr.flags.fin) = true then 1 else 0
    rw [noFin, Bool.false_or, tcpTcplen_noSyn data.noSyn, Nat.add_assoc]
  · intro fin
    have fin : (i.tfGotFin || inseg.tcphdr.flags.fin) = true := fin
    rw [noFin, Bool.false_or] at fin
    exact good.fin fin
  · show Carries (if inseg.p.totLen > 0 then inseg.p else i.recvData)
      (slice stream r (r + inseg.len - r))
    rw [Nat.add_sub_cancel_left]
    split
    · exact .inr good.data
    · have none : inseg.len = 0 := by omega
      rw [none, slice_zero]
      exact .inl ⟨nothing, rfl⟩

theorem StreamTaken.refl (nothing : i.recvData = []) (noFin : i.tfGotFin = false)
    (within : r ≤ stream.length) : StreamTaken stream r r i := by
  refine ⟨r, Nat.le_refl r, within, by simp [noFin], by simp [noFin], Or.inl ⟨nothing, ?_⟩⟩
  rw [Nat.sub_self, slice_zero]

end Taken

/-! ## Trimming of the left edge -/

/-- The walk over the pbufs in front of the left edge takes bytes off the front. -/
theorem tcpSkipPbufs_denotes {c : Chain} {newTotLen off : Nat} (denotes : Denotes c b)
    (short : off ≤ b.length) (small : off < 32767) (total : newTotLen = b.length - off) :
    Ensures WindowKept (tcpSkipPbufs newTotLen off c) fun c' => Denotes c' (b.drop off) := by
  induction c generalizing b off with
  | nil => exact .error (by decide)
  | cons p next ih =>
    unfold tcpSkipPbufs
    split
    · rename_i skipped
      have shorter : p.len ≤ off := by omega
      cases next with
      | nil => exact .error (by decide)
      | cons q more =>
        have rest : Denotes (q :: more) (b.drop p.len) := denotes.tail (by simp)
        have left : (b.drop p.len).length = b.length - p.len := length_drop
        have further : ((off : Int) - (p.len : Int)) = ((off - p.len : Nat) : Int) := by omega
        rw [further]
        apply (ih rest (by omega) (by omega) (by omega)).bind
        intro kept tail
        have dropped : (b.drop p.len).drop (off - p.len) = b.drop off := by
          rw [drop_drop, Nat.add_sub_cancel' shorter]
        rw [dropped] at tail
        have size : (b.drop off).length = b.length - off := length_drop
        have inside := denotes.inMemory p mem_cons_self
        have front : ({ p with totLen := newTotLen, len := 0 } : Pbuf).bytes = [] := by
          simp [Pbuf.bytes]
        have whole := denotes.fits
        refine .ok (Denotes.of_cons (b := []) front ?_ ?_ ?_ tail)
        · show p.payload + 0 ≤ p.mem.length
          omega
        · show newTotLen = ([] ++ b.drop off).length
          rw [nil_append, size, total]
        · rw [nil_append]
          omega
    · have exactly : toS16 (-(off : Int)) = -(off : Int) := Int.bmod_eq_of_le (by omega) (by omega)
      have whole := denotes.fits
      rw [exactly]
      have adjusted := pbufHeader_denotes (c := next) denotes (by omega : -32768 ≤ -(off : Int))
        (by omega)
      simp only [pbufHeader, ok_bind] at adjusted ⊢
      cases header : pbufHeaderImpl p (-(off : Int)) false with
      | none => exact .error (by decide)
      | some p' =>
        have moved := pbufHeader_denotes (c := p' :: next) denotes
          (by omega : -32768 ≤ -(off : Int)) (by omega) (by simp [pbufHeader, header])
        refine .ok ?_
        unfold headerAdjusted at moved
        rw [if_pos (by omega), Int.neg_neg, Int.toNat_natCast] at moved
        exact moved

/-- A segment that starts before the expected place and ends behind it is cut down to the rest. -/
theorem tcpTrimLeft_stream {stream : List UInt8} {base : UInt32} {n r : Nat} {rcvNxt : UInt32}
    {i : TcpInput} (expected : rcvNxt = place base r) (seqno : i.seqno = place base n)
    (noSyn : i.inseg.tcphdr.flags.syn = false) (small : i.inseg.len < 65536)
    (good : StreamGood stream n i.inseg) (before : n < r) (behind : r ≤ n + i.inseg.len) :
    Ensures WindowKept (tcpTrimLeft rcvNxt i) fun i' =>
      i'.seqno = rcvNxt ∧ DataAt base (StreamGood stream) r i'.inseg ∧
        i'.recvData = i.recvData ∧ i'.tfGotFin = i.tfGotFin := by
  have distance : (rcvNxt - i.seqno).toNat = r - n := by
    rw [expected, seqno]
    exact toNat_place_sub_of_le base (by omega) (by omega)
  have off : toS32 (rcvNxt - i.seqno) = ((r - n : Nat) : Int) := by
    rw [toS32, distance, if_pos (by omega)]
  have own := length_slice good.within
  have whole := good.data.totLen_eq
  unfold tcpTrimLeft
  apply ensures_pass (by decide)
  apply ensures_assert (fun _ => by decide)
  intro sane
  apply ensures_pass (by decide)
  rw [off] at sane ⊢
  rw [distance]
  have left : toU16 ((i.inseg.p.totLen : Int) - ((r - n : Nat) : Int)) =
      (slice stream n i.inseg.len).length - (r - n) := toU16_eq (by omega) (by omega)
  have length : toU16 ((i.inseg.len : Int) - ((r - n : Nat) : Int)) = n + i.inseg.len - r :=
    toU16_eq (by omega) (by omega)
  rw [left, length]
  apply (tcpSkipPbufs_denotes good.data (by omega) (by omega) rfl).bind
  intro p trimmed
  have rest : (slice stream n i.inseg.len).drop (r - n) =
      slice stream r (n + i.inseg.len - r) := by
    rw [drop_slice, show n + (r - n) = r by omega,
      show i.inseg.len - (r - n) = n + i.inseg.len - r by omega]
  rw [rest] at trimmed
  have within := good.within
  refine .ok ⟨rfl, ⟨expected, noSyn, ?_, ⟨trimmed, ?_, ?_⟩⟩, rfl, rfl⟩
  · show n + i.inseg.len - r < 65536
    omega
  · show r + (n + i.inseg.len - r) ≤ stream.length
    omega
  · intro fin
    have atEnd := good.fin fin
    show r + (n + i.inseg.len - r) = stream.length
    omega

/-! ## The data of a segment -/

/-- The interval tests accept a segment at the stream's place `n` only where it lies, for a
receiver that expects the place `r`. -/
def Located (pcb : TcpPcb) (r n : Nat) (i : TcpInput) : Prop :=
  0 < i.tcplen → pcb.state.code < TcpState.closeWait.code →
    if seqBetween pcb.rcvNxt (i.seqno + 1) (i.seqno + UInt32.ofNat i.tcplen - 1) = true then
      n < r ∧ r < n + i.tcplen
    else
      seqBetween i.seqno pcb.rcvNxt (pcb.rcvNxt + UInt32.ofNat pcb.rcvWnd - 1) = true →
        r ≤ n ∧ n < r + pcb.rcvWnd

/-- Room for everything that a segment in the window can reach. -/
def streamRoom : Nat := 80000

/-- What is known of the data after a segment that came in at the control block `pcb`, which
expected the stream's place `r`. -/
def streamPost (stream : List UInt8) (irs : UInt32) (r : Nat) (pcb : TcpPcb) : HandedRel :=
  fun data fin fields =>
    ∃ s, r ≤ s ∧ s ≤ stream.length ∧ Chain.bytes data = slice stream r (s - r) ∧
      (fin = true → s = stream.length) ∧
      fields.1 = pcb.rcvNxt + UInt32.ofNat (s - r + if fin = true then 1 else 0) ∧
      fields.2.1 ≤ tcpWnd ∧
      (TcpState.closeWait.code ≤ pcb.state.code → s = r ∧ fin = false) ∧
      (pcb.state.code < TcpState.closeWait.code → fin = false →
        Queued irs (s + streamRoom) (StreamGood stream) (s + 1) fields.2.2)

section Segment

variable {stream : List UInt8} {irs : UInt32} {r n : Nat} {env : TcpEnv} {pcb : TcpPcb}
  {i : TcpInput}

theorem streamPost_idle (within : r ≤ stream.length) (bounded : pcb.rcvWnd ≤ tcpWnd)
    (queued : pcb.state.code < TcpState.closeWait.code →
      Queued irs (r + streamRoom) (StreamGood stream) (r + 1) pcb.ooseq) :
    streamPost stream irs r pcb [] false (receiveFields pcb) := by
  refine ⟨r, Nat.le_refl r, within, ?_, by simp, ?_, bounded, fun _ => ⟨rfl, rfl⟩,
    fun early _ => queued early⟩
  · rw [Nat.sub_self, slice_zero]
    rfl
  · simp [receiveFields]

theorem streamPost_purge (stream : List UInt8) (irs : UInt32) (r : Nat) (pcb : TcpPcb) :
    Purges (streamPost stream irs r pcb) := by
  rintro _ _ _ _ _ ⟨s, later, inStream, bytes, atEnd, next, bounded, late, _⟩
  exact ⟨s, later, inStream, bytes, atEnd, next, bounded, late, fun _ _ => trivial⟩

/-- The data of a segment that lies where the tests accept it. -/
theorem tcpReceiveData_located (arrived : Arrived i) (good : StreamGood stream n i.inseg)
    (seqno : i.seqno = place irs n) (within : r ≤ stream.length)
    (early : pcb.state.code < TcpState.closeWait.code) (bounded : pcb.rcvWnd ≤ tcpWnd)
    (receiver : ReceiverAt irs (r + streamRoom) (StreamGood stream) (r + pcb.rcvWnd) r pcb)
    (located : Located pcb r n i) :
    Ensures AnyError (tcpReceiveData env i pcb)
      (Received irs (r + streamRoom) (StreamGood stream) (r + pcb.rcvWnd) r
        (StreamTaken stream r) pcb.state) := by
  have width : pcb.rcvWnd ≤ 8096 := bounded
  have room : streamRoom = 80000 := rfl
  have small := arrived.small
  have upper := tcpTcplen_le i.inseg
  apply tcpReceiveData_spec (n := n) (fun _ _ => trivial) (streamGood_trimmable stream)
    (fun taken there inside done => taken.link there (by omega) inside done) (Or.inl trivial)
    (by omega) (by omega) (by omega) receiver ?_ ?_ ?_
    (fun positive => arrived.incoming seqno good positive) ?_
  · intro i' inseg handed gotFin data _
    exact StreamTaken.inseq (handed.trans arrived.noData) (gotFin.trans arrived.noFin) data
  · intro positive accepted
    have incoming : Incoming irs (StreamGood stream) n i := arrived.incoming seqno good positive
    have place := located positive early
    rw [if_pos accepted, incoming.tcplen] at place
    apply (tcpTrimLeft_stream receiver.expected seqno arrived.noSyn small good place.1
      (by omega)).mono
    intro i' trimmed
    exact ⟨trimmed.1, trimmed.2.1, trimmed.2.2.1, trimmed.2.2.2, Or.inl trivial⟩
  · intro positive rejected accepted
    have place := located positive early
    rw [if_neg (by rw [rejected]; decide)] at place
    obtain ⟨order, inside⟩ := place accepted
    have ends : n + tcpTcplen i.inseg ≤ r + streamRoom := by omega
    refine ⟨order, inside, fun _ => ?_, fun _ => .inl trivial⟩
    exact .inr (.inr (.inr ⟨ends, fun _ => by omega⟩))
  · intro i' handed gotFin
    exact StreamTaken.refl (handed.trans arrived.noData) (gotFin.trans arrived.noFin) within

theorem tcpReceiveData_stream (arrived : Arrived i) (good : StreamGood stream n i.inseg)
    (seqno : i.seqno = place irs n) (within : r ≤ stream.length)
    (bounded : pcb.rcvWnd ≤ tcpWnd)
    (expected : pcb.state.code < TcpState.closeWait.code → pcb.rcvNxt = place irs r)
    (queued : pcb.state.code < TcpState.closeWait.code →
      Queued irs (r + streamRoom) (StreamGood stream) (r + 1) pcb.ooseq)
    (located : Located pcb r n i) :
    DataReceived AnyError (streamPost stream irs r pcb) env i pcb := by
  intro recvAcked pcb' same reach
  have arrived' : Arrived { i with recvAcked := recvAcked } := arrived.congr rfl rfl rfl rfl rfl
  have fields := same
  simp only [receiveFields, Prod.mk.injEq] at fields
  obtain ⟨next, size, queue⟩ := fields
  by_cases open' : pcb'.state.code < TcpState.closeWait.code
  · have early := reach open'
    have receiver : ReceiverAt irs (r + streamRoom) (StreamGood stream) (r + pcb'.rcvWnd) r
        pcb' := ⟨next.trans (expected early), rfl, by rw [queue]; exact queued early⟩
    have located' : Located pcb' r n { i with recvAcked := recvAcked } := by
      intro positive _
      rw [next, size]
      exact located positive early
    have bounded' : pcb'.rcvWnd ≤ tcpWnd := by
      rw [size]
      exact bounded
    apply (tcpReceiveData_located arrived' good seqno within open' bounded' receiver
      located').mono
    rintro ⟨i', after⟩ ⟨r', forward, receiver', taken, state⟩
    obtain ⟨s, later, inStream, reached, atEnd, carries⟩ := taken
    have sum : r' + after.rcvWnd = r + pcb'.rcvWnd := receiver'.sum
    dsimp only at reached atEnd carries state
    refine ⟨⟨s, later, inStream, carries.bytes, atEnd, ?_, ?_, ?_, ?_⟩, state⟩
    · show after.rcvNxt = pcb.rcvNxt + UInt32.ofNat (s - r + if i'.tfGotFin = true then 1 else 0)
      rw [receiver'.expected, expected early, place_add, reached]
      congr 1
      omega
    · show after.rcvWnd ≤ tcpWnd
      omega
    · intro late
      exact absurd early (Nat.not_lt_of_le late)
    · intro _ noFin
      rw [noFin] at reached
      simp only [Bool.false_eq_true, if_false, Nat.add_zero] at reached
      subst reached
      exact receiver'.queued.mono (by omega) fun _ _ kept => kept
  · apply (tcpReceiveData_nothing env (Nat.le_of_not_lt open')).any.mono
    rintro ⟨i', after⟩ ⟨unchanged, sides⟩
    obtain ⟨fields', state⟩ := receiveFields_of_side sides
    refine ⟨?_, Or.inl state⟩
    unfold Handed
    rw [unchanged, fields', same]
    rw [arrived.noData, arrived.noFin]
    exact streamPost_idle within bounded queued

end Segment

/-! ## Runs -/

/-- A segment of the peer with bytes of a stream from the place `n` on. -/
structure StreamSegment (stream : List UInt8) (irs : UInt32) (n : Nat) (p : Chain)
    (tcphdr : TcpHdr) : Prop where
  seqno : tcphdr.seqno = place irs n
  noSyn : tcphdr.flags.syn = false
  data : Denotes p (slice stream n p.totLen)
  within : n + p.totLen ≤ stream.length
  fin : tcphdr.flags.fin = true → n + p.totLen = stream.length

/-- All segments carry bytes of the stream. -/
def PeerEvent (stream : List UInt8) (irs : UInt32) (_ : TcpConn) : TcpEvent → Prop
  | .segment _ p tcphdr _ => ∃ n, StreamSegment stream irs n p tcphdr
  | .accepted _ p tcphdr => ∃ n, StreamSegment stream irs n p tcphdr
  | _ => True

/-- All segments carry bytes of the stream, and the interval tests accept them only where they
lie. -/
def StreamGuard (stream : List UInt8) (irs : UInt32) (c : TcpConn) : TcpEvent → Prop
  | .segment _ p tcphdr opts => ∃ n, StreamSegment stream irs n p tcphdr ∧
      (tcpReachesData c.pcb (tcpInputOf p tcphdr opts) →
        Located c.pcb c.delivered.length n (tcpInputOf p tcphdr opts))
  | .accepted _ p tcphdr => ∃ n, StreamSegment stream irs n p tcphdr ∧
      Located c.pcb c.delivered.length n (tcpInputOf p tcphdr [])
  | _ => True

/-- A connection that has handed over the stream up to the next expected byte. -/
structure StreamInv (stream : List UInt8) (irs : UInt32) (c : TcpConn) : Prop where
  opened : 0 < c.pcb.state.code
  bounded : c.pcb.rcvWnd ≤ tcpWnd
  delivered : c.delivered = stream.take c.delivered.length
  expected : c.pcb.rcvNxt = place irs (c.delivered.length + if c.finSeen = true then 1 else 0)
  /-- The `FIN` is seen behind the last byte. -/
  finAtEnd : c.finSeen = true → c.delivered.length = stream.length
  /-- Behind the `FIN` no more data is looked at. -/
  finLate : c.finSeen = true → TcpState.closeWait.code ≤ c.pcb.state.code
  /-- Before, the queue out of sequence holds bytes of the stream. -/
  queued : c.pcb.state.code < TcpState.closeWait.code →
    Queued irs (c.delivered.length + streamRoom) (StreamGood stream) (c.delivered.length + 1)
      c.pcb.ooseq

section Step

variable {stream : List UInt8} {irs : UInt32} {c : TcpConn}

section

variable (inv : StreamInv stream irs c)

include inv

/-- What was handed over lies inside the stream. -/
theorem StreamInv.within : c.delivered.length ≤ stream.length := by
  have length := congrArg List.length inv.delivered
  rw [length_take] at length
  omega

/-- As long as data is looked at, no `FIN` has been seen. -/
theorem StreamInv.expected_early (early : c.pcb.state.code < TcpState.closeWait.code) :
    c.pcb.rcvNxt = place irs c.delivered.length := by
  have noFin : ¬c.finSeen = true := by
    intro seen
    exact absurd early (Nat.not_lt_of_le (inv.finLate seen))
  rw [inv.expected, if_neg noFin, Nat.add_zero]

/-- The data of a segment of the stream, for a connection that has handed over the stream. -/
theorem StreamInv.dataReceived {n : Nat} {env : TcpEnv} {p : Chain} {tcphdr : TcpHdr}
    {opts : List UInt8} (segment : StreamSegment stream irs n p tcphdr)
    (located : Located c.pcb c.delivered.length n (tcpInputOf p tcphdr opts)) :
    DataReceived AnyError (streamPost stream irs c.delivered.length c.pcb) env
      (tcpInputOf p tcphdr opts) c.pcb := by
  have size : p.totLen < 65536 := by
    have fits := segment.data.fits
    rw [← segment.data.totLen_eq] at fits
    omega
  have arrived := arrived_tcpInputOf opts segment.noSyn size
  exact tcpReceiveData_stream arrived ⟨segment.data, segment.within, segment.fin⟩ segment.seqno
    inv.within inv.bounded inv.expected_early inv.queued located

theorem StreamInv.processed {input : TcpInput} {pcb : TcpPcb}
    (done : Processed (streamPost stream irs c.delivered.length c.pcb) c.pcb.state input pcb) :
    StreamInv stream irs (c.received input pcb) := by
  obtain ⟨⟨s, later, inStream, bytes, atEnd, next, bounded, late, queued⟩, forward, fin⟩ := done
  have length : (c.delivered ++ Chain.bytes input.recvData).length = s := by
    rw [length_append, bytes,
      length_slice (by omega : c.delivered.length + (s - c.delivered.length) ≤ stream.length)]
    omega
  have seen : c.finSeen = true → s = c.delivered.length ∧ input.tfGotFin = false :=
    fun earlier => late (inv.finLate earlier)
  refine ⟨Nat.lt_of_lt_of_le inv.opened forward, bounded, ?_, ?_, ?_, ?_, ?_⟩
  · show c.delivered ++ Chain.bytes input.recvData =
      stream.take (c.delivered ++ Chain.bytes input.recvData).length
    have adjoin := slice_append stream 0 c.delivered.length (s - c.delivered.length)
    rw [length, ← slice_from_start, bytes, inv.delivered, length_take,
      Nat.min_eq_left inv.within, ← slice_from_start]
    rw [Nat.zero_add, Nat.add_sub_cancel' later] at adjoin
    exact adjoin
  · show pcb.rcvNxt = place irs ((c.delivered ++ Chain.bytes input.recvData).length +
      if (c.finSeen || input.tfGotFin) = true then 1 else 0)
    have next : pcb.rcvNxt = c.pcb.rcvNxt +
      UInt32.ofNat (s - c.delivered.length + if input.tfGotFin = true then 1 else 0) := next
    rw [next, inv.expected, place_add, length]
    congr 1
    by_cases earlier : c.finSeen = true
    · obtain ⟨same, noFin⟩ := seen earlier
      rw [earlier, noFin, same]
      simp
    · rw [Bool.not_eq_true] at earlier
      rw [earlier, Bool.false_or]
      simp only [Bool.false_eq_true, if_false]
      omega
  · intro finSeen
    show (c.delivered ++ Chain.bytes input.recvData).length = stream.length
    rw [length]
    rcases Bool.or_eq_true _ _ ▸ finSeen with earlier | now
    · rw [(seen earlier).1]
      exact inv.finAtEnd earlier
    · exact atEnd now
  · intro finSeen
    rcases Bool.or_eq_true _ _ ▸ finSeen with earlier | now
    · exact Nat.le_trans (inv.finLate earlier) forward
    · exact fin now
  · intro early
    have noFin : input.tfGotFin = false := by
      rw [← Bool.not_eq_true]
      intro now
      exact absurd early (Nat.not_lt_of_le (fin now))
    show Queued irs ((c.delivered ++ Chain.bytes input.recvData).length + streamRoom)
      (StreamGood stream) ((c.delivered ++ Chain.bytes input.recvData).length + 1) pcb.ooseq
    rw [length]
    exact queued (Nat.lt_of_le_of_lt forward early) noFin

/-- A control block with the same receiver up to its window and a dropped queue. -/
theorem StreamInv.update {pcb : TcpPcb} {pending : Nat} (rcvNxt : pcb.rcvNxt = c.pcb.rcvNxt)
    (bounded : pcb.rcvWnd ≤ tcpWnd) (ooseq : pcb.ooseq = c.pcb.ooseq ∨ pcb.ooseq = [])
    (forward : c.pcb.state.code ≤ pcb.state.code) :
    StreamInv stream irs { c with pcb := pcb, pending := pending } := by
  refine ⟨Nat.lt_of_lt_of_le inv.opened forward, bounded, inv.delivered,
    rcvNxt.trans inv.expected, inv.finAtEnd,
    fun seen => Nat.le_trans (inv.finLate seen) forward, ?_⟩
  intro early
  have queued := inv.queued (Nat.lt_of_le_of_lt forward early)
  rcases ooseq with same | empty
  · rw [same]
    exact queued
  · rw [empty]
    trivial

theorem connStep_streamInv {event : TcpEvent} {c' : TcpConn}
    (guard : StreamGuard stream irs c event) (step : ConnStep c event c') :
    StreamInv stream irs c' := by
  have anyway : ∀ message, WindowKept message → AnyError message := fun _ _ => trivial
  cases connStep_outcome inv.opened step with
  | segment computed =>
    obtain ⟨n, segment, located⟩ := guard
    exact inv.processed ((tcpProcess_processed anyway (streamPost_purge stream irs _ c.pcb)
      (fun syn => absurd (segment.noSyn.symm.trans syn) Bool.false_ne_true) ⟨rfl, rfl⟩
      (streamPost_idle inv.within inv.bounded inv.queued)
      fun reaches _ => inv.dataReceived segment (located reaches)).of_ok computed)
  | accepted early computed =>
    obtain ⟨n, segment, located⟩ := guard
    exact inv.processed ((tcpProcessAccepted_processed anyway
      (inv.dataReceived segment located) rfl id early).of_ok computed)
  | recved reopened =>
    exact inv.update reopened.rcvNxt reopened.bounded (Or.inl reopened.ooseq)
      (by rw [reopened.state])
  | finWindow =>
    have bounded := inv.bounded
    have next : (tcpFinWindow c.pcb).rcvNxt = c.pcb.rcvNxt := rfl
    apply inv.update next ?_ (Or.inl rfl) (Nat.le_refl _)
    show (if c.pcb.rcvWnd ≠ tcpWnd then c.pcb.rcvWnd + 1 else c.pcb.rcvWnd) ≤ tcpWnd
    split <;> omega
  | other _ kept =>
    exact inv.update kept.rcvNxt (by rw [kept.rcvWnd]; exact inv.bounded) kept.ooseq kept.state

end

end Step

/-- An established connection that has not received anything yet. -/
structure StreamStart (c : TcpConn) : Prop where
  state : c.pcb.state = .established ∨ c.pcb.state = .finWait1 ∨ c.pcb.state = .finWait2
  bounded : c.pcb.rcvWnd ≤ tcpWnd
  nothing : c.pcb.ooseq = []
  delivered : c.delivered = []
  noFin : c.finSeen = false

/-- The stream has been handed over at the start. -/
theorem StreamStart.inv {c : TcpConn} (start : StreamStart c) (stream : List UInt8) :
    StreamInv stream c.pcb.rcvNxt c := by
  refine ⟨?_, start.bounded, ?_, ?_, ?_, ?_, ?_⟩
  · rcases start.state with given | given | given <;> rw [given] <;> decide
  · rw [start.delivered]
    rfl
  · rw [start.delivered, start.noFin]
    exact (place_zero _).symm
  · rw [start.noFin]
    intro seen
    cases seen
  · rw [start.noFin]
    intro seen
    cases seen
  · intro _
    rw [start.nothing]
    trivial

/-- In every run of a connection whose segments carry bytes of one stream and are accepted only
where they lie, the data handed over is the stream up to the next expected number, and a `FIN`
is only reported behind the end of the stream. -/
theorem tcpReceive_stream_run (stream : List UInt8) (start c : TcpConn)
    (fresh : StreamStart start)
    (run : Run ConnStep (StreamGuard stream start.pcb.rcvNxt) start c) :
    c.delivered = stream.take c.delivered.length ∧
      c.pcb.rcvNxt = place start.pcb.rcvNxt
        (c.delivered.length + if c.finSeen = true then 1 else 0) ∧
      (c.finSeen = true → c.delivered = stream) := by
  have inv : StreamInv stream start.pcb.rcvNxt c :=
    run.invariant (fresh.inv stream) fun _ _ _ inv guard step => connStep_streamInv inv guard step
  refine ⟨inv.delivered, inv.expected, fun seen => ?_⟩
  rw [inv.delivered, inv.finAtEnd seen, take_length]

/-- An established connection with a full window. -/
def openConn : TcpConn :=
  { pcb := { tcpAlloc 0 with
      state := .established, rcvNxt := 1000, rcvAnnRightEdge := 1000 + UInt32.ofNat tcpWnd }
    delivered := [], pending := 0, finSeen := false }

theorem openConn_start : StreamStart openConn := ⟨Or.inl rfl, by decide, rfl, rfl, rfl⟩

theorem streamSegment_data {stream data : List UInt8} {irs seqno : UInt32} {n : Nat} {fin : Bool}
    (number : seqno = place irs n) (bytes : slice stream n data.length = data)
    (small : data.length ≤ 65535) (within : n + data.length ≤ stream.length)
    (atEnd : fin = true → n + data.length = stream.length) :
    StreamSegment stream irs n [pbufRam 0 data]
      { seqno := seqno, flags := { fin := fin, ack := true }, wnd := 8096 } := by
  have own : (pbufRam 0 data).bytes = data := by
    simp [pbufRam, Pbuf.bytes]
  refine ⟨number, rfl, ?_, within, atEnd⟩
  show Denotes [pbufRam 0 data] (slice stream n data.length)
  rw [bytes]
  exact Denotes.single own (by simp [pbufRam]) rfl small

/-- The theorem at a stream of three bytes whose end arrives first. -/
theorem tcpReceive_stream_run_threeBytes :
    Run ConnStep (StreamGuard [1, 2, 3] openConn.pcb.rcvNxt) openConn
        ((openConn.next (dataEvent 1002 [3] true)).next (dataEvent 1000 [1, 2] false)) ∧
      ((openConn.next (dataEvent 1002 [3] true)).next
        (dataEvent 1000 [1, 2] false)).delivered = [1, 2, 3] := by
  have first : StreamGuard [1, 2, 3] openConn.pcb.rcvNxt openConn (dataEvent 1002 [3] true) := by
    refine ⟨2, streamSegment_data (by decide) rfl (by decide) (by decide) (by decide), ?_⟩
    intro _ _ _
    rw [if_neg (by decide +kernel)]
    intro _
    exact ⟨by decide, by decide⟩
  have second : StreamGuard [1, 2, 3] openConn.pcb.rcvNxt
      (openConn.next (dataEvent 1002 [3] true)) (dataEvent 1000 [1, 2] false) := by
    refine ⟨0, streamSegment_data (by decide) rfl (by decide) (by decide) (by decide), ?_⟩
    intro _ _ _
    rw [if_neg (by decide +kernel)]
    intro _
    exact ⟨by decide +kernel, by decide +kernel⟩
  have run : Run ConnStep (StreamGuard [1, 2, 3] openConn.pcb.rcvNxt) openConn
      ((openConn.next (dataEvent 1002 [3] true)).next (dataEvent 1000 [1, 2] false)) :=
    (Run.refl.tail _ first (connStep_next (by decide) (by decide +kernel))).tail _ second
      (connStep_next (by decide +kernel) (by decide +kernel))
  exact ⟨run, (tcpReceive_stream_run [1, 2, 3] _ _ openConn_start run).2.2 (by decide +kernel)⟩

/-- A stream of zeros with a one at its end. -/
def zerosOne (n : Nat) : List UInt8 := List.replicate n 0 ++ [1]

theorem slice_zerosOne (n : Nat) : slice (zerosOne n) n 1 = [1] := by
  have zeros : (List.replicate n (0 : UInt8)).length = n := length_replicate
  unfold slice zerosOne
  rw [drop_left' zeros]
  rfl

/-- One byte that lies `2 ^ 31` bytes ahead passes the test for the left edge, whose interval is
empty, and is handed over as the first byte. -/
theorem tcpReceive_stream_misplaced :
    StreamStart openConn ∧
      Run ConnStep (PeerEvent (zerosOne 2147483648) openConn.pcb.rcvNxt) openConn
        (openConn.next (dataEvent 2147484648 [1] false)) ∧
      (openConn.next (dataEvent 2147484648 [1] false)).delivered = [1] ∧
      (openConn.next (dataEvent 2147484648 [1] false)).delivered ≠
        (zerosOne 2147483648).take
          (openConn.next (dataEvent 2147484648 [1] false)).delivered.length := by
  have delivered : (openConn.next (dataEvent 2147484648 [1] false)).delivered = [1] := by
    decide +kernel
  have length : (zerosOne 2147483648).length = 2147483648 + 1 := by
    unfold zerosOne
    rw [length_append, length_replicate]
    rfl
  have segment : PeerEvent (zerosOne 2147483648) openConn.pcb.rcvNxt openConn
      (dataEvent 2147484648 [1] false) :=
    ⟨2147483648, streamSegment_data (by decide) (slice_zerosOne 2147483648) (by decide)
      (Nat.le_of_eq length.symm) (fun fin => by cases fin)⟩
  refine ⟨openConn_start, ?_, delivered, ?_⟩
  · exact Run.refl.tail _ segment (connStep_next (by decide) (by decide +kernel))
  · rw [delivered]
    have first : ∀ n, (zerosOne (n + 1)).take 1 = [0] := fun _ => rfl
    show [1] ≠ (zerosOne (2147483647 + 1)).take 1
    rw [first]
    decide

end Lwip
