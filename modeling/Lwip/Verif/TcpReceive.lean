import Lwip.Verif.TcpFrame
import Lwip.Verif.TcpInseq

/-!
# What a connection receives

The data part of `tcp_receive` for a segment at a place, `tcp_process` around it, and a
connection with a record of what was handed to the application. What is demanded of queued
segments and what is known of the data handed over are parameters here.
-/

namespace Lwip

open Outcome Serial

variable {pcb : TcpPcb} {n : Nat} {i : TcpInput}

/-! ## The data of a segment -/

section Receive

variable {base : UInt32} {hi : Nat} {Good : Nat → TcpSeg → Prop} {e r : Nat}

theorem ReceiverAt.congr {pcb' : TcpPcb} (receiver : ReceiverAt base hi Good e r pcb)
    (same : receiveSide pcb' = receiveSide pcb) : ReceiverAt base hi Good e r pcb' := by
  obtain ⟨expected, sum, queued⟩ := receiver
  simp only [receiveSide, Prod.mk.injEq] at same
  obtain ⟨next, window, queue, _⟩ := same
  exact ⟨by rw [next, expected], by rw [window, sum], by rw [queue]; exact queued⟩

/-- A new segment is the only one in an empty queue. -/
theorem Queued.single {lo : Nat} (incoming : Incoming base Good n i) (order : lo ≤ n)
    (fits : OosFits hi n i []) : Queued base hi Good lo [i.inseg] := by
  have ends : n + tcpTcplen i.inseg ≤ hi := by
    simpa [OosFits] using fits
  exact ⟨n, order, ⟨incoming.header, incoming.noSyn, incoming.small, incoming.positive, ends,
    incoming.good⟩, by simp, trivial⟩

/-- A segment out of sequence goes into the queue, if there is memory for it. -/
theorem tcpReceiveOoseq_spec (trims : Trimmable Good) (env : TcpEnv)
    (receiver : ReceiverAt base hi Good e r pcb) (incoming : Incoming base Good n i) (order : r < n)
    (inside : n < e) (within : e ≤ hi) (near : hi + 65536 < r + 2147483648)
    (fits : OosFits hi n i pcb.ooseq) :
    Ensures WindowKept (tcpReceiveOoseq env i pcb) fun result =>
      result.1 = i ∧ ReceiverAt base hi Good e r result.2 ∧ result.2.state = pcb.state := by
  have sides := (tcpSendEmptyAck_sides env 1 pcb).1
  unfold tcpReceiveOoseq
  generalize (tcpSendEmptyAck env 1 pcb).2 = pcb' at sides
  have receiver' := receiver.congr sides
  simp only [receiveSide, Prod.mk.injEq] at sides
  obtain ⟨_, _, queue, state⟩ := sides
  rw [← queue] at fits
  have copied : tcpSegCopy env 2 (tcpSegsUsed pcb') i.inseg = none ∨
      tcpSegCopy env 2 (tcpSegsUsed pcb') i.inseg = some i.inseg := by
    unfold tcpSegCopy
    split
    · exact .inr rfl
    · exact .inl rfl
  dsimp only
  generalize tcpSegCopy env 2 (tcpSegsUsed pcb') i.inseg = copy at copied
  have inserted : Ensures WindowKept (tcpOosEnqueue copy i pcb')
      (Queued base hi Good (r + 1)) := by
    unfold tcpOosEnqueue
    split
    · rename_i empty
      rw [empty] at fits
      rcases copied with rfl | rfl
      · exact .ok trivial
      · exact .ok (Queued.single incoming order fits)
    · have edge : pcb'.rcvNxt + UInt32.ofNat pcb'.rcvWnd = place base e := by
        rw [receiver'.expected, place_add, receiver'.sum]
      exact tcpOosPlace_spec trims incoming copied edge order inside within (by omega)
        receiver'.queued fun _ => fits
  apply inserted.bind
  intro ooseq queued
  exact .ok ⟨rfl, ⟨receiver'.expected, receiver'.sum, queued⟩, state⟩

variable {tolerated : String → Prop} {Delivered : Nat → TcpInput → Prop} {env : TcpEnv}
  (tolerant : ∀ message, WindowKept message → tolerated message) (trims : Trimmable Good)
  (link : Links base hi Good e Delivered) (window : tolerated overrunOoseq ∨ hi ≤ e)
  (within : e ≤ hi) (width : pcb.rcvWnd < 65536) (near : hi + 65536 < r + 2147483648)
  (receiver : ReceiverAt base hi Good e r pcb)

include tolerant trims link window within width near receiver

/-- A segment at a place, behind the trimming of the left edge. A segment that the window test
accepts has to lie in the window. -/
theorem tcpReceiveWindow_spec
    (start : ∀ inseg, DataAt base Good r inseg → r + tcpTcplen inseg ≤ e →
      Delivered (r + tcpTcplen inseg) (startInput i inseg))
    (inseq : n = r → FinFits tolerated pcb i.inseg.len)
    (seqno : i.seqno = place base n) (data : DataAt base Good n i.inseg)
    (incoming : r < n → Incoming base Good n i)
    (inside : seqBetween i.seqno pcb.rcvNxt (pcb.rcvNxt + UInt32.ofNat pcb.rcvWnd - 1) = true →
      r ≤ n ∧ n < e ∧ (r < n → OosFits hi n i pcb.ooseq))
    (delivered : Delivered r i) :
    Ensures tolerated (tcpReceiveWindow env i pcb)
      (Received base hi Good e r Delivered pcb.state) := by
  unfold tcpReceiveWindow
  split
  · rename_i accepted
    obtain ⟨order, before, fits⟩ := inside accepted
    split
    · rename_i expected
      have here : r = n := by
        rw [receiver.expected, seqno] at expected
        exact place_inj base expected (by omega) (by omega)
      subst here
      exact tcpReceiveInseq_spec tolerant link window trims start (inseq rfl) data seqno receiver
        width near
    · rename_i ahead
      have strict : r < n := by
        rcases Nat.eq_or_lt_of_le order with rfl | strict
        · exact absurd (by rw [receiver.expected, seqno]) ahead
        · exact strict
      have enqueued := tcpReceiveOoseq_spec trims env receiver (incoming strict) strict
        before within near (fits strict)
      apply (Ensures.tolerate enqueued tolerant).mono
      rintro ⟨i', pcb'⟩ ⟨same, receiver', state⟩
      subst same
      exact ⟨r, Nat.le_refl r, receiver', delivered, Or.inl state⟩
  · have sides := (tcpSendEmptyAck_sides env 1 pcb).1
    have state : (tcpSendEmptyAck env 1 pcb).2.state = pcb.state := by
      simp only [receiveSide, Prod.mk.injEq] at sides
      exact sides.2.2.2
    exact .ok ⟨r, Nat.le_refl r, receiver.congr sides, delivered, Or.inl state⟩

/-- The data of a segment at a place. A segment whose left edge is trimmed starts at the
expected place afterwards. -/
theorem tcpReceiveData_spec
    (start : ∀ i' inseg, i'.recvData = i.recvData → i'.tfGotFin = i.tfGotFin →
      DataAt base Good r inseg → r + tcpTcplen inseg ≤ e →
      Delivered (r + tcpTcplen inseg) (startInput i' inseg))
    (left : 0 < i.tcplen →
      seqBetween pcb.rcvNxt (i.seqno + 1) (i.seqno + UInt32.ofNat i.tcplen - 1) = true →
      Ensures WindowKept (tcpTrimLeft pcb.rcvNxt i) fun i' => i'.seqno = pcb.rcvNxt ∧
        DataAt base Good r i'.inseg ∧ i'.recvData = i.recvData ∧ i'.tfGotFin = i.tfGotFin ∧
        FinFits tolerated pcb i'.inseg.len)
    (right : 0 < i.tcplen →
      seqBetween pcb.rcvNxt (i.seqno + 1) (i.seqno + UInt32.ofNat i.tcplen - 1) = false →
      seqBetween i.seqno pcb.rcvNxt (pcb.rcvNxt + UInt32.ofNat pcb.rcvWnd - 1) = true →
      r ≤ n ∧ n < e ∧ (r < n → OosFits hi n i pcb.ooseq) ∧
        (n = r → FinFits tolerated pcb i.inseg.len))
    (incoming : 0 < i.tcplen → Incoming base Good n i)
    (delivered : ∀ i' : TcpInput, i'.recvData = i.recvData → i'.tfGotFin = i.tfGotFin →
      Delivered r i') :
    Ensures tolerated (tcpReceiveData env i pcb)
      (Received base hi Good e r Delivered pcb.state) := by
  have acked : ∀ pcb : TcpPcb, receiveSide (tcpAckNow pcb) = receiveSide pcb := fun _ => rfl
  unfold tcpReceiveData
  split
  · rename_i given
    have incoming := incoming given.1
    split
    · rename_i accepted
      apply (Ensures.tolerate (left given.1 accepted) tolerant).bind
      rintro i' ⟨seqno, data, handed, gotFin, fits⟩
      have here : i'.seqno = place base r := by rw [seqno, receiver.expected]
      refine tcpReceiveWindow_spec tolerant trims link window within width near receiver
        (fun inseg => start i' inseg handed gotFin) (fun _ => fits) here data
        (fun strict => absurd strict (Nat.lt_irrefl r)) ?_ (delivered i' handed gotFin)
      intro passes
      refine ⟨Nat.le_refl r, ?_, fun strict => absurd strict (Nat.lt_irrefl r)⟩
      rw [seqBetween_window_iff _ _ width, seqno] at passes
      have sum := receiver.sum
      simp only [UInt32.sub_self, UInt32.toNat_zero] at passes
      omega
    · rename_i rejected
      have right := right given.1 (Bool.not_eq_true _ ▸ rejected)
      have same : ∀ (late : Bool), receiveSide (if late = true then tcpAckNow pcb else pcb) =
          receiveSide pcb := by
        intro late
        cases late <;> rfl
      have sides := same (seqLt i.seqno pcb.rcvNxt)
      generalize (if seqLt i.seqno pcb.rcvNxt = true then tcpAckNow pcb else pcb) = pcb' at sides
      have receiver' := receiver.congr sides
      simp only [receiveSide, Prod.mk.injEq] at sides
      obtain ⟨next, size, queue, state⟩ := sides
      rw [← next, ← size, ← queue] at right
      rw [← state]
      by_cases passes : seqBetween i.seqno pcb'.rcvNxt
          (pcb'.rcvNxt + UInt32.ofNat pcb'.rcvWnd - 1) = true
      · obtain ⟨order, before, fits, inseq⟩ := right passes
        exact tcpReceiveWindow_spec tolerant trims link window within (by omega) near receiver'
          (fun inseg => start i inseg rfl rfl)
          (fun here => by rw [FinFits, size, queue]; exact inseq here) incoming.seqno
          ⟨incoming.header, incoming.noSyn, incoming.small, incoming.good⟩ (fun _ => incoming)
          (fun _ => ⟨order, before, fits⟩) (delivered i rfl rfl)
      · unfold tcpReceiveWindow
        rw [if_neg passes]
        have sides' := (tcpSendEmptyAck_sides env 1 pcb').1
        have state' : (tcpSendEmptyAck env 1 pcb').2.state = pcb'.state := by
          simp only [receiveSide, Prod.mk.injEq] at sides'
          exact sides'.2.2.2
        exact .ok ⟨r, Nat.le_refl r, receiver'.congr sides', delivered i rfl rfl, Or.inl state'⟩
  · refine .ok ⟨r, Nat.le_refl r, ?_, delivered i rfl rfl, Or.inl ?_⟩
    · split
      · exact receiver
      · exact receiver.congr (acked pcb)
    · dsimp only
      split <;> rfl

end Receive

theorem tcpReceiveData_nothing (env : TcpEnv) (late : TcpState.closeWait.code ≤ pcb.state.code) :
    Ensures WindowKept (tcpReceiveData env i pcb) fun result =>
      result.1 = i ∧ receiveSide result.2 = receiveSide pcb := by
  unfold tcpReceiveData
  rw [if_neg (fun both => absurd both.2 (Nat.not_lt_of_le late))]
  refine .ok ⟨rfl, ?_⟩
  split <;> rfl

/-! ## Arriving segments -/

/-- The variables as `tcp_input` sets them for a segment without `SYN`. -/
structure Arrived (i : TcpInput) : Prop where
  header : i.inseg.tcphdr.seqno = i.seqno
  noSyn : i.inseg.tcphdr.flags.syn = false
  length : i.inseg.p.totLen = i.inseg.len
  small : i.inseg.len < 65536
  tcplen : i.tcplen = u16 (tcpTcplen i.inseg)
  noData : i.recvData = []
  noFin : i.tfGotFin = false

theorem arrived_tcpInputOf {p : Chain} {tcphdr : TcpHdr} (opts : List UInt8)
    (noSyn : tcphdr.flags.syn = false) (small : p.totLen < 65536) :
    Arrived (tcpInputOf p tcphdr opts) :=
  ⟨rfl, noSyn, rfl, small, rfl, rfl, rfl⟩

/-- Only the variables for the segment itself and for the data count. -/
theorem Arrived.congr {i' : TcpInput} (arrived : Arrived i) (inseg : i'.inseg = i.inseg)
    (seqno : i'.seqno = i.seqno) (tcplen : i'.tcplen = i.tcplen)
    (recvData : i'.recvData = i.recvData) (tfGotFin : i'.tfGotFin = i.tfGotFin) : Arrived i' := by
  refine ⟨?_, ?_, ?_, ?_, ?_, ?_, ?_⟩
  · rw [inseg, seqno, arrived.header]
  · rw [inseg, arrived.noSyn]
  · rw [inseg, arrived.length]
  · rw [inseg]
    exact arrived.small
  · rw [inseg, tcplen, arrived.tcplen]
  · rw [recvData, arrived.noData]
  · rw [tfGotFin, arrived.noFin]

/-- A segment whose length did not overflow, at its place. -/
theorem Arrived.incoming {base : UInt32} {Good : Nat → TcpSeg → Prop} (arrived : Arrived i)
    (seqno : i.seqno = place base n) (good : Good n i.inseg) (positive : 0 < i.tcplen) :
    Incoming base Good n i := by
  have length : i.tcplen = tcpTcplen i.inseg := by
    have upper := tcpTcplen_le i.inseg
    have small := arrived.small
    have whole := arrived.tcplen
    unfold u16 at whole
    omega
  exact ⟨seqno, arrived.header.trans seqno, arrived.noSyn, arrived.small,
    by rw [← length]; exact positive, length, good⟩

end Lwip
