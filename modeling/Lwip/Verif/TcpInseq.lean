import Lwip.Verif.TcpOoseq

/-!
# Segments in sequence

A segment at the next expected place is trimmed to the window and to the queue of segments out
of sequence, and the queued segments that are then in sequence follow it. The sum of the place
and the window stays the same. What is handed to the application is described by a predicate
on the place reached and the file-scope variables.
-/

namespace Lwip

open Outcome Serial

variable {r : Nat} {inseg : TcpSeg} {queue : List TcpSeg}

section Queue

variable {base : UInt32} {hi : Nat} {Good : Nat → TcpSeg → Prop}

/-! ## Trimming to the window and to the queue -/

/-- A segment at a place, whatever its end. -/
structure DataAt (base : UInt32) (Good : Nat → TcpSeg → Prop) (r : Nat) (seg : TcpSeg) :
    Prop where
  seqno : seg.tcphdr.seqno = place base r
  noSyn : seg.tcphdr.flags.syn = false
  small : seg.len < 65536
  good : Good r seg

/-- The length with a `FIN` is at most one more than that of the data. -/
theorem tcpTcplen_le (seg : TcpSeg) : tcpTcplen seg ≤ seg.len + 1 := by
  unfold tcpTcplen
  split <;> omega

/-- Without `SYN`, the length is that of the data unless there is a `FIN`. -/
theorem tcpTcplen_noSyn {seg : TcpSeg} (noSyn : seg.tcphdr.flags.syn = false) :
    tcpTcplen seg = seg.len + if seg.tcphdr.flags.fin = true then 1 else 0 := by
  simp [tcpTcplen, noSyn]

/-- The segment in sequence is trimmed to the window. -/
theorem tcpTrimToWnd_spec (trims : Trimmable Good) {rcvWnd : Nat} (rcvNxt : UInt32)
    (data : DataAt base Good r inseg) (width : rcvWnd < 65536) :
    Ensures WindowKept (tcpTrimToWnd rcvNxt rcvWnd inseg) fun inseg' =>
      DataAt base Good r inseg' ∧ tcpTcplen inseg' ≤ rcvWnd ∧ inseg'.len = min inseg.len rcvWnd ∧
        (inseg'.tcphdr.flags.fin = true → inseg.tcphdr.flags.fin = true) := by
  have upper := tcpTcplen_le inseg
  have lower := len_le_tcpTcplen inseg
  unfold tcpTrimToWnd
  split
  · rename_i overruns
    have noSyn : (clearFin inseg).tcphdr.flags.syn = false := data.noSyn
    have goal : (if (clearFin inseg).tcphdr.flags.syn = true then toU16 ((rcvWnd : Int) - 1)
        else rcvWnd) = rcvWnd := by simp [noSyn]
    dsimp only
    rw [goal]
    apply (tcpSegTrim_spec (clearFin inseg) rcvWnd).bind
    rintro _ ⟨p, rest, done, rfl⟩
    apply ensures_pass (by decide)
    have length : tcpTcplen { clearFin inseg with p := p, len := rcvWnd } = rcvWnd :=
      tcpTcplen_plain noSyn rfl
    have shorter : rcvWnd ≤ (clearFin inseg).len := by
      show rcvWnd ≤ inseg.len
      omega
    refine .ok ⟨⟨data.seqno, noSyn, width, ?_⟩, Nat.le_of_eq length, ?_,
      by simp [clearFin]⟩
    · exact trims.trim (trims.clearFin data.good) rfl shorter done
    · show rcvWnd = min inseg.len rcvWnd
      omega
  · exact .ok ⟨data, by omega, by omega, id⟩

/-- The queued segments that the segment in sequence covers are removed. -/
theorem tcpOoseqCovered_spec (trims : Trimmable Good) {lo : Nat} (data : DataAt base Good r inseg)
    (noFin : inseg.tcphdr.flags.fin = false) (later : r ≤ lo) (near : hi + 65536 < r + 2147483648)
    (queued : Queued base hi Good lo queue) :
    Ensures WindowKept (tcpOoseqCovered (place base r) inseg queue) fun result =>
      Queued base hi Good lo result.2 ∧
        (result.1 = inseg ∨ (result.1 = setFin inseg ∧ Good r (setFin inseg) ∧ result.2 = [] ∧
          ∃ g ∈ queue, g.tcphdr.flags.fin = true)) := by
  have small := data.small
  induction queue generalizing lo with
  | nil => exact .ok ⟨trivial, Or.inl rfl⟩
  | cons first more ih =>
    obtain ⟨m, order, located, last, rest⟩ := queued
    have ends := located.ends
    have within := len_le_tcpTcplen first
    unfold tcpOoseqCovered
    split
    · rename_i covered
      apply (tcpSegFree_windowKept first).bind
      intro _ _
      rw [tcpTcplen_plain data.noSyn noFin, located.seqno, place_add, place_add,
        seqGeq_place base (by omega) (by omega)] at covered
      by_cases fin : first.tcphdr.flags.fin = true
      · have alone := last fin
        subst alone
        rw [if_pos ⟨fin, by simp [data.noSyn]⟩]
        exact .ok ⟨trivial, Or.inr ⟨rfl, trims.copyFin data.good located.good fin covered,
          rfl, first, by simp, fin⟩⟩
      · rw [if_neg (fun both => fin both.1)]
        apply (ih (by omega) (rest.from_le (by omega : lo ≤ m + first.len))).mono
        rintro ⟨inseg', rest'⟩ ⟨kept, finCopied⟩
        refine ⟨kept, ?_⟩
        rcases finCopied with same | ⟨copied, good, empty, g, member, hasFin⟩
        · exact .inl same
        · exact .inr ⟨copied, good, empty, g, List.mem_cons_of_mem first member, hasFin⟩
    · exact .ok ⟨⟨m, order, located, last, rest⟩, Or.inl rfl⟩

/-- The segment in sequence is trimmed to the first queued segment. -/
theorem tcpTrimToOoseq_spec (trims : Trimmable Good) (data : DataAt base Good r inseg)
    (noFin : queue ≠ [] → inseg.tcphdr.flags.fin = false) (near : hi + 65536 < r + 2147483648)
    (queued : Queued base hi Good (r + 1) queue) :
    Ensures WindowKept (tcpTrimToOoseq (place base r) inseg queue) fun inseg' =>
      DataAt base Good r inseg' ∧ inseg'.tcphdr = inseg.tcphdr ∧ inseg'.len ≤ inseg.len ∧
        (queue = [] → inseg' = inseg) ∧ Queued base hi Good (r + tcpTcplen inseg') queue := by
  cases queue with
  | nil => exact .ok ⟨data, rfl, Nat.le_refl _, fun _ => rfl, trivial⟩
  | cons first more =>
    have noFin := noFin (by simp)
    have small := data.small
    have plain := tcpTcplen_plain data.noSyn noFin
    obtain ⟨m, order, located, last, rest⟩ := queued
    have ends := located.ends
    unfold tcpTrimToOoseq
    dsimp only
    split
    · rename_i overlaps
      rw [located.seqno, place_add, seqGt_place base (by omega) (by omega)] at overlaps
      have cut : (first.tcphdr.seqno - place base r).toNat = m - r := by
        rw [located.seqno]
        exact toNat_place_sub_of_le base (by omega) (by omega)
      rw [cut, u16_of_lt (by omega), if_neg (by simp [data.noSyn])]
      apply (tcpSegTrim_spec inseg (m - r)).bind
      rintro _ ⟨p, left, done, rfl⟩
      apply ensures_pass (by decide)
      have length : tcpTcplen { inseg with p := p, len := m - r } = m - r :=
        tcpTcplen_plain data.noSyn noFin
      have shorter : m - r ≤ inseg.len := by omega
      refine .ok ⟨⟨data.seqno, data.noSyn, by show m - r < 65536; omega, ?_⟩, rfl, shorter,
        by simp, ?_⟩
      · exact trims.trim data.good noFin shorter done
      · exact ⟨m, by omega, located, last, rest⟩
    · rename_i apart
      rw [located.seqno, place_add, seqGt_place base (by omega) (by omega)] at apart
      exact .ok ⟨data, rfl, Nat.le_refl _, by simp, m, by omega, located, last, rest⟩

/-- The segment in sequence and the queue after the one was adjusted to the other. A `FIN` is
the segment's own or that of a queued segment that it covers. -/
theorem tcpAdjustOoseq_spec (trims : Trimmable Good) (data : DataAt base Good r inseg)
    (near : hi + 65536 < r + 2147483648) (queued : Queued base hi Good (r + 1) queue) :
    Ensures WindowKept (tcpAdjustOoseq (place base r) inseg queue) fun result =>
      DataAt base Good r result.1 ∧ result.1.len ≤ inseg.len ∧
        Queued base hi Good (r + tcpTcplen result.1) result.2 ∧
        (result.1.tcphdr.flags.fin = true → inseg.tcphdr.flags.fin = true ∨
          ∃ g ∈ queue, g.tcphdr.flags.fin = true) := by
  unfold tcpAdjustOoseq
  split
  · rename_i fin
    apply (tcpSegsFree_windowKept queue).bind
    intro _ _
    exact .ok ⟨data, Nat.le_refl _, trivial, fun _ => .inl fin⟩
  rename_i noFin
  have noFin : inseg.tcphdr.flags.fin = false := Bool.not_eq_true _ ▸ noFin
  apply (tcpOoseqCovered_spec trims data noFin (Nat.le_succ r) near queued).bind
  rintro ⟨inseg', rest⟩ ⟨kept, finCopied⟩
  have data' : DataAt base Good r inseg' := by
    rcases finCopied with rfl | ⟨rfl, good, _⟩
    · exact data
    · exact ⟨data.seqno, data.noSyn, data.small, good⟩
  have length : inseg'.len = inseg.len := by
    rcases finCopied with rfl | ⟨rfl, _⟩ <;> rfl
  have finLast : rest ≠ [] → inseg'.tcphdr.flags.fin = false := by
    intro nonempty
    rcases finCopied with rfl | ⟨_, _, empty, _⟩
    · exact noFin
    · exact absurd empty nonempty
  apply (tcpTrimToOoseq_spec trims data' finLast near kept).bind
  rintro inseg'' ⟨data'', header, shorter, _, queued'⟩
  refine .ok ⟨data'', by show inseg''.len ≤ inseg.len; omega, queued', ?_⟩
  intro fin
  rw [header] at fin
  rcases finCopied with rfl | ⟨_, _, _, source⟩
  · rw [noFin] at fin
    cases fin
  · exact .inr source

/-! ## Advance of the window -/

section Advance

variable {tolerated : String → Prop}

/-- `tcp_update_rcv_ann_wnd` changes the announced window only. -/
theorem tcpUpdateRcvAnnWnd_spec (pcb : TcpPcb) :
    Ensures WindowKept (tcpUpdateRcvAnnWnd pcb) fun result =>
      ∃ rcvAnnWnd, result.2 = { pcb with rcvAnnWnd := rcvAnnWnd } := by
  unfold tcpUpdateRcvAnnWnd
  dsimp only
  split
  · exact .ok ⟨_, rfl⟩
  · split
    · exact .ok ⟨_, rfl⟩
    · apply ensures_pass (by decide)
      exact .ok ⟨_, rfl⟩

/-- The next expected place moves by the length of a segment, and the window shrinks by it. -/
theorem tcpAdvance_spec (tolerant : ∀ message, WindowKept message → tolerated message)
    {message : String} {tcplen : Nat} {pcb : TcpPcb}
    (window : tolerated message ∨ tcplen ≤ pcb.rcvWnd) :
    Ensures tolerated (tcpAdvance message tcplen pcb) fun pcb' =>
      tcplen ≤ pcb.rcvWnd ∧ ∃ rcvAnnWnd, pcb' = { pcb with
        rcvNxt := pcb.rcvNxt + UInt32.ofNat tcplen
        rcvWnd := pcb.rcvWnd - tcplen
        rcvAnnWnd := rcvAnnWnd } := by
  apply ensures_assert
  · intro fails
    rcases window with given | enough
    · exact given
    · exact absurd enough fails
  · intro enough
    apply (Ensures.tolerate (tcpUpdateRcvAnnWnd_spec _) tolerant).bind
    rintro ⟨inflation, pcb'⟩ ⟨rcvAnnWnd, rfl⟩
    exact .ok ⟨enough, rcvAnnWnd, rfl⟩

/-! ## Delivery -/

/-- A receiver that expects the place `r`, with a window up to `e`. -/
structure ReceiverAt (base : UInt32) (hi : Nat) (Good : Nat → TcpSeg → Prop) (e r : Nat)
    (pcb : TcpPcb) : Prop where
  expected : pcb.rcvNxt = place base r
  sum : r + pcb.rcvWnd = e
  queued : Queued base hi Good (r + 1) pcb.ooseq

/-- What is known after a segment: how far the receiver got and what was handed over. -/
def Received (base : UInt32) (hi : Nat) (Good : Nat → TcpSeg → Prop) (e r : Nat)
    (Delivered : Nat → TcpInput → Prop) (state : TcpState) (result : TcpInput × TcpPcb) : Prop :=
  ∃ r', r ≤ r' ∧ ReceiverAt base hi Good e r' result.2 ∧ Delivered r' result.1 ∧
    (result.2.state = state ∨ (state = .established ∧ result.2.state = .closeWait))

/-- What the delivery of a queued segment does to the file-scope variables. -/
def deliverInput (i : TcpInput) (recvData : Chain) (cseg : TcpSeg) : TcpInput :=
  { i with recvData := recvData, tfGotFin := i.tfGotFin || cseg.tcphdr.flags.fin }

/-- Data of a queued segment may follow the data that was handed over. -/
def Links (base : UInt32) (hi : Nat) (Good : Nat → TcpSeg → Prop) (e : Nat)
    (Delivered : Nat → TcpInput → Prop) : Prop :=
  ∀ {r : Nat} {i : TcpInput} {cseg : TcpSeg} {recvData : Chain}, Delivered r i →
    SegAt base hi Good r cseg → r + tcpTcplen cseg ≤ e →
    tcpLinkData i.recvData cseg.p = .ok recvData →
    Delivered (r + tcpTcplen cseg) (deliverInput i recvData cseg)

variable {Delivered : Nat → TcpInput → Prop} {e : Nat}
  (tolerant : ∀ message, WindowKept message → tolerated message)
  (link : Links base hi Good e Delivered) (window : tolerated overrunOoseq ∨ hi ≤ e)

include tolerant link window

/-- The queued segments in sequence are delivered one after the other, and the rest of the
queue lies behind the place that is reached. -/
theorem tcpDequeue_spec :
    ∀ {queue : List TcpSeg} {r : Nat} {i : TcpInput} {pcb : TcpPcb},
      Queued base hi Good r queue → hi < r + 2147483648 → pcb.rcvNxt = place base r →
      r + pcb.rcvWnd = e → Delivered r i →
      Ensures tolerated (tcpDequeue queue i pcb)
        (Received base hi Good e r Delivered pcb.state) := by
  intro queue
  induction queue with
  | nil =>
    intro r i pcb _ _ expected sum delivered
    exact .ok ⟨r, Nat.le_refl r, ⟨expected, sum, trivial⟩, delivered, Or.inl rfl⟩
  | cons cseg next ih =>
    intro r i pcb queued near expected sum delivered
    obtain ⟨n, order, located, last, rest⟩ := queued
    have ends := located.ends
    unfold tcpDequeue
    split
    · rename_i inSequence
      have here : n = r := by
        rw [located.seqno, expected] at inSequence
        exact place_inj base inSequence (by omega) (by omega)
      subst here
      have enough : tolerated overrunOoseq ∨ tcpTcplen cseg ≤ pcb.rcvWnd := by
        rcases window with given | bound
        · exact .inl given
        · exact .inr (by omega)
      apply (tcpAdvance_spec tolerant enough).bind
      rintro _ ⟨fits, rcvAnnWnd, rfl⟩
      have linked : Ensures tolerated (tcpLinkData i.recvData cseg.p) fun recvData =>
          tcpLinkData i.recvData cseg.p = .ok recvData := by
        apply Ensures.of_forall
        · exact fun _ done => done
        intro message done
        refine tolerant message ?_
        unfold tcpLinkData at done
        split at done
        · split at done
          · cases done
          · exact (pbufCat_windowKept _ _).of_error done
        · cases done
      apply linked.bind
      intro recvData done
      have behind : Queued base hi Good (n + tcpTcplen cseg) next := by
        by_cases fin : cseg.tcphdr.flags.fin = true
        · rw [last fin]
          trivial
        · rw [tcpTcplen_plain located.noSyn (Bool.not_eq_true _ ▸ fin)]
          exact rest
      apply (ih behind (by omega) (by simp only [expected, place_add])
        (by show n + tcpTcplen cseg + (pcb.rcvWnd - tcpTcplen cseg) = e; omega)
        (link delivered located (by omega) done)).mono
      rintro ⟨i', pcb'⟩ ⟨r', forward, receiver, delivered', state⟩
      refine ⟨r', by omega, receiver, delivered', ?_⟩
      split at state
      · rename_i finished
        rcases state with same | ⟨established, _⟩
        · exact .inr ⟨finished.2, same⟩
        · cases established
      · exact state
    · rename_i gap
      have ahead : n ≠ r := by
        rintro rfl
        exact gap (by rw [located.seqno, expected])
      exact .ok ⟨r, Nat.le_refl r, ⟨expected, sum, n, by omega, located, last, rest⟩,
        delivered, Or.inl rfl⟩

/-- What `tcp_receive` makes of the file-scope variables before it looks at the queue. -/
def startInput (i : TcpInput) (inseg : TcpSeg) : TcpInput :=
  { i with
    inseg := inseg
    recvData := if inseg.p.totLen > 0 then inseg.p else i.recvData
    tfGotFin := i.tfGotFin || inseg.tcphdr.flags.fin }

/-- A segment of length `len` in sequence leaves room for the `FIN` of a queued segment. -/
def FinFits (tolerated : String → Prop) (pcb : TcpPcb) (len : Nat) : Prop :=
  tolerated overrunInseq ∨ ((∃ g ∈ pcb.ooseq, g.tcphdr.flags.fin = true) → len < pcb.rcvWnd)

/-- A segment in sequence, with everything in the queue that follows it. -/
theorem tcpReceiveInseq_spec (trims : Trimmable Good) {i : TcpInput} {pcb : TcpPcb}
    (start : ∀ inseg, DataAt base Good r inseg → r + tcpTcplen inseg ≤ e →
      Delivered (r + tcpTcplen inseg) (startInput i inseg))
    (inseq : FinFits tolerated pcb i.inseg.len) (data : DataAt base Good r i.inseg)
    (seqno : i.seqno = place base r) (receiver : ReceiverAt base hi Good e r pcb)
    (width : pcb.rcvWnd < 65536) (near : hi + 65536 < r + 2147483648) :
    Ensures tolerated (tcpReceiveInseq i pcb)
      (Received base hi Good e r Delivered pcb.state) := by
  have sum := receiver.sum
  apply (Ensures.tolerate (tcpTrimToWnd_spec trims pcb.rcvNxt data width) tolerant).bind
  rintro trimmed ⟨data', fits, length, finOwn⟩
  have adjusted := tcpAdjustOoseq_spec trims data' near receiver.queued
  rw [← seqno] at adjusted
  apply (Ensures.tolerate adjusted tolerant).bind
  rintro ⟨inseg, ooseq⟩ ⟨data'', shorter, queued', finSource⟩
  dsimp only at data'' shorter queued' finSource ⊢
  have enough : tolerated overrunInseq ∨ tcpTcplen inseg ≤ pcb.rcvWnd := by
    rcases inseq with given | small
    · exact .inl given
    right
    have own := tcpTcplen_noSyn data''.noSyn
    have before := tcpTcplen_noSyn data'.noSyn
    by_cases fin : inseg.tcphdr.flags.fin = true
    · rw [if_pos fin] at own
      rcases finSource fin with had | covered
      · rw [if_pos had] at before
        omega
      · have := small covered
        omega
    · rw [if_neg fin] at own
      omega
  apply (tcpAdvance_spec tolerant enough).bind
  rintro _ ⟨within, rcvAnnWnd, rfl⟩
  have delivered := start inseg data'' (by omega)
  refine Ensures.bind (tcpDequeue_spec tolerant link window queued' (by omega) ?_ ?_ delivered) ?_
  · simp only [receiver.expected, place_add]
  · show r + tcpTcplen inseg + (pcb.rcvWnd - tcpTcplen inseg) = e
    omega
  rintro ⟨i', pcb'⟩ ⟨r', forward, receiver', delivered', state⟩
  unfold tcpAck
  have kept := receiver'.queued
  split
  · exact .ok ⟨r', by omega, ⟨receiver'.expected, receiver'.sum, kept⟩, delivered', state⟩
  · exact .ok ⟨r', by omega, ⟨receiver'.expected, receiver'.sum, kept⟩, delivered', state⟩

end Advance

end Queue

end Lwip
