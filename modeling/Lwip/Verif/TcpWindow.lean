import Lwip.Verif.TcpConn

/-!
# The receive window

`tcp_receive` takes no more sequence numbers off the receive window than the window holds, as
long as segments out of sequence end inside the window where they are queued without being
trimmed to it, and as long as a segment in sequence does not take over the `FIN` of a queued one
behind data that fills the window. Where one of the two fails, an assertion on the window is
reached.
-/

namespace Lwip

open Outcome Serial Transition

/-! ## Lengths of segments -/

/-- A queued segment whose length is that of its pbufs. -/
def LenGood (_ : Nat) (seg : TcpSeg) : Prop := seg.p.totLen = seg.len ∧ seg.len < 65536

theorem pbufRealloc_totLen {c kept rest : Chain} {newLen : Nat} (small : newLen < 65536)
    (shorter : newLen ≤ c.totLen) (done : pbufRealloc c newLen = .ok (kept, rest)) :
    kept.totLen = newLen := by
  rw [pbufRealloc, lwipAssert_bind_ok] at done
  replace done := done.2
  split at done
  · rename_i whole
    cases done
    omega
  cases c with
  | nil => cases done
  | cons q next =>
    unfold pbufReallocLoop at done
    split at done
    · obtain ⟨_, done⟩ := lwipAssert_bind_ok.mp done
      obtain ⟨⟨kept', rest'⟩, _, result⟩ := bind_ok.mp done
      cases result
      show u16 (q.totLen + toU16 ((newLen : Int) - q.totLen)) = newLen
      unfold u16 toU16
      omega
    · split at done
      · obtain ⟨⟨count, left⟩, _, result⟩ := bind_ok.mp done
        cases result
        rfl
      · cases done
        rfl

theorem lenGood_trimmable : Trimmable LenGood where
  trim := by
    intro n m seg p rest good _ shorter done
    have small : m < 65536 := Nat.lt_of_le_of_lt shorter good.2
    exact ⟨pbufRealloc_totLen small (by rw [good.1]; exact shorter) done, small⟩
  copyFin := fun good _ _ _ => good
  clearFin := id

theorem pbufCat_totLen_le {h t c : Chain} (done : pbufCat h t = .ok c) :
    c.totLen ≤ h.totLen + t.totLen := by
  unfold pbufCat at done
  split at done
  · cases done
    exact Nat.le_add_right _ _
  · rename_i some'
    obtain ⟨head, _⟩ := not_or.1 some'
    rw [((pbufCatLoop_ok_iff head).1 done).2]
    obtain ⟨p, next, rfl⟩ := List.exists_cons_of_ne_nil head
    exact Nat.mod_le _ 65536

/-- The data handed over is no longer than the sequence numbers taken. -/
def TakenFrom (start r : Nat) (i : TcpInput) : Prop := start + i.recvData.totLen ≤ r

theorem TakenFrom.link {base : UInt32} {hi start r : Nat} {i : TcpInput} {cseg : TcpSeg}
    {recvData : Chain} (taken : TakenFrom start r i) (located : SegAt base hi LenGood r cseg)
    (done : tcpLinkData i.recvData cseg.p = .ok recvData) :
    TakenFrom start (r + tcpTcplen cseg) (deliverInput i recvData cseg) := by
  have length := located.good.1
  have counted := len_le_tcpTcplen cseg
  have before : start + i.recvData.totLen ≤ r := taken
  show start + recvData.totLen ≤ r + tcpTcplen cseg
  unfold tcpLinkData at done
  split at done
  · split at done
    · cases done
      omega
    · have sum := pbufCat_totLen_le done
      omega
  · cases done
    omega

/-- The walk over the pbufs in front of the left edge takes the offset off the total length. -/
theorem tcpSkipPbufs_totLen {off : Int} {c : Chain} (small : c.totLen < 65536) :
    Ensures WindowKept (tcpSkipPbufs (toU16 (c.totLen - off)) off c) fun c' =>
      c'.totLen = toU16 (c.totLen - off) := by
  cases c with
  | nil => exact .error (by decide)
  | cons p next =>
    have behind : ∀ (newTotLen : Nat) (off : Int) (c : Chain),
        Ensures WindowKept (tcpSkipPbufs newTotLen off c) fun _ => True := by
      intro newTotLen off c
      induction c generalizing off with
      | nil => exact .error (by decide)
      | cons q more ih =>
        unfold tcpSkipPbufs
        split
        · exact (ih _).bind fun _ _ => .ok trivial
        · simp only [pbufHeader, ok_bind]
          cases pbufHeaderImpl q (toS16 (-off)) false with
          | none => exact .error (by decide)
          | some q' => exact .ok trivial
    unfold tcpSkipPbufs
    split
    · exact (behind _ _ next).bind fun _ _ => .ok rfl
    simp only [pbufHeader, ok_bind]
    cases header : pbufHeaderImpl p (toS16 (-off)) false with
    | none => exact .error (by decide)
    | some p' =>
      refine .ok ?_
      have low : -32768 ≤ toS16 (-off) := Int.le_bmod (by decide)
      have wraps : toS16 (-off) % 65536 = -off % 65536 := Int.bmod_emod
      obtain ⟨_, _, moved, unmoved⟩ := pbufHeaderImpl_some low header
      show p'.totLen = toU16 (p.totLen - off)
      have small : p.totLen < 65536 := small
      by_cases zero : toS16 (-off) = 0
      · rw [unmoved zero]
        unfold toU16
        omega
      · rw [moved zero]
        show toU16 (p.totLen + toS16 (-off)) = toU16 (p.totLen - off)
        unfold toU16
        omega

/-- The trimming of the left edge keeps length and pbufs together. -/
theorem tcpTrimLeft_lenGood {base : UInt32} {r : Nat} {rcvNxt : UInt32} {i : TcpInput}
    (expected : rcvNxt = place base r) (noSyn : i.inseg.tcphdr.flags.syn = false)
    (good : LenGood r i.inseg) :
    Ensures WindowKept (tcpTrimLeft rcvNxt i) fun i' =>
      i'.seqno = rcvNxt ∧ DataAt base LenGood r i'.inseg ∧ i'.recvData = i.recvData ∧
        i'.tfGotFin = i.tfGotFin ∧
        i'.inseg.len = toU16 ((i.inseg.len : Int) - (rcvNxt - i.seqno).toNat) := by
  have bounded : ∀ z : Int, toU16 z < 65536 := by
    unfold toU16
    omega
  apply ensures_pass (by decide)
  apply ensures_pass (by decide)
  apply ensures_pass (by decide)
  have small : i.inseg.p.totLen < 65536 := by
    rw [good.1]
    exact good.2
  apply (tcpSkipPbufs_totLen small).bind
  intro p length
  refine .ok ⟨rfl, ⟨expected, noSyn, bounded _, ?_, bounded _⟩, rfl, rfl, rfl⟩
  show p.totLen = toU16 ((i.inseg.len : Int) - (rcvNxt - i.seqno).toNat)
  rw [length, good.1]
  unfold toU16 toS32
  split <;> omega

/-! ## Segments that keep the window -/

/-- The segment in sequence does not take over a `FIN` behind data that fills the window. -/
def InseqFits (len : Nat) (pcb : TcpPcb) : Prop :=
  (∃ g ∈ pcb.ooseq, g.tcphdr.flags.fin = true) → len < pcb.rcvWnd

/-- What data has to meet so that the window is kept: trimmed on its left edge or in sequence,
it fits with a `FIN` it may take over; out of sequence, it has room in the queue. -/
def DataFits (pcb : TcpPcb) (i : TcpInput) : Prop :=
  if seqBetween pcb.rcvNxt (i.seqno + 1) (i.seqno + UInt32.ofNat i.tcplen - 1) = true then
    InseqFits (toU16 ((i.inseg.len : Int) - (pcb.rcvNxt - i.seqno).toNat)) pcb
  else if seqBetween i.seqno pcb.rcvNxt (pcb.rcvNxt + UInt32.ofNat pcb.rcvWnd - 1) = true then
    if pcb.rcvNxt = i.seqno then InseqFits i.inseg.len pcb
    else OosFits pcb.rcvWnd (i.seqno - pcb.rcvNxt).toNat i pcb.ooseq
  else True

/-- What a segment has to meet so that the window is kept. -/
def WindowFits (pcb : TcpPcb) (i : TcpInput) : Prop :=
  0 < i.tcplen → pcb.state.code < TcpState.closeWait.code → DataFits pcb i

theorem DataFits.congr {pcb pcb' : TcpPcb} {i : TcpInput} (fits : DataFits pcb i)
    (same : receiveFields pcb' = receiveFields pcb) : DataFits pcb' i := by
  simp only [receiveFields, Prod.mk.injEq] at same
  unfold DataFits InseqFits at fits ⊢
  rw [same.1, same.2.1, same.2.2]
  exact fits

/-- The distances of a segment from the next expected place do not depend on that place. -/
theorem OosFits.shift {hi n : Nat} {i : TcpInput} {queue : List TcpSeg} (r : Nat)
    (fits : OosFits hi n i queue) : OosFits (r + hi) (r + n) i queue := by
  rcases fits with appended | dropped | cut | ⟨ends, withFin⟩
  · exact .inl appended
  · exact .inr (.inl dropped)
  · exact .inr (.inr (.inl cut))
  · refine .inr (.inr (.inr ⟨by omega, fun hasFin => ?_⟩))
    have := withFin hasFin
    omega

theorem Queued.nil_of_full {base : UInt32} {r : Nat} {Good : Nat → TcpSeg → Prop}
    {queue : List TcpSeg} (queued : Queued base r Good (r + 1) queue) : queue = [] := by
  cases queue with
  | nil => rfl
  | cons seg next =>
    obtain ⟨n, order, located, _⟩ := queued
    have ends := located.ends
    omega

section Segment

variable {base : UInt32} {r : Nat} {env : TcpEnv} {pcb : TcpPcb} {i : TcpInput}

/-- The number of a segment as the number of a place at or behind the expected one. -/
theorem seqno_place (expected : pcb.rcvNxt = place base r) (seqno : UInt32) :
    seqno = place base (r + (seqno - pcb.rcvNxt).toNat) := by
  rw [← place_add, ← expected, UInt32.ofNat_toNat, UInt32.add_comm, UInt32.sub_add_cancel]

/-- A segment that the window test accepts and that fits lies in the window. -/
theorem DataFits.inside (fits : DataFits pcb i)
    (receiver : ReceiverAt base (r + pcb.rcvWnd) LenGood (r + pcb.rcvWnd) r pcb)
    (bounded : pcb.rcvWnd < 65536)
    (rejected : seqBetween pcb.rcvNxt (i.seqno + 1) (i.seqno + UInt32.ofNat i.tcplen - 1) = false)
    (accepted : seqBetween i.seqno pcb.rcvNxt
      (pcb.rcvNxt + UInt32.ofNat pcb.rcvWnd - 1) = true) :
    (i.seqno - pcb.rcvNxt).toNat < pcb.rcvWnd ∧
      (pcb.rcvNxt ≠ i.seqno →
        OosFits (r + pcb.rcvWnd) (r + (i.seqno - pcb.rcvNxt).toNat) i pcb.ooseq) ∧
      (pcb.rcvNxt = i.seqno → InseqFits i.inseg.len pcb) := by
  unfold DataFits at fits
  rw [rejected, if_pos accepted] at fits
  rw [seqBetween_window_iff _ _ bounded] at accepted
  by_cases here : pcb.rcvNxt = i.seqno
  · rw [if_pos here] at fits
    refine ⟨?_, fun ahead => absurd here ahead, fun _ => fits⟩
    have zero : (i.seqno - pcb.rcvNxt).toNat = 0 := by
      rw [here, UInt32.sub_self]
      rfl
    omega
  rw [if_neg here] at fits
  refine ⟨?_, fun _ => fits.shift r, fun given => absurd given here⟩
  rcases accepted with inside | ⟨full, far⟩
  · exact inside
  -- the window test lets one number pass a window without room
  have empty : pcb.ooseq = [] := by
    have queued := receiver.queued
    rw [full] at queued
    exact queued.nil_of_full
  rw [empty] at fits
  have ends : (i.seqno - pcb.rcvNxt).toNat + tcpTcplen i.inseg ≤ pcb.rcvWnd := by
    simpa [OosFits] using fits
  omega

/-- The data of a segment that fits: the receiver moves on inside the window. -/
theorem tcpReceiveData_fits (arrived : Arrived i)
    (receiver : ReceiverAt base (r + pcb.rcvWnd) LenGood (r + pcb.rcvWnd) r pcb)
    (bounded : pcb.rcvWnd ≤ tcpWnd) (fits : 0 < i.tcplen → DataFits pcb i) :
    Ensures WindowKept (tcpReceiveData env i pcb)
      (Received base (r + pcb.rcvWnd) LenGood (r + pcb.rcvWnd) r (TakenFrom r) pcb.state) := by
  have width : pcb.rcvWnd ≤ 8096 := bounded
  have good : ∀ n, LenGood n i.inseg := fun _ => ⟨arrived.length, arrived.small⟩
  have nothing : ∀ i' : TcpInput, i'.recvData = i.recvData → TakenFrom r r i' := by
    intro i' handed
    show r + i'.recvData.totLen ≤ r
    rw [handed, arrived.noData]
    exact Nat.le_refl r
  apply tcpReceiveData_spec (fun _ kept => kept) lenGood_trimmable
    (fun taken located _ done => taken.link located done) (Or.inr (Nat.le_refl _))
    (Nat.le_refl _) (by omega) (by omega) receiver ?_ ?_ ?_
    (fun positive => arrived.incoming (seqno_place receiver.expected i.seqno) (good _) positive)
    (fun i' handed _ => nothing i' handed)
  · intro i' inseg handed _ data _
    show r + Chain.totLen (if inseg.p.totLen > 0 then inseg.p else i'.recvData) ≤
      r + tcpTcplen inseg
    have length := data.good.1
    have counted := len_le_tcpTcplen inseg
    rw [handed, arrived.noData]
    split
    · omega
    · exact Nat.add_le_add_left (Nat.zero_le _) r
  · intro positive accepted
    have fits := fits positive
    unfold DataFits at fits
    rw [if_pos accepted] at fits
    apply (tcpTrimLeft_lenGood receiver.expected arrived.noSyn (good r)).mono
    intro i' trimmed
    refine ⟨trimmed.1, trimmed.2.1, trimmed.2.2.1, trimmed.2.2.2.1, Or.inr ?_⟩
    rw [trimmed.2.2.2.2]
    exact fits
  · intro positive rejected accepted
    obtain ⟨inside, ahead, here⟩ := (fits positive).inside receiver (by omega) rejected accepted
    have place := seqno_place receiver.expected i.seqno
    refine ⟨Nat.le_add_right _ _, by omega, fun strict => ahead ?_, fun equal => .inr (here ?_)⟩
    · intro same
      rw [same, UInt32.sub_self] at strict
      exact absurd strict (Nat.lt_irrefl r)
    · rw [equal] at place
      rw [receiver.expected, place]

/-- The queue out of sequence ends inside the window. -/
def OoseqInWindow (rcvNxt : UInt32) (rcvWnd : Nat) (ooseq : List TcpSeg) : Prop :=
  ∃ base r, rcvNxt = place base r ∧ Queued base (r + rcvWnd) LenGood (r + 1) ooseq

/-- What is known of the window after a segment that came in at the control block `pcb`. -/
def windowPost (pcb : TcpPcb) : HandedRel := fun data _ fields =>
  ∃ consumed, fields.2.1 + consumed = pcb.rcvWnd ∧
    fields.1 = pcb.rcvNxt + UInt32.ofNat consumed ∧ data.totLen ≤ consumed ∧
    (TcpState.closeWait.code ≤ pcb.state.code → consumed = 0) ∧
    (pcb.state.code < TcpState.closeWait.code → OoseqInWindow fields.1 fields.2.1 fields.2.2)

theorem windowPost_idle (inWindow : pcb.state.code < TcpState.closeWait.code →
    OoseqInWindow pcb.rcvNxt pcb.rcvWnd pcb.ooseq) :
    windowPost pcb [] false (receiveFields pcb) :=
  ⟨0, rfl, by simp [receiveFields], Nat.le_refl 0, fun _ => rfl, inWindow⟩

/-- The data of a segment that keeps the window. -/
theorem tcpReceiveData_window (arrived : Arrived i) (bounded : pcb.rcvWnd ≤ tcpWnd)
    (inWindow : pcb.state.code < TcpState.closeWait.code →
      OoseqInWindow pcb.rcvNxt pcb.rcvWnd pcb.ooseq)
    (fits : WindowFits pcb i) : DataReceived WindowKept (windowPost pcb) env i pcb := by
  intro recvAcked pcb' same reach
  have arrived' : Arrived { i with recvAcked := recvAcked } := arrived.congr rfl rfl rfl rfl rfl
  have fields := same
  simp only [receiveFields, Prod.mk.injEq] at fields
  obtain ⟨next, size, queue⟩ := fields
  by_cases early : pcb.state.code < TcpState.closeWait.code
  · obtain ⟨base, r, expected, queued⟩ := inWindow early
    rw [← next] at expected
    rw [← size, ← queue] at queued
    rw [← size] at bounded
    have fits' : 0 < i.tcplen → DataFits pcb' { i with recvAcked := recvAcked } :=
      fun positive => (fits positive early).congr same
    apply (tcpReceiveData_fits arrived' ⟨expected, rfl, queued⟩ bounded fits').mono
    rintro ⟨i', after⟩ ⟨r', forward, receiver, taken, state⟩
    have sum : r' + after.rcvWnd = r + pcb'.rcvWnd := receiver.sum
    have taken : r + i'.recvData.totLen ≤ r' := taken
    refine ⟨⟨r' - r, ?_, ?_, ?_, ?_, fun _ => ?_⟩, state⟩
    · show after.rcvWnd + (r' - r) = pcb.rcvWnd
      omega
    · show after.rcvNxt = pcb.rcvNxt + UInt32.ofNat (r' - r)
      rw [receiver.expected, ← next, expected, place_add, Nat.add_sub_cancel' forward]
    · show i'.recvData.totLen ≤ r' - r
      omega
    · intro late
      omega
    · refine ⟨base, r', receiver.expected, ?_⟩
      show Queued base (r' + after.rcvWnd) LenGood (r' + 1) after.ooseq
      rw [sum]
      exact receiver.queued
  · have late : TcpState.closeWait.code ≤ pcb'.state.code :=
      Nat.le_of_not_lt fun given => early (reach given)
    apply (tcpReceiveData_nothing env late).mono
    rintro ⟨i', after⟩ ⟨unchanged, sides⟩
    obtain ⟨fields', state⟩ := receiveFields_of_side sides
    refine ⟨?_, Or.inl state⟩
    unfold Handed
    rw [unchanged, fields', same]
    rw [arrived.noData]
    exact windowPost_idle inWindow

end Segment

/-! ## Runs -/

/-- Events as they are promised: segments carry no `SYN` and have a length of 16 bits, the
application takes delivered bytes off the window only, and the window is corrected for a `FIN`
that has been seen. -/
def PlainEvent (c : TcpConn) : TcpEvent → Prop
  | .segment _ p tcphdr _ => tcphdr.flags.syn = false ∧ p.totLen < 65536
  | .accepted _ p tcphdr => tcphdr.flags.syn = false ∧ p.totLen < 65536
  | .recved _ len => len ≤ c.pending
  | .finWindow => c.finSeen = true
  | _ => True

/-- A segment whose data is looked at keeps the window. -/
def SegmentFits (pcb : TcpPcb) : TcpEvent → Prop
  | .segment _ p tcphdr opts =>
    tcpReachesData pcb (tcpInputOf p tcphdr opts) → WindowFits pcb (tcpInputOf p tcphdr opts)
  | .accepted _ p tcphdr => WindowFits pcb (tcpInputOf p tcphdr [])
  | _ => True

/-- Promised events whose segments keep the window. -/
def WindowGuard (c : TcpConn) (event : TcpEvent) : Prop :=
  PlainEvent c event ∧ SegmentFits c.pcb event

/-- A connection whose window accounts for everything that was received. -/
structure WindowInv (c : TcpConn) : Prop where
  opened : 0 < c.pcb.state.code
  bounded : c.pcb.rcvWnd ≤ tcpWnd
  /-- What the application has not taken off the window fits into one. -/
  owed : c.pending ≤ tcpWnd
  finLate : c.finSeen = true → TcpState.closeWait.code ≤ c.pcb.state.code
  /-- Before, the window and what is missing from it make up at most a full one. -/
  sum : c.pcb.state.code < TcpState.closeWait.code → c.pcb.rcvWnd + c.pending ≤ tcpWnd
  /-- Before, the queue out of sequence ends inside the window. -/
  inWindow : c.pcb.state.code < TcpState.closeWait.code →
    OoseqInWindow c.pcb.rcvNxt c.pcb.rcvWnd c.pcb.ooseq

/-- The sequence numbers taken are those by which the window shrank. -/
def WindowTaken (pcb pcb' : TcpPcb) : Prop :=
  pcb'.rcvWnd + (pcb'.rcvNxt - pcb.rcvNxt).toNat = pcb.rcvWnd

/-- An event does not reach the assertions on the window, and takes no more sequence numbers than
the window holds. -/
def WindowHolds (pcb : TcpPcb) : TcpEvent → Prop
  | .segment env p tcphdr opts =>
    Ensures WindowKept (tcpProcess env (tcpInputOf p tcphdr opts) pcb) fun processed =>
      WindowTaken pcb processed.pcb
  | .accepted env p tcphdr =>
    Ensures WindowKept (tcpProcessAccepted env (tcpInputOf p tcphdr []) pcb) fun processed =>
      WindowTaken pcb processed.pcb
  | _ => True

/-- What is known of the window in terms of the numbers before and behind a segment. -/
theorem windowTaken_of_post {pcb pcb' : TcpPcb} {i : TcpInput} (bounded : pcb.rcvWnd ≤ tcpWnd)
    (handed : Handed (windowPost pcb) i pcb') : WindowTaken pcb pcb' := by
  obtain ⟨consumed, sum, next, _⟩ := handed
  have next : pcb'.rcvNxt = pcb.rcvNxt + UInt32.ofNat consumed := next
  have width : pcb.rcvWnd ≤ 8096 := bounded
  have small : (UInt32.ofNat consumed).toNat = consumed :=
    UInt32.toNat_ofNat_of_lt' (Nat.lt_of_le_of_lt (by omega : consumed ≤ 8096) (by decide))
  unfold WindowTaken
  rw [next, UInt32.add_comm, UInt32.add_sub_cancel, small]
  exact sum

theorem windowPost_purge (pcb : TcpPcb) : Purges (windowPost pcb) := by
  rintro _ _ _ _ _ ⟨consumed, sum, next, taken, late, inWindow⟩
  refine ⟨consumed, sum, next, taken, late, fun early => ?_⟩
  obtain ⟨base, r, expected, _⟩ := inWindow early
  exact ⟨base, r, expected, trivial⟩

section Step

variable {c : TcpConn} {env : TcpEnv} {p : Chain} {tcphdr : TcpHdr} {opts : List UInt8}

section

variable (inv : WindowInv c)

include inv

theorem tcpProcess_window (guard : WindowGuard c (.segment env p tcphdr opts)) :
    Ensures WindowKept (tcpProcess env (tcpInputOf p tcphdr opts) c.pcb) fun processed =>
      Processed (windowPost c.pcb) c.pcb.state processed.input processed.pcb := by
  have arrived : Arrived (tcpInputOf p tcphdr opts) := arrived_tcpInputOf opts guard.1.1 guard.1.2
  apply tcpProcess_processed (fun _ kept => kept) (windowPost_purge c.pcb)
    (fun syn => absurd (guard.1.1.symm.trans syn) Bool.false_ne_true) ⟨rfl, rfl⟩
  · exact windowPost_idle inv.inWindow
  · intro reaches _
    exact tcpReceiveData_window arrived inv.bounded inv.inWindow (guard.2 reaches)

/-- The end of state `SYN_RCVD` with a segment that keeps the window. -/
theorem tcpProcessAccepted_window (early : c.pcb.state.code ≤ TcpState.closeWait.code)
    (guard : WindowGuard c (.accepted env p tcphdr)) :
    Ensures WindowKept (tcpProcessAccepted env (tcpInputOf p tcphdr []) c.pcb) fun processed =>
      Processed (windowPost c.pcb) c.pcb.state processed.input processed.pcb := by
  have arrived : Arrived (tcpInputOf p tcphdr []) := arrived_tcpInputOf [] guard.1.1 guard.1.2
  exact tcpProcessAccepted_processed (fun _ kept => kept)
    (tcpReceiveData_window arrived inv.bounded inv.inWindow guard.2) rfl id early

theorem WindowInv.processed {input : TcpInput} {pcb : TcpPcb}
    (done : Processed (windowPost c.pcb) c.pcb.state input pcb) :
    WindowInv (c.received input pcb) := by
  obtain ⟨⟨consumed, shrunk, _, taken, late, inWindow⟩, forward, fin⟩ := done
  have shrunk : pcb.rcvWnd + consumed = c.pcb.rcvWnd := shrunk
  have bounded := inv.bounded
  have before : pcb.state.code < TcpState.closeWait.code →
      c.pcb.state.code < TcpState.closeWait.code := fun early => Nat.lt_of_le_of_lt forward early
  refine ⟨Nat.lt_of_lt_of_le inv.opened forward, ?_, ?_, ?_, ?_, ?_⟩
  · show pcb.rcvWnd ≤ tcpWnd
    omega
  · show c.pending + input.recvData.totLen ≤ tcpWnd
    rcases Nat.lt_or_ge c.pcb.state.code TcpState.closeWait.code with early | closed
    · have sum := inv.sum early
      omega
    · have none := late closed
      have owed := inv.owed
      omega
  · intro seen
    rcases Bool.or_eq_true _ _ ▸ seen with earlier | now
    · exact Nat.le_trans (inv.finLate earlier) forward
    · exact fin now
  · intro early
    have sum := inv.sum (before early)
    show pcb.rcvWnd + (c.pending + input.recvData.totLen) ≤ tcpWnd
    omega
  · intro early
    exact inWindow (before early)

/-- Events that leave the receiver alone keep the accounting. -/
theorem WindowInv.kept {pcb : TcpPcb} (kept : ReceiverKept c.pcb pcb) :
    WindowInv { c with pcb := pcb } := by
  have before : pcb.state.code < TcpState.closeWait.code →
      c.pcb.state.code < TcpState.closeWait.code := fun early => Nat.lt_of_le_of_lt kept.state early
  refine ⟨Nat.lt_of_lt_of_le inv.opened kept.state, ?_, inv.owed, ?_, ?_, ?_⟩
  · show pcb.rcvWnd ≤ tcpWnd
    rw [kept.rcvWnd]
    exact inv.bounded
  · intro seen
    exact Nat.le_trans (inv.finLate seen) kept.state
  · intro early
    rw [kept.rcvWnd]
    exact inv.sum (before early)
  · intro early
    obtain ⟨base, r, expected, queued⟩ := inv.inWindow (before early)
    refine ⟨base, r, kept.rcvNxt.trans expected, ?_⟩
    rw [kept.rcvWnd]
    rcases kept.ooseq with same | empty
    · rw [same]
      exact queued
    · rw [empty]
      trivial

/-- Taking delivered bytes off the window keeps the accounting. -/
theorem WindowInv.reopened {pcb : TcpPcb} {len : Nat} (owed : len ≤ c.pending)
    (reopened : WindowReopened len c.pcb pcb) :
    WindowInv { c with pcb := pcb, pending := c.pending - len } := by
  have before : pcb.state.code < TcpState.closeWait.code →
      c.pcb.state.code < TcpState.closeWait.code := by
    rw [reopened.state]
    exact id
  have grown : pcb.state.code < TcpState.closeWait.code → pcb.rcvWnd = c.pcb.rcvWnd + len := by
    intro early
    have sum := inv.sum (before early)
    exact reopened.grown (before early) (by omega)
  have bound := inv.owed
  refine ⟨?_, reopened.bounded, ?_, ?_, ?_, ?_⟩
  · rw [reopened.state]
    exact inv.opened
  · show c.pending - len ≤ tcpWnd
    omega
  · rw [reopened.state]
    exact inv.finLate
  · intro early
    have sum := inv.sum (before early)
    have grown := grown early
    show pcb.rcvWnd + (c.pending - len) ≤ tcpWnd
    omega
  · intro early
    have grown := grown early
    obtain ⟨base, r, expected, queued⟩ := inv.inWindow (before early)
    refine ⟨base, r, reopened.rcvNxt.trans expected, ?_⟩
    show Queued base (r + pcb.rcvWnd) LenGood (r + 1) pcb.ooseq
    rw [reopened.ooseq]
    exact queued.mono (by omega) fun _ _ good => good

/-- The correction of the window for a `FIN` keeps the accounting. -/
theorem WindowInv.finWindow (seen : c.finSeen = true) :
    WindowInv { c with pcb := tcpFinWindow c.pcb } := by
  have closed := inv.finLate seen
  refine ⟨inv.opened, ?_, inv.owed, inv.finLate, ?_, ?_⟩
  · have bounded := inv.bounded
    show (if c.pcb.rcvWnd ≠ tcpWnd then c.pcb.rcvWnd + 1 else c.pcb.rcvWnd) ≤ tcpWnd
    split <;> omega
  · intro early
    exact absurd early (Nat.not_lt_of_le closed)
  · intro early
    exact absurd early (Nat.not_lt_of_le closed)

theorem connStep_windowInv {event : TcpEvent} {c' : TcpConn} (guard : WindowGuard c event)
    (step : ConnStep c event c') : WindowInv c' := by
  cases connStep_outcome inv.opened step with
  | segment computed => exact inv.processed ((tcpProcess_window inv guard).of_ok computed)
  | accepted early computed =>
    exact inv.processed ((tcpProcessAccepted_window inv early guard).of_ok computed)
  | recved reopened => exact inv.reopened guard.1 reopened
  | finWindow => exact inv.finWindow guard.1
  | other _ kept => exact inv.kept kept

/-- An enabled event with a segment that keeps the window does not overrun it. -/
theorem WindowInv.holds {event : TcpEvent} (enabled : event.enabled c.pcb)
    (guard : WindowGuard c event) : WindowHolds c.pcb event := by
  cases event with
  | segment env p tcphdr opts =>
    apply (tcpProcess_window inv guard).mono
    intro processed done
    exact windowTaken_of_post inv.bounded done.1
  | accepted env p tcphdr =>
    apply (tcpProcessAccepted_window inv (early_of_accepted enabled) guard).mono
    intro processed done
    exact windowTaken_of_post inv.bounded done.1
  | _ => trivial

end

end Step

/-- An open connection that has not received anything out of sequence. -/
structure WindowStart (c : TcpConn) : Prop where
  opened : c.pcb.state ≠ .closed
  nothing : c.pcb.ooseq = []
  /-- The window and what is missing from it make up at most a full one. -/
  sum : c.pcb.rcvWnd + c.pending ≤ tcpWnd
  noFin : c.finSeen = false

theorem WindowStart.inv {c : TcpConn} (start : WindowStart c) : WindowInv c := by
  have sum := start.sum
  refine ⟨?_, by omega, by omega, ?_, fun _ => sum, fun _ => ?_⟩
  · have opened := start.opened
    revert opened
    cases c.pcb.state <;> simp [TcpState.code]
  · rw [start.noFin]
    intro seen
    cases seen
  · refine ⟨c.pcb.rcvNxt, 0, (place_zero _).symm, ?_⟩
    rw [start.nothing]
    trivial

/-- In every run of a connection whose segments keep the window, the window never exceeds its
maximum, and no segment that keeps the window takes more sequence numbers than the window
holds. -/
theorem tcpReceive_window_run (start c : TcpConn) (fresh : WindowStart start)
    (run : Run ConnStep WindowGuard start c) :
    c.pcb.rcvWnd ≤ tcpWnd ∧ ∀ event, event.enabled c.pcb → WindowGuard c event →
      WindowHolds c.pcb event := by
  have inv : WindowInv c :=
    run.invariant fresh.inv fun _ _ _ inv guard step => connStep_windowInv inv guard step
  exact ⟨inv.bounded, fun event enabled guard => inv.holds enabled guard⟩

/-- A connection with a window of three bytes; the application has taken the others not yet. -/
def narrowConn : TcpConn :=
  { pcb := { tcpAlloc 0 with
      state := .established, rcvNxt := 1000, rcvWnd := 3, rcvAnnWnd := 3, rcvAnnRightEdge := 1003 }
    delivered := [], pending := 8093, finSeen := false }

theorem narrowConn_start : WindowStart narrowConn := ⟨by decide, rfl, by decide, rfl⟩

/-- The last byte of the window is queued out of sequence. -/
def lastByteQueued : TcpConn := narrowConn.next (dataEvent 1002 [3] false)

/-- The theorem at a connection with a segment out of sequence, when the bytes that are missing in
front of it arrive. -/
theorem tcpReceive_window_run_gapFilled :
    WindowStart narrowConn ∧ Run ConnStep WindowGuard narrowConn lastByteQueued ∧
      lastByteQueued.pcb.ooseq ≠ [] ∧ WindowGuard lastByteQueued (dataEvent 1000 [1, 2] false) ∧
      lastByteQueued.pcb.rcvWnd ≤ tcpWnd ∧
      WindowHolds lastByteQueued.pcb (dataEvent 1000 [1, 2] false) := by
  have queues : WindowGuard narrowConn (dataEvent 1002 [3] false) := by
    refine ⟨⟨rfl, by decide⟩, fun _ _ _ => ?_⟩
    exact .inr (.inr (.inr ⟨by decide, by decide⟩))
  have fills : WindowGuard lastByteQueued (dataEvent 1000 [1, 2] false) := by
    refine ⟨⟨rfl, by decide⟩, fun _ _ _ => ?_⟩
    unfold DataFits InseqFits OosFits
    decide +kernel
  have run : Run ConnStep WindowGuard narrowConn lastByteQueued :=
    Run.refl.tail _ queues (connStep_next (by decide) (by decide +kernel))
  have holds := tcpReceive_window_run _ _ narrowConn_start run
  exact ⟨narrowConn_start, run, by decide +kernel, fills, holds.1,
    holds.2 _ (by decide +kernel) fills⟩

/-- Two bytes of which the second lies behind the window are queued as they are, and so is a
`FIN` at the end of the window. When the gap is filled, the queued bytes exceed the rest of the
window, or the `FIN` exceeds it that was taken over. -/
theorem tcpReceive_overruns_window :
    WindowStart narrowConn ∧
      Run ConnStep PlainEvent narrowConn (narrowConn.next (dataEvent 1002 [3, 4] false)) ∧
      PlainEvent (narrowConn.next (dataEvent 1002 [3, 4] false)) (dataEvent 1000 [1, 2] false) ∧
      tcpEvent (narrowConn.next (dataEvent 1002 [3, 4] false)).pcb
        (dataEvent 1000 [1, 2] false) = .error overrunOoseq ∧
      Run ConnStep PlainEvent narrowConn (narrowConn.next (dataEvent 1002 [] true)) ∧
      PlainEvent (narrowConn.next (dataEvent 1002 [] true)) (dataEvent 1000 [1, 2, 3] false) ∧
      tcpEvent (narrowConn.next (dataEvent 1002 [] true)).pcb
        (dataEvent 1000 [1, 2, 3] false) = .error overrunInseq := by
  refine ⟨narrowConn_start, ?_, ⟨rfl, by decide⟩, by decide +kernel, ?_, ⟨rfl, by decide⟩,
    by decide +kernel⟩
  · exact Run.refl.tail (dataEvent 1002 [3, 4] false) ⟨rfl, by decide⟩
      (connStep_next (by decide) (by decide +kernel))
  · exact Run.refl.tail (dataEvent 1002 [] true) ⟨rfl, by decide⟩
      (connStep_next (by decide) (by decide +kernel))

end Lwip
