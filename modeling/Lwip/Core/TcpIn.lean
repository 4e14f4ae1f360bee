import Lwip.Core.TcpOut

/-!
# Receiving TCP segments

`tcp_parseopt`, `tcp_receive` and `tcp_process` of `core/tcp_in.c`. The file-scope variables
that describe the incoming segment are the fields of `TcpInput`. The loops of `tcp_receive`
are functions of their own; they take the queue and the sequence numbers that they read.
-/

namespace Lwip

/-- File-scope variables of `tcp_in.c`. -/
structure TcpInput where
  inseg : TcpSeg
  seqno : UInt32
  ackno : UInt32
  tcplen : Nat
  flags : TcpFlags
  wnd : Nat
  /-- Bytes of its options. -/
  opts : List UInt8 := []
  /-- Bytes newly acknowledged. -/
  recvAcked : Nat := 0
  tfReset : Bool := false
  tfClosed : Bool := false
  tfGotFin : Bool := false
  recvData : Chain := []
  deriving DecidableEq, Repr

/-- The variables as `tcp_input` sets them for a segment. -/
def tcpInputOf (p : Chain) (tcphdr : TcpHdr) (opts : List UInt8) : TcpInput :=
  { inseg := { p := p, len := p.totLen, tcphdr := tcphdr }
    seqno := tcphdr.seqno, ackno := tcphdr.ackno, flags := tcphdr.flags, wnd := tcphdr.wnd
    tcplen := u16 (p.totLen + if tcphdr.flags.fin || tcphdr.flags.syn then 1 else 0)
    opts := opts }

/-! ## Options -/

/-- `tcp_getoptbyte` at an index. -/
def tcpGetoptbyte (opts : List UInt8) (optidx : Nat) : Nat := (opts.getD optidx 0).toNat

/-- The loop of `tcp_parseopt`; each pass consumes at least one byte of the options. -/
def tcpParseoptLoop (opts : List UInt8) : Nat → Nat → TcpPcb → TcpPcb
  | 0, _, pcb => pcb
  | fuel + 1, optidx, pcb =>
    if optidx < opts.length then
      match tcpGetoptbyte opts optidx with
      | 0 => pcb
      | 1 => tcpParseoptLoop opts fuel (optidx + 1) pcb
      | 2 =>
        if tcpGetoptbyte opts (optidx + 1) ≠ 4 ∨ optidx + 4 > opts.length then pcb
        else
          let mss := 256 * tcpGetoptbyte opts (optidx + 2) + tcpGetoptbyte opts (optidx + 3)
          tcpParseoptLoop opts fuel (optidx + 4)
            { pcb with mss := if mss > tcpMss ∨ mss = 0 then tcpMss else mss }
      | _ =>
        let data := tcpGetoptbyte opts (optidx + 1)
        if data < 2 then pcb else tcpParseoptLoop opts fuel (optidx + data) pcb
    else pcb

def tcpParseopt (opts : List UInt8) (pcb : TcpPcb) : TcpPcb :=
  tcpParseoptLoop opts opts.length 0 pcb

/-! ## Acknowledgements -/

/-- Update of the send window. -/
def tcpUpdateSndWnd (i : TcpInput) (pcb : TcpPcb) : TcpPcb :=
  if seqLt pcb.sndWl1 i.seqno ∨ (pcb.sndWl1 = i.seqno ∧ seqLt pcb.sndWl2 i.ackno) ∨
      (pcb.sndWl2 = i.ackno ∧ i.wnd > pcb.sndWnd) then
    let pcb := { pcb with
      sndWnd := i.wnd, sndWndMax := max pcb.sndWndMax i.wnd, sndWl1 := i.seqno
      sndWl2 := i.ackno }
    if i.wnd = 0 then tcpPersistStart pcb
    else if pcb.persistBackoff > 0 then { pcb with persistBackoff := 0 }
    else pcb
  else pcb

/-- Growth of the congestion window by one segment, unless it would overflow. -/
def tcpInflateCwnd (pcb : TcpPcb) : TcpPcb :=
  { pcb with cwnd := if u16 (pcb.cwnd + pcb.mss) > pcb.cwnd then u16 (pcb.cwnd + pcb.mss)
    else pcb.cwnd }

/-- One more duplicate acknowledgement; the count is a `u8_t` that stays at its maximum. -/
def tcpCountDupack (pcb : TcpPcb) : TcpPcb :=
  { pcb with dupacks := if (pcb.dupacks + 1) % 256 > pcb.dupacks then pcb.dupacks + 1
    else pcb.dupacks }

/-- Fast retransmit on the third duplicate acknowledgement. -/
def tcpDupackReaction (pcb : TcpPcb) : TcpPcb :=
  if pcb.dupacks > 3 then tcpInflateCwnd pcb
  else if pcb.dupacks = 3 then tcpRexmitFast pcb
  else pcb

/-- An acknowledgement of nothing new. -/
def tcpDupack (i : TcpInput) (rightWndEdge : UInt32) (pcb : TcpPcb) : TcpPcb :=
  if i.tcplen = 0 ∧ pcb.sndWl2 + UInt32.ofNat pcb.sndWnd = rightWndEdge ∧ pcb.rtime ≥ 0 ∧
      pcb.lastack = i.ackno then tcpDupackReaction (tcpCountDupack pcb)
  else { pcb with dupacks := 0 }

/-- Growth of the congestion window. -/
def tcpGrowCwnd (pcb : TcpPcb) : Asserting TcpPcb :=
  if pcb.cwnd < pcb.ssthresh then .ok (tcpInflateCwnd pcb)
  else do
    -- the source divides
    lwipAssert "division by zero" (pcb.cwnd ≠ 0)
    let newCwnd := u16 (pcb.cwnd + pcb.mss * pcb.mss / pcb.cwnd)
    .ok { pcb with cwnd := if newCwnd > pcb.cwnd then newCwnd else pcb.cwnd }

/-- Accounting for an acknowledged segment that has just left its queue. -/
def tcpSegAcked (next : TcpSeg) (recvAcked : Nat) (pcb : TcpPcb) : Asserting (Nat × TcpPcb) := do
  lwipAssert "pcb->snd_queuelen >= pbuf_clen(next->p)" (pcb.sndQueuelen ≥ pbufClen next.p)
  tcpSegFree next
  let sndQueuelen := pcb.sndQueuelen - pbufClen next.p
  lwipAssert "tcp_receive: valid queue length"
    (sndQueuelen ≠ 0 → pcb.unacked ≠ [] ∨ pcb.unsent ≠ [])
  .ok (u16 (recvAcked + next.len), { pcb with sndQueuelen := sndQueuelen })

/-- Removal of the acknowledged segments from `unacked`. -/
def tcpFreeAcked (ackno : UInt32) :
    List TcpSeg → Nat → TcpPcb → Asserting (Nat × TcpPcb)
  | [], recvAcked, pcb => .ok (recvAcked, { pcb with unacked := [] })
  | next :: more, recvAcked, pcb =>
    if seqLeq (next.tcphdr.seqno + UInt32.ofNat (tcpTcplen next)) ackno then do
      let (recvAcked, pcb) ← tcpSegAcked next recvAcked { pcb with unacked := more }
      tcpFreeAcked ackno more recvAcked pcb
    else .ok (recvAcked, { pcb with unacked := next :: more })

/-- Removal of the acknowledged segments from `unsent`. -/
def tcpFreeUnsentAcked (ackno : UInt32) :
    List TcpSeg → Nat → TcpPcb → Asserting (Nat × TcpPcb)
  | [], recvAcked, pcb => .ok (recvAcked, { pcb with unsent := [] })
  | next :: more, recvAcked, pcb =>
    if seqBetween ackno (next.tcphdr.seqno + UInt32.ofNat (tcpTcplen next)) pcb.sndNxt then do
      let (recvAcked, pcb) ← tcpSegAcked next recvAcked { pcb with
        unsent := more
        unsentOversize := if more = [] then 0 else pcb.unsentOversize }
      tcpFreeUnsentAcked ackno more recvAcked pcb
    else .ok (recvAcked, { pcb with unsent := next :: more })

/-- An acknowledgement of new data. -/
def tcpNewAck (i : TcpInput) (pcb : TcpPcb) : Asserting (Nat × TcpPcb) := do
  let pcb ← tcpGrowCwnd { pcb with
    tfInfr := false
    cwnd := if pcb.tfInfr then pcb.ssthresh else pcb.cwnd
    nrtx := 0
    rto := toS16 (pcb.sa / 8 + pcb.sv)
    dupacks := 0
    lastack := i.ackno }
  let (recvAcked, pcb) ← tcpFreeAcked i.ackno pcb.unacked i.recvAcked pcb
  .ok (recvAcked, { pcb with rtime := if pcb.unacked = [] then -1 else 0 })

/-- The three kinds of acknowledgements. -/
def tcpAckKinds (env : TcpEnv) (i : TcpInput) (rightWndEdge : UInt32) (pcb : TcpPcb) :
    Asserting (Nat × TcpPcb) :=
  if seqLeq i.ackno pcb.lastack then .ok (i.recvAcked, tcpDupack i rightWndEdge pcb)
  else if seqBetween i.ackno (pcb.lastack + 1) pcb.sndNxt then tcpNewAck i pcb
  else .ok (i.recvAcked, (tcpSendEmptyAck env 0 pcb).2)

/-- Estimation of the round trip time. -/
def tcpEstimateRtt (env : TcpEnv) (ackno : UInt32) (pcb : TcpPcb) : TcpPcb :=
  if pcb.rttest ≠ 0 ∧ seqLt pcb.rtseq ackno then
    let m := toS16 ((env.ticks - pcb.rttest).toNat)
    let m := toS16 (m - pcb.sa / 8)
    let sa := toS16 (pcb.sa + m)
    let m := if m < 0 then toS16 (-m) else m
    let m := toS16 (m - pcb.sv / 4)
    let sv := toS16 (pcb.sv + m)
    { pcb with sa := sa, sv := sv, rto := toS16 (sa / 8 + sv), rttest := 0 }
  else pcb

/-- The part of `tcp_receive` for the acknowledgement. -/
def tcpReceiveAck (env : TcpEnv) (i : TcpInput) (pcb : TcpPcb) :
    Asserting (TcpInput × TcpPcb) :=
  if i.flags.ack then do
    let rightWndEdge := UInt32.ofNat pcb.sndWnd + pcb.sndWl2
    let (recvAcked, pcb) ← tcpAckKinds env i rightWndEdge (tcpUpdateSndWnd i pcb)
    let (recvAcked, pcb) ← tcpFreeUnsentAcked i.ackno pcb.unsent recvAcked pcb
    .ok ({ i with recvAcked := recvAcked },
      tcpEstimateRtt env i.ackno { pcb with sndBuf := u16 (pcb.sndBuf + recvAcked) })
  else .ok (i, pcb)

/-! ## Data -/

/-- `TCPH_FLAGS_SET` without `TCP_FIN`. -/
def clearFin (seg : TcpSeg) : TcpSeg :=
  { seg with tcphdr := { seg.tcphdr with flags := { seg.tcphdr.flags with fin := false } } }

/-- The walk over the pbufs that the left edge leaves without data. -/
def tcpSkipPbufs (newTotLen : Nat) : Int → Chain → Asserting Chain
  | _, [] => .error "p != NULL"
  | off, p :: next =>
    if (p.len : Int) < off then do
      let rest ← tcpSkipPbufs newTotLen (off - p.len) next
      .ok ({ p with totLen := newTotLen, len := 0 } :: rest)
    else do
      match ← pbufHeader (p :: next) (toS16 (-off)) with
      | none => .error "pbuf_header failed"
      | some c => .ok c

/-- Trimming of the left edge of the incoming segment. -/
def tcpTrimLeft (rcvNxt : UInt32) (i : TcpInput) : Asserting TcpInput := do
  let off := toS32 (rcvNxt - i.seqno)
  lwipAssert "inseg.p != NULL" (i.inseg.p ≠ [])
  lwipAssert "insane offset!" (off < 32767)
  lwipAssert "pbuf too short!" (((i.inseg.p.headD (pbufRam 0 [])).len : Int) < off →
    (i.inseg.p.totLen : Int) ≥ off)
  let p ← tcpSkipPbufs (toU16 (i.inseg.p.totLen - off)) off i.inseg.p
  .ok { i with
    seqno := rcvNxt
    inseg := { i.inseg with
      p := p
      len := toU16 ((i.inseg.len : Int) - (rcvNxt - i.seqno).toNat)
      tcphdr := { i.inseg.tcphdr with seqno := rcvNxt } } }

/-- Shortening of a segment. -/
def tcpSegTrim (seg : TcpSeg) (len : Nat) : Asserting TcpSeg := do
  let (p, _) ← pbufRealloc seg.p len
  .ok { seg with p := p, len := len }

/-- Trimming of the segment in sequence to the receive window. -/
def tcpTrimToWnd (rcvNxt : UInt32) (rcvWnd : Nat) (inseg : TcpSeg) : Asserting TcpSeg :=
  if tcpTcplen inseg > rcvWnd then do
    let inseg := clearFin inseg
    let inseg ← tcpSegTrim inseg
      (if inseg.tcphdr.flags.syn then toU16 ((rcvWnd : Int) - 1) else rcvWnd)
    lwipAssert "tcp_receive: segment not trimmed correctly to rcv_wnd\n"
      (inseg.tcphdr.seqno + UInt32.ofNat (tcpTcplen inseg) = rcvNxt + UInt32.ofNat rcvWnd)
    .ok inseg
  else .ok inseg

/-- Removal of the queued segments that the segment in sequence covers; `FIN` is copied. -/
def tcpOoseqCovered (seqno : UInt32) (inseg : TcpSeg) :
    List TcpSeg → Asserting (TcpSeg × List TcpSeg)
  | [] => .ok (inseg, [])
  | next :: more =>
    if seqGeq (seqno + UInt32.ofNat (tcpTcplen inseg))
        (next.tcphdr.seqno + UInt32.ofNat next.len) then do
      tcpSegFree next
      tcpOoseqCovered seqno
        (if next.tcphdr.flags.fin ∧ !inseg.tcphdr.flags.syn then setFin inseg else inseg) more
    else .ok (inseg, next :: more)

/-- Trimming of the segment in sequence to the first queued one. -/
def tcpTrimToOoseq (seqno : UInt32) (inseg : TcpSeg) (ooseq : List TcpSeg) :
    Asserting TcpSeg :=
  match ooseq with
  | [] => .ok inseg
  | next :: _ =>
    if seqGt (seqno + UInt32.ofNat (tcpTcplen inseg)) next.tcphdr.seqno then do
      let len := u16 (next.tcphdr.seqno - seqno).toNat
      let inseg ← tcpSegTrim inseg
        (if inseg.tcphdr.flags.syn then toU16 ((len : Int) - 1) else len)
      lwipAssert "tcp_receive: segment not trimmed correctly to ooseq queue\n"
        (seqno + UInt32.ofNat (tcpTcplen inseg) = next.tcphdr.seqno)
      .ok inseg
    else .ok inseg

/-- What data in sequence does to the queue of segments out of sequence. -/
def tcpAdjustOoseq (seqno : UInt32) (inseg : TcpSeg) (ooseq : List TcpSeg) :
    Asserting (TcpSeg × List TcpSeg) :=
  if inseg.tcphdr.flags.fin then do
    tcpSegsFree ooseq
    .ok (inseg, [])
  else do
    let (inseg, ooseq) ← tcpOoseqCovered seqno inseg ooseq
    let inseg ← tcpTrimToOoseq seqno inseg ooseq
    .ok (inseg, ooseq)

/-- Advance of `rcv_nxt` by a segment, with the assertion on the window. -/
def tcpAdvance (message : String) (tcplen : Nat) (pcb : TcpPcb) : Asserting TcpPcb := do
  lwipAssert message (pcb.rcvWnd ≥ tcplen)
  let (_, pcb) ← tcpUpdateRcvAnnWnd { pcb with
    rcvNxt := pcb.rcvNxt + UInt32.ofNat tcplen, rcvWnd := pcb.rcvWnd - tcplen }
  .ok pcb

/-- The data of a dequeued segment is linked behind the data for the application. -/
def tcpLinkData (recvData p : Chain) : Asserting Chain :=
  if p.totLen > 0 then
    if recvData = [] then .ok p else pbufCat recvData p
  else .ok recvData

/-- Delivery of the queued segments that are now in sequence. -/
def tcpDequeue : List TcpSeg → TcpInput → TcpPcb → Asserting (TcpInput × TcpPcb)
  | [], i, pcb => .ok (i, { pcb with ooseq := [] })
  | cseg :: next, i, pcb =>
    if cseg.tcphdr.seqno = pcb.rcvNxt then do
      let pcb ← tcpAdvance "tcp_receive: ooseq tcplen > rcv_wnd\n" (tcpTcplen cseg) pcb
      let recvData ← tcpLinkData i.recvData cseg.p
      tcpDequeue next
        { i with recvData := recvData, tfGotFin := i.tfGotFin || cseg.tcphdr.flags.fin }
        { pcb with state := if cseg.tcphdr.flags.fin ∧ pcb.state = .established then .closeWait
            else pcb.state }
    else .ok (i, { pcb with ooseq := cseg :: next })

/-- A segment in sequence. -/
def tcpReceiveInseq (i : TcpInput) (pcb : TcpPcb) : Asserting (TcpInput × TcpPcb) := do
  let inseg ← tcpTrimToWnd pcb.rcvNxt pcb.rcvWnd i.inseg
  let (inseg, ooseq) ← tcpAdjustOoseq i.seqno inseg pcb.ooseq
  let pcb ← tcpAdvance "tcp_receive: tcplen > rcv_wnd\n" (tcpTcplen inseg) pcb
  let (i, pcb) ← tcpDequeue ooseq
    { i with
      inseg := inseg
      recvData := if inseg.p.totLen > 0 then inseg.p else i.recvData
      tfGotFin := i.tfGotFin || inseg.tcphdr.flags.fin } pcb
  .ok (i, tcpAck pcb)

/-- The loop of `tcp_oos_insert_segment`. -/
def tcpOosCovered (seqno : UInt32) (cseg : TcpSeg) :
    List TcpSeg → Asserting (TcpSeg × List TcpSeg)
  | [] => .ok (cseg, [])
  | next :: more =>
    if seqGeq (seqno + UInt32.ofNat cseg.len)
        (next.tcphdr.seqno + UInt32.ofNat next.len) then do
      tcpSegFree next
      tcpOosCovered seqno (if next.tcphdr.flags.fin then setFin cseg else cseg) more
    else .ok (cseg, next :: more)

/-- Trimming of a new segment to the queued segment behind it. -/
def tcpOosTrim (seqno : UInt32) (cseg : TcpSeg) (next : List TcpSeg) : Asserting TcpSeg :=
  match next with
  | [] => .ok cseg
  | seg :: _ =>
    if seqGt (seqno + UInt32.ofNat cseg.len) seg.tcphdr.seqno then
      tcpSegTrim cseg (u16 (seg.tcphdr.seqno - seqno).toNat)
    else .ok cseg

/-- `tcp_oos_insert_segment`: the queue from the new segment on. -/
def tcpOosInsertSegment (seqno : UInt32) (cseg : TcpSeg) (next : List TcpSeg) :
    Asserting (List TcpSeg) :=
  if cseg.tcphdr.flags.fin then do
    tcpSegsFree next
    .ok [cseg]
  else do
    let (cseg, next) ← tcpOosCovered seqno cseg next
    let cseg ← tcpOosTrim seqno cseg next
    .ok (cseg :: next)

/-- Trimming of a queued segment to the sequence number of the new one behind it. -/
def tcpTrimPrev (seqno : UInt32) (prev : TcpSeg) : Asserting TcpSeg :=
  if seqGt (prev.tcphdr.seqno + UInt32.ofNat prev.len) seqno then
    tcpSegTrim prev (u16 (seqno - prev.tcphdr.seqno).toNat)
  else .ok prev

/-- Trimming of a segment appended to the queue to the receive window. -/
def tcpTrimAppended (rcvNxt : UInt32) (rcvWnd : Nat) (i : TcpInput) (cseg : TcpSeg) :
    Asserting TcpSeg :=
  if seqGt (UInt32.ofNat i.tcplen + i.seqno) (rcvNxt + UInt32.ofNat rcvWnd) then do
    let cseg ← tcpSegTrim (clearFin cseg)
      (u16 (rcvNxt + UInt32.ofNat rcvWnd - i.seqno).toNat)
    lwipAssert "tcp_receive: segment not trimmed correctly to rcv_wnd\n"
      (i.seqno + UInt32.ofNat (tcpTcplen cseg) = rcvNxt + UInt32.ofNat rcvWnd)
    .ok cseg
  else .ok cseg

/-- Appending behind the last queued segment. -/
def tcpOosAppend (rcvNxt : UInt32) (rcvWnd : Nat) (copy : Option TcpSeg) (i : TcpInput)
    (last : TcpSeg) : Asserting (List TcpSeg) :=
  if last.tcphdr.flags.fin then .ok [last]
  else
    match copy with
    | none => .ok [last]
    | some cseg => do
      let last ← tcpTrimPrev i.seqno last
      let cseg ← tcpTrimAppended rcvNxt rcvWnd i cseg
      .ok [last, cseg]

/-- The search for the place of a segment out of sequence: `prev` is the segment in front of
the queue `next`, and the result is the queue from `prev` on. -/
def tcpOosPlace (rcvNxt : UInt32) (rcvWnd : Nat) (copy : Option TcpSeg) (i : TcpInput) :
    Option TcpSeg → List TcpSeg → Asserting (List TcpSeg)
  | prev, [] => .ok prev.toList
  | prev, next :: more =>
    if i.seqno = next.tcphdr.seqno then
      if i.inseg.len > next.len then
        match copy with
        | none => .ok (prev.toList ++ next :: more)
        | some cseg => do
          let queue ← tcpOosInsertSegment i.seqno cseg (next :: more)
          .ok (prev.toList ++ queue)
      else .ok (prev.toList ++ next :: more)
    else if prev = none ∧ seqLt i.seqno next.tcphdr.seqno then
      match copy with
      | none => .ok (next :: more)
      | some cseg => tcpOosInsertSegment i.seqno cseg (next :: more)
    else
      match prev with
      | some prev' =>
        if seqBetween i.seqno (prev'.tcphdr.seqno + 1) (next.tcphdr.seqno - 1) then
          match copy with
          | none => .ok (prev' :: next :: more)
          | some cseg => do
            let prev' ← tcpTrimPrev i.seqno prev'
            let queue ← tcpOosInsertSegment i.seqno cseg (next :: more)
            .ok (prev' :: queue)
        else if more = [] ∧ seqGt i.seqno next.tcphdr.seqno then do
          let queue ← tcpOosAppend rcvNxt rcvWnd copy i next
          .ok (prev' :: queue)
        else do
          let queue ← tcpOosPlace rcvNxt rcvWnd copy i (some next) more
          .ok (prev' :: queue)
      | none =>
        if more = [] ∧ seqGt i.seqno next.tcphdr.seqno then
          tcpOosAppend rcvNxt rcvWnd copy i next
        else tcpOosPlace rcvNxt rcvWnd copy i (some next) more

/-- The queue with a copy of a segment out of sequence put into it. -/
def tcpOosEnqueue (copy : Option TcpSeg) (i : TcpInput) (pcb : TcpPcb) :
    Asserting (List TcpSeg) :=
  if pcb.ooseq = [] then .ok copy.toList
  else tcpOosPlace pcb.rcvNxt pcb.rcvWnd copy i none pcb.ooseq

/-- A segment out of sequence. -/
def tcpReceiveOoseq (env : TcpEnv) (i : TcpInput) (pcb : TcpPcb) :
    Asserting (TcpInput × TcpPcb) := do
  let pcb := (tcpSendEmptyAck env 1 pcb).2
  let ooseq ← tcpOosEnqueue (tcpSegCopy env 2 (tcpSegsUsed pcb) i.inseg) i pcb
  .ok (i, { pcb with ooseq := ooseq })

/-- The part of `tcp_receive` behind the trimming of the left edge. -/
def tcpReceiveWindow (env : TcpEnv) (i : TcpInput) (pcb : TcpPcb) :
    Asserting (TcpInput × TcpPcb) :=
  if seqBetween i.seqno pcb.rcvNxt (pcb.rcvNxt + UInt32.ofNat pcb.rcvWnd - 1) then
    if pcb.rcvNxt = i.seqno then tcpReceiveInseq i pcb else tcpReceiveOoseq env i pcb
  else .ok (i, (tcpSendEmptyAck env 1 pcb).2)

/-- The part of `tcp_receive` for the data. -/
def tcpReceiveData (env : TcpEnv) (i : TcpInput) (pcb : TcpPcb) :
    Asserting (TcpInput × TcpPcb) :=
  if i.tcplen > 0 ∧ pcb.state.code < TcpState.closeWait.code then
    if seqBetween pcb.rcvNxt (i.seqno + 1) (i.seqno + UInt32.ofNat i.tcplen - 1) then do
      let i ← tcpTrimLeft pcb.rcvNxt i
      tcpReceiveWindow env i pcb
    else
      tcpReceiveWindow env i (if seqLt i.seqno pcb.rcvNxt then tcpAckNow pcb else pcb)
  else
    .ok (i, if seqBetween i.seqno pcb.rcvNxt (pcb.rcvNxt + UInt32.ofNat pcb.rcvWnd - 1) then pcb
      else tcpAckNow pcb)

def tcpReceive (env : TcpEnv) (i : TcpInput) (pcb : TcpPcb) : Asserting (TcpInput × TcpPcb) := do
  lwipAssert "tcp_receive: wrong state" (pcb.state.code ≥ TcpState.established.code)
  let (i, pcb) ← tcpReceiveAck env i pcb
  tcpReceiveData env i pcb

/-! ## The state machine -/

/-- Result of `tcp_process`. -/
structure TcpProcessed where
  err : Err
  input : TcpInput
  pcb : TcpPcb

/-- A reset: whether it is acceptable depends on its sequence number. -/
def tcpProcessRst (i : TcpInput) (pcb : TcpPcb) : Asserting TcpProcessed :=
  if (pcb.state = .synSent ∧ i.ackno = pcb.sndNxt) ∨
      (pcb.state ≠ .synSent ∧ i.seqno = pcb.rcvNxt) then do
    lwipAssert "tcp_input: pcb->state != CLOSED" (pcb.state ≠ .closed)
    .ok { err := .rst, input := { i with tfReset := true }
          pcb := { pcb with tfAckDelay := false } }
  else if pcb.state ≠ .synSent ∧
      seqBetween i.seqno pcb.rcvNxt (pcb.rcvNxt + UInt32.ofNat pcb.rcvWnd) then
    .ok { err := .ok, input := i, pcb := tcpAckNow pcb }
  else .ok { err := .ok, input := i, pcb := pcb }

def lwipTcpCalcInitialCwnd (mss : Nat) : Nat := u16 (min (4 * mss) (max (2 * mss) 4380))

/-- The segment with the `SYN` leaves its queue. -/
def tcpFreeSyn (pcb : TcpPcb) : Asserting TcpPcb :=
  match pcb.unacked, pcb.unsent with
  | rseg :: next, _ => do
    tcpSegFree rseg
    .ok { pcb with unacked := next }
  | [], rseg :: next => do
    tcpSegFree rseg
    .ok { pcb with unsent := next }
  | [], [] => .error "no segment to free"

/-- The expected `SYN` and `ACK` in state `SYN_SENT`. -/
def tcpProcessSynAck (env : TcpEnv) (i : TcpInput) (pcb : TcpPcb) : Asserting TcpProcessed := do
  lwipAssert "pcb->snd_queuelen > 0" (pcb.sndQueuelen > 0)
  let mss := tcpEffSendMss env pcb.mss
  let pcb ← tcpFreeSyn { pcb with
    rcvNxt := i.seqno + 1
    rcvAnnRightEdge := i.seqno + 1
    lastack := i.ackno
    sndWnd := i.wnd
    sndWndMax := i.wnd
    sndWl1 := i.seqno - 1
    state := .established
    mss := mss
    ssthresh := i.wnd
    cwnd := lwipTcpCalcInitialCwnd mss
    sndQueuelen := pcb.sndQueuelen - 1 }
  let pcb := { pcb with
    rtime := if pcb.unacked = [] then -1 else 0
    nrtx := if pcb.unacked = [] then pcb.nrtx else 0 }
  if env.callback = .abrt then .ok { err := .abrt, input := i, pcb := pcb }
  else .ok { err := .ok, input := i, pcb := tcpAckNow pcb }

/-- State `SYN_SENT`. -/
def tcpProcessSynSent (env : TcpEnv) (i : TcpInput) (pcb : TcpPcb) : Asserting TcpProcessed :=
  if i.flags.ack ∧ i.flags.syn ∧ i.ackno = pcb.lastack + 1 then tcpProcessSynAck env i pcb
  else if i.flags.ack then do
    let pcb ← tcpRexmitRto env { pcb with rtime := 0 }
    .ok { err := .ok, input := i, pcb := pcb }
  else .ok { err := .ok, input := i, pcb := pcb }

/-- State `SYN_RCVD` behind the accept callback. -/
def tcpProcessAccepted (env : TcpEnv) (i : TcpInput) (pcb : TcpPcb) :
    Asserting TcpProcessed := do
  let (i, pcb) ← tcpReceive env i pcb
  let pcb := { pcb with ssthresh := pcb.sndWnd, cwnd := lwipTcpCalcInitialCwnd pcb.mss }
  let pcb := if i.tfGotFin then { tcpAckNow pcb with state := .closeWait } else pcb
  .ok { err := .ok, input := { i with recvAcked := i.recvAcked - 1 }, pcb := pcb }

/-- State `SYN_RCVD`. What the accept callback does with the control block is not part of it;
an error of the callback aborts the connection. -/
def tcpProcessSynRcvd (env : TcpEnv) (i : TcpInput) (pcb : TcpPcb) : Asserting TcpProcessed :=
  if i.flags.ack then
    if seqBetween i.ackno (pcb.lastack + 1) pcb.sndNxt then
      if env.callback ≠ .ok then .ok { err := .abrt, input := i, pcb := pcb }
      else tcpProcessAccepted env i { pcb with state := .established }
    else .ok { err := .ok, input := i, pcb := pcb }
  else if i.flags.syn ∧ i.seqno = pcb.rcvNxt - 1 then
    .ok { err := .ok, input := i, pcb := tcpRexmit pcb }
  else .ok { err := .ok, input := i, pcb := pcb }

/-- `tcp_pcb_purge` and the change to `TIME_WAIT`. -/
def tcpEnterTimeWait (pcb : TcpPcb) : Asserting TcpPcb := do
  let pcb ← tcpPcbPurge pcb
  .ok { pcb with state := .timeWait }

/-- Whether a segment acknowledges everything that was sent, with nothing left to send. -/
def tcpAllAcked (i : TcpInput) (pcb : TcpPcb) : Bool :=
  i.flags.ack && i.ackno = pcb.sndNxt && pcb.unsent = []

/-- The change of state that `tcp_process` makes behind `tcp_receive`. -/
def tcpAfterReceive (state : TcpState) (i : TcpInput) (pcb : TcpPcb) :
    Asserting (TcpInput × TcpPcb) :=
  match state with
  | .closeWait | .established =>
    .ok (i, if i.tfGotFin then { tcpAckNow pcb with state := .closeWait } else pcb)
  | .finWait1 =>
    if i.tfGotFin then
      if tcpAllAcked i pcb then do
        let pcb ← tcpEnterTimeWait (tcpAckNow pcb)
        .ok (i, pcb)
      else .ok (i, { tcpAckNow pcb with state := .closing })
    else .ok (i, if tcpAllAcked i pcb then { pcb with state := .finWait2 } else pcb)
  | .finWait2 =>
    if i.tfGotFin then do
      let pcb ← tcpEnterTimeWait (tcpAckNow pcb)
      .ok (i, pcb)
    else .ok (i, pcb)
  | .closing =>
    if tcpAllAcked i pcb then do
      let pcb ← tcpEnterTimeWait pcb
      .ok (i, pcb)
    else .ok (i, pcb)
  | .lastAck =>
    .ok (if tcpAllAcked i pcb then { i with tfClosed := true } else i, pcb)
  | _ => .ok (i, pcb)

/-- The switch of `tcp_process`. -/
def tcpProcessState (env : TcpEnv) (i : TcpInput) (pcb : TcpPcb) : Asserting TcpProcessed :=
  match pcb.state with
  | .synSent => tcpProcessSynSent env i pcb
  | .synRcvd => tcpProcessSynRcvd env i pcb
  | .closed | .listen | .timeWait => .ok { err := .ok, input := i, pcb := pcb }
  | state => do
    let (i, pcb) ← tcpReceive env i pcb
    let (i, pcb) ← tcpAfterReceive state i pcb
    .ok { err := .ok, input := i, pcb := pcb }

def tcpProcess (env : TcpEnv) (i : TcpInput) (pcb : TcpPcb) : Asserting TcpProcessed :=
  if i.flags.rst then tcpProcessRst i pcb
  else if i.flags.syn ∧ pcb.state ≠ .synSent ∧ pcb.state ≠ .synRcvd then
    .ok { err := .ok, input := i, pcb := tcpAckNow pcb }
  else
    tcpProcessState env i (tcpParseopt i.opts
      { pcb with tmr := if pcb.tfRxclosed then pcb.tmr else env.ticks })

end Lwip
