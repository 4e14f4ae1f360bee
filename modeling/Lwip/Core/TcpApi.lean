import Lwip.Core.TcpIn

/-!
# Opening, closing and timing of connections

The functions of `core/tcp.c` and `core/tcp_in.c` that open a connection, close it, take
received data off the window, and run its timers; and the events of one connection with what
each of them does to the control block. Events happen in any order: what a callback does
inside `tcp_input` is a sequence of events between `segment` and `output`.
-/

namespace Lwip

/-- `tcp_connect` behind the choice of addresses and ports. -/
def tcpConnect (env : TcpEnv) (iss : UInt32) (pcb : TcpPcb) : Asserting (Err × TcpPcb) :=
  if pcb.state ≠ .closed then .ok (.isconn, pcb)
  else do
    let (ret, pcb) ← tcpEnqueueFlags env { pcb with
      rcvNxt := 0
      sndNxt := iss
      lastack := iss - 1
      sndWl2 := iss - 1
      sndLbb := iss - 1
      rcvWnd := tcpWnd
      rcvAnnWnd := tcpWnd
      rcvAnnRightEdge := 0
      sndWnd := tcpWnd
      mss := tcpEffSendMss env initialMss
      cwnd := 1
      ssthresh := tcpWnd } { syn := true }
    if ret = .ok then do
      let (_, pcb) ← tcpOutput env { pcb with state := .synSent }
      .ok (ret, pcb)
    else .ok (ret, pcb)

/-- The control block that `tcp_listen_input` sets up for an incoming `SYN`, with the `SYN` of
its own queued. An error abandons it. -/
def tcpListenInput (env : TcpEnv) (iss : UInt32) (i : TcpInput) : Asserting (Err × TcpPcb) := do
  let npcb := tcpParseopt i.opts { tcpAlloc env.ticks with
    state := .synRcvd
    rcvNxt := i.seqno + 1
    rcvAnnRightEdge := i.seqno + 1
    sndWl2 := iss
    sndNxt := iss
    lastack := iss
    sndLbb := iss
    sndWl1 := i.seqno - 1 }
  let (rc, npcb) ← tcpEnqueueFlags env { npcb with
    sndWnd := i.wnd, sndWndMax := i.wnd, ssthresh := i.wnd
    mss := tcpEffSendMss env npcb.mss } { syn := true, ack := true }
  if rc ≠ .ok then .ok (rc, npcb)
  else do
    let (_, npcb) ← tcpOutput env npcb
    .ok (rc, npcb)

def tcpWndUpdateThreshold : Nat := 2024

/-- The window after `tcp_recved`. -/
def tcpReopenWnd (len : Nat) (pcb : TcpPcb) : Asserting TcpPcb :=
  let rcvWnd := u16 (pcb.rcvWnd + len)
  if rcvWnd > tcpWnd then .ok { pcb with rcvWnd := tcpWnd }
  else if rcvWnd = 0 then
    if pcb.state = .closeWait ∨ pcb.state = .lastAck then .ok { pcb with rcvWnd := tcpWnd }
    else .error "tcp_recved: len wrapped rcv_wnd\n"
  else .ok { pcb with rcvWnd := rcvWnd }

def tcpRecved (env : TcpEnv) (len : Nat) (pcb : TcpPcb) : Asserting TcpPcb := do
  lwipAssert "don't call tcp_recved for listen-pcbs" (pcb.state ≠ .listen)
  let pcb ← tcpReopenWnd len pcb
  let (wndInflation, pcb) ← tcpUpdateRcvAnnWnd pcb
  if wndInflation ≥ tcpWndUpdateThreshold then do
    let (_, pcb) ← tcpOutput env (tcpAckNow pcb)
    .ok pcb
  else .ok pcb

/-- The window is corrected for the `FIN`, which the application does not take off it. -/
def tcpFinWindow (pcb : TcpPcb) : TcpPcb :=
  { pcb with rcvWnd := if pcb.rcvWnd ≠ tcpWnd then pcb.rcvWnd + 1 else pcb.rcvWnd }

/-- `tcp_close_shutdown` where it sends a `FIN`. -/
def tcpCloseShutdown (env : TcpEnv) (pcb : TcpPcb) : Asserting (Err × TcpPcb) :=
  match pcb.state with
  | .synRcvd | .established | .closeWait => do
    let (err, pcb') ← tcpSendFin env pcb
    if err = .ok then do
      let (_, pcb') ← tcpOutput env
        { pcb' with state := if pcb.state = .closeWait then .lastAck else .finWait1 }
      .ok (err, pcb')
    else .ok (err, pcb')
  | _ => .ok (.ok, pcb)

def tcpBackoff : List Nat := [1, 2, 3, 4, 5, 6, 7, 7, 7, 7, 7, 7, 7]

def tcpPersistBackoff : List Nat := [3, 6, 12, 24, 48, 96, 120]

/-- One tick of the persist timer. -/
def tcpPersistTick (backoffCnt : Nat) (pcb : TcpPcb) : TcpPcb :=
  { pcb with
    persistCnt := if pcb.persistCnt < backoffCnt then pcb.persistCnt + 1 else pcb.persistCnt }

/-- A probe of the window; the next one comes later if it was sent. -/
def tcpPersistProbe (env : TcpEnv) (pcb : TcpPcb) : TcpPcb :=
  match tcpZeroWindowProbe env pcb with
  | (err, pcb) =>
    if err = .ok then
      { pcb with
        persistCnt := 0
        persistBackoff := if pcb.persistBackoff < 7 then pcb.persistBackoff + 1
          else pcb.persistBackoff }
    else pcb

/-- The persist timer in `tcp_slowtmr`. -/
def tcpSlowtmrPersist (env : TcpEnv) (pcb : TcpPcb) : TcpPcb :=
  let backoffCnt := tcpPersistBackoff.getD (pcb.persistBackoff - 1) 0
  let pcb := tcpPersistTick backoffCnt pcb
  if pcb.persistCnt ≥ backoffCnt then tcpPersistProbe env pcb else pcb

/-- One tick of the retransmission timer if it runs. -/
def tcpRtimeTick (pcb : TcpPcb) : TcpPcb :=
  { pcb with rtime := if pcb.rtime ≥ 0 then toS16 (pcb.rtime + 1) else pcb.rtime }

/-- What a retransmission time-out does to the timer and to the congestion window. -/
def tcpRtoBackoff (pcb : TcpPcb) : TcpPcb :=
  let effWnd := min pcb.cwnd pcb.sndWnd
  { pcb with
    rto := if pcb.state ≠ .synSent then
        toS16 ((pcb.sa / 8 + pcb.sv) * 2 ^ (tcpBackoff.getD pcb.nrtx 0))
      else pcb.rto
    rtime := 0
    ssthresh := if effWnd / 2 < u16 (2 * pcb.mss) then u16 (2 * pcb.mss) else effWnd / 2
    cwnd := pcb.mss }

/-- The retransmission timer in `tcp_slowtmr`. -/
def tcpSlowtmrRto (env : TcpEnv) (pcb : TcpPcb) : Asserting TcpPcb :=
  let pcb := tcpRtimeTick pcb
  if pcb.unacked ≠ [] ∧ pcb.rtime ≥ pcb.rto then tcpRexmitRto env (tcpRtoBackoff pcb)
  else .ok pcb

def tcpOoseqTimeout : Nat := 6

/-- Data out of sequence is dropped after a time without activity. -/
def tcpSlowtmrOoseq (env : TcpEnv) (pcb : TcpPcb) : Asserting TcpPcb :=
  if pcb.ooseq ≠ [] ∧
      (env.ticks - pcb.tmr).toNat ≥ toU32 (pcb.rto * tcpOoseqTimeout) then do
    tcpSegsFree pcb.ooseq
    .ok { pcb with ooseq := [] }
  else .ok pcb

/-- The part of `tcp_slowtmr` for one control block, up to keepalive and the removal of
connections that have been idle for too long; `none` stands for its removal after too many
retransmissions. -/
def tcpSlowtmr (env : TcpEnv) (pcb : TcpPcb) : Asserting (Option TcpPcb) := do
  if (pcb.state = .synSent ∧ pcb.nrtx = tcpSynmaxrtx) ∨ pcb.nrtx = tcpMaxrtx then .ok none
  else if pcb.persistBackoff > 0 then do
    let pcb ← tcpSlowtmrOoseq env (tcpSlowtmrPersist env pcb)
    .ok (some pcb)
  else do
    let pcb ← tcpSlowtmrRto env pcb
    let pcb ← tcpSlowtmrOoseq env pcb
    .ok (some pcb)

/-- The part of `tcp_fasttmr` for one control block: a delayed `ACK` is sent. -/
def tcpFasttmr (env : TcpEnv) (pcb : TcpPcb) : Asserting TcpPcb :=
  if pcb.tfAckDelay then do
    let (_, pcb) ← tcpOutput env (tcpAckNow pcb)
    .ok { pcb with tfAckDelay := false, tfAckNow := false }
  else .ok pcb

/-! ## Events of a connection -/

/-- What can happen to a connection. -/
inductive TcpEvent where
  | connect (env : TcpEnv) (iss : UInt32)
  | write (env : TcpEnv) (args : WriteArgs)
  | enqueueFlags (env : TcpEnv) (flags : TcpFlags)
  | sendFin (env : TcpEnv)
  /-- `tcp_close_shutdown` -/
  | close (env : TcpEnv)
  | output (env : TcpEnv)
  /-- `tcp_process` for an incoming segment. -/
  | segment (env : TcpEnv) (p : Chain) (tcphdr : TcpHdr) (opts : List UInt8)
  /-- `tcp_process` in state `SYN_RCVD` up to the accept callback. -/
  | accept
  /-- `tcp_process` in state `SYN_RCVD` behind the accept callback. -/
  | accepted (env : TcpEnv) (p : Chain) (tcphdr : TcpHdr)
  | recved (env : TcpEnv) (len : Nat)
  /-- The correction of the window for a `FIN`. -/
  | finWindow
  | rexmit
  | rexmitFast
  | rexmitRto (env : TcpEnv)
  | fasttmr (env : TcpEnv)
  | slowtmr (env : TcpEnv)
  /-- `tcp_keepalive`, which `tcp_slowtmr` calls for a connection that is idle. -/
  | keepalive (env : TcpEnv)

/-- Whether a control block is on the list `tcp_active_pcbs`. -/
def TcpPcb.active (pcb : TcpPcb) : Bool :=
  pcb.state ≠ .closed && pcb.state ≠ .listen && pcb.state ≠ .timeWait

/-- The control block after an event, if there still is one. -/
def tcpEvent (pcb : TcpPcb) : TcpEvent → Asserting (Option TcpPcb)
  | .connect env iss => do
    let (_, pcb) ← tcpConnect env iss pcb
    .ok (some pcb)
  | .write env args => do
    let (_, pcb) ← tcpWrite env pcb args
    .ok (some pcb)
  | .enqueueFlags env flags => do
    let (_, pcb) ← tcpEnqueueFlags env pcb flags
    .ok (some pcb)
  | .sendFin env => do
    let (_, pcb) ← tcpSendFin env pcb
    .ok (some pcb)
  | .close env => do
    let (_, pcb) ← tcpCloseShutdown env pcb
    .ok (some pcb)
  | .output env => do
    let (_, pcb) ← tcpOutput env pcb
    .ok (some pcb)
  | .segment env p tcphdr opts => do
    let processed ← tcpProcess env (tcpInputOf p tcphdr opts) pcb
    .ok (if processed.err = .ok ∧ !processed.input.tfClosed then some processed.pcb else none)
  | .accept =>
    .ok (some (if pcb.state = .synRcvd then { pcb with state := .established } else pcb))
  | .accepted env p tcphdr => do
    let processed ← tcpProcessAccepted env (tcpInputOf p tcphdr []) pcb
    .ok (some processed.pcb)
  | .recved env len => do
    let pcb ← tcpRecved env len pcb
    .ok (some pcb)
  | .finWindow => .ok (some (tcpFinWindow pcb))
  | .rexmit => .ok (some (tcpRexmit pcb))
  | .rexmitFast => .ok (some (tcpRexmitFast pcb))
  | .rexmitRto env => do
    let pcb ← tcpRexmitRto env pcb
    .ok (some pcb)
  | .fasttmr env => do
    let pcb ← tcpFasttmr env pcb
    .ok (some pcb)
  | .slowtmr env => tcpSlowtmr env pcb
  | .keepalive env => .ok (some (tcpKeepalive env pcb).2)

/-- Whether an event happens in a state: the source retransmits single segments only behind the
handshake, returns from the accept callback with the connection established or closed by the
callback, and keeps open connections alive only. -/
def TcpEvent.enabled (pcb : TcpPcb) : TcpEvent → Prop
  | .connect _ _ => True
  | .rexmit | .rexmitFast => pcb.active ∧ pcb.state ≠ .synSent
  | .accepted _ _ _ => pcb.state = .established ∨ pcb.state = .finWait1
  | .keepalive _ => pcb.active ∧ (pcb.state = .established ∨ pcb.state = .closeWait)
  | _ => pcb.active

instance (pcb : TcpPcb) : (event : TcpEvent) → Decidable (event.enabled pcb)
  | .connect _ _ => .isTrue trivial
  | .rexmit | .rexmitFast => inferInstanceAs (Decidable (pcb.active ∧ pcb.state ≠ .synSent))
  | .accepted _ _ _ =>
    inferInstanceAs (Decidable (pcb.state = .established ∨ pcb.state = .finWait1))
  | .keepalive _ => inferInstanceAs
    (Decidable (pcb.active ∧ (pcb.state = .established ∨ pcb.state = .closeWait)))
  | .write _ _ | .enqueueFlags _ _ | .sendFin _ | .close _ | .output _ | .segment _ _ _ _ | .accept
  | .recved _ _ | .finWindow | .rexmitRto _ | .fasttmr _ | .slowtmr _ =>
    inferInstanceAs (Decidable (pcb.active = true))

/-- One event of a connection. -/
def TcpStep (pcb : TcpPcb) (event : TcpEvent) (pcb' : TcpPcb) : Prop :=
  event.enabled pcb ∧ tcpEvent pcb event = .ok (some pcb')

end Lwip
