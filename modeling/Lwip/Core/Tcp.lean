import Lwip.Core.Pbuf

/-!
# TCP control blocks

The types of `include/lwip/tcp.h` and `include/lwip/priv/tcp_priv.h`, and the functions of
`core/tcp.c` that every other part of TCP uses. Sequence numbers are `UInt32` and compare by
their signed difference. A queue of segments is the list of the segments linked through
`next`. The header of a segment is kept beside its pbufs, whose payload pointer stands in
front of the room for the header.
-/

namespace Lwip

/-! ## Options of the port -/

def tcpMss : Nat := 1024

def tcpSndBuf : Nat := 2048

def tcpSndQueuelen : Nat := 8

def tcpSndqueuelenOverflow : Nat := 65532

def tcpWnd : Nat := 8096

def tcpMaxrtx : Nat := 12

def tcpSynmaxrtx : Nat := 4

def mempNumTcpSeg : Nat := 16

def initialMss : Nat := 536

def tcpHlen : Nat := 20

/-- Room in front of the payload of a `PBUF_TRANSPORT` buffer. -/
def pbufTransport : Nat := 56

/-! ## Sequence numbers -/

/-- Conversion of a 32-bit value to `s32_t`. -/
def toS32 (x : UInt32) : Int :=
  if x.toNat < 2147483648 then x.toNat else (x.toNat : Int) - 4294967296

/-- `TCP_SEQ_LT`. -/
def seqLt (a b : UInt32) : Bool := toS32 (a - b) < 0

/-- `TCP_SEQ_LEQ`. -/
def seqLeq (a b : UInt32) : Bool := toS32 (a - b) ≤ 0

/-- `TCP_SEQ_GT`. -/
def seqGt (a b : UInt32) : Bool := toS32 (a - b) > 0

/-- `TCP_SEQ_GEQ`. -/
def seqGeq (a b : UInt32) : Bool := toS32 (a - b) ≥ 0

/-- `TCP_SEQ_BETWEEN`. -/
def seqBetween (a b c : UInt32) : Bool := seqGeq a b && seqLeq a c

/-! ## Segments and control blocks -/

/-- `enum tcp_state`. -/
inductive TcpState where
  | closed
  | listen
  | synSent
  | synRcvd
  | established
  | finWait1
  | finWait2
  | closeWait
  | closing
  | lastAck
  | timeWait
  deriving DecidableEq, Repr

/-- The number of a state, by which states compare. -/
def TcpState.code : TcpState → Nat
  | .closed => 0
  | .listen => 1
  | .synSent => 2
  | .synRcvd => 3
  | .established => 4
  | .finWait1 => 5
  | .finWait2 => 6
  | .closeWait => 7
  | .closing => 8
  | .lastAck => 9
  | .timeWait => 10

/-- Header flags that the modelled functions look at. -/
structure TcpFlags where
  fin : Bool := false
  syn : Bool := false
  rst : Bool := false
  psh : Bool := false
  ack : Bool := false
  deriving DecidableEq, Repr

/-- `struct tcp_hdr` without ports and checksum. -/
structure TcpHdr where
  seqno : UInt32
  ackno : UInt32 := 0
  flags : TcpFlags := {}
  wnd : Nat := 0
  deriving DecidableEq, Repr

/-- `struct tcp_seg` without its link. -/
structure TcpSeg where
  p : Chain
  len : Nat
  /-- `oversize_left`, which is only there if `LWIP_DEBUG` is defined. -/
  oversizeLeft : Nat := 0
  /-- `TF_SEG_OPTS_MSS`: the segment carries an MSS option. -/
  optsMss : Bool := false
  tcphdr : TcpHdr
  deriving DecidableEq, Repr

def lwipTcpOptLength (optsMss : Bool) : Nat := if optsMss then 4 else 0

def tcpTcplen (seg : TcpSeg) : Nat :=
  seg.len + if seg.tcphdr.flags.fin || seg.tcphdr.flags.syn then 1 else 0

/-- `struct tcp_pcb`, as far as the modelled functions use it. -/
structure TcpPcb where
  state : TcpState
  tfAckDelay : Bool := false
  tfAckNow : Bool := false
  tfInfr : Bool := false
  tfRxclosed : Bool := false
  tfFin : Bool := false
  tfNodelay : Bool := false
  tfNaglememerr : Bool := false
  tmr : UInt32 := 0
  rcvNxt : UInt32 := 0
  rcvWnd : Nat
  rcvAnnWnd : Nat
  rcvAnnRightEdge : UInt32 := 0
  rtime : Int := -1
  mss : Nat
  /-- Round trip estimate in 500 ms ticks. -/
  rttest : UInt32 := 0
  rtseq : UInt32 := 0
  /-- Averaged round trip time. -/
  sa : Int := 0
  /-- Its deviation. -/
  sv : Int
  rto : Int
  nrtx : Nat := 0
  dupacks : Nat := 0
  lastack : UInt32 := 0
  cwnd : Nat
  ssthresh : Nat := 0
  sndNxt : UInt32 := 0
  sndWl1 : UInt32 := 0
  /-- Acknowledgement number of the last window update. -/
  sndWl2 : UInt32 := 0
  sndLbb : UInt32 := 0
  sndWnd : Nat := 0
  /-- The largest window the peer has announced. -/
  sndWndMax : Nat := 0
  sndBuf : Nat
  /-- Number of pbufs in the send queues. -/
  sndQueuelen : Nat := 0
  /-- Bytes available at the end of the last segment of `unsent`. -/
  unsentOversize : Nat := 0
  unsent : List TcpSeg := []
  unacked : List TcpSeg := []
  ooseq : List TcpSeg := []
  persistCnt : Nat := 0
  persistBackoff : Nat := 0
  /-- Headers handed to `ip_output_if` with the error it returned, the oldest first. The
  source has no such field. -/
  sent : List (TcpHdr × Err) := []
  deriving DecidableEq, Repr

/-- What one call finds in its environment. Calls of the allocator and of the driver are
numbered within a call. -/
structure TcpEnv where
  /-- Whether an allocation succeeds. -/
  alloc : Nat → Bool
  /-- Whether `ip_route` finds an interface. -/
  route : Bool
  mtu : Nat
  /-- Whether the driver still refers to the pbuf of a segment (`seg->p->ref != 1`). -/
  busy : Nat → Bool
  output : Nat → Err
  /-- Result of a callback. -/
  callback : Err
  /-- `tcp_ticks`. -/
  ticks : UInt32
  /-- Whether the call comes from `tcp_input` (`tcp_input_pcb == pcb`). -/
  inputPcb : Bool
  /-- Whether `LWIP_DEBUG` is defined. -/
  lwipDebug : Bool
  /-- Memory of the application. -/
  mem : List UInt8

/-- The control block that `tcp_alloc` returns. -/
def tcpAlloc (ticks : UInt32) : TcpPcb :=
  { state := .closed, tmr := ticks, rcvWnd := tcpWnd, rcvAnnWnd := tcpWnd, mss := initialMss
    sv := 6, rto := 6, cwnd := 1, sndBuf := tcpSndBuf }

/-! ## Functions of `core/tcp.c` -/

/-- Whether `memp_malloc(MEMP_TCP_SEG)` gives a segment to a connection that uses `used` of
the segments of the pool. -/
def tcpSegMalloc (env : TcpEnv) (n used : Nat) : Bool := env.alloc n && used < mempNumTcpSeg

/-- Segments of the pool on the queues of a connection. -/
def tcpSegsUsed (pcb : TcpPcb) : Nat :=
  pcb.unsent.length + pcb.unacked.length + pcb.ooseq.length

def tcpSegFree (seg : TcpSeg) : Asserting Unit :=
  if seg.p = [] then .ok ()
  else do
    let _ ← pbufFree seg.p
    .ok ()

def tcpSegsFree : List TcpSeg → Asserting Unit
  | [] => .ok ()
  | seg :: next => do
    tcpSegFree seg
    tcpSegsFree next

/-- `tcp_seg_copy`. The reference that it adds to the pbuf is the one that `tcp_input` gives up
at its end, so the copy takes over the reference of the incoming segment. -/
def tcpSegCopy (env : TcpEnv) (n used : Nat) (seg : TcpSeg) : Option TcpSeg :=
  if tcpSegMalloc env n used then some seg else none

def tcpPcbPurge (pcb : TcpPcb) : Asserting TcpPcb :=
  if pcb.state ≠ .closed ∧ pcb.state ≠ .timeWait ∧ pcb.state ≠ .listen then do
    tcpSegsFree pcb.ooseq
    tcpSegsFree pcb.unsent
    tcpSegsFree pcb.unacked
    .ok { pcb with ooseq := [], rtime := -1, unsent := [], unacked := [], unsentOversize := 0 }
  else .ok pcb

/-- `tcp_update_rcv_ann_wnd`; the first result is the return value. -/
def tcpUpdateRcvAnnWnd (pcb : TcpPcb) : Asserting (Nat × TcpPcb) :=
  let newRightEdge := pcb.rcvNxt + UInt32.ofNat pcb.rcvWnd
  if seqGeq newRightEdge (pcb.rcvAnnRightEdge + UInt32.ofNat (min (tcpWnd / 2) pcb.mss)) then
    .ok ((newRightEdge - pcb.rcvAnnRightEdge).toNat, { pcb with rcvAnnWnd := pcb.rcvWnd })
  else if seqGt pcb.rcvNxt pcb.rcvAnnRightEdge then
    .ok (0, { pcb with rcvAnnWnd := 0 })
  else do
    let newRcvAnnWnd := (pcb.rcvAnnRightEdge - pcb.rcvNxt).toNat
    lwipAssert "new_rcv_ann_wnd <= 0xffff" (newRcvAnnWnd ≤ 65535)
    .ok (0, { pcb with rcvAnnWnd := u16 newRcvAnnWnd })

def tcpEffSendMss (env : TcpEnv) (sendmss : Nat) : Nat :=
  if !env.route then sendmss
  else if env.mtu ≠ 0 then min sendmss (toU16 (env.mtu - 40))
  else sendmss

def tcpAckNow (pcb : TcpPcb) : TcpPcb := { pcb with tfAckNow := true }

def tcpAck (pcb : TcpPcb) : TcpPcb :=
  if pcb.tfAckDelay then { pcb with tfAckDelay := false, tfAckNow := true }
  else { pcb with tfAckDelay := true }

end Lwip
