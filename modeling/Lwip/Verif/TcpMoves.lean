import Lwip.Base.Insertion
import Lwip.Verif.TcpReceive
import Lwip.Verif.TcpWrite

/-!
# The moves of a connection

Everything that the functions of TCP do to the send queues and to the announced window, as a
small set of moves. A move changes the part of a control block that the accounting and the order
of the queues and the announced window depend on; of a segment it keeps the sequence number, the
length, the number of pbufs and the flags that count. Every function is a sequence of moves, so a
property that every move keeps holds in every state of a connection.
-/

namespace Lwip

open Insertion Outcome Transition List

variable {state : TcpState} {env : TcpEnv} {pcb : TcpPcb}

/-! ## Segments and control blocks, as far as moves change them -/

/-- A segment on one of the send queues. -/
structure SegKey where
  seqno : UInt32
  len : Nat
  clen : Nat
  fin : Bool
  syn : Bool
  left : Nat
  deriving DecidableEq, Repr

/-- What moves see of a segment. -/
def segKey (seg : TcpSeg) : SegKey :=
  { seqno := seg.tcphdr.seqno, len := seg.len, clen := seg.p.length, fin := seg.tcphdr.flags.fin
    syn := seg.tcphdr.flags.syn, left := seg.oversizeLeft }

/-- `TCP_TCPLEN`. -/
def SegKey.tcplen (k : SegKey) : Nat := k.len + if k.fin || k.syn then 1 else 0

/-- The sequence number behind a segment. -/
def SegKey.ends (k : SegKey) : UInt32 := k.seqno + UInt32.ofNat k.tcplen

/-- The part of a control block that moves change. -/
structure TcpCore where
  state : TcpState
  rcvNxt : UInt32
  rcvWnd : Nat
  rcvAnnWnd : Nat
  rcvAnnRightEdge : UInt32
  lastack : UInt32
  sndNxt : UInt32
  sndLbb : UInt32
  sndWnd : Nat
  sndBuf : Nat
  sndQueuelen : Nat
  unsentOversize : Nat
  unsent : List SegKey
  unacked : List SegKey
  sent : List (TcpHdr × Err)

/-- What moves see of a control block. -/
def core (pcb : TcpPcb) : TcpCore :=
  { state := pcb.state, rcvNxt := pcb.rcvNxt, rcvWnd := pcb.rcvWnd, rcvAnnWnd := pcb.rcvAnnWnd
    rcvAnnRightEdge := pcb.rcvAnnRightEdge, lastack := pcb.lastack, sndNxt := pcb.sndNxt
    sndLbb := pcb.sndLbb, sndWnd := pcb.sndWnd, sndBuf := pcb.sndBuf
    sndQueuelen := pcb.sndQueuelen, unsentOversize := pcb.unsentOversize
    unsent := pcb.unsent.map segKey, unacked := pcb.unacked.map segKey, sent := pcb.sent }

/-! ## Queues of segments -/

/-- The comparison of sequence numbers. -/
abbrev TcpSeg.Below (seg seg' : TcpSeg) : Prop :=
  seqLt seg.tcphdr.seqno seg'.tcphdr.seqno = true

/-- The comparison of sequence numbers. -/
abbrev SegKey.Below (k k' : SegKey) : Prop := seqLt k.seqno k'.seqno = true

/-- Length of the data on a queue. -/
def lens (keys : List SegKey) : Nat := (keys.map (·.len)).sum

/-- Number of pbufs on a queue. -/
def clens (keys : List SegKey) : Nat := (keys.map (·.clen)).sum

/-- `tcpInsertSorted` is an insertion by sequence numbers. -/
theorem tcpInsertSorted_eq (seg : TcpSeg) (queue : List TcpSeg) :
    tcpInsertSorted seg queue = insertSorted TcpSeg.Below seg queue := by
  induction queue with
  | nil => rfl
  | cons cur next ih => rw [tcpInsertSorted, insertSorted_cons, ih]

/-- Insertion of a segment is insertion of its key. -/
theorem map_tcpInsertSorted (seg : TcpSeg) (queue : List TcpSeg) :
    (tcpInsertSorted seg queue).map segKey =
      insertSorted SegKey.Below (segKey seg) (queue.map segKey) := by
  rw [tcpInsertSorted_eq]
  exact map_insertSorted SegKey.Below segKey fun _ _ => Iff.rfl

/-- Insertion of a transmitted segment is insertion of its key. -/
theorem map_tcpUnackedInsert (seg : TcpSeg) (unacked : List TcpSeg) :
    (tcpUnackedInsert seg unacked).map segKey =
      insertBehind SegKey.Below (segKey seg) (unacked.map segKey) := by
  have same : tcpUnackedInsert seg unacked = insertBehind TcpSeg.Below seg unacked := by
    unfold tcpUnackedInsert insertBehind
    rw [tcpInsertSorted_eq]
    cases unacked.getLast? <;> rfl
  rw [same]
  exact map_insertBehind SegKey.Below segKey (fun _ _ => Iff.rfl) fun _ _ => Iff.rfl

/-- The same segments up to `oversize_left`. -/
def SameKeys (keys keys' : List SegKey) : Prop :=
  keys'.map (fun k => { k with left := 0 }) = keys.map (fun k => { k with left := 0 })

/-- Segments of new data, one behind the other. -/
def FreshFrom (start : UInt32) : List SegKey → Prop
  | [] => True
  | k :: more => k.seqno = start ∧ k.fin = false ∧ k.syn = false ∧ 0 < k.len ∧ 0 < k.clen ∧
      FreshFrom (start + UInt32.ofNat k.len) more

/-- `unsent'` is what `tcp_write` makes of the queue `unsent`: its last segment has `extra` more
bytes and `pbufs` more pbufs. -/
def Extended (unsent : List SegKey) (extra pbufs : Nat) (unsent' : List SegKey) : Prop :=
  (unsent = [] ∧ extra = 0 ∧ pbufs = 0 ∧ unsent' = []) ∨
    ∃ init last left, unsent = init ++ [last] ∧ unsent' = init ++ [{ last with
      len := last.len + extra, clen := last.clen + pbufs, left := left }]

/-- The window that `tcp_update_rcv_ann_wnd` chooses. -/
def WndUpdated (rcvNxt : UInt32) (rcvWnd : Nat) (edge : UInt32) (wnd : Nat) : Prop :=
  (∃ m, m ≤ tcpWnd / 2 ∧ seqGeq (rcvNxt + UInt32.ofNat rcvWnd) (edge + UInt32.ofNat m) ∧
      wnd = rcvWnd) ∨
    (seqGt rcvNxt edge ∧ wnd = 0) ∨
    (¬seqGt rcvNxt edge ∧ (edge - rcvNxt).toNat ≤ 65535 ∧ wnd = (edge - rcvNxt).toNat)

/-- `snd_nxt` after a transmission that ends at `ends`. -/
def raised (sndNxt ends : UInt32) : UInt32 := if seqLt sndNxt ends then ends else sndNxt

/-! ## Moves -/

/-- The moves of a connection. -/
inductive TcpAct where
  /-- The state changes behind the handshake. -/
  | enter
  /-- A header with the window is built, and possibly handed over. -/
  | announce
  /-- Data is taken in, which closes the receive window. -/
  | advance
  /-- The receive window opens. -/
  | window
  /-- The peer announces a window. -/
  | peerWindow (wnd : Nat)
  /-- `oversize_left` of an unsent segment changes. -/
  | touch
  /-- `tcp_output` resets `unsent_oversize`. -/
  | settle
  /-- `tcp_output` sends a segment, or finds that the driver is busy with it. -/
  | send
  /-- `tcp_zero_window_probe` takes up a sequence number. -/
  | probe
  /-- `tcp_rexmit` puts the first segment sent back on `unsent`. -/
  | requeue
  /-- `tcp_rexmit_rto` puts all segments sent back on `unsent`. -/
  | splice
  /-- `tcp_receive` removes the segments that are acknowledged. -/
  | ack (ackno : UInt32)
  /-- `tcp_write` queues data. -/
  | write
  /-- `tcp_enqueue_flags` queues a segment without data. -/
  | flags
  /-- `tcp_send_fin` on a segment with data. -/
  | fin
  /-- The `SYN` is acknowledged by a segment with a window. -/
  | synAck (wnd : Nat)
  /-- `tcp_connect` sets up the control block and queues the `SYN`. -/
  | connect
  /-- `tcp_pcb_purge` frees the queues. -/
  | purge
  deriving DecidableEq

/-- The moves that are always admitted. -/
def TcpAct.plain : TcpAct → Bool
  | .splice | .ack _ | .write | .purge | .advance | .window | .flags | .peerWindow _ | .synAck _ =>
    false
  | _ => true

/-- Whether an acknowledgement is one of new data. -/
def freshAck (c : TcpCore) (ackno : UInt32) : Bool :=
  !seqLeq ackno c.lastack && seqBetween ackno (c.lastack + 1) c.sndNxt

/-- Whether a segment on `unacked` is acknowledged. -/
def ackedBy (ackno : UInt32) (k : SegKey) : Bool := seqLeq k.ends ackno

/-- Whether a segment on `unsent` is acknowledged. -/
def unsentAckedBy (ackno sndNxt : UInt32) (k : SegKey) : Bool := seqBetween ackno k.ends sndNxt

/-- The segments that an acknowledgement removes. -/
def removedBy (c : TcpCore) (ackno : UInt32) : List SegKey :=
  (if freshAck c ackno then c.unacked.takeWhile (ackedBy ackno) else []) ++
    c.unsent.takeWhile (unsentAckedBy ackno c.sndNxt)

/-- The number of pbufs of segments, as it is subtracted. -/
def pbufClens (keys : List SegKey) : Nat := (keys.map fun k => u16 k.clen).sum

/-- A control block behind an acknowledgement. -/
def ackCore (c : TcpCore) (ackno : UInt32) : TcpCore :=
  { c with
    lastack := if freshAck c ackno then ackno else c.lastack
    unacked := if freshAck c ackno then c.unacked.dropWhile (ackedBy ackno) else c.unacked
    unsent := c.unsent.dropWhile (unsentAckedBy ackno c.sndNxt)
    unsentOversize :=
      if c.unsent ≠ [] ∧ c.unsent.dropWhile (unsentAckedBy ackno c.sndNxt) = [] then 0
      else c.unsentOversize
    sndQueuelen := c.sndQueuelen - pbufClens (removedBy c ackno)
    sndBuf := u16 (c.sndBuf + lens (removedBy c ackno)) }

/-- A control block behind the transmission of the first unsent segment. -/
def sendCore (c : TcpCore) (k : SegKey) (next : List SegKey) : TcpCore :=
  { c with
    unsent := next
    unsentOversize := if next = [] then 0 else c.unsentOversize
    sndNxt := raised c.sndNxt k.ends
    unacked := if 0 < k.tcplen then insertBehind SegKey.Below { k with left := 0 } c.unacked
      else c.unacked }

/-- The key of a segment without data. -/
def flagsKey (seqno : UInt32) (flags : TcpFlags) : SegKey :=
  { seqno := seqno, len := 0, clen := 1, fin := flags.fin, syn := flags.syn, left := 0 }

/-- A control block with flags queued. -/
def flagsCore (c : TcpCore) (flags : TcpFlags) : TcpCore :=
  { c with
    unsent := c.unsent ++ [flagsKey c.sndLbb flags]
    unsentOversize := 0
    sndLbb := c.sndLbb + 1
    sndQueuelen := u16 (c.sndQueuelen + 1) }

/-- A control block that `tcp_connect` has set up. -/
def connectCore (c : TcpCore) (iss : UInt32) : TcpCore :=
  { c with
    rcvNxt := 0, sndNxt := iss, lastack := iss - 1, sndLbb := iss - 1, rcvWnd := tcpWnd
    rcvAnnWnd := tcpWnd, rcvAnnRightEdge := 0, sndWnd := tcpWnd }

/-- The states in which `tcp_write` queues data. -/
def TcpState.Writable (state : TcpState) : Prop :=
  state = .established ∨ state = .closeWait ∨ state = .synSent ∨ state = .synRcvd

/-- The states behind `SYN_SENT` in which the queues are kept. -/
def TcpState.Open (state : TcpState) : Prop :=
  TcpState.synRcvd.code ≤ state.code ∧ state ≠ .timeWait

/-- Whether `tcp_write` queues data is decidable. -/
instance (state : TcpState) : Decidable state.Writable := by
  unfold TcpState.Writable
  infer_instance

theorem tcpWnd_small : tcpWnd ≤ 65535 := by
  decide

theorem TcpState.Open.not_synSent (late : state.Open) : state ≠ .synSent := by
  intro given
  rw [given] at late
  exact absurd late.1 (by decide)

theorem TcpState.Open.not_closed (late : state.Open) : state ≠ .closed := by
  intro given
  rw [given] at late
  exact absurd late.1 (by decide)

theorem open_of_receiving (receiving : state.Receiving = true) : state.Open := by
  cases state with
  | closed | listen | synSent | synRcvd | timeWait => cases receiving
  | _ => exact ⟨by decide, by decide⟩

theorem open_established : TcpState.established.Open := ⟨by decide, by decide⟩

/-- There is room behind the last unsent segment, or data in it. -/
def TcpCore.Reusable (c : TcpCore) : Prop :=
  0 < c.unsentOversize ∨ ∃ last, c.unsent.getLast? = some last ∧ 0 < last.len

/-- What `tcp_write` queues: `extra` bytes and `pbufs` pbufs on the last segment of `unsent`, which
make it `tail`, and the segments of `queue`. -/
structure DataQueued (c : TcpCore) (len extra pbufs oversize : Nat) (tail queue : List SegKey) :
    Prop where
  writable : c.state.Writable
  room : len ≤ c.sndBuf
  short : c.sndQueuelen < tcpSndQueuelen ∨ len = 0
  extended : Extended c.unsent extra pbufs tail
  few : pbufs ≤ 1
  reused : 0 < extra → c.Reusable
  fresh : FreshFrom (c.sndLbb + UInt32.ofNat extra) queue
  all : extra + lens queue = len
  filled : 0 < pbufs → 0 < extra
  queuelen : c.sndQueuelen + pbufs + clens queue ≤ tcpSndQueuelen ∨ queue = []
  count : queue = [] ∨ c.unacked.length + c.unsent.length + queue.length ≤ mempNumTcpSeg
  oversized : 0 < oversize → queue = [] → c.Reusable

/-- A control block with data queued. -/
def writeCore (c : TcpCore) (len pbufs oversize : Nat) (tail queue : List SegKey) : TcpCore :=
  { c with
    unsent := tail ++ queue
    unsentOversize := oversize
    sndLbb := c.sndLbb + UInt32.ofNat len
    sndBuf := c.sndBuf - len
    sndQueuelen := c.sndQueuelen + pbufs + clens queue }

/-- One move of a connection. -/
inductive TcpMove (c : TcpCore) : TcpAct → TcpCore → Prop
  | enter (state : TcpState) (before : c.state.Open) (behind : state.Open) :
      TcpMove c .enter { c with state := state }
  | announce (entries : List (TcpHdr × Err))
      (announced : ∀ entry ∈ entries, entry.1.ackno = c.rcvNxt ∧ entry.1.wnd = c.rcvAnnWnd) :
      TcpMove c .announce { c with
        rcvAnnRightEdge := c.rcvNxt + UInt32.ofNat c.rcvAnnWnd, sent := c.sent ++ entries }
  | advance (n wnd : Nat) (enough : n ≤ c.rcvWnd)
      (updated : WndUpdated (c.rcvNxt + UInt32.ofNat n) (c.rcvWnd - n) c.rcvAnnRightEdge wnd) :
      TcpMove c .advance { c with
        rcvNxt := c.rcvNxt + UInt32.ofNat n, rcvWnd := c.rcvWnd - n, rcvAnnWnd := wnd }
  | reopen (rcvWnd wnd : Nat) (bounded : rcvWnd ≤ tcpWnd)
      (updated : WndUpdated c.rcvNxt rcvWnd c.rcvAnnRightEdge wnd) :
      TcpMove c .window { c with rcvWnd := rcvWnd, rcvAnnWnd := wnd }
  | finWindow : TcpMove c .window
      { c with rcvWnd := if c.rcvWnd ≠ tcpWnd then c.rcvWnd + 1 else c.rcvWnd }
  | peerWindow (wnd : Nat) : TcpMove c (.peerWindow wnd) { c with sndWnd := wnd }
  | touch (unsent : List SegKey) (same : SameKeys c.unsent unsent) :
      TcpMove c .touch { c with unsent := unsent }
  | settle (empty : c.unsent = []) : TcpMove c .settle { c with unsentOversize := 0 }
  | send (k : SegKey) (next : List SegKey) (first : c.unsent = k :: next)
      (inWindow : (k.seqno - c.lastack + UInt32.ofNat k.len).toNat ≤ c.sndWnd) :
      TcpMove c .send (sendCore c k next)
  | probe (k : SegKey) (first : (c.unacked ++ c.unsent).head? = some k) :
      TcpMove c .probe { c with sndNxt := raised c.sndNxt (k.seqno + 1) }
  | requeue (k : SegKey) (next : List SegKey) (first : c.unacked = k :: next)
      (state : c.state ≠ .synSent) :
      TcpMove c .requeue { c with
        unacked := next
        unsent := insertSorted SegKey.Below k c.unsent
        unsentOversize := if c.unsent.all fun cur => seqLt cur.seqno k.seqno then 0
          else c.unsentOversize }
  | splice (oversize : Nat) (last : SegKey) (some' : c.unacked.getLast? = some last)
      (tail : oversize = c.unsentOversize ∨ (c.unsent = [] ∧ oversize = last.left)) :
      TcpMove c .splice { c with
        unsent := c.unacked ++ c.unsent, unacked := [], unsentOversize := oversize }
  | ack (ackno : UInt32) (enough : pbufClens (removedBy c ackno) ≤ c.sndQueuelen)
      (opened : c.state.Open) :
      TcpMove c (.ack ackno) (ackCore c ackno)
  | write (len extra pbufs oversize : Nat) (tail queue : List SegKey)
      (queued : DataQueued c len extra pbufs oversize tail queue) :
      TcpMove c .write (writeCore c len pbufs oversize tail queue)
  | flags (flags : TcpFlags) (either : flags.fin || flags.syn)
      (short : c.sndQueuelen < tcpSndQueuelen ∨ flags.fin)
      (count : c.unacked.length + c.unsent.length < mempNumTcpSeg)
      (opened : c.state ≠ .closed ∧ c.state ≠ .timeWait) :
      TcpMove c .flags (flagsCore c flags)
  /-- A `FIN` is added to the last segment. -/
  | fin (init : List SegKey) (last : SegKey) (unsent : c.unsent = init ++ [last])
      (plain : last.fin = false ∧ last.syn = false) :
      TcpMove c .fin { c with unsent := init ++ [{ last with fin := true }] }
  | synAck (rcvNxt : UInt32) (wnd : Nat) (unacked unsent : List SegKey)
      (opening : c.state = .synSent) (some' : 0 < c.sndQueuelen)
      (removed : (∃ syn, c.unacked = syn :: unacked ∧ unsent = c.unsent) ∨
        (c.unacked = [] ∧ unacked = [] ∧ ∃ syn, c.unsent = syn :: unsent)) :
      TcpMove c (.synAck wnd) { c with
        state := .established, rcvNxt := rcvNxt, rcvAnnRightEdge := rcvNxt
        lastack := c.lastack + 1, sndWnd := wnd, sndQueuelen := c.sndQueuelen - 1
        unacked := unacked, unsent := unsent }
  | connectFails (iss : UInt32) (closed : c.state = .closed) :
      TcpMove c .connect (connectCore c iss)
  | connect (iss : UInt32) (closed : c.state = .closed) :
      TcpMove c .connect { flagsCore (connectCore c iss) { syn := true } with state := .synSent }
  | purge (before : c.state.Open) :
      TcpMove c .purge { c with
        state := .timeWait, unsent := [], unacked := [], unsentOversize := 0 }

/-! ## Transmission -/

/-- A connection gets from one state to another by moves that are admitted. -/
abbrev Moves (admitted : TcpCore → TcpAct → Prop) (c c' : TcpCore) : Prop := Run TcpMove
  admitted c c'

/-- The moves that are always admitted are. -/
def AdmitsPlain (admitted : TcpCore → TcpAct → Prop) : Prop :=
  ∀ c act, act.plain = true → admitted c act

section Moves

variable {admitted : TcpCore → TcpAct → Prop}

theorem moves_one {c c' c'' : TcpCore} {act : TcpAct} (meets : admitted c act)
    (move : TcpMove c act c'') (same : c'' = c') : Moves admitted c c' := by
  rw [← same]
  exact Run.single act meets move

variable (plain : AdmitsPlain admitted)

include plain

theorem moves_single {c c' c'' : TcpCore} {act : TcpAct} (move : TcpMove c act c'')
    (always : act.plain = true) (same : c'' = c') : Moves admitted c c' :=
  moves_one (plain c act always) move same

/-- A header that has been built, and possibly handed over. -/
theorem moves_announce (c : TcpCore) (entries : List (TcpHdr × Err))
    (announced : ∀ entry ∈ entries, entry.1.ackno = c.rcvNxt ∧ entry.1.wnd = c.rcvAnnWnd) :
    Moves admitted c { c with
      rcvAnnRightEdge := c.rcvNxt + UInt32.ofNat c.rcvAnnWnd, sent := c.sent ++ entries } :=
  moves_single plain (.announce entries announced) rfl rfl

theorem moves_announce_nil (c : TcpCore) :
    Moves admitted c { c with rcvAnnRightEdge := c.rcvNxt + UInt32.ofNat c.rcvAnnWnd } :=
  moves_single plain (.announce [] (by simp)) rfl (by simp)

theorem tcpSendEmptyAck_moves (env : TcpEnv) (n : Nat) (pcb : TcpPcb) :
    Moves admitted (core pcb) (core (tcpSendEmptyAck env n pcb).2) := by
  unfold tcpSendEmptyAck
  split
  · exact Run.refl
  · split
    · exact moves_announce_nil plain (core pcb)
    · split <;> exact moves_announce plain (core pcb) [_] (by simp [core])

theorem tcpKeepalive_moves (env : TcpEnv) (pcb : TcpPcb) :
    Moves admitted (core pcb) (core (tcpKeepalive env pcb).2) := by
  unfold tcpKeepalive
  split
  · exact Run.refl
  · split
    · exact moves_announce_nil plain (core pcb)
    · exact moves_announce plain (core pcb) [_] (by simp [core])

theorem tcpZeroWindowProbe_moves (env : TcpEnv) (pcb : TcpPcb) :
    Moves admitted (core pcb) (core (tcpZeroWindowProbe env pcb).2) := by
  unfold tcpZeroWindowProbe
  split
  · exact Run.refl
  rename_i seg first
  have head : ((core pcb).unacked ++ (core pcb).unsent).head? = some (segKey seg) := by
    simp only [core, ← map_append, head?_map, first, Option.map_some]
  split
  · exact Run.refl
  have probed := moves_single plain (.probe (segKey seg) head) rfl rfl
  split
  · exact probed.trans (moves_announce_nil plain _)
  · exact probed.trans (moves_announce plain _ [_] (by simp [core]))

end Moves

/-- A control block while `tcp_output` is sending: the rest of `unsent` is held beside it. -/
def sendingCore (unsent : List TcpSeg) (pcb : TcpPcb) : TcpCore :=
  { core pcb with
    unsent := unsent.map segKey
    unsentOversize := if unsent = [] then 0 else pcb.unsentOversize }

theorem segKey_prepared (env : TcpEnv) (n : Nat) (pcb : TcpPcb) (seg : TcpSeg) :
    segKey (tcpOutputSegment env n (tcpPrepare pcb seg) pcb).2.1 =
      { segKey seg with left := 0 } := by
  unfold tcpOutputSegment
  split <;> rfl

theorem tcpOutputSegment_core (env : TcpEnv) (n : Nat) (pcb : TcpPcb) (seg : TcpSeg) :
    tcpOutputSegment env n (tcpPrepare pcb seg) pcb = (.ok, tcpPrepare pcb seg, pcb) ∨
      ∃ tcphdr pcb',
        tcpOutputSegment env n (tcpPrepare pcb seg) pcb =
          (env.output n, { tcpPrepare pcb seg with tcphdr := tcphdr }, pcb') ∧
        (tcphdr.ackno = pcb.rcvNxt ∧ tcphdr.wnd = pcb.rcvAnnWnd) ∧
        ∀ unsent, sendingCore unsent pcb' = { sendingCore unsent pcb with
          rcvAnnRightEdge := pcb.rcvNxt + UInt32.ofNat pcb.rcvAnnWnd
          sent := pcb.sent ++ [(tcphdr, env.output n)] } := by
  unfold tcpOutputSegment
  cases busy : env.busy n with
  | true =>
    left
    rfl
  | false =>
    right
    exact ⟨_, _, rfl, ⟨rfl, rfl⟩, fun _ => rfl⟩

/-- Sending a segment is a move of the rest of `unsent`. -/
theorem sendingCore_tcpSegSent {seg seg' : TcpSeg} (next : List TcpSeg) (pcb : TcpPcb)
    (same : segKey seg' = { segKey seg with left := 0 }) :
    sendingCore next (tcpSegSent seg' next pcb) =
      sendCore (sendingCore (seg :: next) pcb) (segKey seg) (next.map segKey) := by
  have seqno : seg'.tcphdr.seqno = (segKey seg).seqno := congrArg SegKey.seqno same
  have tcplen : tcpTcplen seg' = (segKey seg).tcplen := congrArg SegKey.tcplen same
  have unacked : (if (segKey seg).tcplen > 0 then tcpUnackedInsert seg' pcb.unacked
      else pcb.unacked).map segKey = if 0 < (segKey seg).tcplen then
        insertBehind SegKey.Below { segKey seg with left := 0 } (pcb.unacked.map segKey)
        else pcb.unacked.map segKey := by
    split
    · rw [map_tcpUnackedInsert, same]
    · rfl
  unfold sendCore sendingCore tcpSegSent core
  simp only [unacked, seqno, tcplen, map_eq_nil_iff, cons_ne_nil, ↓reduceIte]
  rfl

section Output

variable {admitted : TcpCore → TcpAct → Prop} (plain : AdmitsPlain admitted)

include plain

theorem tcpOutputLoop_moves (env : TcpEnv) {wnd : Nat} (n : Nat) (unsent : List TcpSeg)
    (pcb : TcpPcb) (small : wnd ≤ pcb.sndWnd) :
    Ensures AnyError (tcpOutputLoop env wnd n unsent pcb) fun result =>
      Moves admitted (sendingCore unsent pcb) (core result.2) := by
  induction unsent generalizing n pcb with
  | nil => exact .ok Run.refl
  | cons seg next ih =>
    have waits : Moves admitted (sendingCore (seg :: next) pcb)
        (core (tcpOutputDone { pcb with unsent := seg :: next })) := Run.refl
    unfold tcpOutputLoop
    split
    · rename_i inside
      apply ensures_pass trivial
      split
      · exact .ok waits
      have prepared := segKey_prepared env n pcb seg
      have inWindow : ((segKey seg).seqno - pcb.lastack + UInt32.ofNat (segKey seg).len).toNat ≤
          pcb.sndWnd := Nat.le_trans inside small
      cases tcpOutputSegment_core env n pcb seg with
      | inl busy =>
        rw [busy] at prepared ⊢
        have move : Moves admitted (sendingCore (seg :: next) pcb)
            (sendingCore next (tcpSegSent (tcpPrepare pcb seg) next pcb)) :=
          moves_single plain (.send (segKey seg) (next.map segKey) rfl inWindow) rfl
            (sendingCore_tcpSegSent next pcb prepared).symm
        exact (ih (n + 1) (tcpSegSent (tcpPrepare pcb seg) next pcb) small).mono
          fun result moves => move.trans moves
      | inr sends =>
        obtain ⟨tcphdr, pcb', done, announced, after⟩ := sends
        rw [done] at prepared ⊢
        dsimp only at prepared ⊢
        have first : Moves admitted (sendingCore (seg :: next) pcb)
            (sendingCore (seg :: next) pcb') := by
          rw [after]
          apply moves_announce plain _ [(tcphdr, env.output n)]
          intro entry member
          rw [mem_singleton.mp member]
          exact announced
        split
        · have touched : Moves admitted (sendingCore (seg :: next) pcb')
              (core { pcb' with
                unsent := { tcpPrepare pcb seg with tcphdr := tcphdr } :: next
                tfNaglememerr := true }) := by
            have same : SameKeys (segKey seg :: next.map segKey)
                (segKey { tcpPrepare pcb seg with tcphdr := tcphdr } :: next.map segKey) := by
              rw [prepared]
              rfl
            exact moves_single plain (.touch _ same) rfl rfl
          exact .ok (first.trans touched)
        · have kept := after (seg :: next)
          have move : Moves admitted (sendingCore (seg :: next) pcb')
              (sendingCore next (tcpSegSent { tcpPrepare pcb seg with tcphdr := tcphdr } next
                pcb')) := by
            rw [sendingCore_tcpSegSent next pcb' prepared]
            apply moves_single plain (TcpMove.send (segKey seg) (next.map segKey) rfl ?_) rfl rfl
            rw [kept]
            exact inWindow
          have same : pcb'.sndWnd = pcb.sndWnd := congrArg TcpCore.sndWnd kept
          have onward := ih (n + 1)
            (tcpSegSent { tcpPrepare pcb seg with tcphdr := tcphdr } next pcb')
            (show wnd ≤ pcb'.sndWnd by rw [same]; exact small)
          exact onward.mono fun result moves => (first.trans move).trans moves
    · exact .ok waits

theorem tcpOutput_moves (env : TcpEnv) (pcb : TcpPcb) :
    Ensures AnyError (tcpOutput env pcb) fun result =>
      Moves admitted (core pcb) (core result.2) := by
  unfold tcpOutput
  apply ensures_pass trivial
  dsimp only
  have settled : Moves admitted (core pcb) (sendingCore pcb.unsent pcb) := by
    by_cases empty : pcb.unsent = []
    · exact moves_single plain (.settle (by simp [core, empty])) rfl
        (by simp [sendingCore, core, empty])
    · have same : sendingCore pcb.unsent pcb = core pcb := by
        simp [sendingCore, core, empty]
      rw [same]
      exact Run.refl
  split
  · exact .ok Run.refl
  split
  · exact .ok (tcpSendEmptyAck_moves plain env 0 pcb)
  split
  · exact .ok Run.refl
  · split
    · have same : core (tcpOutputDone (tcpPersistStart pcb)) =
          sendingCore pcb.unsent pcb := by
        unfold tcpPersistStart
        split <;> rfl
      apply Ensures.ok
      rw [same]
      exact settled
    · exact (tcpOutputLoop_moves plain env 0 pcb.unsent pcb (Nat.min_le_left _ _)).mono
        fun _ moves => settled.trans moves

theorem tcpRexmitRto_moves (env : TcpEnv) (pcb : TcpPcb)
    (splices : pcb.unacked ≠ [] → admitted (core pcb) .splice) :
    Ensures AnyError (tcpRexmitRto env pcb) fun pcb' =>
      Moves admitted (core pcb) (core pcb') := by
  unfold tcpRexmitRto
  split
  · exact .ok Run.refl
  rename_i seg last
  have some' : pcb.unacked ≠ [] := by
    intro empty
    rw [empty] at last
    cases last
  have lastKey : (core pcb).unacked.getLast? = some (segKey seg) := by
    simp [core, getLast?_map, last]
  have tail : ∀ oversize, (oversize = if env.lwipDebug ∧ pcb.unsent = [] then seg.oversizeLeft
      else pcb.unsentOversize) → oversize = pcb.unsentOversize ∨
        ((core pcb).unsent = [] ∧ oversize = (segKey seg).left) := by
    intro oversize value
    split at value
    · rename_i debug
      exact .inr ⟨by simp [core, debug.2], value⟩
    · exact .inl value
  apply (tcpOutput_moves plain env _).bind
  intro result moves
  apply Ensures.ok
  refine Run.trans ?_ moves
  apply moves_one (splices some') (.splice _ (segKey seg) lastKey (tail _ rfl))
  simp [core]

theorem tcpRexmit_moves (pcb : TcpPcb) (state : pcb.state ≠ .synSent) :
    Moves admitted (core pcb) (core (tcpRexmit pcb)) := by
  unfold tcpRexmit
  split
  · exact Run.refl
  · rename_i seg next first
    apply moves_single plain (TcpMove.requeue (segKey seg) (next.map segKey)
      (by simp [core, first]) state) rfl
    simp [core, map_tcpInsertSorted, all_map, Function.comp_def, segKey]

theorem tcpRexmitFast_moves (pcb : TcpPcb) (state : pcb.state ≠ .synSent) :
    Moves admitted (core pcb) (core (tcpRexmitFast pcb)) := by
  unfold tcpRexmitFast
  split
  · exact tcpRexmit_moves plain pcb state
  · exact Run.refl

end Output

/-! ## Flags -/

section Flags

variable {admitted : TcpCore → TcpAct → Prop}

/-- `tcp_enqueue_flags` queues a segment without data or leaves everything as it is. -/
theorem tcpEnqueueFlags_core (env : TcpEnv) (pcb : TcpPcb) (flags : TcpFlags) :
    Ensures AnyError (tcpEnqueueFlags env pcb flags) fun result =>
      (result.1 ≠ .ok ∧ core result.2 = core pcb) ∨
        (result.1 = .ok ∧ core result.2 = flagsCore (core pcb) flags ∧
          (flags.fin || flags.syn) = true ∧
          (pcb.sndQueuelen < tcpSndQueuelen ∨ flags.fin = true) ∧
          (core pcb).unacked.length + (core pcb).unsent.length < mempNumTcpSeg) := by
  unfold tcpEnqueueFlags
  apply ensures_assert (fun _ => trivial)
  intro either
  split
  · exact .ok (Or.inl ⟨by simp, rfl⟩)
  rename_i short
  split
  · exact .ok (Or.inl ⟨by simp, rfl⟩)
  dsimp only
  apply (tcpCreateSegment_spec env 1 (tcpSegsUsed pcb) _ flags pcb.sndLbb flags.syn).bind
  intro created spec
  cases created with
  | none => exact .ok (Or.inl ⟨by simp, rfl⟩)
  | some seg =>
    apply ensures_assert (fun _ => trivial)
    intro empty
    apply Ensures.ok
    right
    obtain ⟨room, header, same⟩ := spec seg rfl
    have clen : seg.p.length = 1 := length_pbufHeader header
    have key : segKey seg = flagsKey pcb.sndLbb flags := by
      unfold segKey flagsKey
      rw [clen, empty, same]
    have clen' : pbufClen seg.p = 1 := by
      rw [pbufClen, clen]
      rfl
    refine ⟨rfl, ?_, ?_, ?_, ?_⟩
    · simp [core, flagsCore, key, clen']
    · rw [Bool.or_eq_true]
      exact Or.comm.mp either
    · by_cases fin : flags.fin = true
      · exact .inr fin
      · left
        have notFull := fun full => short ⟨Or.inl full, by simpa using fin⟩
        exact Nat.lt_of_not_le notFull
    · simp only [core, length_map]
      unfold tcpSegsUsed at room
      omega

variable (plain : AdmitsPlain admitted)

include plain

omit plain in
theorem tcpEnqueueFlags_moves (env : TcpEnv) (pcb : TcpPcb) (flags : TcpFlags)
    (opened : pcb.state ≠ .closed ∧ pcb.state ≠ .timeWait)
    (queues : admitted (core pcb) .flags) :
    Ensures AnyError (tcpEnqueueFlags env pcb flags) fun result =>
      Moves admitted (core pcb) (core result.2) := by
  apply (tcpEnqueueFlags_core env pcb flags).mono
  intro result done
  cases done with
  | inl failed =>
    rw [failed.2]
    exact Run.refl
  | inr queued =>
    exact moves_one queues (.flags flags queued.2.2.1 queued.2.2.2.1 queued.2.2.2.2 opened)
      queued.2.1.symm

/-- `tcp_send_fin` marks the last segment or queues one, and leaves the state as it is. -/
theorem tcpSendFin_moves (env : TcpEnv) (pcb : TcpPcb)
    (opened : pcb.state ≠ .closed ∧ pcb.state ≠ .timeWait)
    (queues : admitted (core pcb) .flags) :
    Ensures AnyError (tcpSendFin env pcb) fun result =>
      Moves admitted (core pcb) (core result.2) ∧ (core result.2).state = pcb.state := by
  have enqueued : Ensures AnyError (tcpEnqueueFlags env pcb { fin := true }) fun result =>
      Moves admitted (core pcb) (core result.2) ∧ (core result.2).state = pcb.state := by
    apply (tcpEnqueueFlags_core env pcb { fin := true }).mono
    intro result done
    cases done with
    | inl failed =>
      rw [failed.2]
      exact ⟨Run.refl, rfl⟩
    | inr queued =>
      rw [queued.2.1]
      exact ⟨moves_one queues (.flags { fin := true } rfl (Or.inr rfl) queued.2.2.2.2 opened) rfl,
        rfl⟩
  unfold tcpSendFin
  split
  · exact enqueued
  rename_i lastUnsent last
  dsimp only
  split
  · rename_i clear
    have split' := dropLast_append_getLast? lastUnsent (Option.mem_def.mpr last)
    have keys : (core pcb).unsent = pcb.unsent.dropLast.map segKey ++ [segKey lastUnsent] := by
      rw [show (core pcb).unsent = pcb.unsent.map segKey from rfl, ← split', map_append]
      simp
    have noFlags : (segKey lastUnsent).fin = false ∧ (segKey lastUnsent).syn = false := by
      have fin := clear.2.1
      have syn := clear.1
      rw [Bool.not_eq_true'] at fin syn
      exact ⟨fin, syn⟩
    refine .ok ⟨moves_single plain (.fin _ (segKey lastUnsent) keys noFlags) rfl ?_, rfl⟩
    simp [core, setFin, segKey]
  · exact enqueued

/-- A state change behind the handshake. -/
theorem moves_enter (pcb : TcpPcb) (state : TcpState) (late : pcb.state.Open)
    (behind : state.Open) :
    Moves admitted (core pcb) (core { pcb with state := state }) :=
  moves_single plain (.enter state late behind) rfl rfl

/-- `tcp_close_shutdown` queues a `FIN`, changes the state and sends what it may. -/
theorem tcpCloseShutdown_moves (env : TcpEnv) (pcb : TcpPcb)
    (queues : admitted (core pcb) .flags) :
    Ensures AnyError (tcpCloseShutdown env pcb) fun result =>
      Moves admitted (core pcb) (core result.2) := by
  refine tcpCloseShutdown_ensures env pcb Run.refl ?_
  intro before
  have opened : pcb.state.Open := by
    rcases before with given | given | given <;> rw [given] <;> exact ⟨by decide, by decide⟩
  apply (tcpSendFin_moves plain env pcb ⟨opened.not_closed, opened.2⟩ queues).mono
  intro queued given
  refine ⟨fun _ => ?_, fun _ => given.1⟩
  rw [← given.2] at opened
  have entered := given.1.trans (moves_enter plain queued.2
    (if pcb.state = .closeWait then .lastAck else .finWait1) opened
    (by split <;> exact ⟨by decide, by decide⟩))
  exact (tcpOutput_moves plain env _).mono fun sent onward => entered.trans onward

theorem tcpConnect_moves (env : TcpEnv) (iss : UInt32) (pcb : TcpPcb) :
    Ensures AnyError (tcpConnect env iss pcb) fun result =>
      Moves admitted (core pcb) (core result.2) := by
  unfold tcpConnect
  split
  · exact .ok Run.refl
  rename_i isClosed
  have closed : (core pcb).state = .closed := not_not.mp isClosed
  apply (tcpEnqueueFlags_core env _ _).bind
  intro result queued
  obtain ⟨ret, pcb'⟩ := result
  cases queued with
  | inl failed =>
    dsimp only at failed ⊢
    rw [if_neg failed.1]
    apply Ensures.ok
    rw [failed.2]
    exact moves_single plain (.connectFails iss closed) rfl rfl
  | inr done =>
    dsimp only at done ⊢
    rw [if_pos done.1]
    have entered : Moves admitted (core pcb) (core { pcb' with state := .synSent }) := by
      apply moves_single plain (.connect iss closed) rfl
      have same := congrArg (fun c : TcpCore => { c with state := .synSent }) done.2.1
      exact same.symm
    apply (tcpOutput_moves plain env _).bind
    intro result onward
    exact .ok (entered.trans onward)

end Flags

/-! ## Data -/

/-- New segments of `tcp_write` are fresh. -/
theorem NewSegs.freshFrom {w : WriteArgs} {pos : Nat} {queue : List TcpSeg}
    (segs : NewSegs env pcb w pos queue) (positive : queue ≠ [] → 0 < mssLocal pcb) :
    FreshFrom (pcb.sndLbb + UInt32.ofNat pos) (queue.map segKey) := by
  induction queue generalizing pos with
  | nil => trivial
  | cons seg more ih =>
    have first := segs.1
    have room := positive (by simp)
    have rest := ih segs.2 fun _ => room
    have len := first.len
    have inside := first.inside
    refine ⟨?_, ?_, ?_, ?_, first.clen.1, ?_⟩
    · exact congrArg TcpHdr.seqno first.tcphdr
    · exact congrArg (fun header : TcpHdr => header.flags.fin) first.tcphdr
    · exact congrArg (fun header : TcpHdr => header.flags.syn) first.tcphdr
    · show 0 < seg.len
      omega
    · rw [UInt32.ofNat_add, ← UInt32.add_assoc] at rest
      exact rest

theorem lens_map_segKey (queue : List TcpSeg) : lens (queue.map segKey) = segLens queue := by
  simp [lens, segLens, segKey, Function.comp_def]

/-- Numbers of pbufs of segments are those of their keys. -/
theorem clens_map_segKey (queue : List TcpSeg) : clens (queue.map segKey) = segClens queue := by
  simp [clens, segClens, segKey, Function.comp_def]

/-- A control block behind a successful `tcp_write`. -/
def writtenCore (pcb : TcpPcb) (w : WriteArgs) (l : WriteLocals) (unsent : List TcpSeg) : TcpCore :=
  { core pcb with
    unsent := unsent.map segKey
    unsentOversize := l.oversize
    sndLbb := pcb.sndLbb + UInt32.ofNat w.len
    sndBuf := pcb.sndBuf - w.len
    sndQueuelen := l.queuelen }

/-- The new segments, and what has been added to the last one before them, are a move. -/
theorem WriteQueued.move {w : WriteArgs} {start l : WriteLocals} {unsent : List TcpSeg}
    (tail : List SegKey) (queued : WriteQueued env pcb w start l)
    (written : Written env pcb w l unsent) (writable : pcb.state.Writable)
    (room : w.len = 0 ∨ (w.len ≤ pcb.sndBuf ∧ pcb.sndQueuelen < tcpSndQueuelen))
    (queuelen : start.queuelen = pcb.sndQueuelen + start.concatP.length)
    (extended : Extended (core pcb).unsent start.pos start.concatP.length tail)
    (pbufs : start.concatP.length ≤ 1 ∧ (0 < start.concatP.length → 0 < start.pos))
    (reused : 0 < start.pos → (core pcb).Reusable)
    (oversized : 0 < start.oversize → (core pcb).Reusable)
    (same : unsent.map segKey = tail ++ l.queue.map segKey) :
    TcpMove (core pcb) .write (writtenCore pcb w l unsent) := by
  have position := queued.pos
  have all := written.pos
  have number := queued.queuelen
  have move := TcpMove.write (c := core pcb) w.len start.pos start.concatP.length l.oversize tail
    (l.queue.map segKey)
    { writable, extended, reused
      room := show w.len ≤ pcb.sndBuf by omega
      short := show pcb.sndQueuelen < tcpSndQueuelen ∨ w.len = 0 by omega
      few := pbufs.1
      filled := pbufs.2
      fresh := queued.segs.freshFrom written.positive
      all := by
        rw [lens_map_segKey]
        omega
      queuelen := by
        rw [clens_map_segKey]
        cases queued.bounded with
        | inl none' => exact .inr (by rw [none']; rfl)
        | inr some' =>
          left
          show pcb.sndQueuelen + start.concatP.length + segClens l.queue ≤ tcpSndQueuelen
          omega
      count := by
        cases queued.bounded with
        | inl none' => exact .inl (by rw [none']; rfl)
        | inr some' =>
          right
          have used := some'.2
          unfold tcpSegsUsed at used
          simp only [core, length_map]
          omega
      oversized := by
        intro some' none'
        rw [queued.oversize (map_eq_nil_iff.mp none')] at some'
        exact oversized some' }
  have final : pcb.sndQueuelen + start.concatP.length + clens (l.queue.map segKey) =
      l.queuelen := by
    rw [clens_map_segKey]
    omega
  rw [writeCore, show (core pcb).sndQueuelen = pcb.sndQueuelen from rfl, final, ← same] at move
  exact move

/-- Data that has been queued is a move. -/
theorem Written.move {w : WriteArgs} {l : WriteLocals} {unsent : List TcpSeg}
    (written : Written env pcb w l unsent) (writable : pcb.state.Writable)
    (room : w.len = 0 ∨ (w.len ≤ pcb.sndBuf ∧ pcb.sndQueuelen < tcpSndQueuelen)) :
    TcpMove (core pcb) .write (writtenCore pcb w l unsent) := by
  cases written.shape with
  | inl nothing =>
    obtain ⟨empty, noOversize, same, start, atZero, noConcat, noRest, queuelen, queued⟩ := nothing
    apply queued.move [] written writable room
    · rw [noConcat]
      exact queuelen
    · exact .inl ⟨by simp [core, empty], atZero, by rw [noConcat]; rfl, rfl⟩
    · simp [noConcat]
    · exact fun some' => absurd atZero (Nat.ne_of_gt some')
    · exact fun some' => absurd noRest (Nat.ne_of_gt some')
    · rw [same, nil_append]
  | inr something =>
    obtain ⟨lastUnsent, linked, start, last, same, ready, committed, queued⟩ := something
    have sum := ready.pos
    have parts := dropLast_append_getLast? lastUnsent (Option.mem_def.mpr last)
    have lastKey : (core pcb).unsent.getLast? = some (segKey lastUnsent) := by
      simp [core, getLast?_map, last]
    have pbufs : start.concatP.length ≤ 1 ∧ (0 < start.concatP.length → 0 < start.pos) := by
      cases ready.linked with
      | inl none' => simp [none']
      | inr one =>
        obtain ⟨p, only, positive, _⟩ := one
        have total : start.concatP.totLen = p.totLen := by rw [only]; rfl
        refine ⟨by simp [only], fun _ => by omega⟩
    apply queued.move (pcb.unsent.dropLast.map segKey ++ [segKey linked]) written writable room
    · cases ready.queuelen with
      | inl none' =>
        rw [none'.2, none'.1]
        rfl
      | inr some' =>
        have one : start.concatP.length = 1 := by
          have nonempty := length_pos_iff.mpr some'.1
          omega
        have data := pbufs.2 (by omega)
        have position := queued.pos
        have all := written.pos
        have short' : pcb.sndQueuelen < tcpSndQueuelen := by omega
        unfold tcpSndQueuelen at short'
        rw [some'.2, one, u16_of_lt (by omega)]
    · right
      refine ⟨pcb.unsent.dropLast.map segKey, segKey lastUnsent, linked.oversizeLeft, ?_, ?_⟩
      · rw [show (core pcb).unsent = pcb.unsent.map segKey from rfl, ← parts]
        simp
      · unfold segKey
        rw [committed.tcphdr, committed.len, committed.clen]
    · exact pbufs
    · intro some'
      have used := ready.used
      by_cases oversize : 0 < start.oversizeUsed
      · exact .inl (show 0 < pcb.unsentOversize by omega)
      right
      refine ⟨segKey lastUnsent, lastKey, ready.filled ?_⟩
      by_cases linked' : start.concatP = []
      · right
        have total : start.concatP.totLen = 0 := by rw [linked']; rfl
        omega
      · exact .inl linked'
    · intro some'
      cases ready.oversize some' with
      | inl before => exact .inl before
      | inr data => exact .inr ⟨segKey lastUnsent, lastKey, data⟩
    · rw [same]
      simp

section Write

variable {admitted : TcpCore → TcpAct → Prop} (plain : AdmitsPlain admitted)

include plain

/-- What `tcp_write` needs of the queues. -/
structure WriteReady (pcb : TcpPcb) : Prop where
  some' : ∀ k ∈ (core pcb).unsent, 0 < k.clen
  small : pcb.sndBuf ≤ 65535
  bounded : ∀ k ∈ (core pcb).unsent, k.len + pcb.sndBuf < 65536

omit plain in
/-- The outcome of `tcp_write` for a block of any length. -/
theorem WriteReady.outcome (ready : WriteReady pcb) (env : TcpEnv) (w : WriteArgs) :
    Ensures AnyError (tcpWrite env pcb w) fun result =>
      WriteOutcome env pcb w result.1 result.2 := by
  by_cases fits : w.len ≤ pcb.sndBuf
  · have keys : ∀ seg ∈ pcb.unsent, segKey seg ∈ (core pcb).unsent :=
      fun seg member => mem_map_of_mem member
    apply tcpWrite_outcome (Nat.le_trans fits ready.small)
    · intro seg member empty
      have positive := ready.some' _ (keys seg member)
      rw [segKey, empty] at positive
      exact absurd positive (Nat.lt_irrefl 0)
    · intro seg member
      have bound : seg.len + pcb.sndBuf < 65536 := ready.bounded _ (keys seg member)
      exact .inl (by omega)
  · unfold tcpWrite tcpWriteLogged
    split
    · exact .ok (.refused .arg pcb.unsent pcb.tfNaglememerr (by decide) (Or.inl rfl))
    rw [Logged.erase_bind, Logged.erase_lift]
    apply (tcpWriteChecks_spec pcb w.len).bind
    intro result checked
    cases checked with
    | inl refused =>
      obtain ⟨failed, tfNaglememerr, same⟩ := refused
      dsimp only
      rw [if_pos failed, same]
      exact .ok (.refused result.1 pcb.unsent tfNaglememerr failed (Or.inl rfl))
    | inr passed =>
      omega

theorem tcpWrite_moves (env : TcpEnv) (pcb : TcpPcb) (w : WriteArgs)
    (writes : admitted (core pcb) .write) (ready : WriteReady pcb) :
    Ensures AnyError (tcpWrite env pcb w) fun result =>
      Moves admitted (core pcb) (core result.2) := by
  by_cases writable : pcb.state.Writable
  swap
  · have states : pcb.state ≠ .established ∧ pcb.state ≠ .closeWait ∧ pcb.state ≠ .synSent ∧
        pcb.state ≠ .synRcvd := by
      simpa [TcpState.Writable, not_or] using writable
    unfold tcpWrite tcpWriteLogged tcpWriteChecks
    rw [if_pos states]
    split <;> exact .ok Run.refl
  apply (ready.outcome env w).mono
  intro result done
  obtain ⟨err, pcb'⟩ := result
  cases done with
  | refused _ unsent tfNaglememerr failed same =>
    cases same with
    | inl same =>
      rw [same]
      exact Run.refl
    | inr touched =>
      obtain ⟨lastUnsent, left, last, same⟩ := touched
      have parts := dropLast_append_getLast? lastUnsent (Option.mem_def.mpr last)
      have keys : SameKeys (core pcb).unsent (unsent.map segKey) := by
        unfold SameKeys
        rw [show (core pcb).unsent = pcb.unsent.map segKey from rfl, ← parts, same]
        simp [segKey]
      exact moves_single plain (.touch (unsent.map segKey) keys) rfl rfl
  | written l unsent psh data room written =>
    apply moves_one writes (written.move writable room)
    have keys : (if psh then setPshLast unsent else unsent).map segKey = unsent.map segKey := by
      split
      · exact map_setPshLast segKey unsent fun _ => rfl
      · rfl
    have small := ready.small
    have buffer : toU16 ((pcb.sndBuf : Int) - w.len) = pcb.sndBuf - w.len :=
      toU16_eq (by omega) (by omega)
    simp only [writtenCore, core, keys, buffer]

end Write

end Lwip
