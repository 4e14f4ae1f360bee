import Lwip.Base.AllocLog
import Lwip.Base.Logged
import Lwip.Core.Mem
import Lwip.Core.Tcp

/-!
# Sending TCP segments

The functions of `core/tcp_out.c`: queueing of data and flags, transmission, and the three
ways to queue segments again. `tcp_write` works on local variables that are committed at its
end; they are the fields of `WriteLocals`. It logs the pbufs and segments that it allocates and
frees, each with the number of its allocation.
-/

namespace Lwip

/-! ## Creation of segments -/

/-- Allocation of a `PBUF_RAM` that holds `data` and `extra` unused bytes behind it. -/
def pbufAllocRam (offset : Nat) (data : List UInt8) (length extra : Nat) : Pbuf :=
  { mem := List.replicate offset 0 ++ data ++ List.replicate extra 0, payload := offset
    totLen := length, len := length, type := .ram, isCustom := false, ref := 1 }

/-- Allocation of a `PBUF_ROM` that refers to memory of the application. -/
def pbufAllocRom (mem : List UInt8) (address length : Nat) : Pbuf :=
  { mem := mem, payload := address, totLen := length, len := length, type := .rom
    isCustom := false, ref := 1 }

/-- A function with assertions, with its accesses to the allocator. -/
abbrev Allocating := Logged String (AllocLog.Event Nat)

/-- `pbuf_free` of the pbufs that were allocated right before the `n`-th allocation. -/
def Allocating.pbufFree (n : Nat) (p : Chain) : Allocating Unit := do
  let _ ← Logged.lift (Lwip.pbufFree p)
  Logged.tell ((List.range' (n - p.length) p.length).map .free)

/-- `tcp_create_segment` with pbufs that were allocated right before; `none` is `NULL`. Without
room for the header, `tcp_seg_free` frees the pbufs and the segment. -/
def tcpCreateSegment (env : TcpEnv) (n used : Nat) (p : Chain) (flags : TcpFlags)
    (seqno : UInt32) (optsMss : Bool) : Allocating (Option TcpSeg) :=
  let optlen := lwipTcpOptLength optsMss
  if !tcpSegMalloc env n used then do
    Allocating.pbufFree n p
    pure none
  else do
    Logged.tell [.alloc n]
    Logged.lift (lwipAssert "p->tot_len >= optlen" (p.totLen ≥ optlen))
    match ← Logged.lift (pbufHeader p tcpHlen) with
    | none => do
      Allocating.pbufFree n p
      Logged.tell [.free n]
      pure none
    | some p' =>
      pure (some { p := p', len := p.totLen - optlen, optsMss := optsMss
                   tcphdr := { seqno := seqno, flags := flags } })

/-- `tcp_pbuf_prealloc` with the data copied into it: the pbuf and its unused bytes. -/
def tcpPbufPrealloc (env : TcpEnv) (n offset : Nat) (data : List UInt8) (length maxLength : Nat)
    (pcb : TcpPcb) (more firstSeg : Bool) : Option (Pbuf × Nat) :=
  let alloc :=
    if length < maxLength ∧ (more ∨ (!pcb.tfNodelay ∧
        (!firstSeg ∨ pcb.unsent ≠ [] ∨ pcb.unacked ≠ []))) then
      min maxLength (Mem.memAlignSize (length + tcpMss))
    else length
  if env.alloc n then some (pbufAllocRam offset data length (alloc - length), alloc - length)
  else none

/-! ## `tcp_write` -/

def tcpWriteChecks (pcb : TcpPcb) (len : Nat) : Asserting (Err × TcpPcb) :=
  if pcb.state ≠ .established ∧ pcb.state ≠ .closeWait ∧ pcb.state ≠ .synSent ∧
      pcb.state ≠ .synRcvd then .ok (.conn, pcb)
  else if len = 0 then .ok (.ok, pcb)
  else if len > pcb.sndBuf then .ok (.mem, { pcb with tfNaglememerr := true })
  else if pcb.sndQueuelen ≥ tcpSndQueuelen ∨ pcb.sndQueuelen > tcpSndqueuelenOverflow then
    .ok (.mem, { pcb with tfNaglememerr := true })
  else if pcb.sndQueuelen ≠ 0 then do
    lwipAssert "tcp_write: pbufs on queue => at least one queue non-empty"
      (pcb.unacked ≠ [] ∨ pcb.unsent ≠ [])
    .ok (.ok, pcb)
  else do
    lwipAssert "tcp_write: no pbufs on queue => both queues empty"
      (pcb.unacked = [] ∧ pcb.unsent = [])
    .ok (.ok, pcb)

/-- Arguments of `tcp_write`. -/
structure WriteArgs where
  /-- Address of the data; zero is `NULL`. -/
  arg : Nat
  len : Nat
  copy : Bool
  more : Bool

/-- Local variables of `tcp_write`. -/
structure WriteLocals where
  pos : Nat
  /-- Copy of `snd_queuelen`. -/
  queuelen : Nat
  /-- Copy of `unsent_oversize`. -/
  oversize : Nat
  /-- Bytes for the preallocated tail of the last unsent segment. -/
  oversizeUsed : Nat
  concatP : Chain
  /-- Bytes by which the last `PBUF_ROM` is extended. -/
  extendlen : Nat
  queue : List TcpSeg
  /-- Whether `seg` points to a segment. -/
  seg : Bool
  /-- Number of allocations so far. -/
  allocs : Nat

/-- The number of pbufs and segments that `concat_p` and `queue` hold. -/
def WriteLocals.held (l : WriteLocals) : Nat :=
  l.concatP.length + (l.queue.map fun seg => seg.p.length + 1).sum

/-- The bytes of the application that a segment takes. -/
def writeData (env : TcpEnv) (w : WriteArgs) (pos seglen : Nat) : List UInt8 :=
  (env.mem.drop (w.arg + pos)).take seglen

/-- `mss_local`: no segment is larger than half the largest window. -/
def mssLocal (pcb : TcpPcb) : Nat :=
  let half := min pcb.mss (pcb.sndWndMax / 2)
  if half ≠ 0 then half else pcb.mss

/-- Phase 2: a pbuf for the end of the last unsent segment. The second result is that segment,
whose `oversize_left` is changed at once. `none` is the jump to `memerr`. -/
def tcpWriteConcat (env : TcpEnv) (pcb : TcpPcb) (w : WriteArgs) (lastUnsent : TcpSeg)
    (space : Nat) (l : WriteLocals) : Allocating (Option WriteLocals × TcpSeg) :=
  if l.pos < w.len ∧ space > 0 ∧ lastUnsent.len > 0 then
    let seglen := if space < w.len - l.pos then space else w.len - l.pos
    if w.copy then
      match tcpPbufPrealloc env l.allocs 0 (writeData env w l.pos seglen) seglen space pcb w.more
          true with
      | none => pure (none, lastUnsent)
      | some (concatP, oversize) => do
        Logged.tell [.alloc l.allocs]
        pure (some { l with
              pos := l.pos + seglen, oversize := oversize, concatP := [concatP], seg := true
              queuelen := u16 (l.queuelen + 1), allocs := l.allocs + 1 },
          { lastUnsent with
            oversizeLeft := if env.lwipDebug then u16 (lastUnsent.oversizeLeft + oversize)
              else lastUnsent.oversizeLeft })
    else
      match lastUnsent.p.getLast? with
      | none => Logged.lift (.error "last_unsent->p")
      | some p =>
        if p.type = .rom ∧ p.payload + p.len = w.arg then do
          Logged.lift (lwipAssert "tcp_write: ROM pbufs cannot be oversized" (l.pos = 0))
          pure (some { l with pos := l.pos + seglen, extendlen := seglen, seg := true },
            lastUnsent)
        else if !env.alloc l.allocs then pure (none, lastUnsent)
        else do
          Logged.tell [.alloc l.allocs]
          pure (some { l with
                pos := l.pos + seglen, seg := true
                concatP := [pbufAllocRom env.mem (w.arg + l.pos) seglen]
                queuelen := u16 (l.queuelen + 1), allocs := l.allocs + 1 }, lastUnsent)
  else pure (some l, lastUnsent)

/-- Phases 1 and 2 of `tcp_write`. -/
def tcpWriteTail (env : TcpEnv) (pcb : TcpPcb) (w : WriteArgs) (lastUnsent : TcpSeg) :
    Allocating (Option WriteLocals × TcpSeg) := do
  let used := lastUnsent.len + lwipTcpOptLength lastUnsent.optsMss
  Logged.lift (lwipAssert "mss_local is too small" (mssLocal pcb ≥ used))
  Logged.lift (lwipAssert "unsent_oversize mismatch (pcb vs. last_unsent)"
    (env.lwipDebug → pcb.unsentOversize = lastUnsent.oversizeLeft))
  let space := mssLocal pcb - used
  -- the source compares `oversize_used` before it is set
  Logged.lift (lwipAssert "inconsistent oversize vs. space" (pcb.unsentOversize > 0 → 0 ≤ space))
  let oversizeUsed := min space (min pcb.unsentOversize w.len)
  Logged.lift (lwipAssert "inconsistend oversize vs. len"
    (pcb.unsentOversize - oversizeUsed = 0 ∨ oversizeUsed = w.len))
  tcpWriteConcat env pcb w lastUnsent (space - oversizeUsed)
    { pos := oversizeUsed, queuelen := pcb.sndQueuelen
      oversize := pcb.unsentOversize - oversizeUsed, oversizeUsed := oversizeUsed, concatP := []
      extendlen := 0, queue := [], seg := pcb.unsentOversize > 0, allocs := 0 }

/-- The pbufs of a new segment in phase 3, the unused bytes and the number of allocations. Without
memory for the header, the pbuf of the data is freed. -/
def tcpWritePbuf (env : TcpEnv) (pcb : TcpPcb) (w : WriteArgs) (seglen : Nat) (l : WriteLocals) :
    Allocating (Option (Chain × Nat × Nat)) :=
  if w.copy then
    match tcpPbufPrealloc env l.allocs pbufTransport (writeData env w l.pos seglen) seglen
        (mssLocal pcb) pcb w.more l.queue.isEmpty with
    | none => pure none
    | some (p, oversize) => do
      Logged.tell [.alloc l.allocs]
      Logged.lift (lwipAssert "tcp_write: check that first pbuf can hold the complete seglen"
        (p.len ≥ seglen))
      pure (some ([p], oversize, l.allocs + 1))
  else do
    Logged.lift (lwipAssert "oversize == 0" (l.oversize = 0))
    if !env.alloc l.allocs then pure none
    else if !env.alloc (l.allocs + 1) then do
      Logged.tell [.alloc l.allocs, .free l.allocs]
      pure none
    else do
      Logged.tell [.alloc l.allocs, .alloc (l.allocs + 1)]
      let p ← Logged.lift (pbufCat [pbufAllocRam pbufTransport [] 0 0]
        [pbufAllocRom env.mem (w.arg + l.pos) seglen])
      pure (some (p, l.oversize, l.allocs + 2))

/-- One pass of the loop of phase 3. -/
def tcpWriteSegment (env : TcpEnv) (pcb : TcpPcb) (w : WriteArgs) (l : WriteLocals) :
    Allocating (Option WriteLocals) := do
  let left := w.len - l.pos
  let seglen := if left > mssLocal pcb then mssLocal pcb else left
  match ← tcpWritePbuf env pcb w seglen l with
  | none => pure none
  | some (p, oversize, allocs) =>
    let queuelen := u16 (l.queuelen + pbufClen p)
    if queuelen > tcpSndQueuelen ∨ queuelen > tcpSndqueuelenOverflow then do
      Allocating.pbufFree allocs p
      pure none
    else
      match ← tcpCreateSegment env allocs (tcpSegsUsed pcb + l.queue.length) p {}
          (pcb.sndLbb + UInt32.ofNat l.pos) false with
      | none => pure none
      | some seg =>
        pure (some { l with
          pos := l.pos + seglen, queuelen := queuelen, oversize := oversize, seg := true
          queue := l.queue ++ [{ seg with oversizeLeft := oversize }], allocs := allocs + 1 })

/-- Phase 3 of `tcp_write`. At `memerr`, what `concat_p` and `queue` hold is freed. The length of
the queue ends the loop even if no segment makes progress, so the fuel given by `tcpWrite` is
enough. -/
def tcpWriteSegments (env : TcpEnv) (pcb : TcpPcb) (w : WriteArgs) :
    Nat → WriteLocals → Allocating (Option WriteLocals)
  | 0, _ => Logged.lift (.error "tcp_write: no end of the loop")
  | fuel + 1, l =>
    if l.pos < w.len then do
      match ← tcpWriteSegment env pcb w l with
      | none => do
        Logged.tell ((List.range l.held).map .free)
        pure none
      | some l' => tcpWriteSegments env pcb w fuel l'
    else pure (some l)

/-- Commit of phase 1: the bytes go behind those of the last pbuf. -/
def pbufFillTail (data : List UInt8) : Chain → Chain
  | [] => []
  | [p] =>
    [{ p with
      totLen := u16 (p.totLen + data.length)
      mem := p.mem.take (p.payload + p.len) ++ data ++
        p.mem.drop (p.payload + p.len + data.length)
      len := u16 (p.len + data.length) }]
  | p :: q :: next => { p with totLen := u16 (p.totLen + data.length) } ::
      pbufFillTail data (q :: next)

/-- Commit of phase 2 for a `PBUF_ROM` that is extended. -/
def pbufExtendTail (extendlen : Nat) : Chain → Chain
  | [] => []
  | [p] => [{ p with totLen := u16 (p.totLen + extendlen), len := u16 (p.len + extendlen) }]
  | p :: q :: next => { p with totLen := u16 (p.totLen + extendlen) } ::
      pbufExtendTail extendlen (q :: next)

/-- Commit of phase 1. -/
def tcpCommitOversize (env : TcpEnv) (w : WriteArgs) (l : WriteLocals) (lastUnsent : TcpSeg) :
    Asserting TcpSeg :=
  if l.oversizeUsed > 0 then do
    lwipAssert "last_unsent->oversize_left >= oversize_used"
      (env.lwipDebug → lastUnsent.oversizeLeft ≥ l.oversizeUsed)
    .ok { lastUnsent with
      p := pbufFillTail (writeData env w 0 l.oversizeUsed) lastUnsent.p
      len := u16 (lastUnsent.len + l.oversizeUsed)
      oversizeLeft := lastUnsent.oversizeLeft - l.oversizeUsed }
  else .ok lastUnsent

/-- Commit of phase 2. -/
def tcpCommitConcat (l : WriteLocals) (lastUnsent : TcpSeg) : Asserting TcpSeg :=
  if l.concatP ≠ [] then do
    let p ← pbufCat lastUnsent.p l.concatP
    .ok { lastUnsent with p := p, len := u16 (lastUnsent.len + l.concatP.totLen) }
  else if l.extendlen > 0 then
    .ok { lastUnsent with
      p := pbufExtendTail l.extendlen lastUnsent.p
      len := u16 (lastUnsent.len + l.extendlen) }
  else .ok lastUnsent

/-- `TCPH_SET_FLAG` with `TCP_PSH` on the last segment of a queue. -/
def setPshLast : List TcpSeg → List TcpSeg
  | [] => []
  | [seg] => [{ seg with
      tcphdr := { seg.tcphdr with flags := { seg.tcphdr.flags with psh := true } } }]
  | seg :: next :: more => seg :: setPshLast (next :: more)

/-- The end of a successful `tcp_write`, with the new `unsent` queue before the flag `PSH`. -/
def tcpWriteFinish (pcb : TcpPcb) (w : WriteArgs) (l : WriteLocals) (unsent : List TcpSeg) :
    Asserting (Err × TcpPcb) := do
  lwipAssert "tcp_write: valid queue length"
    (l.queuelen ≠ 0 → pcb.unacked ≠ [] ∨ unsent ≠ [])
  .ok (.ok, { pcb with
    unsent := if l.seg ∧ !w.more then setPshLast unsent else unsent
    unsentOversize := l.oversize
    sndLbb := pcb.sndLbb + UInt32.ofNat w.len
    sndBuf := toU16 (pcb.sndBuf - w.len)
    sndQueuelen := l.queuelen })

/-- `memerr` of `tcp_write`. -/
def tcpWriteMemerr (pcb : TcpPcb) : Asserting (Err × TcpPcb) := do
  lwipAssert "tcp_write: valid queue length"
    (pcb.sndQueuelen ≠ 0 → pcb.unacked ≠ [] ∨ pcb.unsent ≠ [])
  .ok (.mem, { pcb with tfNaglememerr := true })

/-- Bound on the passes of the loop of phase 3. -/
def tcpWriteFuel : Nat := tcpSndQueuelen + 2

/-- `tcp_write` behind the checks, with something on the queue `unsent`. -/
def tcpWriteExtend (env : TcpEnv) (pcb : TcpPcb) (w : WriteArgs) (lastUnsent : TcpSeg) :
    Allocating (Err × TcpPcb) := do
  let (tail, lastUnsent) ← tcpWriteTail env pcb w lastUnsent
  match tail with
  | none =>
    Logged.lift (tcpWriteMemerr { pcb with unsent := pcb.unsent.dropLast ++ [lastUnsent] })
  | some l =>
    match ← tcpWriteSegments env pcb w tcpWriteFuel l with
    | none =>
      Logged.lift (tcpWriteMemerr { pcb with unsent := pcb.unsent.dropLast ++ [lastUnsent] })
    | some l => do
      let filled ← Logged.lift (tcpCommitOversize env w l lastUnsent)
      let linked ← Logged.lift (tcpCommitConcat l filled)
      Logged.lift (tcpWriteFinish pcb w l (pcb.unsent.dropLast ++ linked :: l.queue))

/-- `tcp_write` behind the checks, with nothing on the queue `unsent`. -/
def tcpWriteNew (env : TcpEnv) (pcb : TcpPcb) (w : WriteArgs) : Allocating (Err × TcpPcb) := do
  Logged.lift (lwipAssert "unsent_oversize mismatch (pcb->unsent is NULL)" (pcb.unsentOversize = 0))
  match ← tcpWriteSegments env pcb w tcpWriteFuel
      { pos := 0, queuelen := pcb.sndQueuelen, oversize := 0, oversizeUsed := 0, concatP := []
        extendlen := 0, queue := [], seg := false, allocs := 0 } with
  | none => Logged.lift (tcpWriteMemerr pcb)
  | some l => Logged.lift (tcpWriteFinish pcb w l l.queue)

/-- `tcp_write` with its accesses to the allocator. -/
def tcpWriteLogged (env : TcpEnv) (pcb : TcpPcb) (w : WriteArgs) : Allocating (Err × TcpPcb) :=
  if w.arg = 0 then pure (.arg, pcb)
  else do
    let (err, pcb) ← Logged.lift (tcpWriteChecks pcb w.len)
    if err ≠ .ok then pure (err, pcb)
    else
      match pcb.unsent.getLast? with
      | some lastUnsent => tcpWriteExtend env pcb w lastUnsent
      | none => tcpWriteNew env pcb w

def tcpWrite (env : TcpEnv) (pcb : TcpPcb) (w : WriteArgs) : Asserting (Err × TcpPcb) :=
  (tcpWriteLogged env pcb w).erase

/-! ## Flags -/

def tcpEnqueueFlags (env : TcpEnv) (pcb : TcpPcb) (flags : TcpFlags) :
    Asserting (Err × TcpPcb) := do
  lwipAssert
    "tcp_enqueue_flags: need either TCP_SYN or TCP_FIN in flags (programmer violates API)"
    (flags.syn ∨ flags.fin)
  if (pcb.sndQueuelen ≥ tcpSndQueuelen ∨ pcb.sndQueuelen > tcpSndqueuelenOverflow) ∧
      !flags.fin then .ok (.mem, { pcb with tfNaglememerr := true })
  else if !env.alloc 0 then .ok (.mem, { pcb with tfNaglememerr := true })
  else do
    let optlen := lwipTcpOptLength flags.syn
    match ← (tcpCreateSegment env 1 (tcpSegsUsed pcb)
        [pbufAllocRam pbufTransport (List.replicate optlen 0) optlen 0] flags pcb.sndLbb
        flags.syn).erase with
    | none => .ok (.mem, { pcb with tfNaglememerr := true })
    | some seg => do
      lwipAssert "tcp_enqueue_flags: invalid segment length" (seg.len = 0)
      .ok (.ok, { pcb with
        unsent := pcb.unsent ++ [seg]
        unsentOversize := 0
        sndLbb := pcb.sndLbb + 1
        tfFin := pcb.tfFin || flags.fin
        sndQueuelen := u16 (pcb.sndQueuelen + pbufClen seg.p) })

/-- `TCPH_SET_FLAG` with `TCP_FIN`. -/
def setFin (seg : TcpSeg) : TcpSeg :=
  { seg with tcphdr := { seg.tcphdr with flags := { seg.tcphdr.flags with fin := true } } }

def tcpSendFin (env : TcpEnv) (pcb : TcpPcb) : Asserting (Err × TcpPcb) :=
  match pcb.unsent.getLast? with
  | none => tcpEnqueueFlags env pcb { fin := true }
  | some lastUnsent =>
    let flags := lastUnsent.tcphdr.flags
    if !flags.syn ∧ !flags.fin ∧ !flags.rst then
      .ok (.ok, { pcb with unsent := pcb.unsent.dropLast ++ [setFin lastUnsent], tfFin := true })
    else tcpEnqueueFlags env pcb { fin := true }

/-! ## Transmission -/

/-- `tcp_send_empty_ack`; `n` numbers its allocation and its transmission. -/
def tcpSendEmptyAck (env : TcpEnv) (n : Nat) (pcb : TcpPcb) : Err × TcpPcb :=
  if !env.alloc n then (.buf, { pcb with tfAckDelay := true, tfAckNow := true })
  else
    let tcphdr : TcpHdr :=
      { seqno := pcb.sndNxt, ackno := pcb.rcvNxt, flags := { ack := true }
        wnd := pcb.rcvAnnWnd }
    let pcb := { pcb with rcvAnnRightEdge := pcb.rcvNxt + UInt32.ofNat pcb.rcvAnnWnd }
    if !env.route then (.rte, { pcb with tfAckDelay := true, tfAckNow := true })
    else
      let pcb := { pcb with sent := pcb.sent ++ [(tcphdr, env.output n)] }
      if env.output n ≠ .ok then
        (env.output n, { pcb with tfAckDelay := true, tfAckNow := true })
      else (.ok, { pcb with tfAckDelay := false, tfAckNow := false })

def tcpOutputSegment (env : TcpEnv) (n : Nat) (seg : TcpSeg) (pcb : TcpPcb) :
    Err × TcpSeg × TcpPcb :=
  if env.busy n then (.ok, seg, pcb)
  else
    let tcphdr := { seg.tcphdr with ackno := pcb.rcvNxt, wnd := pcb.rcvAnnWnd }
    (env.output n, { seg with tcphdr := tcphdr },
      { pcb with
        rcvAnnRightEdge := pcb.rcvNxt + UInt32.ofNat pcb.rcvAnnWnd
        rtime := if pcb.rtime < 0 then 0 else pcb.rtime
        rttest := if pcb.rttest = 0 then env.ticks else pcb.rttest
        rtseq := if pcb.rttest = 0 then tcphdr.seqno else pcb.rtseq
        sent := pcb.sent ++ [(tcphdr, env.output n)] })

def tcpDoOutputNagle (pcb : TcpPcb) : Bool :=
  pcb.unacked = [] || pcb.tfNodelay || pcb.tfInfr ||
    (match pcb.unsent with
      | [] => false
      | [seg] => seg.len ≥ pcb.mss
      | _ :: _ :: _ => true) ||
    pcb.sndBuf = 0 || pcb.sndQueuelen ≥ tcpSndQueuelen

/-- Insertion into a queue behind all segments with a lower sequence number at its front. -/
def tcpInsertSorted (seg : TcpSeg) : List TcpSeg → List TcpSeg
  | [] => [seg]
  | cur :: next =>
    if seqLt cur.tcphdr.seqno seg.tcphdr.seqno then cur :: tcpInsertSorted seg next
    else seg :: cur :: next

/-- Insertion of a transmitted segment into `unacked`: before the tail only if its sequence
number is lower than that of the tail. -/
def tcpUnackedInsert (seg : TcpSeg) (unacked : List TcpSeg) : List TcpSeg :=
  match unacked.getLast? with
  | none => [seg]
  | some useg =>
    if seqLt seg.tcphdr.seqno useg.tcphdr.seqno then tcpInsertSorted seg unacked
    else unacked ++ [seg]

/-- `output_done` of `tcp_output`. -/
def tcpOutputDone (pcb : TcpPcb) : TcpPcb :=
  { pcb with
    unsentOversize := if pcb.unsent = [] then 0 else pcb.unsentOversize
    tfNaglememerr := false }

/-- Where a segment ends within the window, counted from the last acknowledged byte. -/
def tcpSegEnd (pcb : TcpPcb) (seg : TcpSeg) : Nat :=
  (seg.tcphdr.seqno - pcb.lastack + UInt32.ofNat seg.len).toNat

/-- The header of a segment about to be sent, with the flag `ACK` unless a connection is being
opened. -/
def tcpPrepare (pcb : TcpPcb) (seg : TcpSeg) : TcpSeg :=
  { seg with
    oversizeLeft := 0
    tcphdr := { seg.tcphdr with
      flags := { seg.tcphdr.flags with
        ack := seg.tcphdr.flags.ack || pcb.state ≠ .synSent } } }

/-- What `tcp_output` does with the control block when a segment has been sent. -/
def tcpSegSent (seg : TcpSeg) (next : List TcpSeg) (pcb : TcpPcb) : TcpPcb :=
  let sndNxt := seg.tcphdr.seqno + UInt32.ofNat (tcpTcplen seg)
  { pcb with
    unsent := next
    tfAckDelay := pcb.tfAckDelay && pcb.state = .synSent
    tfAckNow := pcb.tfAckNow && pcb.state = .synSent
    sndNxt := if seqLt pcb.sndNxt sndNxt then sndNxt else pcb.sndNxt
    unacked := if tcpTcplen seg > 0 then tcpUnackedInsert seg pcb.unacked else pcb.unacked }

/-- The loop of `tcp_output` over the queue `unsent`; `n` counts the transmissions. -/
def tcpOutputLoop (env : TcpEnv) (wnd : Nat) :
    Nat → List TcpSeg → TcpPcb → Asserting (Err × TcpPcb)
  | _, [], pcb => .ok (.ok, tcpOutputDone { pcb with unsent := [] })
  | n, seg :: next, pcb =>
    if tcpSegEnd pcb seg ≤ wnd then do
      lwipAssert "RST not expected here!" (seg.tcphdr.flags.rst = false)
      if !tcpDoOutputNagle { pcb with unsent := seg :: next } ∧ !pcb.tfNaglememerr ∧
          !pcb.tfFin then .ok (.ok, tcpOutputDone { pcb with unsent := seg :: next })
      else
        match tcpOutputSegment env n (tcpPrepare pcb seg) pcb with
        | (err, seg, pcb) =>
          if err ≠ .ok then .ok (err, { pcb with unsent := seg :: next, tfNaglememerr := true })
          else tcpOutputLoop env wnd (n + 1) next (tcpSegSent seg next pcb)
    else .ok (.ok, tcpOutputDone { pcb with unsent := seg :: next })

/-- Whether the first unsent segment ends behind the window. -/
def tcpOutsideWindow (pcb : TcpPcb) (wnd : Nat) : Bool :=
  match pcb.unsent with
  | [] => false
  | seg :: _ => tcpSegEnd pcb seg > wnd

/-- Start of the persist timer. -/
def tcpPersistStart (pcb : TcpPcb) : TcpPcb :=
  if pcb.persistBackoff = 0 then { pcb with persistCnt := 0, persistBackoff := 1 } else pcb

def tcpOutput (env : TcpEnv) (pcb : TcpPcb) : Asserting (Err × TcpPcb) := do
  lwipAssert "don't call tcp_output for listen-pcbs" (pcb.state ≠ .listen)
  let wnd := min pcb.sndWnd pcb.cwnd
  if env.inputPcb then .ok (.ok, pcb)
  else if pcb.tfAckNow ∧ (pcb.unsent = [] ∨ tcpOutsideWindow pcb wnd) then
    .ok (tcpSendEmptyAck env 0 pcb)
  else if !env.route then .ok (.rte, pcb)
  else if tcpOutsideWindow pcb wnd ∧ wnd > 0 ∧ wnd = pcb.sndWnd ∧ pcb.unacked = [] then
    .ok (.ok, tcpOutputDone (tcpPersistStart pcb))
  else tcpOutputLoop env wnd 0 pcb.unsent pcb

/-! ## Retransmission -/

def tcpRexmitRto (env : TcpEnv) (pcb : TcpPcb) : Asserting TcpPcb :=
  match pcb.unacked.getLast? with
  | none => .ok pcb
  | some seg => do
    let (_, pcb) ← tcpOutput env { pcb with
      unsent := pcb.unacked ++ pcb.unsent
      unsentOversize := if env.lwipDebug ∧ pcb.unsent = [] then seg.oversizeLeft
        else pcb.unsentOversize
      unacked := []
      nrtx := (pcb.nrtx + 1) % 256
      rttest := 0 }
    .ok pcb

def tcpRexmit (pcb : TcpPcb) : TcpPcb :=
  match pcb.unacked with
  | [] => pcb
  | seg :: next =>
    let unsent := tcpInsertSorted seg pcb.unsent
    { pcb with
      unacked := next
      unsent := unsent
      -- the segment stands last exactly if all others are lower
      unsentOversize := if pcb.unsent.all fun cur => seqLt cur.tcphdr.seqno seg.tcphdr.seqno
        then 0 else pcb.unsentOversize
      nrtx := (pcb.nrtx + 1) % 256
      rttest := 0 }

def tcpRexmitFast (pcb : TcpPcb) : TcpPcb :=
  if pcb.unacked ≠ [] ∧ !pcb.tfInfr then
    let pcb := tcpRexmit pcb
    let half := if pcb.cwnd > pcb.sndWnd then pcb.sndWnd / 2 else pcb.cwnd / 2
    let ssthresh := if half < 2 * pcb.mss then u16 (2 * pcb.mss) else half
    { pcb with
      ssthresh := ssthresh
      cwnd := u16 (ssthresh + 3 * pcb.mss)
      tfInfr := true
      rtime := 0 }
  else pcb

def tcpZeroWindowProbe (env : TcpEnv) (pcb : TcpPcb) : Err × TcpPcb :=
  match (pcb.unacked ++ pcb.unsent).head? with
  | none => (.ok, pcb)
  | some seg =>
    let isFin := seg.tcphdr.flags.fin && seg.len = 0
    if !env.alloc 0 then (.mem, pcb)
    else
      let tcphdr : TcpHdr :=
        { seqno := seg.tcphdr.seqno, ackno := pcb.rcvNxt, flags := { ack := true, fin := isFin }
          wnd := pcb.rcvAnnWnd }
      let sndNxt := seg.tcphdr.seqno + 1
      let pcb := { pcb with
        rcvAnnRightEdge := pcb.rcvNxt + UInt32.ofNat pcb.rcvAnnWnd
        sndNxt := if seqLt pcb.sndNxt sndNxt then sndNxt else pcb.sndNxt }
      if !env.route then (.rte, pcb)
      else (env.output 0, { pcb with sent := pcb.sent ++ [(tcphdr, env.output 0)] })

def tcpKeepalive (env : TcpEnv) (pcb : TcpPcb) : Err × TcpPcb :=
  if !env.alloc 0 then (.mem, pcb)
  else
    let tcphdr : TcpHdr :=
      { seqno := pcb.sndNxt - 1, ackno := pcb.rcvNxt, flags := { ack := true }
        wnd := pcb.rcvAnnWnd }
    let pcb := { pcb with rcvAnnRightEdge := pcb.rcvNxt + UInt32.ofNat pcb.rcvAnnWnd }
    if !env.route then (.rte, pcb)
    else (env.output 0, { pcb with sent := pcb.sent ++ [(tcphdr, env.output 0)] })

end Lwip
