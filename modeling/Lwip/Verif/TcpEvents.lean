import Lwip.Verif.TcpMoves

/-!
# The moves of an event

Every event of a connection is a sequence of moves. What a guard has to admit is said in terms of
the control block in front of the event: the segments queued there, the numbers of the header that
arrives, and the segments that the driver still refers to.
-/

namespace Lwip

open Insertion Outcome Transition List

section Events

variable {admitted : TcpCore → TcpAct → Prop}

/-! ## Acknowledgements -/

/-- A control block as an acknowledgement finds it: nothing is sent or acknowledged, but segments
may have changed their queue. -/
structure AckReady (c c' : TcpCore) : Prop where
  sndNxt : c'.sndNxt = c.sndNxt
  lastack : c'.lastack = c.lastack
  sndBuf : c'.sndBuf = c.sndBuf
  segs : (c'.unacked ++ c'.unsent).Perm (c.unacked ++ c.unsent)

/-- Nothing has changed. -/
theorem AckReady.rfl' {c : TcpCore} : AckReady c c := ⟨rfl, rfl, rfl, List.Perm.refl _⟩

/-- The fields of the sender have not changed. -/
theorem ackReady_of_sendSide {pcb pcb' : TcpPcb} (same : sendSide pcb' = sendSide pcb) :
    AckReady (core pcb) (core pcb') := by
  obtain ⟨unsent, unacked, _, sndBuf, _, _, sndNxt, lastack⟩ := SendSide.mk.inj same
  refine ⟨sndNxt, lastack, sndBuf, ?_⟩
  simp only [core, unacked, unsent]
  exact List.Perm.refl _

/-- The segments that an acknowledgement removes from `unacked`. -/
def ackedSegs (c : TcpCore) (ackno : UInt32) : List SegKey :=
  if freshAck c ackno then c.unacked.takeWhile (ackedBy ackno) else []

/-- A control block in the middle of an acknowledgement, with `unacked` pruned. -/
def ackedCore (c : TcpCore) (ackno : UInt32) : TcpCore :=
  { c with
    lastack := if freshAck c ackno then ackno else c.lastack
    unacked := if freshAck c ackno then c.unacked.dropWhile (ackedBy ackno) else c.unacked
    sndQueuelen := c.sndQueuelen - pbufClens (ackedSegs c ackno) }

/-- The pbufs of two queues. -/
theorem pbufClens_append (keys more : List SegKey) :
    pbufClens (keys ++ more) = pbufClens keys + pbufClens more := by
  simp [pbufClens]

/-- The bytes of two queues. -/
theorem lens_append (keys more : List SegKey) : lens (keys ++ more) = lens keys + lens more := by
  simp [lens]

/-- The lengths of segments that have been counted modulo `2 ^ 16`. -/
theorem u16_add_u16 (m n : Nat) : u16 (u16 m + n) = u16 (m + n) := by
  unfold u16
  omega

/-- What the removal of acknowledged segments does: their pbufs and bytes are counted, and `after`
is left. -/
structure SegsFreed (keys : List SegKey) (recvAcked : Nat) (pcb : TcpPcb) (after : TcpCore)
    (result : Nat × TcpPcb) : Prop where
  room : pbufClens keys ≤ pcb.sndQueuelen
  number : result.1 = u16 (recvAcked + lens keys)
  left : core result.2 = { after with sndQueuelen := pcb.sndQueuelen - pbufClens keys }

/-- No segment is freed. -/
theorem segsFreed_nil {recvAcked : Nat} {pcb pcb' : TcpPcb} {after : TcpCore}
    (small : recvAcked < 65536)
    (same : core pcb' = { after with sndQueuelen := pcb.sndQueuelen }) :
    SegsFreed [] recvAcked pcb after (recvAcked, pcb') :=
  ⟨Nat.zero_le _, (Nat.mod_eq_of_lt small).symm, same⟩

/-- A segment is freed in front of others. -/
theorem SegsFreed.cons {next : TcpSeg} {keys : List SegKey} {recvAcked : Nat} {pcb pcb' : TcpPcb}
    {after after' : TcpCore} {result : Nat × TcpPcb}
    (freed : SegsFreed keys (u16 (recvAcked + next.len)) pcb' after' result)
    (enough : pbufClen next.p ≤ pcb.sndQueuelen)
    (queuelen : pcb'.sndQueuelen = pcb.sndQueuelen - pbufClen next.p)
    (same : ∀ n, { after' with sndQueuelen := n } = { after with sndQueuelen := n }) :
    SegsFreed (segKey next :: keys) recvAcked pcb after result := by
  have first : pbufClens (segKey next :: keys) = pbufClen next.p + pbufClens keys := rfl
  have length : lens (segKey next :: keys) = next.len + lens keys := rfl
  have room := freed.room
  refine ⟨by omega, ?_, ?_⟩
  · rw [freed.number, u16_add_u16, length, Nat.add_assoc]
  · rw [freed.left, same, queuelen, first, Nat.sub_sub]

/-- The segments that `tcp_receive` frees on `unacked`. -/
theorem tcpFreeAcked_core (ackno : UInt32) (unacked : List TcpSeg) (recvAcked : Nat)
    (pcb : TcpPcb) (small : recvAcked < 65536) :
    Ensures AnyError (tcpFreeAcked ackno unacked recvAcked pcb)
      (SegsFreed ((unacked.map segKey).takeWhile (ackedBy ackno)) recvAcked pcb
        { core pcb with unacked := (unacked.map segKey).dropWhile (ackedBy ackno) }) := by
  induction unacked generalizing recvAcked pcb with
  | nil => exact .ok (segsFreed_nil small rfl)
  | cons next more ih =>
    unfold tcpFreeAcked
    rw [map_cons]
    split
    · rename_i acked
      have acked' : ackedBy ackno (segKey next) = true := acked
      rw [takeWhile_cons_of_pos acked', dropWhile_cons_of_pos acked']
      apply (tcpSegAcked_spec next recvAcked _).any.bind
      rintro _ ⟨enough, rfl⟩
      exact (ih _ _ (u16_lt _)).mono fun _ freed => freed.cons enough rfl fun _ => rfl
    · rename_i kept
      have kept' : ¬ackedBy ackno (segKey next) = true := kept
      rw [takeWhile_cons_of_neg kept', dropWhile_cons_of_neg kept']
      exact .ok (segsFreed_nil small rfl)

/-- The segments that `tcp_receive` frees on `unsent`; nothing can be appended to the last one. -/
theorem tcpFreeUnsentAcked_core (ackno : UInt32) (unsent : List TcpSeg) (recvAcked : Nat)
    (pcb : TcpPcb) (small : recvAcked < 65536) :
    Ensures AnyError (tcpFreeUnsentAcked ackno unsent recvAcked pcb)
      (SegsFreed ((unsent.map segKey).takeWhile (unsentAckedBy ackno pcb.sndNxt)) recvAcked pcb
        { core pcb with
          unsent := (unsent.map segKey).dropWhile (unsentAckedBy ackno pcb.sndNxt)
          unsentOversize := if unsent.map segKey ≠ [] ∧
              (unsent.map segKey).dropWhile (unsentAckedBy ackno pcb.sndNxt) = [] then 0
            else pcb.unsentOversize }) := by
  induction unsent generalizing recvAcked pcb with
  | nil => exact .ok (segsFreed_nil small rfl)
  | cons next more ih =>
    unfold tcpFreeUnsentAcked
    rw [map_cons]
    split
    · rename_i acked
      have acked' : unsentAckedBy ackno pcb.sndNxt (segKey next) = true := acked
      rw [takeWhile_cons_of_pos acked', dropWhile_cons_of_pos acked']
      apply (tcpSegAcked_spec next recvAcked _).any.bind
      rintro _ ⟨enough, rfl⟩
      exact (ih _ _ (u16_lt _)).mono fun _ freed => freed.cons enough rfl fun _ => by
        cases more <;> simp [core]
    · rename_i kept
      have kept' : ¬unsentAckedBy ackno pcb.sndNxt (segKey next) = true := kept
      rw [takeWhile_cons_of_neg kept', dropWhile_cons_of_neg kept']
      exact .ok (segsFreed_nil small (by simp [core]))

/-- The congestion window is not part of the core. -/
theorem tcpGrowCwnd_core (pcb : TcpPcb) :
    Ensures AnyError (tcpGrowCwnd pcb) fun pcb' => core pcb' = core pcb := by
  unfold tcpGrowCwnd
  split
  · exact .ok rfl
  · apply ensures_pass trivial
    exact .ok rfl

/-- The options are not part of the core. -/
theorem tcpParseopt_core (opts : List UInt8) (pcb : TcpPcb) :
    core (tcpParseopt opts pcb) = core pcb := by
  obtain ⟨mss, same, _⟩ := tcpParseopt_eq opts pcb
  rw [same]
  rfl

/-- The estimate of the round trip time is not part of the core. -/
theorem tcpEstimateRtt_core (env : TcpEnv) (ackno : UInt32) (pcb : TcpPcb) :
    core (tcpEstimateRtt env ackno pcb) = core pcb := by
  unfold tcpEstimateRtt
  split <;> rfl

/-- A new acknowledgement removes the segments of `unacked` that it covers. -/
theorem tcpNewAck_core (i : TcpInput) (pcb : TcpPcb) (zero : i.recvAcked = 0)
    (fresh : freshAck (core pcb) i.ackno = true) :
    Ensures AnyError (tcpNewAck i pcb) fun result =>
      pbufClens (ackedSegs (core pcb) i.ackno) ≤ pcb.sndQueuelen ∧
        result.1 = u16 (lens (ackedSegs (core pcb) i.ackno)) ∧
        core result.2 = ackedCore (core pcb) i.ackno := by
  unfold tcpNewAck ackedCore ackedSegs
  rw [if_pos fresh, if_pos fresh, if_pos fresh]
  apply (tcpGrowCwnd_core _).bind
  intro pcb' grown
  have unacked : pcb'.unacked.map segKey = (core pcb).unacked := congrArg TcpCore.unacked grown
  have queuelen : pcb'.sndQueuelen = pcb.sndQueuelen := congrArg TcpCore.sndQueuelen grown
  apply (tcpFreeAcked_core i.ackno pcb'.unacked i.recvAcked pcb' (by omega)).bind
  rintro ⟨recvAcked, pcb''⟩ ⟨room, number, left⟩
  rw [unacked, queuelen] at room left
  rw [unacked, zero, Nat.zero_add] at number
  rw [grown] at left
  exact .ok ⟨room, number, left⟩

/-- `tcp_rexmit` only moves a segment to the other queue. -/
theorem tcpRexmit_ready (pcb : TcpPcb) : AckReady (core pcb) (core (tcpRexmit pcb)) := by
  unfold tcpRexmit
  split
  · exact AckReady.rfl'
  rename_i seg next first
  constructor
  · rfl
  · rfl
  · rfl
  · simp only [core, map_tcpInsertSorted, first, map_cons]
    exact (perm_insertSorted.append_left _).trans perm_middle

/-- So does `tcp_rexmit_fast`. -/
theorem tcpRexmitFast_ready (pcb : TcpPcb) : AckReady (core pcb) (core (tcpRexmitFast pcb)) := by
  unfold tcpRexmitFast
  split
  · exact tcpRexmit_ready pcb
  · exact AckReady.rfl'

variable (plain : AdmitsPlain admitted)

include plain

variable (env : TcpEnv) (i : TcpInput) (pcb : TcpPcb)

/-- A duplicate acknowledgement may retransmit a segment, and removes none. -/
theorem tcpDupack_moves (rightWndEdge : UInt32) (pcb : TcpPcb) (state : pcb.state ≠ .synSent) :
    Moves admitted (core pcb) (core (tcpDupack i rightWndEdge pcb)) ∧
      AckReady (core pcb) (core (tcpDupack i rightWndEdge pcb)) := by
  unfold tcpDupack
  split
  · unfold tcpDupackReaction
    split
    · exact ⟨Run.refl, AckReady.rfl'⟩
    · split
      · exact ⟨tcpRexmitFast_moves plain (tcpCountDupack pcb) state,
          tcpRexmitFast_ready (tcpCountDupack pcb)⟩
      · exact ⟨Run.refl, AckReady.rfl'⟩
  · exact ⟨Run.refl, AckReady.rfl'⟩

/-- The three kinds of acknowledgements: segments are moved, and then those that are covered are
removed from `unacked`. -/
theorem tcpAckKinds_moves (rightWndEdge : UInt32) (pcb : TcpPcb) (zero : i.recvAcked = 0)
    (state : pcb.state ≠ .synSent) :
    Ensures AnyError (tcpAckKinds env i rightWndEdge pcb) fun result =>
      ∃ c, Moves admitted (core pcb) c ∧ AckReady (core pcb) c ∧ c.state = pcb.state ∧
        pbufClens (ackedSegs c i.ackno) ≤ c.sndQueuelen ∧
        result.1 = u16 (lens (ackedSegs c i.ackno)) ∧ core result.2 = ackedCore c i.ackno := by
  have stale : ∀ pcb' : TcpPcb, freshAck (core pcb') i.ackno = false →
      pbufClens (ackedSegs (core pcb') i.ackno) ≤ pcb'.sndQueuelen ∧
        i.recvAcked = u16 (lens (ackedSegs (core pcb') i.ackno)) ∧
        core pcb' = ackedCore (core pcb') i.ackno := by
    intro pcb' old
    unfold ackedCore ackedSegs
    rw [old]
    exact ⟨Nat.zero_le _, zero, rfl⟩
  unfold tcpAckKinds
  split
  · rename_i old
    have moved := tcpDupack_moves plain i rightWndEdge pcb state
    have notFresh : freshAck (core (tcpDupack i rightWndEdge pcb)) i.ackno = false := by
      unfold freshAck
      rw [moved.2.lastack, show seqLeq i.ackno (core pcb).lastack = true from old]
      rfl
    have same : (tcpDupack i rightWndEdge pcb).state = pcb.state :=
      congrArg (fun side => side.2.2.2) (tcpDupack_receiveSide i rightWndEdge pcb)
    exact .ok ⟨_, moved.1, moved.2, same, stale _ notFresh⟩
  · rename_i new
    have beyond : seqLeq i.ackno pcb.lastack = false := by simpa using new
    split
    · rename_i inside
      have fresh : freshAck (core pcb) i.ackno = true := by
        simp only [freshAck, core, beyond, inside]
        rfl
      exact (tcpNewAck_core i pcb zero fresh).mono fun _ done =>
        ⟨_, Run.refl, AckReady.rfl', rfl, done⟩
    rename_i outside
    have moves := tcpSendEmptyAck_moves plain env 0 pcb
    have ready := ackReady_of_sendSide (tcpSendEmptyAck_sides env 0 pcb).2
    have notFresh : freshAck (core (tcpSendEmptyAck env 0 pcb).2) i.ackno = false := by
      unfold freshAck
      rw [ready.lastack, ready.sndNxt,
        show seqBetween i.ackno ((core pcb).lastack + 1) (core pcb).sndNxt = false by
          simpa [core] using outside, Bool.and_false]
    have same : (tcpSendEmptyAck env 0 pcb).2.state = pcb.state :=
      congrArg (fun side => side.2.2.2) (tcpSendEmptyAck_sides env 0 pcb).1
    exact .ok ⟨_, moves, ready, same, stale _ notFresh⟩

/-- What the acknowledgement in a segment does: nothing, or the removal of segments. -/
def Acknowledged (admitted : TcpCore → TcpAct → Prop) (i : TcpInput) (pcb : TcpPcb)
    (result : TcpInput × TcpPcb) : Prop :=
  (i.flags.ack = false ∧ result = (i, pcb)) ∨
    ∃ c, i.flags.ack = true ∧ Moves admitted (core pcb) c ∧ AckReady (core pcb) c ∧
      c.state = pcb.state ∧ pbufClens (removedBy c i.ackno) ≤ c.sndQueuelen ∧
      result.1 = { i with recvAcked := u16 (lens (removedBy c i.ackno)) } ∧
      core result.2 = ackCore c i.ackno

/-- The part of `tcp_receive` for the acknowledgement. -/
theorem tcpReceiveAck_spec (state : pcb.state ≠ .synSent) (zero : i.recvAcked = 0)
    (windows : ∀ c, admitted c (.peerWindow i.wnd)) :
    Ensures AnyError (tcpReceiveAck env i pcb) (Acknowledged admitted i pcb) := by
  unfold tcpReceiveAck
  split
  · rename_i isAck
    have window : Moves admitted (core pcb) (core (tcpUpdateSndWnd i pcb)) := by
      unfold tcpUpdateSndWnd
      split
      · apply moves_one (windows _) (.peerWindow i.wnd)
        dsimp only
        split
        · unfold tcpPersistStart
          split <;> rfl
        · split <;> rfl
      · exact Run.refl
    have sides := tcpUpdateSndWnd_sides i pcb
    have unchanged := ackReady_of_sendSide sides.2
    have same : (tcpUpdateSndWnd i pcb).state = pcb.state :=
      congrArg (fun side => side.2.2.2) sides.1
    apply (tcpAckKinds_moves plain env i _ (tcpUpdateSndWnd i pcb) zero
      (by rw [same]; exact state)).bind
    intro result kinds
    obtain ⟨recvAcked, pcb'⟩ := result
    obtain ⟨c, moves, ready, kept, room, number, after⟩ := kinds
    dsimp only at number after ⊢
    have small : recvAcked < 65536 := by
      rw [number]
      exact u16_lt _
    apply (tcpFreeUnsentAcked_core i.ackno pcb'.unsent recvAcked pcb' small).bind
    intro result pruned
    obtain ⟨recvAcked', pcb''⟩ := result
    obtain ⟨room', number', after'⟩ := pruned
    dsimp only at number' after' ⊢
    apply Ensures.ok
    have unsent : pcb'.unsent.map segKey = c.unsent := congrArg TcpCore.unsent after
    have sndNxt : pcb'.sndNxt = c.sndNxt := congrArg TcpCore.sndNxt after
    have queuelen : pcb'.sndQueuelen = c.sndQueuelen - pbufClens (ackedSegs c i.ackno) :=
      congrArg TcpCore.sndQueuelen after
    have oversize : pcb'.unsentOversize = c.unsentOversize := congrArg TcpCore.unsentOversize after
    have before : pcb'.sndBuf = c.sndBuf := congrArg TcpCore.sndBuf after
    have buffer : pcb''.sndBuf = pcb'.sndBuf := congrArg TcpCore.sndBuf after'
    rw [unsent, sndNxt, queuelen] at room'
    rw [unsent, sndNxt] at number'
    rw [unsent, sndNxt, queuelen, oversize, after] at after'
    have removed : removedBy c i.ackno = ackedSegs c i.ackno ++
        c.unsent.takeWhile (unsentAckedBy i.ackno c.sndNxt) := rfl
    have total : recvAcked' = u16 (lens (removedBy c i.ackno)) := by
      rw [number', number, u16_add_u16, removed, lens_append]
    have credit : u16 (pcb''.sndBuf + recvAcked') = u16
      (c.sndBuf + lens (removedBy c i.ackno)) := by
      rw [total, buffer, before]
      unfold u16
      omega
    refine .inr ⟨c, isAck, window.trans moves, ⟨ready.sndNxt.trans unchanged.sndNxt,
      ready.lastack.trans unchanged.lastack, ready.sndBuf.trans unchanged.sndBuf,
      ready.segs.trans unchanged.segs⟩, kept.trans same, ?_, by rw [total], ?_⟩
    · rw [removed, pbufClens_append]
      omega
    · have same : core { pcb'' with sndBuf := u16 (pcb''.sndBuf + recvAcked') } =
          { core pcb'' with sndBuf := u16 (pcb''.sndBuf + recvAcked') } := rfl
      rw [tcpEstimateRtt_core, same, after', credit, ackCore, removed, pbufClens_append,
        ← Nat.sub_sub]
      rfl
  · rename_i noAck
    exact .ok (Or.inl ⟨by simpa using noAck, rfl⟩)

omit plain in
/-- The acknowledgement in a segment is a move. -/
theorem Acknowledged.moves {i : TcpInput} {pcb : TcpPcb} {result : TcpInput × TcpPcb}
    (acknowledged : Acknowledged admitted i pcb result) (before : pcb.state.Open)
    (acks : i.flags.ack = true → ∀ c, AckReady (core pcb) c → admitted c (.ack i.ackno)) :
    Moves admitted (core pcb) (core result.2) := by
  rcases acknowledged with ⟨_, same⟩ | ⟨c, isAck, moves, ready, kept, enough, _, after⟩
  · rw [same]
    exact Run.refl
  · rw [after]
    apply moves.trans
    exact moves_one (acks isAck c ready) (.ack i.ackno enough (by rw [kept]; exact before)) rfl

omit plain in
/-- `tcp_update_rcv_ann_wnd` chooses the window to announce. -/
theorem tcpUpdateRcvAnnWnd_core :
    Ensures AnyError (tcpUpdateRcvAnnWnd pcb) fun result =>
      ∃ wnd, WndUpdated pcb.rcvNxt pcb.rcvWnd pcb.rcvAnnRightEdge wnd ∧
        core result.2 = { core pcb with rcvAnnWnd := wnd } := by
  unfold tcpUpdateRcvAnnWnd
  dsimp only
  split
  · rename_i large
    exact .ok ⟨pcb.rcvWnd, Or.inl ⟨_, Nat.min_le_left _ _, large, rfl⟩, rfl⟩
  split
  · rename_i beyond
    exact .ok ⟨0, Or.inr (Or.inl ⟨beyond, rfl⟩), rfl⟩
  · rename_i inside
    apply ensures_assert (fun _ => trivial)
    intro small
    refine .ok ⟨_, Or.inr (Or.inr ⟨inside, small, rfl⟩), ?_⟩
    rw [u16_of_lt (by omega)]
    rfl

section

variable (advances : ∀ c, admitted c .advance)

include advances

omit plain in
/-- A step of `rcv_nxt` is a move. -/
theorem tcpAdvance_moves (message : String) (tcplen : Nat) (pcb : TcpPcb) :
    Ensures AnyError (tcpAdvance message tcplen pcb) fun pcb' =>
      Moves admitted (core pcb) (core pcb') ∧ pcb'.state = pcb.state := by
  unfold tcpAdvance
  apply ensures_assert (fun _ => trivial)
  intro enough
  apply (tcpUpdateRcvAnnWnd_core _).bind
  intro result updated
  obtain ⟨wnd, chosen, after⟩ := updated
  apply Ensures.ok
  constructor
  · exact moves_one (advances _) (.advance tcplen wnd enough chosen) after.symm
  · exact congrArg TcpCore.state after

/-- Every segment taken from `ooseq` advances `rcv_nxt`. -/
theorem tcpDequeue_moves (queue : List TcpSeg) (i : TcpInput) (pcb : TcpPcb) :
    Ensures AnyError (tcpDequeue queue i pcb) fun result =>
      Moves admitted (core pcb) (core result.2) := by
  induction queue generalizing i pcb with
  | nil => exact .ok Run.refl
  | cons cseg next ih =>
    unfold tcpDequeue
    split
    · apply (tcpAdvance_moves advances _ (tcpTcplen cseg) pcb).bind
      intro pcb' advanced
      apply ensures_skip
      intro recvData
      have closes : Moves admitted (core pcb') (core { pcb' with
          state := if cseg.tcphdr.flags.fin ∧ pcb'.state = .established then .closeWait
            else pcb'.state }) := by
        split
        · rename_i fin
          exact moves_single plain (.enter .closeWait
            (by rw [show (core pcb').state = _ from fin.2]; exact ⟨by decide, by decide⟩)
            ⟨by decide, by decide⟩) rfl rfl
        · exact Run.refl
      exact (ih _ _).mono fun _ moves => (advanced.1.trans closes).trans moves
    · exact .ok Run.refl

/-- Data in sequence advances `rcv_nxt`. -/
theorem tcpReceiveInseq_moves (i : TcpInput) (pcb : TcpPcb) :
    Ensures AnyError (tcpReceiveInseq i pcb) fun result =>
      Moves admitted (core pcb) (core result.2) := by
  unfold tcpReceiveInseq
  apply ensures_skip
  intro inseg
  apply ensures_skip
  intro adjusted
  apply (tcpAdvance_moves advances _ (tcpTcplen adjusted.1) pcb).bind
  intro pcb' advanced
  apply (tcpDequeue_moves plain advances adjusted.2 _ pcb').bind
  intro result moves
  apply Ensures.ok
  have acked : core (tcpAck result.2) = core result.2 := by
    unfold tcpAck
    split <;> rfl
  rw [acked]
  exact advanced.1.trans moves

/-- Data in the window or beside it. -/
theorem tcpReceiveWindow_moves (env : TcpEnv) (i : TcpInput) (pcb : TcpPcb) :
    Ensures AnyError (tcpReceiveWindow env i pcb) fun result =>
      Moves admitted (core pcb) (core result.2) := by
  unfold tcpReceiveWindow
  split
  · split
    · exact tcpReceiveInseq_moves plain advances i pcb
    · unfold tcpReceiveOoseq
      apply ensures_skip
      intro ooseq
      exact .ok (tcpSendEmptyAck_moves plain env 1 pcb)
  · exact .ok (tcpSendEmptyAck_moves plain env 1 pcb)

/-- The part of `tcp_receive` for the data. -/
theorem tcpReceiveData_moves (env : TcpEnv) (i : TcpInput) (pcb : TcpPcb) :
    Ensures AnyError (tcpReceiveData env i pcb) fun result =>
      Moves admitted (core pcb) (core result.2) := by
  unfold tcpReceiveData
  split
  · split
    · apply ensures_skip
      intro trimmed
      exact tcpReceiveWindow_moves plain advances env trimmed pcb
    · apply (tcpReceiveWindow_moves plain advances env i _).mono
      intro result moves
      have same : core (if seqLt i.seqno pcb.rcvNxt then tcpAckNow pcb else pcb) = core pcb := by
        split <;> rfl
      rw [same] at moves
      exact moves
  · apply Ensures.ok
    split <;> exact Run.refl

end

/-! ## The state machine -/

omit plain in
/-- A connection behind `SYN_SENT` keeps its queues unless they are purged. -/
theorem Moves.open {c c' : TcpCore}
    (moves : Moves (fun c act => admitted c act ∧ act ≠ .purge) c c') (before : c.state.Open) :
    c'.state.Open := by
  induction moves with
  | refl => exact before
  | tail _ act meets move opened =>
    cases move with
    | enter state _ behind => exact behind
    | synAck rcvNxt wnd unacked unsent opening _ _ =>
      exact absurd opened.1 (by rw [opening]; decide)
    | connect iss closed => exact absurd opened.1 (by rw [closed]; decide)
    | purge _ => exact absurd rfl meets.2
    | _ => exact opened

/-- The moves that are always admitted do not purge a connection. -/
theorem plain_not_purge : AdmitsPlain fun c act => admitted c act ∧ act ≠ .purge := by
  intro c act always
  refine ⟨plain c act always, ?_⟩
  intro isPurge
  rw [isPurge] at always
  cases always

omit plain in
/-- A connection that enters `TIME_WAIT` is purged. -/
theorem tcpEnterTimeWait_moves (late : pcb.state.Open) (purges : ∀ c, admitted c .purge) :
    Ensures AnyError (tcpEnterTimeWait pcb) fun pcb' =>
      Moves admitted (core pcb) (core pcb') := by
  have purged : Ensures AnyError (tcpPcbPurge pcb) fun pcb' =>
      core pcb' = { core pcb with unsent := [], unacked := [], unsentOversize := 0 } := by
    have kept : pcb.state ≠ .closed ∧ pcb.state ≠ .timeWait ∧ pcb.state ≠ .listen := by
      refine ⟨?_, late.2, ?_⟩
      · intro closed
        exact absurd late.1 (by rw [closed]; decide)
      · intro listening
        exact absurd late.1 (by rw [listening]; decide)
    unfold tcpPcbPurge
    rw [if_pos kept]
    apply ensures_skip
    intro _
    apply ensures_skip
    intro _
    apply ensures_skip
    intro _
    exact .ok rfl
  unfold tcpEnterTimeWait
  apply purged.bind
  intro pcb' same
  apply Ensures.ok
  apply moves_one (purges _) (.purge late)
  exact (congrArg (fun c : TcpCore => { c with state := .timeWait }) same).symm

/-- The transitions of `tcp_process` behind `tcp_receive`. -/
theorem tcpAfterReceive_moves (state : TcpState) (i : TcpInput) (pcb : TcpPcb)
    (late : pcb.state.Open) (purges : ∀ c, admitted c .purge) :
    Ensures AnyError (tcpAfterReceive state i pcb) fun result =>
      Moves admitted (core pcb) (core result.2) := by
  have timeWait : ∀ pcb', core pcb' = core pcb → Ensures AnyError (do
      let pcb'' ← tcpEnterTimeWait pcb'
      .ok (i, pcb'')) fun result : TcpInput × TcpPcb =>
        Moves admitted (core pcb) (core result.2) := by
    intro pcb' same
    have late' : pcb'.state.Open := by
      rw [show pcb'.state = pcb.state from congrArg TcpCore.state same]
      exact late
    apply (tcpEnterTimeWait_moves pcb' late' purges).bind
    intro pcb'' moves
    rw [same] at moves
    exact .ok moves
  have closeWait : Moves admitted (core pcb)
      (core (if i.tfGotFin then { tcpAckNow pcb with state := .closeWait } else pcb)) := by
    split
    · exact moves_enter plain (tcpAckNow pcb) .closeWait late ⟨by decide, by decide⟩
    · exact Run.refl
  unfold tcpAfterReceive
  split
  · exact .ok closeWait
  · exact .ok closeWait
  · split
    · split
      · exact timeWait (tcpAckNow pcb) rfl
      · exact .ok (moves_enter plain (tcpAckNow pcb) .closing late ⟨by decide, by decide⟩)
    · apply Ensures.ok
      split
      · exact moves_enter plain pcb .finWait2 late ⟨by decide, by decide⟩
      · exact Run.refl
  · split
    · exact timeWait (tcpAckNow pcb) rfl
    · exact .ok Run.refl
  · split
    · exact timeWait pcb rfl
    · exact .ok Run.refl
  · exact .ok Run.refl
  · exact .ok Run.refl

section

variable (zero : i.recvAcked = 0) (advances : ∀ c, admitted c .advance)
  (windows : ∀ c, admitted c (.peerWindow i.wnd))
  (acks : i.flags.ack = true → ∀ c, AckReady (core pcb) c → admitted c (.ack i.ackno))
  (before : pcb.state.Open)

include zero advances windows acks before

/-- `tcp_receive` takes the acknowledgement and then the data. -/
theorem tcpReceive_moves :
    Ensures AnyError (tcpReceive env i pcb) fun result =>
      Moves admitted (core pcb) (core result.2) := by
  unfold tcpReceive
  apply ensures_pass trivial
  apply (tcpReceiveAck_spec plain env i pcb before.not_synSent zero windows).bind
  intro result acked
  exact (tcpReceiveData_moves plain advances env result.1 result.2).mono fun _ moves =>
    (acked.moves before acks).trans moves

/-- `tcp_receive` does not purge a connection. -/
theorem tcpReceive_open :
    Ensures AnyError (tcpReceive env i pcb) fun result =>
      Moves admitted (core pcb) (core result.2) ∧ result.2.state.Open := by
  apply (tcpReceive_moves (plain_not_purge plain) env i pcb zero
    (fun c => ⟨advances c, by simp⟩) (fun c => ⟨windows c, by simp⟩)
    (fun isAck c ready => ⟨acks isAck c ready, by simp⟩) before).mono
  intro result moves
  constructor
  · exact moves.mono fun _ _ admits => admits.1
  · exact Moves.open moves before

/-- What `tcp_process` does once the connection is accepted. -/
theorem tcpProcessAccepted_moves :
    Ensures AnyError (tcpProcessAccepted env i pcb) fun processed =>
      Moves admitted (core pcb) (core processed.pcb) := by
  unfold tcpProcessAccepted
  apply (tcpReceive_open plain env i pcb zero advances windows acks before).bind
  intro result received
  apply Ensures.ok
  apply received.1.trans
  split
  · exact moves_enter plain (tcpAckNow result.2) .closeWait received.2 ⟨by decide, by decide⟩
  · exact Run.refl

end

omit plain in
/-- A `SYN` that acknowledges ours removes it from its queue. -/
theorem tcpProcessSynAck_moves (opening : pcb.state = .synSent) (number : i.ackno = pcb.lastack + 1)
    (windows : ∀ c, admitted c (.synAck i.wnd)) :
    Ensures AnyError (tcpProcessSynAck env i pcb) fun processed =>
      Moves admitted (core pcb) (core processed.pcb) := by
  unfold tcpProcessSynAck
  apply ensures_assert (fun _ => trivial)
  intro some'
  dsimp only
  have freed : ∀ pcb' : TcpPcb, Ensures AnyError (tcpFreeSyn pcb') fun pcb'' =>
      ∃ unacked unsent, ((∃ syn, (core pcb').unacked = syn :: unacked ∧
          unsent = (core pcb').unsent) ∨
        ((core pcb').unacked = [] ∧ unacked = [] ∧ ∃ syn, (core pcb').unsent = syn :: unsent)) ∧
        core pcb'' = { core pcb' with unacked := unacked, unsent := unsent } := by
    intro pcb'
    unfold tcpFreeSyn
    split
    · rename_i rseg next first
      apply ensures_skip
      intro _
      exact .ok ⟨next.map segKey, _, Or.inl ⟨segKey rseg, by simp [core, first], rfl⟩, rfl⟩
    · rename_i rseg next none' first
      apply ensures_skip
      intro _
      apply Ensures.ok
      refine ⟨[], next.map segKey, Or.inr ⟨by simp [core, none'], rfl, segKey rseg,
        by simp [core, first]⟩, by simp [core, none']⟩
    · exact .error trivial
  apply (freed _).bind
  intro pcb' done
  obtain ⟨unacked, unsent, removed, same⟩ := done
  have removed' : (∃ syn, (core pcb).unacked = syn :: unacked ∧ unsent = (core pcb).unsent) ∨
      ((core pcb).unacked = [] ∧ unacked = [] ∧ ∃ syn, (core pcb).unsent = syn :: unsent) := removed
  have moves : Moves admitted (core pcb) (core pcb') := by
    apply moves_one (windows _) (.synAck (i.seqno + 1) i.wnd unacked unsent opening some' removed')
    rw [same]
    simp [core, number]
  split
  · exact .ok moves
  · exact .ok moves

/-! ## Events -/

/-- The header that arrives with an event. -/
def TcpEvent.header : TcpEvent → Option TcpHdr
  | .segment _ _ tcphdr _ | .accepted _ _ tcphdr => some tcphdr
  | _ => none

/-- Whether an event opens the receive window. -/
def TcpEvent.reopens : TcpEvent → Bool
  | .recved _ _ | .finWindow => true
  | _ => false

/-- Whether the retransmission timer runs out in `tcp_slowtmr`. -/
def tcpRtoDue (pcb : TcpPcb) : Bool :=
  pcb.persistBackoff = 0 && (tcpRtimeTick pcb).rtime ≥ pcb.rto

/-- Whether an event may queue all segments sent again. -/
def TcpEvent.splices (pcb : TcpPcb) : TcpEvent → Bool
  | .rexmitRto _ => true
  | .slowtmr _ => tcpRtoDue pcb
  | .segment _ _ _ _ => pcb.state = .synSent
  | _ => false

/-- Whether an event queues something. -/
def TcpEvent.queues : TcpEvent → Bool
  | .write _ _ | .enqueueFlags _ _ | .sendFin _ | .close _ => true
  | _ => false

/-- What has to be admitted for an event. -/
structure Admits (admitted : TcpCore → TcpAct → Prop) (pcb : TcpPcb) (event : TcpEvent) : Prop where
  write : ∀ env args, event = .write env args → admitted (core pcb) .write
  splice : event.splices pcb = true → pcb.unacked ≠ [] → admitted (core pcb) .splice
  ack : pcb.state ≠ .synSent → ∀ tcphdr, event.header = some tcphdr → tcphdr.flags.ack = true →
    ∀ c, AckReady (core pcb) c → admitted c (.ack tcphdr.ackno)
  window : ∀ tcphdr, event.header = some tcphdr →
    ∀ c, admitted c (.peerWindow tcphdr.wnd) ∧ admitted c (.synAck tcphdr.wnd)
  advance : event.header.isSome = true → ∀ c, admitted c .advance
  reopen : event.reopens = true → ∀ c, admitted c .window
  purge : ∀ c, admitted c .purge
  flags : event.queues = true → admitted (core pcb) .flags

section

variable (zero : i.recvAcked = 0)
  (advances : ∀ c, admitted c .advance)
  (windows : ∀ c, admitted c (.peerWindow i.wnd) ∧ admitted c (.synAck i.wnd))
  (acks : (core pcb).state ≠ .synSent → i.flags.ack = true → ∀ c, AckReady (core pcb) c →
    admitted c (.ack i.ackno))
  (purges : ∀ c, admitted c .purge)
  (splices : (core pcb).state = .synSent → (core pcb).unacked ≠ [] → admitted (core pcb) .splice)

include zero advances windows acks purges splices

/-- The switch of `tcp_process` over the states. -/
theorem tcpProcessState_moves :
    Ensures AnyError (tcpProcessState env i pcb) fun processed =>
      Moves admitted (core pcb) (core processed.pcb) := by
  apply tcpProcessState_ensures
  · intro _
    exact Run.refl
  · intro opening _ expected
    exact tcpProcessSynAck_moves env i pcb opening expected fun c => (windows c).2
  · intro opening _ _
    exact tcpRexmitRto_moves plain env { pcb with rtime := 0 }
      fun some' => splices opening (by simpa [core] using some')
  · intro received _ _ _
    exact tcpRexmit_moves plain pcb (by rw [received]; decide)
  · intro received _ _ _
    have established := moves_enter plain pcb .established
      (by rw [received]; exact ⟨by decide, by decide⟩) ⟨by decide, by decide⟩
    have onward := tcpProcessAccepted_moves plain env i { pcb with state := .established } zero
      advances
      (fun c => (windows c).1)
      (fun isAck c ready => acks (by rw [show (core pcb).state = _ from received]; decide) isAck c
        ⟨ready.sndNxt, ready.lastack, ready.sndBuf, ready.segs⟩)
      open_established
    exact onward.mono fun _ moves => established.trans moves
  · intro receiving
    have before := open_of_receiving receiving
    apply (tcpReceive_open plain env i pcb zero advances (fun c => (windows c).1)
      (acks before.not_synSent) before).mono
    intro result received
    apply (tcpAfterReceive_moves plain _ result.1 result.2 received.2 purges).mono
    intro _ after
    exact received.1.trans after

/-- A received segment is a sequence of moves. -/
theorem tcpProcess_moves :
    Ensures AnyError (tcpProcess env i pcb) fun processed =>
      Moves admitted (core pcb) (core processed.pcb) := by
  apply tcpProcess_ensures trivial
  · intro _ _ _ _
    exact Run.refl
  intro _ _
  have same := tcpParseopt_core i.opts
    { pcb with tmr := if pcb.tfRxclosed then pcb.tmr else env.ticks }
  rw [show core { pcb with tmr := if pcb.tfRxclosed then pcb.tmr else env.ticks } = core pcb
    from rfl] at same
  rw [← same] at acks splices ⊢
  exact tcpProcessState_moves plain env i _ zero advances windows acks purges splices

end

/-! ## Timers and the window -/

/-- The persist timer sends a probe or nothing. -/
theorem tcpSlowtmrPersist_moves :
    Moves admitted (core pcb) (core (tcpSlowtmrPersist env pcb)) := by
  unfold tcpSlowtmrPersist
  dsimp only
  split
  · have probed := tcpZeroWindowProbe_moves plain env
      (tcpPersistTick (tcpPersistBackoff.getD (pcb.persistBackoff - 1) 0) pcb)
    unfold tcpPersistProbe
    cases result : tcpZeroWindowProbe env
        (tcpPersistTick (tcpPersistBackoff.getD (pcb.persistBackoff - 1) 0) pcb) with
    | mk err pcb' =>
      rw [result] at probed
      dsimp only at probed ⊢
      split <;> exact probed
  · exact Run.refl

omit plain in
/-- The timer of the queue out of sequence is beside the core. -/
theorem tcpSlowtmrOoseq_core :
    Ensures AnyError (tcpSlowtmrOoseq env pcb) fun pcb' => core pcb' = core pcb := by
  unfold tcpSlowtmrOoseq
  split
  · apply ensures_skip
    intro _
    exact .ok rfl
  · exact .ok rfl

/-- A tick of `tcp_slowtmr` may splice the queues, if the timer is due. -/
theorem tcpSlowtmr_moves
    (splices : tcpRtoDue pcb = true → pcb.unacked ≠ [] → admitted (core pcb) .splice) :
    Ensures AnyError (tcpSlowtmr env pcb) fun result =>
      ∀ pcb', result = some pcb' → Moves admitted (core pcb) (core pcb') := by
  have drops : ∀ middle : TcpPcb, Moves admitted (core pcb) (core middle) →
      Ensures AnyError (do
        let pcb ← tcpSlowtmrOoseq env middle
        .ok (some pcb)) fun result : Option TcpPcb =>
          ∀ pcb', result = some pcb' → Moves admitted (core pcb) (core pcb') := by
    intro middle moves
    apply (tcpSlowtmrOoseq_core env middle).bind
    intro dropped same
    apply Ensures.ok
    intro pcb' found
    cases found
    rw [same]
    exact moves
  unfold tcpSlowtmr
  split
  · apply Ensures.ok
    intro pcb' none'
    cases none'
  split
  · exact drops _ (tcpSlowtmrPersist_moves plain env pcb)
  rename_i idle
  have timer : Ensures AnyError (tcpSlowtmrRto env pcb) fun pcb' =>
      Moves admitted (core pcb) (core pcb') := by
    unfold tcpSlowtmrRto
    dsimp only
    split
    · rename_i due
      have isDue : tcpRtoDue pcb = true := by
        unfold tcpRtoDue
        rw [Bool.and_eq_true, decide_eq_true_eq, decide_eq_true_eq]
        exact ⟨Nat.eq_zero_of_not_pos idle, due.2⟩
      exact tcpRexmitRto_moves plain env (tcpRtoBackoff (tcpRtimeTick pcb)) (splices isDue)
    · exact .ok Run.refl
  apply timer.bind
  intro pcb' moves
  exact drops pcb' moves

/-- A tick of `tcp_fasttmr` may send an acknowledgement. -/
theorem tcpFasttmr_moves (pcb : TcpPcb) :
    Ensures AnyError (tcpFasttmr env pcb) fun pcb' => Moves admitted (core pcb) (core pcb') := by
  unfold tcpFasttmr
  split
  · exact (tcpOutput_moves plain env (tcpAckNow pcb)).bind fun _ moves => .ok moves
  · exact .ok Run.refl

/-- `tcp_recved` opens the window and may announce it. -/
theorem tcpRecved_moves (len : Nat) (pcb : TcpPcb) (reopens : ∀ c, admitted c .window) :
    Ensures AnyError (tcpRecved env len pcb) fun pcb' => Moves admitted (core pcb) (core pcb') := by
  have larger : Ensures AnyError (tcpReopenWnd len pcb) fun pcb' =>
      pcb'.rcvWnd ≤ tcpWnd ∧ core pcb' = { core pcb with rcvWnd := pcb'.rcvWnd } := by
    unfold tcpReopenWnd
    dsimp only
    split
    · exact .ok ⟨Nat.le_refl _, rfl⟩
    · rename_i bounded
      split
      · split
        · exact .ok ⟨Nat.le_refl _, rfl⟩
        · exact .error trivial
      · exact .ok ⟨Nat.le_of_not_gt bounded, rfl⟩
  unfold tcpRecved
  apply ensures_pass trivial
  apply larger.bind
  intro pcb' reopened
  apply (tcpUpdateRcvAnnWnd_core pcb').bind
  intro result updated
  obtain ⟨inflation, announced⟩ := result
  obtain ⟨wnd, chosen, after⟩ := updated
  have next : pcb'.rcvNxt = pcb.rcvNxt := congrArg TcpCore.rcvNxt reopened.2
  have edge : pcb'.rcvAnnRightEdge = pcb.rcvAnnRightEdge :=
    congrArg TcpCore.rcvAnnRightEdge reopened.2
  rw [next, edge] at chosen
  dsimp only at after ⊢
  rw [reopened.2] at after
  have moves : Moves admitted (core pcb) (core announced) :=
    moves_one (reopens _) (.reopen pcb'.rcvWnd wnd reopened.1 chosen) after.symm
  split
  · apply (tcpOutput_moves plain env _).bind
    intro result' onward
    exact .ok (moves.trans onward)
  · exact .ok moves

/-- Every event is a sequence of moves, if those that depend on it are admitted. -/
theorem tcpEvent_moves {pcb : TcpPcb} {event : TcpEvent} (ready : WriteReady pcb)
    (enabled : event.enabled pcb) (admits : Admits admitted pcb event) :
    Ensures AnyError (tcpEvent pcb event) fun result =>
      ∀ pcb', result = some pcb' → Moves admitted (core pcb) (core pcb') := by
  have only : ∀ {pcb'' : TcpPcb}, Moves admitted (core pcb) (core pcb'') →
      ∀ pcb', some pcb'' = some pcb' → Moves admitted (core pcb) (core pcb') := by
    intro pcb'' moves pcb' found
    cases found
    exact moves
  have opened : pcb.active = true → pcb.state ≠ .closed ∧ pcb.state ≠ .timeWait := by
    intro active
    simp only [TcpPcb.active, Bool.and_eq_true, decide_eq_true_eq] at active
    exact ⟨active.1.1, active.2⟩
  cases event with
  | connect env iss =>
    exact (tcpConnect_moves plain env iss pcb).bind
      fun _ moves => .ok (only moves)
  | write env args =>
    exact (tcpWrite_moves plain env pcb args (admits.write _ _ rfl) ready).bind
      fun _ moves => .ok (only moves)
  | enqueueFlags env flags =>
    exact (tcpEnqueueFlags_moves env pcb flags (opened enabled) (admits.flags rfl)).bind
      fun _ moves => .ok (only moves)
  | sendFin env =>
    exact (tcpSendFin_moves plain env pcb (opened enabled) (admits.flags rfl)).bind
      fun _ moves => .ok (only moves.1)
  | close env =>
    exact (tcpCloseShutdown_moves plain env pcb (admits.flags rfl)).bind
      fun _ moves => .ok (only moves)
  | output env =>
    exact (tcpOutput_moves plain env pcb).bind
      fun _ moves => .ok (only moves)
  | segment env p tcphdr opts =>
    refine (tcpProcess_moves plain env (tcpInputOf p tcphdr opts) pcb rfl (admits.advance rfl)
      (admits.window tcphdr rfl) (fun state => admits.ack state tcphdr rfl) admits.purge ?_).bind ?_
    · intro opening some'
      exact admits.splice (decide_eq_true opening) (by simpa [core] using some')
    · intro processed moves
      apply Ensures.ok
      split
      · exact only moves
      · intro pcb' none'
        cases none'
  | accept =>
    apply Ensures.ok
    apply only
    split
    · rename_i received
      exact moves_enter plain pcb .established (by rw [received]; exact ⟨by decide, by decide⟩)
        ⟨by decide, by decide⟩
    · exact Run.refl
  | accepted env p tcphdr =>
    have before : pcb.state.Open ∧ pcb.state ≠ .synSent := by
      cases enabled with
      | inl given | inr given =>
        rw [given]
        exact ⟨⟨by decide, by decide⟩, by decide⟩
    exact (tcpProcessAccepted_moves plain env (tcpInputOf p tcphdr []) pcb rfl (admits.advance rfl)
      (fun c => (admits.window tcphdr rfl c).1) (admits.ack before.2 tcphdr rfl) before.1).bind
      fun _ moves => .ok (only moves)
  | recved env len =>
    exact (tcpRecved_moves plain env len pcb (admits.reopen rfl)).bind
      fun _ moves => .ok (only moves)
  | finWindow => exact .ok (only (moves_one (admits.reopen rfl _) .finWindow rfl))
  | rexmit => exact .ok (only (tcpRexmit_moves plain pcb enabled.2))
  | rexmitFast => exact .ok (only (tcpRexmitFast_moves plain pcb enabled.2))
  | rexmitRto env =>
    exact (tcpRexmitRto_moves plain env pcb (admits.splice rfl)).bind
      fun _ moves => .ok (only moves)
  | fasttmr env => exact (tcpFasttmr_moves plain env pcb).bind fun _ moves => .ok (only moves)
  | slowtmr env => exact tcpSlowtmr_moves plain env pcb admits.splice
  | keepalive env => exact .ok (only (tcpKeepalive_moves plain env pcb))

/-! ## Creation -/

/-- The control block that `tcp_listen_input` sets up, before it queues its `SYN`. -/
def listenCore (iss : UInt32) (i : TcpInput) : TcpCore :=
  { state := .synRcvd, rcvNxt := i.seqno + 1, rcvWnd := tcpWnd, rcvAnnWnd := tcpWnd
    rcvAnnRightEdge := i.seqno + 1, lastack := iss, sndNxt := iss, sndLbb := iss, sndWnd := i.wnd
    sndBuf := tcpSndBuf, sndQueuelen := 0, unsentOversize := 0, unsent := [], unacked := []
    sent := [] }

/-- A connection that `tcp_listen_input` creates has queued a `SYN`. -/
theorem tcpListenInput_moves {env : TcpEnv} {iss : UInt32} {i : TcpInput} {pcb : TcpPcb}
    (queues : admitted (listenCore iss i) .flags)
    (done : tcpListenInput env iss i = .ok (.ok, pcb)) :
    Moves admitted (listenCore iss i) (core pcb) := by
  have outcome : Ensures AnyError (tcpListenInput env iss i) fun result =>
      result.1 = .ok → Moves admitted (listenCore iss i) (core result.2) := by
    unfold tcpListenInput
    have parsed := tcpParseopt_core i.opts { tcpAlloc env.ticks with
      state := .synRcvd, rcvNxt := i.seqno + 1, rcvAnnRightEdge := i.seqno + 1, sndWl2 := iss
      sndNxt := iss, lastack := iss, sndLbb := iss, sndWl1 := i.seqno - 1 }
    generalize tcpParseopt i.opts _ = npcb at parsed ⊢
    have before : core { npcb with
        sndWnd := i.wnd, sndWndMax := i.wnd, ssthresh := i.wnd
        mss := tcpEffSendMss env npcb.mss } = listenCore iss i := by
      have given := congrArg (fun c : TcpCore => { c with sndWnd := i.wnd }) parsed
      exact given
    apply (tcpEnqueueFlags_core env _ _).bind
    intro result queued
    obtain ⟨rc, npcb'⟩ := result
    rw [before] at queued
    cases queued with
    | inl failed =>
      dsimp only at failed ⊢
      rw [if_pos failed.1]
      exact .ok fun success => absurd success failed.1
    | inr done =>
      dsimp only at done ⊢
      obtain ⟨success, after, either, short, count⟩ := done
      rw [if_neg (not_not.mpr success)]
      have flags : Moves admitted (listenCore iss i) (core npcb') :=
        moves_one queues (.flags { syn := true, ack := true } either
          (Or.inl (show 0 < tcpSndQueuelen by decide)) count
          (show TcpState.synRcvd ≠ .closed ∧ TcpState.synRcvd ≠ .timeWait by decide)) after.symm
      apply (tcpOutput_moves plain env npcb').bind
      intro result moves
      exact .ok fun _ => flags.trans moves
  exact outcome.of_ok done rfl

/-- A control block that has just been created: by `tcp_new`, or by `tcp_listen_input`. -/
def TcpCreated (pcb : TcpPcb) : Prop :=
  (∃ ticks, pcb = tcpAlloc ticks) ∨ ∃ env iss i, tcpListenInput env iss i = .ok (.ok, pcb)

end Events

end Lwip
