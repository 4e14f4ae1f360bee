import Lwip.Verif.TcpFlow

/-!
# Acknowledged data

`tcp_receive` takes a segment off the queues of the sender only when the acknowledgement number
covers it, and the bytes that it credits to `snd_buf` are the bytes that have been written and are
no longer queued. The test for segments on `unsent` also accepts numbers half of the sequence space
ahead, which takes segments off the queue that have never been sent.
-/

namespace Lwip

open Outcome Transition Serial List

variable {pcb pcb' : TcpPcb} {event : TcpEvent} {env : TcpEnv}
  {i : TcpInput} {c' : TcpCore} {act : TcpAct}

/-! ## The calls of `tcp_receive` -/

/-- The call of `tcp_receive` that an event makes: the environment, the variables of the segment and
the control block. -/
def TcpEvent.receiveCall (pcb : TcpPcb) : TcpEvent → Option (TcpEnv × TcpInput × TcpPcb)
  | .segment env p tcphdr opts =>
    let i := tcpInputOf p tcphdr opts
    let pcb' := tcpParseopt opts { pcb with tmr := if pcb.tfRxclosed then pcb.tmr else env.ticks }
    if i.flags.rst then none
    else if i.flags.syn ∧ pcb.state ≠ .synSent ∧ pcb.state ≠ .synRcvd then none
    else
      match pcb.state with
      | .synRcvd =>
        if i.flags.ack ∧ seqBetween i.ackno (pcb.lastack + 1) pcb.sndNxt ∧ env.callback = .ok then
          some (env, i, { pcb' with state := .established })
        else none
      | .closed | .listen | .synSent | .timeWait => none
      | _ => some (env, i, pcb')
  | .accepted env p tcphdr => some (env, tcpInputOf p tcphdr [], pcb)
  | _ => none

/-- What a call of `tcp_receive` does with the sender: the segments that it removes from the queues
end at or before the acknowledgement number, which is not beyond `snd_nxt`; their bytes are
credited, and `lastack` does not move backwards or beyond `snd_nxt`. The order of sequence numbers
is not transitive, which is why all three comparisons are made. -/
structure TcpReceived (i : TcpInput) (pcb : TcpPcb) (result : TcpInput × TcpPcb) : Prop where
  /-- The segments that are removed. -/
  removed : ∃ removed : List SegKey,
    ((pcb.unacked ++ pcb.unsent).map segKey).Perm
      (removed ++ (result.2.unacked ++ result.2.unsent).map segKey) ∧
    (∀ k ∈ removed, seqLeq k.ends i.ackno = true ∧ seqLeq i.ackno pcb.sndNxt = true ∧
      seqLeq k.ends pcb.sndNxt = true) ∧
    result.1.recvAcked = lens removed ∧ result.2.sndBuf = pcb.sndBuf + lens removed
  forward : seqLeq pcb.lastack result.2.lastack = true
  behind : seqLeq result.2.lastack result.2.sndNxt = true

/-! ## The condition -/

/-- The condition for what `tcp_receive` removes: data is written only when the last element of
`unsent` is the highest-numbered segment, nothing is queued behind a `FIN` that has been sent, and
no acknowledgement number is half of the sequence space ahead. -/
def tcpFlowGuard (pcb : TcpPcb) (event : TcpEvent) : Prop :=
  (event.writes = true → lastHighest pcb) ∧
    (event.queues = true → seqLeq pcb.sndNxt pcb.sndLbb = true) ∧ headerInHalf pcb event

/-- The condition on the last element of `unsent`, in terms of the list. -/
theorem lastHighest_iff (pcb : TcpPcb) :
    lastHighest pcb ↔ ∀ last ∈ pcb.unsent.getLast?, ∀ seg ∈ pcb.unacked ++ pcb.unsent.dropLast,
      seqLt seg.tcphdr.seqno last.tcphdr.seqno = true := by
  constructor
  · intro highest last found
    exact highest pcb.unsent.dropLast last (dropLast_append_getLast? last found).symm
  intro highest init last queue
  have found : last ∈ pcb.unsent.getLast? := by
    rw [queue, getLast?_append, getLast?_singleton]
    rfl
  have others := highest last found
  rw [queue, dropLast_concat] at others
  exact others

instance (pcb : TcpPcb) : Decidable (lastHighest pcb) := decidable_of_iff' _ (lastHighest_iff pcb)

instance (pcb : TcpPcb) (event : TcpEvent) : Decidable (tcpFlowGuard pcb event) := by
  unfold tcpFlowGuard
  infer_instance

/-- The last element of `unsent` is the highest one among the keys. -/
theorem lastHighest.core (highest : lastHighest pcb) : (Lwip.core pcb).LastHighest := by
  intro init last queue k member
  obtain ⟨init', back, whole, front, end'⟩ := map_eq_append_iff.mp queue
  obtain ⟨seg, single, key⟩ := map_eq_singleton_iff.mp end'
  rw [single] at whole
  rw [← front, show (Lwip.core pcb).unacked = pcb.unacked.map segKey from rfl,
    ← map_append] at member
  obtain ⟨other, found, same⟩ := mem_map.mp member
  rw [← key, ← same]
  exact highest init' seg whole other found

theorem tcpFlowGuard.admits (meets : tcpFlowGuard pcb event) :
    Admits flowAdmits pcb event where
  write := by
    intro env args isWrite
    exact ⟨(meets.1 (by rw [isWrite]; rfl)).core, meets.2.1 (by rw [isWrite]; rfl)⟩
  splice := fun _ _ => trivial
  ack := fun state _ header isAck _ ready => meets.2.2.core header isAck state ready
  window := fun tcphdr header _ => ⟨(meets.2.2 tcphdr header).1, (meets.2.2 tcphdr header).1⟩
  advance := fun _ _ => trivial
  reopen := fun _ _ => trivial
  purge := fun _ => trivial
  flags := meets.2.1

/-- The moves that are always admitted keep everything on its way. -/
theorem flowAdmits_plain : AdmitsPlain flowAdmits := by
  intro c act always
  cases act with
  | write | flags | ack | peerWindow | synAck => cases always
  | _ => trivial

/-! ## What is removed -/

/-- A number that is not less is not greater the other way. -/
theorem seqLeq_of_seqGeq {a b : UInt32} (order : seqGeq a b = true) : seqLeq b a = true := by
  have here := a.toNat_lt
  have there := b.toNat_lt
  simp only [seqGeq, seqLeq, decide_eq_true_iff, ge_iff_le, toS32_nonneg_iff, toS32_nonpos_iff,
    UInt32.toNat_sub] at order ⊢
  omega

theorem seqLeq_of_not_seqLeq {a b : UInt32} (order : seqLeq a b = false) : seqLeq b a = true := by
  have here := a.toNat_lt
  have there := b.toNat_lt
  have later : ¬toS32 (a - b) ≤ 0 := by
    intro leq
    rw [seqLeq, decide_eq_true leq] at order
    cases order
  rw [toS32_nonpos_iff, UInt32.toNat_sub] at later
  rw [seqLeq, decide_eq_true_iff, toS32_nonpos_iff, UInt32.toNat_sub]
  omega

theorem seqLeq_refl (a : UInt32) : seqLeq a a = true := by
  rw [seqLeq, UInt32.sub_self]
  rfl

section Removed

variable {l : Layout} {c : TcpCore}

/-- A segment that ends before the place of `snd_nxt` ends before `snd_nxt`. -/
theorem Laid.seqLeq_sndNxt {x : Placed} (laid : Laid l c) (accounts : Accounts c)
    (member : x ∈ l.segs) : seqLeq x.key.ends c.sndNxt = true ↔ x.ends ≤ l.sndNxt := by
  have near := laid.near accounts member
  have bounds := laid.ends_bounds accounts member
  have room := laid.sndLbb_le accounts
  have acked := laid.acked
  rw [laid.ends_eq member, laid.sndNxt]
  exact seqLeq_place l.base (by omega) (by omega)

theorem Laid.seqLeq_lastack (laid : Laid l c) (accounts : Accounts c) :
    seqLeq c.lastack c.sndNxt = true := by
  have room := laid.sndLbb_le accounts
  have acked := laid.acked
  rw [laid.lastack, laid.sndNxt]
  exact (seqLeq_place l.base (by omega) (by omega)).mpr acked

/-- A fresh acknowledgement number is between `lastack` and `snd_nxt`. -/
theorem freshAck_order {ackno : UInt32} (fresh : freshAck c ackno = true) :
    seqLeq c.lastack ackno = true ∧ seqLeq ackno c.sndNxt = true := by
  simp only [freshAck, seqBetween, Bool.and_eq_true, Bool.not_eq_true'] at fresh
  exact ⟨seqLeq_of_not_seqLeq fresh.1, fresh.2.2⟩

/-- A segment that an acknowledgement removes ends before its number, which is not beyond
`snd_nxt`. -/
theorem Laid.removed {ackno : UInt32} (laid : Laid l c) (accounts : Accounts c)
    (inHalf : c.InHalf ackno) {k : SegKey} (member : k ∈ removedBy c ackno) :
    seqLeq k.ends ackno = true ∧ seqLeq ackno c.sndNxt = true ∧ seqLeq k.ends c.sndNxt = true := by
  cases mem_append.mp member with
  | inl sent =>
    split at sent
    · rename_i fresh
      have acked := mem_takeWhile_imp sent
      obtain ⟨x, inQueue, key⟩ := exists_placed laid.unacked
        ((List.takeWhile_sublist _).subset sent)
      have before := (laid.seqLeq_sndNxt accounts (mem_append_left _ inQueue)).mpr
        (laid.sent x inQueue).2
      rw [key] at before
      exact ⟨acked, (freshAck_order fresh).2, before⟩
    · cases sent
  | inr queued =>
    have passes := mem_takeWhile_imp queued
    have inUnsent := (List.takeWhile_sublist _).subset queued
    obtain ⟨x, inQueue, key⟩ := exists_placed laid.unsent inUnsent
    have order := passes
    rw [unsentAckedBy, seqBetween, Bool.and_eq_true] at order
    refine ⟨seqLeq_of_seqGeq order.1, order.2, ?_⟩
    have notBehind := inHalf k inUnsent passes
    have inSegs : x ∈ l.segs := mem_append_right _ inQueue
    have before : x.ends ≤ l.sndNxt := by
      by_contra beyond
      have near := laid.near accounts inSegs
      have room := laid.sndLbb_le accounts
      have acked := laid.acked
      have later : seqLt c.sndNxt x.key.ends = true := by
        rw [laid.ends_eq inSegs, laid.sndNxt]
        exact (seqLt_place l.base (by omega) (by omega)).mpr (by omega)
      rw [key] at later
      exact absurd (later.symm.trans notBehind) (by decide)
    have leq := (laid.seqLeq_sndNxt accounts inSegs).mpr before
    rw [key] at leq
    exact leq

end Removed

/-- Everything of a control block is on its way until its queues are dropped. -/
abbrev FlowKept (c : TcpCore) : Prop := Kept
  (fun c => ∃ l, Flowing l c) c

/-- What `tcp_receive` does with the sender of a connection whose segments are in their places. -/
theorem tcpReceive_received (kept : FlowKept (core pcb)) (before : pcb.state.Open)
    (zero : i.recvAcked = 0) (window : i.wnd < 65536)
    (acks : i.flags.ack = true → ∀ c, AckReady (core pcb) c → c.InHalf i.ackno) :
    Ensures AnyError (tcpReceive env i pcb) (TcpReceived i pcb) := by
  unfold tcpReceive
  apply ensures_pass trivial
  apply (tcpReceiveAck_spec flowAdmits_plain env i pcb before.not_synSent zero
    (fun _ => window)).bind
  intro result acknowledged
  apply (tcpReceiveData_beside env result.1 result.2).mono
  intro result' beside
  have sides := And.intro beside.1 (sendSide_of_beside beside.2)
  have sameAck : result'.1.recvAcked = result.1.recvAcked := congrArg (fun side => side.2.2) sides.1
  have sameBuf : result'.2.sndBuf = result.2.sndBuf := congrArg SendSide.sndBuf sides.2
  have sameLast : result'.2.lastack = result.2.lastack := congrArg SendSide.lastack sides.2
  have sameNxt : result'.2.sndNxt = result.2.sndNxt := congrArg SendSide.sndNxt sides.2
  have sameSegs : result'.2.unacked ++ result'.2.unsent = result.2.unacked ++ result.2.unsent := by
    rw [show result'.2.unacked = result.2.unacked from congrArg SendSide.unacked sides.2,
      show result'.2.unsent = result.2.unsent from congrArg SendSide.unsent sides.2]
  rcases acknowledged with ⟨_, nothing⟩ | ⟨c, isAck, moves, ready, state, _, credited, after⟩
  · have behind : seqLeq pcb.lastack pcb.sndNxt = true := by
      rcases kept with dropped | ⟨_, accounts, l, flowing⟩
      · exact absurd dropped.1 before.2
      · exact flowing.laid.seqLeq_lastack accounts
    rw [nothing] at sameAck sameBuf sameLast sameNxt sameSegs
    constructor
    · refine ⟨[], ?_, ?_, ?_, ?_⟩
      · rw [sameSegs]
        exact List.Perm.refl _
      · exact fun _ member => absurd member not_mem_nil
      · exact sameAck.trans zero
      · exact sameBuf
    · rw [sameLast]
      exact seqLeq_refl _
    · rw [sameLast, sameNxt]
      exact behind
  · rcases moves.kept flowing_move kept with dropped | ⟨_, accounts, l, flowing⟩
    · exact absurd (state.symm.trans dropped.1) before.2
    have removed := fun k => flowing.laid.removed accounts (acks isAck c ready) (k := k)
    have counts := accounts.balanced.buffer
    have parts := ackCore_segs c i.ackno
    have total : lens (removedBy c i.ackno) ≤ lens c.segs := by
      rw [← lens_congr (parts.map forget), lens_append]
      exact Nat.le_add_right _ _
    have fits : c.sndBuf + lens (removedBy c i.ackno) < 65536 := by
      unfold tcpSndBuf at counts
      omega
    have afterBuf : result.2.sndBuf = u16 (c.sndBuf + lens (removedBy c i.ackno)) :=
      congrArg TcpCore.sndBuf after
    have afterNxt : result.2.sndNxt = c.sndNxt := congrArg TcpCore.sndNxt after
    have afterLast : result.2.lastack = if freshAck c i.ackno then i.ackno else c.lastack :=
      congrArg TcpCore.lastack after
    have afterSegs : (result.2.unacked ++ result.2.unsent).map segKey =
      (ackCore c i.ackno).segs := by
      rw [map_append]
      exact congrArg TcpCore.segs after
    have sndNxt : c.sndNxt = pcb.sndNxt := ready.sndNxt
    have lastack : c.lastack = pcb.lastack := ready.lastack
    have order : seqLeq pcb.lastack result.2.lastack = true ∧
        seqLeq result.2.lastack c.sndNxt = true := by
      rw [afterLast, ← lastack]
      split
      · rename_i fresh
        exact freshAck_order fresh
      · exact ⟨seqLeq_refl _, flowing.laid.seqLeq_lastack accounts⟩
    constructor
    · refine ⟨removedBy c i.ackno, ?_, ?_, ?_, ?_⟩
      · rw [sameSegs, afterSegs, map_append]
        exact (parts.trans ready.segs).symm
      · rw [← sndNxt]
        exact removed
      · rw [sameAck, credited]
        exact u16_of_lt (by omega)
      · rw [sameBuf, afterBuf, u16_of_lt fits, ready.sndBuf]
        rfl
    · rw [sameLast]
      exact order.1
    · rw [sameLast, sameNxt, afterNxt]
      exact order.2

/-! ## Events with a call of `tcp_receive` -/

/-- What credits and acknowledges: `snd_buf` and `lastack`. -/
def creditSide (pcb : TcpPcb) : Nat × UInt32 := (pcb.sndBuf, pcb.lastack)

/-- The control block that `tcp_process` works on behind the options. -/
def tcpParsed (env : TcpEnv) (opts : List UInt8) (pcb : TcpPcb) : TcpPcb :=
  tcpParseopt opts { pcb with tmr := if pcb.tfRxclosed then pcb.tmr else env.ticks }

theorem tcpParsed_core (env : TcpEnv) (opts : List UInt8) (pcb : TcpPcb) :
    core (tcpParsed env opts pcb) = core pcb := tcpParseopt_core opts _

/-- What an event with a call of `tcp_receive` is: a segment in a state that receives, a segment
that completes the handshake, or the return from the accept callback. -/
inductive ReceiveCall (pcb : TcpPcb) : TcpEvent → TcpEnv → TcpInput → TcpPcb → Prop
  | segment (env : TcpEnv) (p : Chain) (tcphdr : TcpHdr) (opts : List UInt8)
      (noRst : tcphdr.flags.rst = false)
      (noSyn : ¬(tcphdr.flags.syn = true ∧ pcb.state ≠ .synSent ∧ pcb.state ≠ .synRcvd))
      (receiving : pcb.state.Receiving = true) :
      ReceiveCall pcb (.segment env p tcphdr opts) env (tcpInputOf p tcphdr opts)
        (tcpParsed env opts pcb)
  | handshake (env : TcpEnv) (p : Chain) (tcphdr : TcpHdr) (opts : List UInt8)
      (noRst : tcphdr.flags.rst = false) (state : pcb.state = .synRcvd)
      (isAck : tcphdr.flags.ack = true)
      (expected : seqBetween tcphdr.ackno (pcb.lastack + 1) pcb.sndNxt = true)
      (accepted : env.callback = .ok) (pcb' : TcpPcb)
      (established : pcb' = { tcpParsed env opts pcb with state := .established }) :
      ReceiveCall pcb (.segment env p tcphdr opts) env (tcpInputOf p tcphdr opts) pcb'
  | accepted (env : TcpEnv) (p : Chain) (tcphdr : TcpHdr) :
      ReceiveCall pcb (.accepted env p tcphdr) env (tcpInputOf p tcphdr []) pcb

/-- The call of `tcp_receive` that an event makes. -/
theorem receiveCall_cases (call : event.receiveCall pcb = some (env, i, pcb')) :
    ReceiveCall pcb event env i pcb' := by
  cases event with
  | segment env' p tcphdr opts =>
    unfold TcpEvent.receiveCall at call
    dsimp only at call
    split at call
    · cases call
    rename_i noRst
    have noRst' : tcphdr.flags.rst = false := by simpa [tcpInputOf] using noRst
    split at call
    · cases call
    rename_i noSyn
    split at call
    · rename_i state
      split at call
      · rename_i expected
        cases call
        exact .handshake env p tcphdr opts noRst' state expected.1 expected.2.1
          expected.2.2 _ rfl
      · cases call
    · cases call
    · cases call
    · cases call
    · cases call
    · rename_i notRcvd notClosed notListen notSent notWaiting
      cases call
      apply ReceiveCall.segment env p tcphdr opts noRst' noSyn
      cases state : pcb.state with
      | closed => exact absurd state notClosed
      | listen => exact absurd state notListen
      | synSent => exact absurd state notSent
      | synRcvd => exact absurd state notRcvd
      | timeWait => exact absurd state notWaiting
      | _ => rfl
  | accepted env' p tcphdr =>
    cases call
    exact .accepted env p tcphdr
  | _ => cases call

/-- The control block of a call, and the header of its event. -/
theorem ReceiveCall.core (call : ReceiveCall pcb event env i pcb') (enabled : event.enabled pcb) :
    pcb.state.Open ∧ (∃ p tcphdr opts, event.header = some tcphdr ∧ i = tcpInputOf p tcphdr opts) ∧
      (Lwip.core pcb' = Lwip.core pcb ∨
        Lwip.core pcb' = { Lwip.core pcb with state := .established } ∧ pcb.state = .synRcvd) := by
  cases call with
  | segment env p tcphdr opts _ _ receiving =>
    exact ⟨open_of_receiving receiving, ⟨p, tcphdr, opts, rfl, rfl⟩, Or.inl
      (tcpParsed_core env opts pcb)⟩
  | handshake env p tcphdr opts _ state _ _ _ _ established =>
    refine ⟨?_, ⟨p, tcphdr, opts, rfl, rfl⟩, Or.inr ⟨?_, state⟩⟩
    · rw [state]
      exact ⟨by decide, by decide⟩
    · rw [established, ← tcpParsed_core env opts pcb]
      rfl
  | accepted env p tcphdr =>
    refine ⟨?_, ⟨p, tcphdr, [], rfl, rfl⟩, Or.inl rfl⟩
    cases enabled with
    | inl state | inr state =>
      rw [state]
      exact ⟨by decide, by decide⟩

/-- What an event does behind its call of `tcp_receive` leaves the credit alone. -/
def LeavesCredit (rest : TcpInput × TcpPcb → Asserting (Option TcpPcb)) : Prop :=
  ∀ result, Ensures AnyError (rest result) fun out =>
    ∀ pcb ∈ out, creditSide pcb = creditSide result.2

/-- `tcp_process` in a state that receives. -/
theorem tcpProcess_receiving (noRst : i.flags.rst = false)
    (noSyn : ¬(i.flags.syn = true ∧ pcb.state ≠ .synSent ∧ pcb.state ≠ .synRcvd))
    (receiving : pcb.state.Receiving = true) :
    tcpProcess env i pcb =
      (do
        let result ← tcpReceive env i (tcpParsed env i.opts pcb)
        let result ← tcpAfterReceive pcb.state result.1 result.2
        .ok { err := .ok, input := result.1, pcb := result.2 }) := by
  have same : (tcpParsed env i.opts pcb).state = pcb.state :=
    congrArg TcpCore.state (tcpParsed_core env i.opts pcb)
  unfold tcpProcess
  rw [if_neg (by rw [noRst]; decide), if_neg noSyn]
  change tcpProcessState env i (tcpParsed env i.opts pcb) = _
  unfold tcpProcessState
  rw [same]
  generalize pcb.state = state at receiving ⊢
  cases state with
  | closed | listen | synSent | synRcvd | timeWait => cases receiving
  | _ => rfl

theorem tcpProcess_handshake (noRst : i.flags.rst = false) (received : pcb.state = .synRcvd)
    (isAck : i.flags.ack = true) (expected : seqBetween i.ackno (pcb.lastack + 1) pcb.sndNxt = true)
    (accepted : env.callback = .ok)
    (established : pcb' = { tcpParsed env i.opts pcb with state := .established }) :
    tcpProcess env i pcb = tcpProcessAccepted env i pcb' := by
  have same := tcpParsed_core env i.opts pcb
  have state : (tcpParsed env i.opts pcb).state = .synRcvd :=
    (congrArg TcpCore.state same).trans received
  have lastack : (tcpParsed env i.opts pcb).lastack = pcb.lastack := congrArg TcpCore.lastack same
  have sndNxt : (tcpParsed env i.opts pcb).sndNxt = pcb.sndNxt := congrArg TcpCore.sndNxt same
  have expected' : seqBetween i.ackno ((tcpParsed env i.opts pcb).lastack + 1)
      (tcpParsed env i.opts pcb).sndNxt = true := by
    rw [lastack, sndNxt]
    exact expected
  unfold tcpProcess
  rw [if_neg (by rw [noRst]; decide), if_neg (fun both => both.2.2 received)]
  change tcpProcessState env i (tcpParsed env i.opts pcb) = _
  unfold tcpProcessState
  rw [state]
  unfold tcpProcessSynRcvd
  rw [if_pos isAck, if_pos expected', if_neg (fun refused => refused accepted), established]

theorem tcpProcessAccepted_eq (env : TcpEnv) (i : TcpInput) (pcb : TcpPcb) :
    ∃ rest : TcpInput × TcpPcb → TcpProcessed,
      (tcpProcessAccepted env i pcb = do
        let result ← tcpReceive env i pcb
        .ok (rest result)) ∧ ∀ result, creditSide (rest result).pcb = creditSide result.2 := by
  refine ⟨_, rfl, ?_⟩
  intro result
  split <;> rfl

/-- The control block that is left of a segment. -/
def TcpProcessed.left (processed : TcpProcessed) : Option TcpPcb :=
  if processed.err = .ok ∧ !processed.input.tfClosed then some processed.pcb else none

/-- The control block that is left is the one of the result. -/
theorem TcpProcessed.ensures_left {processed : TcpProcessed} {holds : TcpPcb → Prop}
    (result : holds processed.pcb) :
    Ensures AnyError (.ok processed.left) fun out => ∀ pcb ∈ out, holds pcb := by
  apply Ensures.ok
  intro pcb member
  unfold TcpProcessed.left at member
  split at member
  · cases member
    exact result
  · cases member

/-- An event with a call of `tcp_receive` is the call with something behind it. -/
theorem ReceiveCall.bind (call : ReceiveCall pcb event env i pcb') :
    ∃ rest, tcpEvent pcb event = tcpReceive env i pcb' >>= rest ∧ LeavesCredit rest := by
  cases call with
  | segment env p tcphdr opts noRst noSyn receiving =>
    refine ⟨fun result => (do
      let result ← tcpAfterReceive pcb.state result.1 result.2
      .ok { err := .ok, input := result.1, pcb := result.2 }) >>= fun processed : TcpProcessed =>
        .ok processed.left, ?_, ?_⟩
    · show (tcpProcess env (tcpInputOf p tcphdr opts) pcb >>= fun processed =>
        .ok processed.left) = _
      rw [tcpProcess_receiving (i := tcpInputOf p tcphdr opts) noRst noSyn receiving]
      exact bind_assoc _ _ _
    · intro result
      have kept : Ensures AnyError (do
          let result ← tcpAfterReceive pcb.state result.1 result.2
          .ok { err := .ok, input := result.1, pcb := result.2 }) fun processed : TcpProcessed =>
            creditSide processed.pcb = creditSide result.2 :=
        (tcpAfterReceive_besideClosing pcb.state result.1 result.2).bind fun _ same =>
          .ok (congrArg creditSide same :)
      apply kept.bind
      intro processed same
      exact TcpProcessed.ensures_left same
  | handshake env p tcphdr opts noRst state isAck expected accepted _ established =>
    obtain ⟨rest, same, credit⟩ := tcpProcessAccepted_eq env (tcpInputOf p tcphdr opts) pcb'
    refine ⟨fun result => .ok (rest result).left, ?_, ?_⟩
    · show (tcpProcess env (tcpInputOf p tcphdr opts) pcb >>= fun processed =>
        .ok processed.left) = _
      rw [tcpProcess_handshake (i := tcpInputOf p tcphdr opts) noRst state isAck expected accepted
        established, same]
      exact bind_assoc _ _ _
    · intro result
      exact TcpProcessed.ensures_left (credit result)
  | accepted env p tcphdr =>
    obtain ⟨rest, same, credit⟩ := tcpProcessAccepted_eq env (tcpInputOf p tcphdr []) pcb
    refine ⟨fun result => .ok (some (rest result).pcb), ?_, ?_⟩
    · show (tcpProcessAccepted env (tcpInputOf p tcphdr []) pcb >>= fun processed =>
        .ok (some processed.pcb)) = _
      rw [same]
      exact bind_assoc _ _ _
    · intro result
      apply Ensures.ok
      intro pcb'' member
      rw [← Option.mem_some_iff.mp member]
      exact credit result

/-! ## Events without a call of `tcp_receive` -/

/-- The moves that neither queue data nor acknowledge anything. -/
def TcpAct.quiet : TcpAct → Bool
  | .write | .ack _ | .synAck _ => false
  | _ => true

/-- A move that neither queues data nor acknowledges anything leaves the credit alone. -/
theorem TcpMove.credit {c : TcpCore} (move : TcpMove c act c') (quiet : act.quiet = true) :
    c'.sndBuf = c.sndBuf ∧
      (c.state ≠ .closed → c'.state ≠ .closed ∧ c'.lastack = c.lastack) := by
  cases move with
  | enter state _ behind => exact ⟨rfl, fun _ => ⟨behind.not_closed, rfl⟩⟩
  | connectFails iss closed | connect iss closed => exact ⟨rfl, fun opened => absurd closed opened⟩
  | purge _ => exact ⟨rfl, fun _ => ⟨show TcpState.timeWait ≠ .closed by decide, rfl⟩⟩
  | write | ack | synAck => cases quiet
  | _ => exact ⟨rfl, fun opened => ⟨opened, rfl⟩⟩

/-- A quiet move does not end the wait for the acknowledgement of the `SYN`. -/
theorem TcpMove.synSent {c : TcpCore} (move : TcpMove c act c') (state : c.state = .synSent)
    (quiet : act.quiet = true) : c'.state = .synSent := by
  cases move with
  | enter _ before _ | purge before => exact absurd state before.not_synSent
  | connect _ closed => cases state.symm.trans closed
  | write | ack | synAck => cases quiet
  | _ => exact state

/-- A connection does not come back to wait for the acknowledgement of its `SYN`. -/
theorem TcpMove.not_synSent {c : TcpCore} (move : TcpMove c act c') (state : c.state ≠ .synSent)
    (opened : c.state ≠ .closed) : c'.state ≠ .synSent := by
  cases move with
  | enter _ _ behind => exact behind.not_synSent
  | purge _ => exact (show TcpState.timeWait ≠ .synSent by decide)
  | synAck => exact (show TcpState.established ≠ .synSent by decide)
  | connect _ closed => exact absurd closed opened
  | _ => exact state

/-- The quiet moves are among those that are always admitted. -/
theorem quiet_plain : AdmitsPlain fun _ act => act.quiet = true := by
  intro c act always
  cases act with
  | write | ack | synAck => cases always
  | _ => rfl

/-- An event that neither writes nor has a header needs only quiet moves. -/
theorem quiet_admits (noWrite : event.writes = false) (noHeader : event.header = none) :
    Admits (fun _ act => act.quiet = true) pcb event where
  write := by
    intro env args isWrite
    rw [isWrite] at noWrite
    cases noWrite
  splice := fun _ _ => rfl
  ack := fun _ _ header => nomatch noHeader.symm.trans header
  window := fun _ header => nomatch noHeader.symm.trans header
  advance := fun _ _ => rfl
  reopen := fun _ _ => rfl
  purge := fun _ => rfl
  flags := fun _ => rfl

theorem Moves.credit {c : TcpCore} (moves : Moves (fun _ act => act.quiet = true) c c') :
    c'.sndBuf = c.sndBuf ∧ (c.state ≠ .closed → c'.lastack = c.lastack) := by
  have both : c'.sndBuf = c.sndBuf ∧
      (c.state ≠ .closed → c'.state ≠ .closed ∧ c'.lastack = c.lastack) := by
    induction moves with
    | refl => exact ⟨rfl, fun opened => ⟨opened, rfl⟩⟩
    | tail _ act meets move ih =>
      have step := move.credit meets
      refine ⟨step.1.trans ih.1, ?_⟩
      intro opened
      have before := ih.2 opened
      have after := step.2 before.1
      exact ⟨after.1, after.2.trans before.2⟩
  exact ⟨both.1, fun opened => (both.2 opened).2⟩

/-- The moves of a connection that waits for the acknowledgement of its `SYN`. -/
def TcpAct.opening : TcpAct → Bool
  | .write | .ack _ => false
  | _ => true

/-- A connection that waits for the acknowledgement of its `SYN` acknowledges one number at most. -/
theorem Moves.opening {c : TcpCore} (moves : Moves (fun _ act => act.opening = true) c c')
    (opening : c.state = .synSent) :
    c'.sndBuf = c.sndBuf ∧ (c'.lastack = c.lastack ∨ c'.lastack = c.lastack + 1) := by
  have both : c'.sndBuf = c.sndBuf ∧ ((c'.state = .synSent ∧ c'.lastack = c.lastack) ∨
      (c'.state ≠ .synSent ∧ c'.state ≠ .closed ∧ c'.lastack = c.lastack + 1)) := by
    induction moves with
    | refl => exact ⟨rfl, Or.inl ⟨opening, rfl⟩⟩
    | @tail middle last _ act meets move ih =>
      by_cases quiet : act.quiet = true
      · have step := move.credit quiet
        refine ⟨step.1.trans ih.1, ?_⟩
        rcases ih.2 with ⟨state, same⟩ | ⟨notSent, notClosed, same⟩
        · have kept : last.state = .synSent := move.synSent state quiet
          exact .inl ⟨kept, (step.2 (by rw [state]; decide)).2.trans same⟩
        · have after := step.2 notClosed
          exact .inr ⟨move.not_synSent notSent notClosed, after.1, after.2.trans same⟩
      · cases move with
        | write | ack => cases meets
        | synAck rcvNxt wnd unacked unsent opened _ _ =>
          refine ⟨ih.1, Or.inr ⟨show TcpState.established ≠ .synSent by decide,
            show TcpState.established ≠ .closed by decide, ?_⟩⟩
          rcases ih.2 with ⟨_, same⟩ | ⟨notSent, _, _⟩
          · exact congrArg (· + 1) same
          · exact absurd opened notSent
        | _ => exact absurd rfl quiet
  refine ⟨both.1, ?_⟩
  rcases both.2 with ⟨_, same⟩ | ⟨_, _, same⟩
  · exact .inl same
  · exact .inr same

/-- A segment without a call of `tcp_receive` leaves the credit alone behind `SYN_SENT`. -/
theorem tcpProcess_credit {p : Chain} {tcphdr : TcpHdr} {opts : List UInt8}
    (none' : (TcpEvent.segment env p tcphdr opts).receiveCall pcb = none)
    (notSent : pcb.state ≠ .synSent) :
    Ensures AnyError (tcpProcess env (tcpInputOf p tcphdr opts) pcb) fun processed =>
      creditSide processed.pcb = creditSide pcb := by
  have sides := tcpParseopt_sides opts
    { pcb with tmr := if pcb.tfRxclosed then pcb.tmr else env.ticks }
  have parsed : creditSide (tcpParsed env opts pcb) = creditSide pcb := by
    unfold creditSide
    rw [show (tcpParsed env opts pcb).sndBuf = pcb.sndBuf from congrArg SendSide.sndBuf sides.2,
      show (tcpParsed env opts pcb).lastack = pcb.lastack from congrArg SendSide.lastack sides.2]
  have same := tcpParsed_core env opts pcb
  have sameState : (tcpParsed env opts pcb).state = pcb.state := congrArg TcpCore.state same
  have sameLast : (tcpParsed env opts pcb).lastack = pcb.lastack := congrArg TcpCore.lastack same
  have sameNxt : (tcpParsed env opts pcb).sndNxt = pcb.sndNxt := congrArg TcpCore.sndNxt same
  unfold TcpEvent.receiveCall at none'
  dsimp only at none'
  apply tcpProcess_ensures trivial
  · intro _ _ _ _
    rfl
  intro noRst noSyn
  rw [if_neg (by rw [noRst]; decide), if_neg noSyn] at none'
  change Ensures AnyError (tcpProcessState env (tcpInputOf p tcphdr opts)
    (tcpParsed env opts pcb)) _
  apply tcpProcessState_ensures
  · intro _
    exact parsed
  · intro state
    exact absurd (sameState.symm.trans state) notSent
  · intro state
    exact absurd (sameState.symm.trans state) notSent
  · intro _ _ _ _
    unfold tcpRexmit
    split
    · exact parsed
    · exact parsed
  · intro state isAck expected accepted
    rw [sameState] at state
    rw [sameLast, sameNxt] at expected
    rw [state] at none'
    rw [if_pos ⟨isAck, expected, accepted⟩] at none'
    cases none'
  · intro receiving
    rw [sameState] at receiving
    generalize pcb.state = state at receiving none'
    cases state with
    | closed | listen | synSent | synRcvd | timeWait => cases receiving
    | _ => cases none'

/-! ## Bytes written and bytes credited -/

/-- The number of bytes that an event writes. -/
def TcpEvent.written (pcb : TcpPcb) : TcpEvent → Nat
  | .write env args =>
    match tcpWrite env pcb args with
    | .ok (.ok, _) => args.len
    | _ => 0
  | _ => 0

/-- The number of bytes that an event credits: `recv_acked` behind its call of `tcp_receive`. -/
def TcpEvent.credited (pcb : TcpPcb) (event : TcpEvent) : Nat :=
  match event.receiveCall pcb with
  | none => 0
  | some (env, i, pcb') =>
    match tcpReceive env i pcb' with
    | .ok (i', _) => i'.recvAcked
    | .error _ => 0

/-- A connection with the bytes that have been written and credited on it so far. -/
structure TcpLedger where
  pcb : TcpPcb
  written : Nat := 0
  credited : Nat := 0

/-- One event of a connection, with the bytes that it writes and credits. -/
def TcpLedgerStep (s : TcpLedger) (event : TcpEvent) (s' : TcpLedger) : Prop :=
  TcpStep s.pcb event s'.pcb ∧ s'.written = s.written + event.written s.pcb ∧
    s'.credited = s.credited + event.credited s.pcb

/-- The number of bytes that a call of `tcp_write` writes. -/
theorem written_of_ok {args : WriteArgs} {err : Err}
    (returned : tcpWrite env pcb args = .ok (err, pcb')) :
    (TcpEvent.write env args).written pcb = if err = .ok then args.len else 0 := by
  show (match tcpWrite env pcb args with
    | .ok (.ok, _) => args.len
    | _ => 0) = _
  rw [returned]
  cases err <;> rfl

/-- `tcp_write` takes the bytes that it writes from `snd_buf`. -/
theorem tcpWrite_credit {args : WriteArgs} (ready : WriteReady pcb)
    (step : TcpStep pcb (.write env args) pcb') :
    pcb'.sndBuf + (TcpEvent.write env args).written pcb = pcb.sndBuf ∧
      pcb'.lastack = pcb.lastack := by
  cases returned : tcpWrite env pcb args with
  | error message =>
    have done := step.2
    rw [tcpEvent, returned] at done
    cases done
  | ok result =>
    have outcome := (ready.outcome env args).of_ok returned
    have done := step.2
    rw [tcpEvent, returned] at done
    have after : result.2 = pcb' := Option.some.inj (Except.ok.inj done)
    obtain ⟨err, pcb''⟩ := result
    dsimp only at after outcome
    rw [after] at outcome returned
    rw [written_of_ok returned]
    cases outcome with
    | refused _ unsent tfNaglememerr failed same =>
      rw [if_neg failed]
      exact ⟨rfl, rfl⟩
    | written l unsent psh data room written =>
      refine ⟨?_, rfl⟩
      have small := ready.small
      have buffer : toU16 ((pcb.sndBuf : Int) - args.len) = pcb.sndBuf - args.len :=
        toU16_eq (by omega) (by omega)
      dsimp only
      rw [buffer, if_pos rfl]
      omega

/-- Everything of the control block of a call is on its way. -/
theorem ReceiveCall.kept (call : ReceiveCall pcb event env i pcb') (enabled : event.enabled pcb)
    (kept : FlowKept (Lwip.core pcb)) : FlowKept (Lwip.core pcb') ∧ pcb'.state.Open := by
  obtain ⟨before, _, same | ⟨established, received⟩⟩ := call.core enabled
  · rw [show pcb'.state = pcb.state from congrArg TcpCore.state same, same]
    exact ⟨kept, before⟩
  have state : pcb'.state = .established := congrArg TcpCore.state established
  rw [state, established]
  refine ⟨?_, open_established⟩
  rcases kept with dropped | ⟨_, accounts, l, flowing⟩
  · exact absurd dropped.1 before.2
  · exact .inr ⟨show TcpState.established ≠ .timeWait by decide, accounts.enter open_established,
      l, flowing.laid.frame rfl rfl rfl rfl rfl flowing.laid.window (fun given => nomatch given),
      flowing.live⟩

/-- What a call of `tcp_receive` does in a state that is reached under the condition. -/
theorem ReceiveCall.received (call : ReceiveCall pcb event env i pcb') (enabled : event.enabled pcb)
    (kept : FlowKept (Lwip.core pcb)) (meets : tcpFlowGuard pcb event) :
    Ensures AnyError (tcpReceive env i pcb') (TcpReceived i pcb') := by
  obtain ⟨before, ⟨p, tcphdr, opts, header, input⟩, same⟩ := call.core enabled
  obtain ⟨kept', opened⟩ := call.kept enabled kept
  have inHalf := meets.2.2 tcphdr header
  rw [input]
  apply tcpReceive_received kept' opened rfl inHalf.1
  intro isAck c ready
  apply meets.2.2.core header isAck before.not_synSent
  rcases same with same | ⟨same, _⟩
  · rw [← same]
    exact ready
  · rw [same] at ready
    exact ⟨ready.sndNxt, ready.lastack, ready.sndBuf, ready.segs⟩

/-- The credit of an event: `snd_buf` shrinks by the bytes written and grows by the bytes credited,
and `lastack` does not move backwards. -/
theorem tcpStep_credit (kept : FlowKept (core pcb)) (meets : tcpFlowGuard pcb event)
    (step : TcpStep pcb event pcb') :
    pcb'.sndBuf + event.written pcb = pcb.sndBuf + event.credited pcb ∧
      (pcb.state ≠ .closed → seqLeq pcb.lastack pcb'.lastack = true) := by
  have accounts : (core pcb).state = .timeWait ∨ Accounts (core pcb) :=
    kept.imp (fun dropped => dropped.1) (fun given => given.2.1)
  cases call : event.receiveCall pcb with
  | some found =>
    obtain ⟨env, i, pcb₀⟩ := found
    have called := receiveCall_cases call
    obtain ⟨rest, whole, leaves⟩ := called.bind
    have done := step.2
    rw [whole] at done
    cases returned : tcpReceive env i pcb₀ with
    | error message =>
      rw [returned] at done
      cases done
    | ok result =>
      rw [returned] at done
      have received := (called.received step.1 kept meets).of_ok returned
      have credit := (leaves result).of_ok done pcb' rfl
      obtain ⟨removed, _, _, recvAcked, sndBuf⟩ := received.removed
      have before : pcb₀.sndBuf = pcb.sndBuf ∧ pcb₀.lastack = pcb.lastack := by
        obtain ⟨_, _, same | ⟨same, _⟩⟩ := called.core step.1
        · exact ⟨congrArg TcpCore.sndBuf same, congrArg TcpCore.lastack same⟩
        · exact ⟨congrArg TcpCore.sndBuf same, congrArg TcpCore.lastack same⟩
      have credited : event.credited pcb = lens removed := by
        rw [TcpEvent.credited, call]
        dsimp only
        rw [returned]
        exact recvAcked
      have written : event.written pcb = 0 := by
        cases called <;> rfl
      have after : pcb'.sndBuf = result.2.sndBuf := congrArg Prod.fst credit
      have last : pcb'.lastack = result.2.lastack := congrArg Prod.snd credit
      constructor
      · rw [credited, written, after, sndBuf, before.1, Nat.add_zero]
      · intro _
        rw [last, ← before.2]
        exact received.forward
  | none =>
    have credited : event.credited pcb = 0 := by
      rw [TcpEvent.credited, call]
    rw [credited, Nat.add_zero]
    have others : Admits (fun _ act => act.quiet = true) pcb event → event.written pcb = 0 →
        pcb'.sndBuf + event.written pcb = pcb.sndBuf ∧
          (pcb.state ≠ .closed → seqLeq pcb.lastack pcb'.lastack = true) := by
      intro admits written
      have credit := (tcpStep_moves quiet_plain step accounts admits).credit
      refine ⟨by rw [written]; exact credit.1, ?_⟩
      intro opened
      rw [show pcb'.lastack = pcb.lastack from credit.2 opened]
      exact seqLeq_refl _
    cases event with
    | write env args =>
      have opened : pcb.state ≠ .timeWait := by
        intro waiting
        have active := step.1
        simp [TcpEvent.enabled, TcpPcb.active, waiting] at active
      have credit := tcpWrite_credit (accounts.resolve_left opened).writeReady step
      refine ⟨credit.1, fun _ => ?_⟩
      rw [credit.2]
      exact seqLeq_refl _
    | accepted env p tcphdr => cases call
    | segment env p tcphdr opts =>
      by_cases opening : pcb.state = .synSent
      · have moves : Ensures AnyError (tcpProcess env (tcpInputOf p tcphdr opts) pcb)
            fun processed => Moves (fun _ act => act.opening = true) (core pcb)
              (core processed.pcb) := by
          apply tcpProcess_moves
          · intro c act always
            cases act with
            | write | ack => cases always
            | _ => rfl
          · rfl
          · exact fun _ => rfl
          · exact fun _ => ⟨rfl, rfl⟩
          · exact fun notSent => absurd opening notSent
          · exact fun _ => rfl
          · exact fun _ _ => rfl
        have left : Ensures AnyError (tcpEvent pcb (.segment env p tcphdr opts)) fun out =>
            ∀ pcb'' ∈ out, Moves (fun _ act => act.opening = true) (core pcb) (core pcb'') := by
          apply moves.bind
          intro processed given
          exact TcpProcessed.ensures_left given
        have credit := (left.of_ok step.2 pcb' rfl).opening opening
        refine ⟨credit.1, fun _ => ?_⟩
        rcases credit.2 with same | next
        · rw [show pcb'.lastack = pcb.lastack from same]
          exact seqLeq_refl _
        · rw [show pcb'.lastack = pcb.lastack + 1 from next]
          rw [seqLeq, show ∀ a : UInt32, a - (a + 1) = -1 by grind]
          rfl
      · have left : Ensures AnyError (tcpEvent pcb (.segment env p tcphdr opts)) fun out =>
            ∀ pcb'' ∈ out, creditSide pcb'' = creditSide pcb := by
          apply (tcpProcess_credit call opening).bind
          intro processed given
          exact TcpProcessed.ensures_left given
        have credit := left.of_ok step.2 pcb' rfl
        refine ⟨congrArg Prod.fst credit, fun _ => ?_⟩
        rw [show pcb'.lastack = pcb.lastack from congrArg Prod.snd credit]
        exact seqLeq_refl _
    | _ =>
      exact others (quiet_admits rfl rfl) rfl

/-! ## Runs -/

/-- Everything is on its way in a new control block. -/
theorem TcpBegun.flowing (begun : TcpBegun pcb) : FlowKept (core pcb) :=
  begun.kept flowAdmits_plain (fun iss _ => seqLeq_refl iss) flowing_move fun _ _ laid =>
    ⟨_, laid, fun _ member => absurd member not_mem_nil⟩

theorem TcpBegun.sndBuf (begun : TcpBegun pcb) : pcb.sndBuf = tcpSndBuf := by
  rcases begun with ⟨ticks, same⟩ | ⟨env, iss, i, _, done⟩
  · rw [same]
    rfl
  · have moves := tcpListenInput_moves quiet_plain rfl done
    exact moves.credit.1

/-- Everything is on its way, and the bytes written and credited account for `snd_buf`, in every
state that a connection reaches under the condition. -/
theorem tcpLedger_run {start : TcpPcb} {final : TcpLedger} (begun : TcpBegun start)
    (run : Run TcpLedgerStep (fun s => tcpFlowGuard s.pcb) { pcb := start } final) :
    FlowKept (core final.pcb) ∧
      final.written + final.pcb.sndBuf = final.credited + tcpSndBuf := by
  have first : FlowKept (core start) ∧ 0 + start.sndBuf = 0 + tcpSndBuf := by
    rw [begun.sndBuf]
    exact ⟨begun.flowing, rfl⟩
  apply run.invariant first
  intro s event s' before meets step
  have kept := tcpStep_kept flowAdmits_plain flowing_move step.1 before.1 meets.admits
  have credit := (tcpStep_credit before.1 meets step.1).1
  refine ⟨kept, ?_⟩
  rw [step.2.1, step.2.2]
  omega

/-- Unacknowledged data is not dropped: in every state that a connection reaches by events that meet
the condition, `tcp_receive` removes segments only if their end is acknowledged by a number that is
not beyond `snd_nxt`, and credits just their bytes; `lastack` is not beyond `snd_nxt` and does not
move backwards; and the bytes written are those credited and those queued. -/
theorem tcp_receive_drops_acknowledged (start : TcpPcb) (final : TcpLedger) (begun : TcpBegun start)
    (run : Run TcpLedgerStep (fun s => tcpFlowGuard s.pcb) { pcb := start } final) :
    (∀ event env i pcb result, tcpFlowGuard final.pcb event → event.enabled final.pcb →
        event.receiveCall final.pcb = some (env, i, pcb) → tcpReceive env i pcb = .ok result →
        TcpReceived i pcb result) ∧
      seqLeq final.pcb.lastack final.pcb.sndNxt = true ∧
      (∀ event next, tcpFlowGuard final.pcb event → TcpStep final.pcb event next →
        final.pcb.state ≠ .closed → seqLeq final.pcb.lastack next.lastack = true) ∧
      final.credited ≤ final.written ∧
      (final.pcb.state ≠ .timeWait → final.written = final.credited +
        lens ((final.pcb.unacked ++ final.pcb.unsent).map segKey)) := by
  obtain ⟨kept, balance⟩ := tcpLedger_run begun run
  have bounded : ∀ c, Accounts c → c.sndBuf ≤ tcpSndBuf := by
    intro c accounts
    have counts := accounts.balanced.buffer
    omega
  have buffer : final.pcb.sndBuf ≤ tcpSndBuf := by
    rcases kept with ⟨_, _, _, c, accounts, _, _, _, same⟩ | ⟨_, accounts, _⟩
    · rw [show final.pcb.sndBuf = c.sndBuf from same]
      exact bounded c accounts
    · exact bounded _ accounts
  refine ⟨?_, ?_, ?_, ?_, ?_⟩
  · intro event env i pcb result meets enabled call returned
    exact ((receiveCall_cases call).received enabled kept meets).of_ok returned
  · rcases kept with ⟨_, _, _, c, accounts, ⟨l, flowing⟩, lastack, sndNxt, _⟩ |
      ⟨_, accounts, l, flowing⟩
    · have behind := flowing.laid.seqLeq_lastack accounts
      rw [← lastack, ← sndNxt] at behind
      exact behind
    · exact flowing.laid.seqLeq_lastack accounts
  · exact fun event next meets step opened => (tcpStep_credit kept meets step).2 opened
  · omega
  · intro opened
    rcases kept with dropped | ⟨_, accounts, _⟩
    · exact absurd dropped.1 opened
    · have counts := accounts.balanced.buffer
      rw [map_append]
      change final.pcb.sndBuf + lens (final.pcb.unacked.map segKey ++ final.pcb.unsent.map segKey) =
        tcpSndBuf at counts
      omega

/-- A connection with its bytes after an event. -/
def TcpLedger.next (s : TcpLedger) (event : TcpEvent) : TcpLedger :=
  { pcb := tcpNext s.pcb event, written := s.written + event.written s.pcb
    credited := s.credited + event.credited s.pcb }

/-- A connection with its bytes after a list of events, if all of them meet the condition and
succeed. -/
def tcpLedgerOf : TcpLedger → List TcpEvent → Option TcpLedger
  | s, [] => some s
  | s, event :: more =>
    if tcpFlowGuard s.pcb event ∧ event.enabled s.pcb ∧ tcpSucceeds s.pcb event then
      tcpLedgerOf (s.next event) more
    else none

/-- Events that meet the condition and succeed are a run. -/
theorem run_tcpLedgerOf {start final : TcpLedger} {events : List TcpEvent}
    (done : tcpLedgerOf start events = some final) :
    Run TcpLedgerStep (fun s => tcpFlowGuard s.pcb) start final :=
  Run.of_labels (fun _ => rfl) (fun _ _ _ => rfl)
    (fun _ _ can => ⟨can.1, tcpStep_next can.2.1 can.2.2, rfl, rfl⟩) done

/-- The peer acknowledges the first two of three segments. -/
def twoOfThreeAcked : List TcpEvent :=
  threeSegmentsSent ++ [.segment (plainEnv []) [pbufRam 0 []]
    { seqno := 501, ackno := 1002, flags := { ack := true }, wnd := 4096 } []]

/-- The theorem at a connection with two of three bytes acknowledged. -/
theorem tcp_receive_drops_acknowledged_twoOfThree :
    ∃ final : TcpLedger,
      Run TcpLedgerStep (fun s => tcpFlowGuard s.pcb) { pcb := tcpAlloc 0 } final ∧
      final.written = 3 ∧ final.credited = 2 ∧
      seqLeq final.pcb.lastack final.pcb.sndNxt = true ∧
      lens ((final.pcb.unacked ++ final.pcb.unsent).map segKey) = 1 := by
  have returns : (tcpLedgerOf { pcb := tcpAlloc 0 } twoOfThreeAcked).map
      (fun s => (s.written, s.credited, s.pcb.state)) = some (3, 2, .established) := by
    decide +kernel
  obtain ⟨final, done, fields⟩ := Option.map_eq_some_iff.mp returns
  simp only [Prod.mk.injEq] at fields
  have run := run_tcpLedgerOf done
  have facts := tcp_receive_drops_acknowledged (tcpAlloc 0) final (Or.inl ⟨0, rfl⟩) run
  have total := facts.2.2.2.2 (by rw [fields.2.2]; decide)
  rw [fields.1, fields.2.1] at total
  exact ⟨final, run, fields.1, fields.2.1, facts.2.1, by omega⟩

/-- In every state that a connection reaches by events that meet the condition, the segments of both
queues have places in the sequence that is sent, and every place from `lastack` up to `snd_lbb` is
in exactly one of them: nothing on its way is lost, and nothing is queued twice. -/
theorem tcp_queues_cover_once (start : TcpPcb) (final : TcpLedger) (begun : TcpBegun start)
    (run : Run TcpLedgerStep (fun s => tcpFlowGuard s.pcb) { pcb := start } final)
    (kept : final.pcb.state ≠ .timeWait) :
    ∃ l, Laid l (core final.pcb) ∧ ∀ b, l.lastack ≤ b → b < l.sndLbb →
      l.segs.countP (fun x => x.pos ≤ b ∧ b < x.behind) = 1 := by
  rcases (tcpLedger_run begun run).1 with dropped | ⟨_, _, l, flowing⟩
  · exact absurd dropped.1 kept
  have laid := flowing.laid
  refine ⟨l, laid, fun b above below => ?_⟩
  have low := laid.low
  rw [laid.parts.countP_eq, countP_append, laid.adjoining.countP, if_pos (by omega),
    countP_eq_zero.mpr]
  intro x member
  have behind := laid.below x member
  simp only [decide_eq_true_iff]
  omega

/-- The theorem at a connection with two of three bytes acknowledged. -/
theorem tcp_queues_cover_once_twoOfThree : ∃ (final : TcpLedger) (l : Layout),
    final.pcb.lastack = 1002 ∧ final.pcb.sndLbb = 1003 ∧ Laid l (core final.pcb) ∧
      l.lastack < l.sndLbb ∧
      l.segs.countP (fun x => x.pos ≤ l.lastack ∧ l.lastack < x.behind) = 1 := by
  have returns : (tcpLedgerOf { pcb := tcpAlloc 0 } twoOfThreeAcked).map
      (fun s => (s.pcb.state, s.pcb.lastack, s.pcb.sndLbb)) =
        some (.established, 1002, 1003) := by
    decide +kernel
  obtain ⟨final, done, fields⟩ := Option.map_eq_some_iff.mp returns
  simp only [Prod.mk.injEq] at fields
  obtain ⟨l, laid, once⟩ := tcp_queues_cover_once (tcpAlloc 0) final (Or.inl ⟨0, rfl⟩)
    (run_tcpLedgerOf done) (by rw [fields.1]; decide)
  have acked : (1002 : UInt32) = place l.base l.lastack := fields.2.1.symm.trans laid.lastack
  have queued : (1003 : UInt32) = place l.base l.sndLbb := fields.2.2.symm.trans laid.sndLbb
  have some : l.lastack < l.sndLbb := by
    have high := Nat.le_trans laid.acked laid.high
    by_contra none'
    rcases (by omega : l.lastack = l.sndLbb ∨ l.lastack = l.sndLbb + 1) with same | behind
    · rw [same, ← queued] at acked
      cases acked
    · rw [behind, ← place_add_one, ← queued] at acked
      cases acked
  exact ⟨final, l, fields.2.1, fields.2.2, laid, some, once _ (Nat.le_refl _) some⟩

/-- Three bytes are written, but not sent. -/
def threeSegmentsQueued : List TcpEvent := threeSegmentsSent.dropLast

/-- An acknowledgement with a number half of the sequence space ahead. -/
def slippedAck : TcpEvent :=
  .segment (plainEnv []) [pbufRam 0 []]
    { seqno := 501, ackno := 1000 + 2147483648, flags := { ack := true }, wnd := 4096 } []

/-- What the call of `tcp_receive` for the acknowledgement does with a control block. -/
def slippedOutcome (pcb : TcpPcb) : Option (TcpEnv × TcpInput × TcpPcb × TcpInput × TcpPcb) :=
  match slippedAck.receiveCall pcb with
  | none => none
  | some (env, i, pcb') =>
    match tcpReceive env i pcb' with
    | .ok (i', pcb'') => some (env, i, pcb', i', pcb'')
    | .error _ => none

/-- The call of `tcp_receive` behind an outcome. -/
theorem slippedOutcome_call {pcb'' : TcpPcb} {i' : TcpInput}
    (done : slippedOutcome pcb = some (env, i, pcb', i', pcb'')) :
    slippedAck.receiveCall pcb = some (env, i, pcb') ∧
      tcpReceive env i pcb' = .ok (i', pcb'') := by
  unfold slippedOutcome at done
  split at done
  · cases done
  · rename_i env₁ i₁ pcb₁ call
    split at done
    · rename_i i₂ pcb₂ returned
      cases done
      exact ⟨call, returned⟩
    · cases done

/-- `tcp_receive` drops three segments that have never been sent, and credits their bytes, for an
acknowledgement number half of the sequence space ahead. -/
theorem tcp_receive_drops_unsent :
    ∃ pcb env i pcb' result, Run TcpStep (fun _ _ => True) (tcpAlloc 0) pcb ∧
      slippedAck.enabled pcb ∧ slippedAck.receiveCall pcb = some (env, i, pcb') ∧
      tcpReceive env i pcb' = .ok result ∧
      pcb'.sndNxt = 1000 ∧ pcb'.unsent.map (·.tcphdr.seqno) = [1000, 1001, 1002] ∧
      result.2.unsent = [] ∧ result.1.recvAcked = 3 ∧ ¬TcpReceived i pcb' result := by
  have returns : ((tcpEvents (tcpAlloc 0) threeSegmentsQueued).bind fun pcb =>
      (slippedOutcome pcb).map fun out =>
        (decide (slippedAck.enabled pcb), out.2.2.1.sndNxt, out.2.2.1.unsent.map (·.tcphdr.seqno),
          (out.2.2.1.unacked ++ out.2.2.1.unsent).map (SegKey.ends ∘ segKey),
          [out.2.2.2.2.unacked.length, out.2.2.2.2.unsent.length, out.2.2.2.1.recvAcked])) =
      some (true, 1000, [1000, 1001, 1002], [1001, 1002, 1003], [0, 0, 3]) := by
    decide +kernel
  obtain ⟨pcb, done, found⟩ := Option.bind_eq_some_iff.mp returns
  obtain ⟨⟨env, i, pcb', i', pcb''⟩, outcome, fields⟩ := Option.map_eq_some_iff.mp found
  simp only [Prod.mk.injEq, List.cons.injEq, and_true] at fields
  obtain ⟨enabled, sndNxt, seqnos, ends, unacked, unsent, recvAcked⟩ := fields
  have noneSent := length_eq_zero_iff.mp unacked
  have noneQueued := length_eq_zero_iff.mp unsent
  obtain ⟨call, returned⟩ := slippedOutcome_call outcome
  refine ⟨pcb, env, i, pcb', (i', pcb''), run_tcpEvents done, of_decide_eq_true enabled, call,
    returned, sndNxt, seqnos, noneQueued, recvAcked, ?_⟩
  intro received
  obtain ⟨removed, parts, acked, _⟩ := received.removed
  rw [noneSent, noneQueued, append_nil, map_nil, append_nil] at parts
  -- the first segment ends behind `snd_nxt`
  have some' : (1001 : UInt32) ∈ ((pcb'.unacked ++ pcb'.unsent).map segKey).map SegKey.ends := by
    rw [map_map]
    exact ends ▸ mem_cons_self
  obtain ⟨k, member, isEnd⟩ := mem_map.mp some'
  have before := (acked k (parts.subset member)).2.2
  rw [isEnd, sndNxt] at before
  exact absurd before (by decide)

end Lwip
