import Lwip.Verif.TcpReceive

/-!
# Runs of a connection, seen from the receiver

`tcp_process` around the data part of `tcp_receive`, and the events of a connection with a
record of what was handed to the application. Whatever is known of the data that one segment
hands over carries over to `tcp_process`, and events other than segments leave the receiver
alone, up to the window that `tcp_recved` opens and the queue that a timer drops.
-/

namespace Lwip

open Outcome

variable {pcb' : TcpPcb} {event : TcpEvent}

/-! ## `tcp_process` around the data of a segment -/

/-- The fields of the receiver without the state. -/
def receiveFields (pcb : TcpPcb) : UInt32 × Nat × List TcpSeg :=
  (pcb.rcvNxt, pcb.rcvWnd, pcb.ooseq)

/-- The same receiver has the same fields and the same state. -/
theorem receiveFields_of_side {pcb : TcpPcb} (same : receiveSide pcb' = receiveSide pcb) :
    receiveFields pcb' = receiveFields pcb ∧ pcb'.state = pcb.state := by
  simp only [receiveSide, Prod.mk.injEq] at same
  simp only [receiveFields, Prod.mk.injEq]
  exact ⟨⟨same.1, same.2.1, same.2.2.1⟩, same.2.2.2⟩

/-- How `tcp_receive` changes the state. -/
def StateAfterData (state state' : TcpState) : Prop :=
  state' = state ∨ (state = .established ∧ state' = .closeWait)

/-- A relation between the data handed over, the `FIN` seen, and the fields of the receiver. -/
abbrev HandedRel := Chain → Bool → UInt32 × Nat × List TcpSeg → Prop

/-- A relation that does not need the queue. -/
def Purges (Post : HandedRel) : Prop :=
  ∀ ⦃data fin rcvNxt rcvWnd ooseq⦄, Post data fin (rcvNxt, rcvWnd, ooseq) →
    Post data fin (rcvNxt, rcvWnd, [])

/-- A relation for the file-scope variables and a control block. -/
def Handed (Post : HandedRel) (i : TcpInput) (pcb : TcpPcb) : Prop :=
  Post i.recvData i.tfGotFin (receiveFields pcb)

/-- The data part of `tcp_receive` establishes a relation, whatever the acknowledgement did. -/
def DataReceived (tolerated : String → Prop) (Post : HandedRel) (env : TcpEnv) (i : TcpInput)
    (pcb : TcpPcb) : Prop :=
  ∀ (recvAcked : Nat) (pcb' : TcpPcb), receiveFields pcb' = receiveFields pcb →
    (pcb'.state.code < TcpState.closeWait.code → pcb.state.code < TcpState.closeWait.code) →
    Ensures tolerated (tcpReceiveData env { i with recvAcked := recvAcked } pcb') fun result =>
      Handed Post result.1 result.2 ∧ StateAfterData pcb'.state result.2.state

/-- Whether `tcp_process` gets to the data of a segment. -/
def tcpReachesData (pcb : TcpPcb) (i : TcpInput) : Prop :=
  i.flags.rst = false ∧ (TcpState.established.code ≤ pcb.state.code ∨ (pcb.state = .synRcvd ∧
    i.flags.ack = true ∧ seqBetween i.ackno (pcb.lastack + 1) pcb.sndNxt = true))

section Process

variable {tolerated : String → Prop} {Post : HandedRel} {env : TcpEnv} {i : TcpInput}
  {pcb : TcpPcb}

/-- `tcp_receive` establishes what its data part establishes. -/
theorem tcpReceive_handed (tolerant : ∀ message, WindowKept message → tolerated message)
    (data : DataReceived tolerated Post env i pcb) (same : receiveFields pcb' = receiveFields pcb)
    (reach : pcb'.state.code < TcpState.closeWait.code → pcb.state.code < TcpState.closeWait.code) :
    Ensures tolerated (tcpReceive env i pcb') fun result =>
      Handed Post result.1 result.2 ∧ StateAfterData pcb'.state result.2.state := by
  apply ensures_assert (fun _ => tolerant _ (by decide))
  intro _
  apply (Ensures.tolerate (tcpReceiveAck_receiveSide env i pcb') tolerant).bind
  rintro ⟨i', pcb''⟩ ⟨sides, recvAcked, rfl⟩
  obtain ⟨fields, state⟩ := receiveFields_of_side sides
  rw [← state] at reach ⊢
  exact data recvAcked pcb'' (fields.trans same) reach

/-- Purging empties the queue of segments out of sequence. -/
theorem tcpPcbPurge_spec (pcb : TcpPcb) : Ensures WindowKept (tcpPcbPurge pcb) fun pcb' =>
    pcb'.rcvNxt = pcb.rcvNxt ∧ pcb'.rcvWnd = pcb.rcvWnd ∧
      (pcb'.ooseq = pcb.ooseq ∨ pcb'.ooseq = []) := by
  unfold tcpPcbPurge
  split
  · apply (tcpSegsFree_windowKept pcb.ooseq).bind
    intro _ _
    apply (tcpSegsFree_windowKept pcb.unsent).bind
    intro _ _
    apply (tcpSegsFree_windowKept pcb.unacked).bind
    intro _ _
    exact .ok ⟨rfl, rfl, Or.inr rfl⟩
  · exact .ok ⟨rfl, rfl, Or.inl rfl⟩

section

variable (tolerant : ∀ message, WindowKept message → tolerated message)

include tolerant

/-- A relation that does not need the queue survives the change to `TIME_WAIT`. -/
theorem tcpEnterTimeWait_handed (purge : Purges Post) (handed : Handed Post i pcb) :
    Ensures tolerated (tcpEnterTimeWait pcb) fun pcb' =>
      Handed Post i pcb' ∧ pcb'.state = .timeWait := by
  apply (Ensures.tolerate (tcpPcbPurge_spec pcb) tolerant).bind
  intro pcb' kept
  refine .ok ⟨?_, rfl⟩
  rw [kept.1, kept.2.1]
  rcases kept.2.2 with same | empty
  · rw [same]
    exact handed
  · rw [empty]
    exact purge handed

/-- What is known of a step of `tcp_process`: the relation, and that states only move on. -/
def Processed (Post : HandedRel) (state : TcpState) (i : TcpInput) (pcb : TcpPcb) : Prop :=
  Handed Post i pcb ∧ state.code ≤ pcb.state.code ∧
    (i.tfGotFin = true → TcpState.closeWait.code ≤ pcb.state.code)

theorem tcpAfterReceive_processed (purge : Purges Post) {state : TcpState}
    (handed : Handed Post i pcb) (moved : StateAfterData state pcb.state)
    (synchronized : TcpState.established.code ≤ state.code) :
    Ensures tolerated (tcpAfterReceive state i pcb) fun result =>
      Processed Post state result.1 result.2 := by
  have acked : Handed Post i (tcpAckNow pcb) := handed
  -- states behind `FIN_WAIT_2` are only reached with the state unchanged
  have unchanged : state ≠ .established → pcb.state = state := by
    intro other
    rcases moved with same | ⟨established, _⟩
    · exact same
    · exact absurd established other
  have late : Ensures tolerated (tcpEnterTimeWait pcb) fun pcb' =>
      Handed Post i pcb' ∧ pcb'.state = .timeWait := tcpEnterTimeWait_handed tolerant purge handed
  have lateAcked : Ensures tolerated (tcpEnterTimeWait (tcpAckNow pcb)) fun pcb' =>
      Handed Post i pcb' ∧ pcb'.state = .timeWait := tcpEnterTimeWait_handed tolerant purge acked
  have entered : ∀ (pcb' : TcpPcb) (next : TcpState), pcb'.state = next →
      state.code ≤ next.code → TcpState.closeWait.code ≤ next.code → Handed Post i pcb' →
      Processed Post state i pcb' := by
    intro pcb' next done forward closed handed'
    subst done
    exact ⟨handed', forward, fun _ => closed⟩
  have timeWait : ∀ {pcb' : TcpPcb}, Handed Post i pcb' ∧ pcb'.state = .timeWait →
      Processed Post state i pcb' := by
    intro pcb' done
    exact entered pcb' .timeWait done.2 (by cases state <;> decide) (by decide) done.1
  have stays : state ≠ .established → (i.tfGotFin = true → 7 ≤ state.code) →
      Processed Post state i pcb := by
    intro other fin
    refine ⟨handed, ?_, fun gotFin => ?_⟩
    · rw [unchanged other]
    · rw [unchanged other]
      exact fin gotFin
  cases state with
  | established =>
    refine .ok ?_
    split
    · exact entered _ .closeWait rfl (by decide) (by decide) handed
    · rename_i noFin
      refine ⟨handed, ?_, fun gotFin => absurd gotFin noFin⟩
      rcases moved with same | ⟨_, closed⟩
      · rw [same]
      · rw [closed]
        decide
  | closeWait =>
    refine .ok ?_
    split
    · exact entered _ .closeWait rfl (by decide) (by decide) handed
    · exact stays (by decide) fun _ => by decide
  | finWait1 =>
    unfold tcpAfterReceive
    dsimp only
    split
    · split
      · exact lateAcked.bind fun _ done => .ok (timeWait done)
      · exact .ok (entered _ .closing rfl (by decide) (by decide) handed)
    · rename_i noFin
      refine .ok ?_
      split
      · exact ⟨handed, (by decide : (5 : Nat) ≤ 6), fun gotFin => absurd gotFin noFin⟩
      · exact stays (by decide) fun gotFin => absurd gotFin noFin
  | finWait2 =>
    unfold tcpAfterReceive
    dsimp only
    split
    · exact lateAcked.bind fun _ done => .ok (timeWait done)
    · rename_i noFin
      exact .ok (stays (by decide) fun gotFin => absurd gotFin noFin)
  | closing =>
    unfold tcpAfterReceive
    dsimp only
    split
    · exact late.bind fun _ done => .ok (timeWait done)
    · exact .ok (stays (by decide) fun _ => by decide)
  | lastAck =>
    have kept := stays (by decide) fun _ => by decide
    refine .ok ?_
    split
    · exact kept
    · exact kept
  | timeWait => exact .ok (stays (by decide) fun _ => by decide)
  | closed | listen | synSent | synRcvd => exact absurd synchronized (by decide)

theorem tcpProcessAccepted_processed (data : DataReceived tolerated Post env i pcb)
    (same : receiveFields pcb' = receiveFields pcb)
    (reach : pcb'.state.code < TcpState.closeWait.code → pcb.state.code < TcpState.closeWait.code)
    (early : pcb'.state.code ≤ TcpState.closeWait.code) :
    Ensures tolerated (tcpProcessAccepted env i pcb') fun processed =>
      Processed Post pcb'.state processed.input processed.pcb := by
  apply (tcpReceive_handed tolerant data same reach).bind
  rintro ⟨i', pcb''⟩ ⟨handed, moved⟩
  refine .ok ?_
  split
  · exact ⟨handed, early, fun _ => Nat.le_refl TcpState.closeWait.code⟩
  rename_i noFin
  refine ⟨handed, ?_, fun gotFin => absurd gotFin noFin⟩
  rcases moved with unmoved | ⟨established, closed⟩
  · dsimp only at unmoved
    rw [unmoved]
  · dsimp only at closed
    rw [closed, established]
    decide

/-- `tcp_process` for a segment that does not answer a `SYN` of its own. A segment with a `SYN` gets
to its data in state `SYN_RCVD` only. -/
theorem tcpProcess_processed (purge : Purges Post)
    (answers : i.flags.syn = true → pcb.state ≠ .synSent)
    (nothing : i.recvData = [] ∧ i.tfGotFin = false) (idle : Post [] false (receiveFields pcb))
    (data : tcpReachesData pcb i → (i.flags.syn = true → pcb.state = .synRcvd) → DataReceived
      tolerated Post env i pcb) :
    Ensures tolerated (tcpProcess env i pcb) fun processed =>
      Processed Post pcb.state processed.input processed.pcb := by
  have quiet : ∀ pcb', receiveFields pcb' = receiveFields pcb → pcb.state.code ≤ pcb'.state.code →
      Processed Post pcb.state i pcb' := by
    intro pcb' same forward
    refine ⟨?_, forward, ?_⟩
    · rw [Handed, nothing.1, nothing.2, same]
      exact idle
    · rw [nothing.2]
      intro gotFin
      cases gotFin
  apply tcpProcess_ensures (tolerant _ (by decide))
  · intro _ _ _ _
    exact quiet _ rfl (Nat.le_refl _)
  intro noRst notLate
  have late : pcb.state ≠ .synRcvd → i.flags.syn = true → pcb.state = .synRcvd :=
    fun other syn => absurd ⟨syn, answers syn, other⟩ notLate
  have parsed := tcpParseopt_sides i.opts
    { pcb with tmr := if pcb.tfRxclosed then pcb.tmr else env.ticks }
  generalize tcpParseopt i.opts
    { pcb with tmr := if pcb.tfRxclosed then pcb.tmr else env.ticks } = pcb' at parsed
  obtain ⟨fields, state⟩ := receiveFields_of_side parsed.1
  have lastack : pcb'.lastack = pcb.lastack := congrArg SendSide.lastack parsed.2
  have sndNxt : pcb'.sndNxt = pcb.sndNxt := congrArg SendSide.sndNxt parsed.2
  have again : ∀ pcb'', receiveSide pcb'' = receiveSide pcb' →
      Processed Post pcb.state i pcb'' := by
    intro pcb'' sides
    obtain ⟨fields', state'⟩ := receiveFields_of_side sides
    exact quiet pcb'' (fields'.trans fields) (by rw [state', state])
  apply tcpProcessState_ensures
  · intro _
    exact again pcb' rfl
  · intro synSent isSyn _
    exact absurd (state.symm.trans synSent) (answers isSyn)
  · intro _ _ _
    exact (Ensures.tolerate (tcpRexmitRto_receiveSide env _) tolerant).mono again
  · intro _ _ _ _
    exact again _ (tcpRexmit_receiveSide pcb')
  · intro synRcvd acks acknowledges _
    rw [lastack, sndNxt] at acknowledges
    rw [state] at synRcvd
    have reaches : tcpReachesData pcb i := ⟨noRst, Or.inr ⟨synRcvd, acks, acknowledges⟩⟩
    have fields' : receiveFields { pcb' with state := .established } = receiveFields pcb := fields
    have open' : pcb.state.code < TcpState.closeWait.code := by
      rw [synRcvd]
      decide
    apply (tcpProcessAccepted_processed tolerant (data reaches fun _ => synRcvd) fields'
      (fun _ => open') (show TcpState.established.code ≤ 7 by decide)).mono
    rintro processed ⟨handed, forward, fin⟩
    refine ⟨handed, ?_, fin⟩
    rw [synRcvd]
    exact Nat.le_trans (show 3 ≤ TcpState.established.code by decide) forward
  · intro receiving
    rw [state] at receiving ⊢
    have synchronized : TcpState.established.code ≤ pcb.state.code := by
      cases receives : pcb.state <;> rw [receives] at receiving <;> first | decide | cases receiving
    have past : pcb.state ≠ .synRcvd := by
      intro synRcvd
      rw [synRcvd] at receiving
      cases receiving
    apply (tcpReceive_handed tolerant (data ⟨noRst, Or.inl synchronized⟩ (late past)) fields
      (by rw [state]; exact id)).mono
    rintro received ⟨handed, moved⟩
    rw [state] at moved
    exact tcpAfterReceive_processed tolerant purge handed moved synchronized

end

end Process

/-! ## Events other than segments -/

/-- Whether an event is about received data. -/
def TcpEvent.receives : TcpEvent → Bool
  | .segment _ _ _ _ | .accepted _ _ _ | .recved _ _ | .finWindow => true
  | _ => false

/-- A later control block with the same receiver, up to a dropped queue and the state. -/
structure ReceiverKept (pcb pcb' : TcpPcb) : Prop where
  rcvNxt : pcb'.rcvNxt = pcb.rcvNxt
  rcvWnd : pcb'.rcvWnd = pcb.rcvWnd
  ooseq : pcb'.ooseq = pcb.ooseq ∨ pcb'.ooseq = []
  /-- States only move on. -/
  state : pcb.state.code ≤ pcb'.state.code

theorem ReceiverKept.of_side {pcb : TcpPcb} (same : receiveSide pcb' = receiveSide pcb) :
    ReceiverKept pcb pcb' := by
  simp only [receiveSide, Prod.mk.injEq] at same
  exact ⟨same.1, same.2.1, Or.inl same.2.2.1, by rw [same.2.2.2]⟩

/-- `tcp_close_shutdown` changes the state of the receiver only. -/
theorem tcpCloseShutdown_kept (env : TcpEnv) (pcb : TcpPcb) :
    Ensures AnyError (tcpCloseShutdown env pcb) fun result => ReceiverKept pcb result.2 := by
  apply tcpCloseShutdown_ensures env pcb (ReceiverKept.of_side rfl)
  intro states
  apply (tcpSendFin_beside env pcb).mono
  intro queued beside
  have same := receiveSide_of_beside beside
  constructor
  · intro _
    apply (tcpOutput_receiveSide env _).any.mono
    intro sent same'
    simp only [receiveSide, Prod.mk.injEq] at same same'
    refine ⟨same'.1.trans same.1, same'.2.1.trans same.2.1,
      Or.inl (same'.2.2.1.trans same.2.2.1), ?_⟩
    rw [same'.2.2.2]
    rcases states with given | given | given <;> rw [given] <;> decide
  · exact fun _ => ReceiverKept.of_side same

/-- The timer of the queue out of sequence drops it or leaves it. -/
theorem tcpSlowtmrOoseq_kept (env : TcpEnv) {pcb : TcpPcb}
    (same : receiveSide pcb' = receiveSide pcb) :
    Ensures AnyError (tcpSlowtmrOoseq env pcb') fun result => ReceiverKept pcb result := by
  have kept := ReceiverKept.of_side same
  unfold tcpSlowtmrOoseq
  split
  · apply ensures_skip
    intro _
    exact .ok ⟨kept.rcvNxt, kept.rcvWnd, Or.inr rfl, kept.state⟩
  · exact .ok kept

/-- `tcp_slowtmr` drops the queue out of sequence or leaves it. -/
theorem tcpSlowtmr_kept (env : TcpEnv) (pcb : TcpPcb) :
    Ensures AnyError (tcpSlowtmr env pcb) fun result =>
      ∀ pcb' ∈ result, ReceiverKept pcb pcb' := by
  unfold tcpSlowtmr
  split
  · exact .ok (by simp)
  split
  · apply (tcpSlowtmrOoseq_kept env (receiveSide_of_beside
      (tcpSlowtmrPersist_beside env pcb))).bind
    intro pcb' kept
    exact .ok (by simpa using kept)
  · apply (tcpSlowtmrRto_receiveSide env pcb).any.bind
    intro pcb' same
    apply (tcpSlowtmrOoseq_kept env same).bind
    intro result kept
    exact .ok (by simpa using kept)

/-- Events that are not about received data leave the receiver of an open connection alone. -/
theorem tcpEvent_kept {pcb : TcpPcb} (opened : pcb.state ≠ .closed)
    (other : event.receives = false) :
    Ensures AnyError (tcpEvent pcb event) fun result =>
      ∀ pcb' ∈ result, ReceiverKept pcb pcb' := by
  have side : ∀ {x : Asserting (Err × TcpPcb)},
      (Ensures AnyError x fun result => besideSending result.2 = besideSending pcb) →
      Ensures AnyError (x >>= fun result => .ok (some result.2)) fun result =>
        ∀ pcb' ∈ result, ReceiverKept pcb pcb' := by
    intro x given
    apply given.bind
    intro result same
    exact .ok (by simpa using ReceiverKept.of_side (receiveSide_of_beside same))
  have anyway : ∀ message, WindowKept message → AnyError message := fun _ _ => trivial
  cases event with
  | connect env iss =>
    apply side
    unfold tcpConnect
    rw [if_pos opened]
    exact .ok rfl
  | write env args => exact side (tcpWrite_beside env pcb args)
  | enqueueFlags env flags => exact side (tcpEnqueueFlags_beside env pcb flags)
  | sendFin env => exact side (tcpSendFin_beside env pcb)
  | close env =>
    apply (tcpCloseShutdown_kept env pcb).bind
    rintro ⟨_, pcb'⟩ kept
    exact .ok (by simpa using kept)
  | output env => exact side (Ensures.tolerate (tcpOutput_beside env pcb) anyway)
  | accept =>
    refine .ok ?_
    intro pcb' member
    simp only [Option.mem_some_iff] at member
    subst member
    split
    · rename_i synRcvd
      refine ⟨rfl, rfl, Or.inl rfl, ?_⟩
      rw [synRcvd]
      show TcpState.synRcvd.code ≤ TcpState.established.code
      decide
    · exact ReceiverKept.of_side rfl
  | rexmit =>
    exact .ok (by simpa using ReceiverKept.of_side (tcpRexmit_receiveSide pcb))
  | rexmitFast =>
    exact .ok (by simpa using ReceiverKept.of_side (tcpRexmitFast_receiveSide pcb))
  | rexmitRto env =>
    apply (Ensures.tolerate (tcpRexmitRto_receiveSide env pcb) anyway).bind
    intro pcb' same
    exact .ok (by simpa using ReceiverKept.of_side same)
  | fasttmr env =>
    apply (Ensures.tolerate (tcpFasttmr_receiveSide env pcb) anyway).bind
    intro pcb' same
    exact .ok (by simpa using ReceiverKept.of_side same)
  | slowtmr env => exact tcpSlowtmr_kept env pcb
  | keepalive env =>
    have same : receiveSide (tcpKeepalive env pcb).2 = receiveSide pcb :=
      (congrArg receiveSide (tcpKeepalive_beside env pcb) :)
    exact .ok (by simpa using ReceiverKept.of_side same)
  | segment | accepted | recved | finWindow => cases other

/-- What `tcp_recved` does to a receiver: the window never exceeds its maximum, and it grows by
the given length while data can still arrive. -/
structure WindowReopened (len : Nat) (pcb pcb' : TcpPcb) : Prop where
  rcvNxt : pcb'.rcvNxt = pcb.rcvNxt
  ooseq : pcb'.ooseq = pcb.ooseq
  state : pcb'.state = pcb.state
  bounded : pcb'.rcvWnd ≤ tcpWnd
  /-- The window grows. -/
  grown : pcb.state.code < TcpState.closeWait.code → pcb.rcvWnd + len ≤ tcpWnd →
    pcb'.rcvWnd = pcb.rcvWnd + len

theorem tcpReopenWnd_spec (len : Nat) (pcb : TcpPcb) :
    Ensures AnyError (tcpReopenWnd len pcb) (WindowReopened len pcb) := by
  have fits : pcb.rcvWnd + len ≤ tcpWnd → u16 (pcb.rcvWnd + len) = pcb.rcvWnd + len :=
    fun small => u16_of_lt (Nat.lt_of_le_of_lt small (by decide))
  unfold tcpReopenWnd
  dsimp only
  split
  · rename_i large
    refine .ok ⟨rfl, rfl, rfl, Nat.le_refl _, fun _ small => ?_⟩
    omega
  rename_i bounded
  split
  · split
    · rename_i closing
      refine .ok ⟨rfl, rfl, rfl, Nat.le_refl _, fun early _ => ?_⟩
      rcases closing with given | given <;> rw [given] at early <;> exact absurd early (by decide)
    · exact .error trivial
  · exact .ok ⟨rfl, rfl, rfl, Nat.le_of_not_gt bounded, fun _ small => fits small⟩

theorem tcpRecved_spec (env : TcpEnv) (len : Nat) (pcb : TcpPcb) :
    Ensures AnyError (tcpRecved env len pcb) (WindowReopened len pcb) := by
  apply ensures_pass trivial
  apply (tcpReopenWnd_spec len pcb).bind
  intro pcb' reopened
  apply (tcpUpdateRcvAnnWnd_spec pcb').any.bind
  rintro ⟨inflation, announced⟩ ⟨rcvAnnWnd, same⟩
  dsimp only at same ⊢
  subst same
  split
  · apply (tcpOutput_receiveSide env _).any.bind
    rintro ⟨_, sent⟩ same
    simp only [receiveSide, Prod.mk.injEq] at same
    obtain ⟨next, size, queue, state⟩ := same
    exact .ok ⟨next.trans reopened.rcvNxt, queue.trans reopened.ooseq,
      state.trans reopened.state, Nat.le_trans (Nat.le_of_eq size) reopened.bounded,
      fun early small => size.trans (reopened.grown early small)⟩
  · exact .ok ⟨reopened.rcvNxt, reopened.ooseq, reopened.state, reopened.bounded, reopened.grown⟩

/-! ## Connections with a record of what was received -/

/-- A connection, and what its application has got so far. -/
structure TcpConn where
  pcb : TcpPcb
  /-- Bytes handed over through `recv_data`. -/
  delivered : List UInt8
  /-- Bytes handed over that the application has not yet taken off the window. -/
  pending : Nat
  /-- Whether `TF_GOT_FIN` has been raised. -/
  finSeen : Bool

/-- What an event hands over: `recv_data` and `TF_GOT_FIN`. -/
def tcpHanded (pcb : TcpPcb) : TcpEvent → Chain × Bool
  | .segment env p tcphdr opts =>
    match tcpProcess env (tcpInputOf p tcphdr opts) pcb with
    | .ok processed => (processed.input.recvData, processed.input.tfGotFin)
    | .error _ => ([], false)
  | .accepted env p tcphdr =>
    match tcpProcessAccepted env (tcpInputOf p tcphdr []) pcb with
    | .ok processed => (processed.input.recvData, processed.input.tfGotFin)
    | .error _ => ([], false)
  | _ => ([], false)

/-- The bytes that an event takes off the window. -/
def tcpTaken : TcpEvent → Nat
  | .recved _ len => len
  | _ => 0

/-- The connection after an event. -/
def TcpConn.after (c : TcpConn) (event : TcpEvent) (pcb : TcpPcb) : TcpConn :=
  { pcb := pcb
    delivered := c.delivered ++ Chain.bytes (tcpHanded c.pcb event).1
    pending := c.pending + (tcpHanded c.pcb event).1.totLen - tcpTaken event
    finSeen := c.finSeen || (tcpHanded c.pcb event).2 }

/-- One event of a connection with its record. -/
def ConnStep (c : TcpConn) (event : TcpEvent) (c' : TcpConn) : Prop :=
  ∃ pcb, TcpStep c.pcb event pcb ∧ c' = c.after event pcb

/-- The connection after the data of a segment. -/
def TcpConn.received (c : TcpConn) (input : TcpInput) (pcb : TcpPcb) : TcpConn :=
  { pcb := pcb
    delivered := c.delivered ++ Chain.bytes input.recvData
    pending := c.pending + input.recvData.totLen
    finSeen := c.finSeen || input.tfGotFin }

/-- Everything that an event can do to an open connection, seen from the receiver. -/
inductive ConnOutcome (c : TcpConn) : TcpEvent → TcpConn → Prop
  | segment {env : TcpEnv} {p : Chain} {tcphdr : TcpHdr} {opts : List UInt8}
      {processed : TcpProcessed}
      (computed : tcpProcess env (tcpInputOf p tcphdr opts) c.pcb = .ok processed) :
      ConnOutcome c (.segment env p tcphdr opts) (c.received processed.input processed.pcb)
  | accepted {env : TcpEnv} {p : Chain} {tcphdr : TcpHdr} {processed : TcpProcessed}
      (early : c.pcb.state.code ≤ TcpState.closeWait.code)
      (computed : tcpProcessAccepted env (tcpInputOf p tcphdr []) c.pcb = .ok processed) :
      ConnOutcome c (.accepted env p tcphdr) (c.received processed.input processed.pcb)
  | recved {env : TcpEnv} {len : Nat} {pcb : TcpPcb} (reopened : WindowReopened len c.pcb pcb) :
      ConnOutcome c (.recved env len) { c with pcb := pcb, pending := c.pending - len }
  | finWindow : ConnOutcome c .finWindow { c with pcb := tcpFinWindow c.pcb }
  | other {event : TcpEvent} {pcb : TcpPcb} (quiet : event.receives = false)
      (kept : ReceiverKept c.pcb pcb) : ConnOutcome c event { c with pcb := pcb }

/-- Returning from the accept callback, the connection is still open for data. -/
theorem early_of_accepted {env : TcpEnv} {p : Chain} {tcphdr : TcpHdr} {pcb : TcpPcb}
    (enabled : (TcpEvent.accepted env p tcphdr).enabled pcb) :
    pcb.state.code ≤ TcpState.closeWait.code := by
  rcases enabled with given | given <;> rw [given] <;> decide

theorem connStep_outcome {c c' : TcpConn} (opened : 0 < c.pcb.state.code)
    (step : ConnStep c event c') : ConnOutcome c event c' := by
  obtain ⟨pcb, ⟨enabled, done⟩, rfl⟩ := step
  have other : event.receives = false → ConnOutcome c event (c.after event pcb) := by
    intro quiet
    have open' : c.pcb.state ≠ .closed := by
      intro closed
      rw [closed] at opened
      exact absurd opened (by decide)
    have kept := (tcpEvent_kept open' quiet).of_ok done pcb rfl
    have nothing : tcpHanded c.pcb event = ([], false) ∧ tcpTaken event = 0 := by
      cases event <;> first | exact ⟨rfl, rfl⟩ | cases quiet
    have same : c.after event pcb = { c with pcb := pcb } := by
      simp [TcpConn.after, nothing.1, nothing.2, Chain.bytes, Chain.totLen]
    rw [same]
    exact .other quiet kept
  cases event with
  | segment env p tcphdr opts =>
    obtain ⟨processed, computed, result⟩ := bind_ok.mp done
    have same : processed.pcb = pcb := by
      split at result
      · cases result
        rfl
      · cases result
    subst same
    have after : c.after (.segment env p tcphdr opts) processed.pcb =
        c.received processed.input processed.pcb := by
      simp [TcpConn.after, TcpConn.received, tcpHanded, computed, tcpTaken]
    rw [after]
    exact .segment computed
  | accepted env p tcphdr =>
    obtain ⟨processed, computed, result⟩ := bind_ok.mp done
    cases result
    have after : c.after (.accepted env p tcphdr) processed.pcb =
        c.received processed.input processed.pcb := by
      simp [TcpConn.after, TcpConn.received, tcpHanded, computed, tcpTaken]
    rw [after]
    exact .accepted (early_of_accepted enabled) computed
  | recved env len =>
    obtain ⟨after, computed, result⟩ := bind_ok.mp done
    cases result
    have same : c.after (.recved env len) pcb =
        { c with pcb := pcb, pending := c.pending - len } := by
      simp [TcpConn.after, tcpHanded, tcpTaken, Chain.bytes, Chain.totLen]
    rw [same]
    exact .recved ((tcpRecved_spec env len c.pcb).of_ok computed)
  | finWindow =>
    cases done
    have same : c.after .finWindow (tcpFinWindow c.pcb) =
        { c with pcb := tcpFinWindow c.pcb } := by
      simp [TcpConn.after, tcpHanded, tcpTaken, Chain.bytes, Chain.totLen]
    rw [same]
    exact .finWindow
  | _ => exact other rfl

/-- The control block after an event that succeeds. -/
def tcpNext (pcb : TcpPcb) (event : TcpEvent) : TcpPcb :=
  match tcpEvent pcb event with
  | .ok (some pcb') => pcb'
  | _ => pcb

/-- Whether an event succeeds and leaves a control block. -/
def tcpSucceeds (pcb : TcpPcb) (event : TcpEvent) : Bool :=
  match tcpEvent pcb event with
  | .ok (some _) => true
  | _ => false

theorem tcpStep_next {pcb : TcpPcb} (enabled : event.enabled pcb)
    (succeeds : tcpSucceeds pcb event = true) : TcpStep pcb event (tcpNext pcb event) := by
  refine ⟨enabled, ?_⟩
  unfold tcpSucceeds at succeeds
  unfold tcpNext
  split at succeeds
  · assumption
  · cases succeeds

/-- The connection after an event that succeeds. -/
def TcpConn.next (c : TcpConn) (event : TcpEvent) : TcpConn := c.after event (tcpNext c.pcb event)

theorem connStep_next {c : TcpConn} (enabled : event.enabled c.pcb)
    (succeeds : tcpSucceeds c.pcb event = true) : ConnStep c event (c.next event) :=
  ⟨tcpNext c.pcb event, tcpStep_next enabled succeeds, rfl⟩

/-- The environment of a call from `tcp_input` in which everything succeeds. -/
def quietEnv : TcpEnv := { plainEnv [] with ticks := 0, inputPcb := true }

/-- The arrival of some data. -/
def dataEvent (seqno : UInt32) (data : List UInt8) (fin : Bool) : TcpEvent :=
  .segment quietEnv [pbufRam 0 data]
    { seqno := seqno, flags := { fin := fin, ack := true }, wnd := 8096 } []

end Lwip
