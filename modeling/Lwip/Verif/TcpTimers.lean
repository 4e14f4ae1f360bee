import Lwip.Verif.TcpAccounts

/-!
# The fields of the retransmission timer

The counter of retransmissions, the two estimators of the round trip time and the time-out are
changed by a retransmission, by an acknowledgement and by a time-out. Every other function leaves
the four fields alone, which is stated here once.
-/

namespace Lwip

open Outcome

variable {pcb' : TcpPcb} (env : TcpEnv) (i : TcpInput) (pcb : TcpPcb)

/-- `nrtx`, `sa`, `sv` and `rto`. -/
def rexmitTimer (pcb : TcpPcb) : Nat × Int × Int × Int := (pcb.nrtx, pcb.sa, pcb.sv, pcb.rto)

/-- The counter is a part of the timer. -/
theorem nrtx_of_timer {pcb : TcpPcb} (same : rexmitTimer pcb' = rexmitTimer pcb) :
    pcb'.nrtx = pcb.nrtx := congrArg Prod.fst same

/-- What leaves the fields beside sending alone leaves the timer alone. -/
theorem timer_of_beside {pcb : TcpPcb} (same : besideSending pcb' = besideSending pcb) :
    rexmitTimer pcb' = rexmitTimer pcb := by
  change rexmitTimer (besideSending pcb') = rexmitTimer (besideSending pcb)
  rw [same]

/-- What leaves the fields beside the data alone leaves the timer alone. -/
theorem timer_of_besideData {pcb : TcpPcb} (same : besideData pcb' = besideData pcb) :
    rexmitTimer pcb' = rexmitTimer pcb := by
  change rexmitTimer (besideData pcb') = rexmitTimer (besideData pcb)
  rw [same]

/-! ## Incoming segments -/

/-- The timer and what is measured for it: `rttest` and `rtseq`. -/
def rttTimer (pcb : TcpPcb) : (Nat × Int × Int × Int) × UInt32 × UInt32 :=
  (rexmitTimer pcb, pcb.rttest, pcb.rtseq)

/-- The timer without what is measured for it. -/
theorem timer_of_rtt {pcb : TcpPcb} (same : rttTimer pcb' = rttTimer pcb) :
    rexmitTimer pcb' = rexmitTimer pcb := congrArg Prod.fst same

/-- Options do not concern the timer. -/
theorem tcpParseopt_rttTimer (opts : List UInt8) (pcb : TcpPcb) :
    rttTimer (tcpParseopt opts pcb) = rttTimer pcb := by
  obtain ⟨mss, same, _⟩ := tcpParseopt_eq opts pcb
  rw [same]
  rfl

/-- The update of the send window leaves the timer and its measurement alone. -/
theorem tcpUpdateSndWnd_rttTimer : rttTimer (tcpUpdateSndWnd i pcb) = rttTimer pcb := by
  unfold tcpUpdateSndWnd
  split
  · dsimp only
    split
    · unfold tcpPersistStart
      split <;> rfl
    · split <;> rfl
  · rfl

/-- Growth of the congestion window leaves the timer and its measurement alone. -/
theorem tcpGrowCwnd_rttTimer :
    Ensures AnyError (tcpGrowCwnd pcb) fun pcb' => rttTimer pcb' = rttTimer pcb := by
  unfold tcpGrowCwnd
  split
  · exact .ok rfl
  · exact ensures_assert (fun _ => trivial) fun _ => .ok rfl

/-- What changes the queues only leaves the timer and its measurement alone. -/
theorem rtt_of_besideQueues {pcb : TcpPcb} (same : besideQueues pcb' = besideQueues pcb) :
    rttTimer pcb' = rttTimer pcb := (congrArg rttTimer same :)

/-- Freeing the SYN leaves the timer alone. -/
theorem tcpFreeSyn_timer :
    Ensures AnyError (tcpFreeSyn pcb) fun pcb' => rexmitTimer pcb' = rexmitTimer pcb := by
  unfold tcpFreeSyn
  split
  · exact (ensures_any _).bind fun _ _ => .ok rfl
  · exact (ensures_any _).bind fun _ _ => .ok rfl
  · exact .error trivial

/-- So does what `tcp_process` does behind `tcp_receive`. -/
theorem tcpAfterReceive_timer (state : TcpState) (i : TcpInput) (pcb : TcpPcb) :
    Ensures AnyError (tcpAfterReceive state i pcb) fun result =>
      rexmitTimer result.2 = rexmitTimer pcb :=
  (tcpAfterReceive_besideClosing state i pcb).mono fun _ same => (congrArg rexmitTimer same :)

/-! ## The application and the timers -/

/-- Freeing `ooseq` leaves the timer alone. -/
theorem tcpSlowtmrOoseq_timer :
    Ensures AnyError (tcpSlowtmrOoseq env pcb) fun pcb' =>
      rexmitTimer pcb' = rexmitTimer pcb := by
  unfold tcpSlowtmrOoseq
  split
  · exact (ensures_any _).bind fun _ _ => .ok rfl
  · exact .ok rfl

/-- Sending leaves the timer alone. -/
theorem tcpOutput_timer :
    Ensures AnyError (tcpOutput env pcb) fun result =>
      rexmitTimer result.2 = rexmitTimer pcb := by
  apply (tcpOutput_beside env pcb).any.mono
  intro result same
  exact timer_of_beside same

/-- Connecting leaves the timer alone. -/
theorem tcpConnect_timer (iss : UInt32) (pcb : TcpPcb) :
    Ensures AnyError (tcpConnect env iss pcb) fun result =>
      rexmitTimer result.2 = rexmitTimer pcb := by
  unfold tcpConnect
  split
  · exact .ok rfl
  apply (tcpEnqueueFlags_beside env _ _).bind
  intro queued same
  have kept := timer_of_beside same
  dsimp only
  split
  · apply (tcpOutput_timer env _).bind
    intro sent output
    exact .ok (output.trans kept)
  · exact .ok kept

/-- Closing leaves the timer alone. -/
theorem tcpCloseShutdown_timer :
    Ensures AnyError (tcpCloseShutdown env pcb) fun result =>
      rexmitTimer result.2 = rexmitTimer pcb := by
  refine tcpCloseShutdown_ensures env pcb rfl ?_
  intro _
  apply (tcpSendFin_beside env pcb).mono
  intro queued same
  have kept := timer_of_beside same
  constructor
  · intro _
    apply (tcpOutput_timer env _).mono
    intro sent output
    exact output.trans kept
  · exact fun _ => kept

/-- Taking data leaves the timer alone. -/
theorem tcpRecved_timer (len : Nat) (pcb : TcpPcb) :
    Ensures AnyError (tcpRecved env len pcb) fun pcb' => rexmitTimer pcb' = rexmitTimer pcb := by
  have reopened : Ensures AnyError (tcpReopenWnd len pcb) fun pcb' =>
      rexmitTimer pcb' = rexmitTimer pcb := by
    unfold tcpReopenWnd
    dsimp only
    split
    · exact .ok rfl
    · split
      · split
        · exact .ok rfl
        · exact .error trivial
      · exact .ok rfl
  have updated (pcb : TcpPcb) : Ensures AnyError (tcpUpdateRcvAnnWnd pcb) fun result =>
      rexmitTimer result.2 = rexmitTimer pcb := by
    apply (tcpUpdateRcvAnnWnd_spec pcb).any.mono
    intro result same
    rw [same.choose_spec]
    rfl
  apply ensures_pass trivial
  apply reopened.bind
  intro middle same
  apply (updated middle).bind
  intro result kept
  dsimp only
  split
  · apply (tcpOutput_timer env _).bind
    intro sent output
    exact .ok (output.trans (kept.trans same))
  · exact .ok (kept.trans same)

/-- `tcp_fasttmr` leaves the timer alone. -/
theorem tcpFasttmr_timer (env : TcpEnv) (pcb : TcpPcb) :
    Ensures AnyError (tcpFasttmr env pcb) fun pcb' => rexmitTimer pcb' = rexmitTimer pcb := by
  unfold tcpFasttmr
  split
  · apply (tcpOutput_timer env _).bind
    intro sent same
    exact .ok same
  · exact .ok rfl

/-- An event that can change the timer. -/
def TcpEvent.timed : TcpEvent → Bool
  | .segment _ _ _ _ | .accepted _ _ _ | .rexmit | .rexmitFast | .rexmitRto _ | .slowtmr _ => true
  | _ => false

/-- Every other event leaves the timer alone. -/
theorem tcpEvent_timer {event : TcpEvent} (quiet : event.timed = false) :
    Ensures AnyError (tcpEvent pcb event) fun result =>
      ∃ pcb', result = some pcb' ∧ rexmitTimer pcb' = rexmitTimer pcb := by
  cases event with
  | connect env iss =>
    apply (tcpConnect_timer env iss pcb).bind
    intro result same
    exact .ok ⟨_, rfl, same⟩
  | write env args =>
    apply (tcpWrite_beside env pcb args).bind
    intro result same
    exact .ok ⟨_, rfl, timer_of_beside same⟩
  | enqueueFlags env flags =>
    apply (tcpEnqueueFlags_beside env pcb flags).bind
    intro result same
    exact .ok ⟨_, rfl, timer_of_beside same⟩
  | sendFin env =>
    apply (tcpSendFin_beside env pcb).bind
    intro result same
    exact .ok ⟨_, rfl, timer_of_beside same⟩
  | close env =>
    apply (tcpCloseShutdown_timer env pcb).bind
    intro result same
    exact .ok ⟨_, rfl, same⟩
  | output env =>
    apply (tcpOutput_timer env pcb).bind
    intro result same
    exact .ok ⟨_, rfl, same⟩
  | recved env len =>
    apply (tcpRecved_timer env len pcb).bind
    intro pcb' same
    exact .ok ⟨_, rfl, same⟩
  | fasttmr env =>
    apply (tcpFasttmr_timer env pcb).bind
    intro pcb' same
    exact .ok ⟨_, rfl, same⟩
  | accept =>
    refine .ok ⟨_, rfl, ?_⟩
    split <;> rfl
  | finWindow => exact .ok ⟨_, rfl, rfl⟩
  | keepalive env => exact .ok ⟨_, rfl, (congrArg rexmitTimer (tcpKeepalive_beside env pcb) :)⟩
  | _ => cases quiet

/-- A connection starts with the timer of `tcp_alloc`. -/
theorem TcpCreated.timer {pcb : TcpPcb} (created : TcpCreated pcb) :
    rexmitTimer pcb = (0, 0, 6, 6) := by
  cases created with
  | inl allocated =>
    rw [allocated.choose_spec]
    rfl
  | inr listening =>
    obtain ⟨env, iss, i, input⟩ := listening
    have listened : Ensures AnyError (tcpListenInput env iss i) fun result =>
        rexmitTimer result.2 = (0, 0, 6, 6) := by
      apply (tcpEnqueueFlags_beside env _ _).bind
      intro queued same
      have kept := (timer_of_beside same).trans (timer_of_rtt (tcpParseopt_rttTimer i.opts _))
      dsimp only
      split
      · exact .ok kept
      · apply (tcpOutput_timer env _).bind
        intro sent output
        exact .ok (output.trans kept)
    exact listened.of_ok input

end Lwip
