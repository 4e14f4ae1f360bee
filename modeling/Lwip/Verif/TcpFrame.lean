import Lwip.Verif.TcpOoseq

/-!
# What the two directions of a connection leave alone

The functions that send leave the fields of the receiver as they are, and the functions that
receive data leave the fields of the sender as they are.
-/

namespace Lwip

open Outcome

variable (env : TcpEnv) (i : TcpInput) (pcb : TcpPcb)

/-- The fields that the receiver works on. -/
def receiveSide (pcb : TcpPcb) : UInt32 × Nat × List TcpSeg × TcpState :=
  (pcb.rcvNxt, pcb.rcvWnd, pcb.ooseq, pcb.state)

/-- The fields that the sender works on. -/
structure SendSide where
  unsent : List TcpSeg
  unacked : List TcpSeg
  unsentOversize : Nat
  sndBuf : Nat
  sndQueuelen : Nat
  sndLbb : UInt32
  sndNxt : UInt32
  lastack : UInt32

/-- The fields of the sender in a control block. -/
def sendSide (pcb : TcpPcb) : SendSide :=
  { unsent := pcb.unsent, unacked := pcb.unacked, unsentOversize := pcb.unsentOversize
    sndBuf := pcb.sndBuf, sndQueuelen := pcb.sndQueuelen, sndLbb := pcb.sndLbb
    sndNxt := pcb.sndNxt, lastack := pcb.lastack }

/-- The fields that the functions for queueing and transmission leave alone, with the others
blanked out. -/
def besideSending (pcb : TcpPcb) : TcpPcb :=
  { pcb with
    tfAckDelay := false, tfAckNow := false, tfFin := false, tfNaglememerr := false
    rcvAnnRightEdge := 0, rtime := 0, rttest := 0, rtseq := 0, sndNxt := 0, sndLbb := 0
    sndBuf := 0, sndQueuelen := 0, unsentOversize := 0, unsent := [], unacked := []
    persistCnt := 0, persistBackoff := 0, sent := [] }

/-- The fields that an acknowledgement without data leaves alone, with the others blanked out. -/
def besideAck (pcb : TcpPcb) : TcpPcb :=
  { pcb with tfAckDelay := false, tfAckNow := false, rcvAnnRightEdge := 0, sent := [] }

/-- The receiver is beside the functions for queueing and transmission. -/
theorem receiveSide_of_beside {pcb pcb' : TcpPcb}
    (same : besideSending pcb' = besideSending pcb) : receiveSide pcb' = receiveSide pcb := by
  change receiveSide (besideSending pcb') = receiveSide (besideSending pcb)
  rw [same]

/-! ## The sender leaves the receiver alone -/

/-- `tcp_send_empty_ack` announces the window and notes whether this has to be done again. -/
theorem tcpSendEmptyAck_beside (n : Nat) (pcb : TcpPcb) :
    besideAck (tcpSendEmptyAck env n pcb).2 = besideAck pcb := by
  unfold tcpSendEmptyAck
  split
  · rfl
  · split
    · rfl
    · split <;> rfl

/-- `tcp_send_empty_ack` touches neither the queues nor the received data. -/
theorem tcpSendEmptyAck_sides (n : Nat) (pcb : TcpPcb) :
    receiveSide (tcpSendEmptyAck env n pcb).2 = receiveSide pcb ∧
      sendSide (tcpSendEmptyAck env n pcb).2 = sendSide pcb :=
  have same := tcpSendEmptyAck_beside env n pcb
  ⟨(congrArg receiveSide same :), (congrArg sendSide same :)⟩

/-- A segment that is handed over is counted by the timers only. -/
theorem tcpOutputSegment_beside (n : Nat) (seg : TcpSeg) (pcb : TcpPcb) :
    besideSending (tcpOutputSegment env n seg pcb).2.2 = besideSending pcb := by
  unfold tcpOutputSegment
  split <;> rfl

/-- The loop of `tcp_output` changes the fields of sending only. -/
theorem tcpOutputLoop_beside (wnd n : Nat) (unsent : List TcpSeg) (pcb : TcpPcb) :
    Ensures WindowKept (tcpOutputLoop env wnd n unsent pcb) fun result =>
      besideSending result.2 = besideSending pcb := by
  induction unsent generalizing n pcb with
  | nil => exact .ok rfl
  | cons seg next ih =>
    unfold tcpOutputLoop
    split
    · apply ensures_pass (by decide)
      split
      · exact .ok rfl
      have beside := tcpOutputSegment_beside env n (tcpPrepare pcb seg) pcb
      rcases sent : tcpOutputSegment env n (tcpPrepare pcb seg) pcb with ⟨err, seg', pcb'⟩
      rw [sent] at beside
      dsimp only at beside ⊢
      split
      · exact .ok beside
      · exact (ih (n + 1) (tcpSegSent seg' next pcb')).mono fun _ same => same.trans beside
    · exact .ok rfl

/-- `tcp_output` changes the fields of sending only. -/
theorem tcpOutput_beside :
    Ensures WindowKept (tcpOutput env pcb) fun result =>
      besideSending result.2 = besideSending pcb := by
  apply ensures_pass (by decide)
  dsimp only
  split
  · exact .ok rfl
  split
  · exact .ok (congrArg besideSending (tcpSendEmptyAck_beside env 0 pcb) :)
  · split
    · exact .ok rfl
    · split
      · refine .ok ?_
        unfold tcpPersistStart
        split <;> rfl
      · exact tcpOutputLoop_beside env _ 0 pcb.unsent pcb

/-- `tcp_output` does not touch the receiver. -/
theorem tcpOutput_receiveSide :
    Ensures WindowKept (tcpOutput env pcb) fun result =>
      receiveSide result.2 = receiveSide pcb :=
  (tcpOutput_beside env pcb).mono fun _ => receiveSide_of_beside

/-- `tcp_enqueue_flags` changes the fields of sending only. -/
theorem tcpEnqueueFlags_beside (flags : TcpFlags) :
    Ensures AnyError (tcpEnqueueFlags env pcb flags) fun result =>
      besideSending result.2 = besideSending pcb := by
  apply ensures_pass trivial
  split
  · exact .ok rfl
  split
  · exact .ok rfl
  · dsimp only
    apply ensures_skip
    intro created
    cases created with
    | none => exact .ok rfl
    | some seg =>
      apply ensures_pass trivial
      exact .ok rfl

/-- `tcp_enqueue_flags` does not touch the receiver. -/
theorem tcpEnqueueFlags_receiveSide (flags : TcpFlags) :
    Ensures AnyError (tcpEnqueueFlags env pcb flags) fun result =>
      receiveSide result.2 = receiveSide pcb :=
  (tcpEnqueueFlags_beside env pcb flags).mono fun _ => receiveSide_of_beside

/-- `tcp_send_fin` changes the fields of sending only. -/
theorem tcpSendFin_beside :
    Ensures AnyError (tcpSendFin env pcb) fun result =>
      besideSending result.2 = besideSending pcb := by
  unfold tcpSendFin
  split
  · exact tcpEnqueueFlags_beside env pcb _
  · dsimp only
    split
    · exact .ok rfl
    · exact tcpEnqueueFlags_beside env pcb _

/-- The end of a `tcp_write` that has found memory. -/
theorem tcpWriteFinish_beside (w : WriteArgs) (l : WriteLocals) (unsent : List TcpSeg) :
    Ensures AnyError (tcpWriteFinish pcb w l unsent) fun result =>
      besideSending result.2 = besideSending pcb := by
  apply ensures_pass trivial
  exact .ok rfl

/-- The end of a `tcp_write` that has not. -/
theorem tcpWriteMemerr_beside :
    Ensures AnyError (tcpWriteMemerr pcb) fun result =>
      besideSending result.2 = besideSending pcb := by
  apply ensures_pass trivial
  exact .ok rfl

/-- `tcp_write` changes the fields of sending only. -/
theorem tcpWrite_beside (w : WriteArgs) :
    Ensures AnyError (tcpWrite env pcb w) fun result =>
      besideSending result.2 = besideSending pcb := by
  have checks : Ensures AnyError (tcpWriteChecks pcb w.len) fun result =>
      besideSending result.2 = besideSending pcb := by
    unfold tcpWriteChecks
    split
    · exact .ok rfl
    split
    · exact .ok rfl
    · split
      · exact .ok rfl
      · split
        · exact .ok rfl
        · split <;> exact ensures_assert (fun _ => trivial) fun _ => .ok rfl
  unfold tcpWrite tcpWriteLogged
  split
  · exact .ok rfl
  rw [Logged.erase_bind, Logged.erase_lift]
  apply checks.bind
  rintro ⟨err, pcb'⟩ same
  dsimp only at same ⊢
  split
  · exact .ok same
  rw [← same]
  split
  · unfold tcpWriteExtend
    rw [Logged.erase_bind]
    apply ensures_skip
    rintro ⟨tail, lastUnsent'⟩
    cases tail with
    | none =>
      simp only [Logged.erase_lift]
      exact (tcpWriteMemerr_beside _).mono fun _ kept => kept
    | some l =>
      simp only [Logged.erase_bind]
      apply ensures_skip
      intro segments
      cases segments with
      | none =>
        simp only [Logged.erase_lift]
        exact (tcpWriteMemerr_beside _).mono fun _ kept => kept
      | some l' =>
        simp only [Logged.erase_bind, Logged.erase_lift]
        apply ensures_skip
        intro filled
        apply ensures_skip
        intro linked
        exact tcpWriteFinish_beside pcb' w l' _
  · unfold tcpWriteNew
    rw [Logged.erase_bind, Logged.erase_lift]
    apply ensures_pass trivial
    rw [Logged.erase_bind]
    apply ensures_skip
    intro segments
    cases segments with
    | none =>
      rw [Logged.erase_lift]
      exact tcpWriteMemerr_beside pcb'
    | some l =>
      rw [Logged.erase_lift]
      exact tcpWriteFinish_beside pcb' w l _

/-- `tcp_rexmit_rto` counts a retransmission if there is something to retransmit, and leaves
the rest beside sending alone. -/
theorem tcpRexmitRto_beside :
    Ensures WindowKept (tcpRexmitRto env pcb) fun pcb' =>
      besideSending pcb' = besideSending
        { pcb with nrtx := if pcb.unacked = [] then pcb.nrtx else (pcb.nrtx + 1) % 256 } := by
  unfold tcpRexmitRto
  split
  · rename_i none'
    rw [List.getLast?_eq_none_iff] at none'
    rw [if_pos none']
    exact .ok rfl
  rename_i seg some'
  have waiting : pcb.unacked ≠ [] := by
    intro none'
    rw [none'] at some'
    cases some'
  rw [if_neg waiting]
  apply (tcpOutput_beside env _).bind
  rintro ⟨_, pcb'⟩ same
  exact .ok same

/-- `tcp_rexmit_rto` does not touch the receiver. -/
theorem tcpRexmitRto_receiveSide :
    Ensures WindowKept (tcpRexmitRto env pcb) fun pcb' => receiveSide pcb' = receiveSide pcb := by
  apply (tcpRexmitRto_beside env pcb).mono
  intro pcb' same
  have kept := receiveSide_of_beside same
  exact kept

/-- `tcp_fasttmr` does not touch the receiver. -/
theorem tcpFasttmr_receiveSide (env : TcpEnv) (pcb : TcpPcb) :
    Ensures WindowKept (tcpFasttmr env pcb) fun pcb' => receiveSide pcb' = receiveSide pcb := by
  unfold tcpFasttmr
  split
  · apply (tcpOutput_receiveSide env (tcpAckNow pcb)).bind
    rintro ⟨_, pcb'⟩ same
    exact .ok same
  · exact .ok rfl

/-- `tcp_rexmit` does not touch the receiver. -/
theorem tcpRexmit_receiveSide : receiveSide (tcpRexmit pcb) = receiveSide pcb := by
  unfold tcpRexmit
  split <;> rfl

/-- `tcp_rexmit_fast` does not touch the receiver. -/
theorem tcpRexmitFast_receiveSide : receiveSide (tcpRexmitFast pcb) = receiveSide pcb := by
  unfold tcpRexmitFast
  split
  · exact tcpRexmit_receiveSide pcb
  · rfl

/-- A probe of the window changes the fields of sending only. -/
theorem tcpSlowtmrPersist_beside :
    besideSending (tcpSlowtmrPersist env pcb) = besideSending pcb := by
  have probe : ∀ pcb, besideSending (tcpZeroWindowProbe env pcb).2 = besideSending pcb := by
    intro pcb
    unfold tcpZeroWindowProbe
    split
    · rfl
    · dsimp only
      split
      · rfl
      · split <;> rfl
  unfold tcpSlowtmrPersist
  dsimp only
  split
  · unfold tcpPersistProbe
    have same := probe (tcpPersistTick (tcpPersistBackoff.getD (pcb.persistBackoff - 1) 0) pcb)
    split
    rename_i err pcb' sent
    rw [sent] at same
    split <;> exact same
  · rfl

/-- `tcp_keepalive` announces the window and nothing else. -/
theorem tcpKeepalive_beside : besideAck (tcpKeepalive env pcb).2 = besideAck pcb := by
  unfold tcpKeepalive
  split
  · rfl
  · split <;> rfl

/-- The retransmission timer does not touch the receiver. -/
theorem tcpSlowtmrRto_receiveSide :
    Ensures WindowKept (tcpSlowtmrRto env pcb) fun pcb' =>
      receiveSide pcb' = receiveSide pcb := by
  unfold tcpSlowtmrRto
  dsimp only
  split
  · exact (tcpRexmitRto_receiveSide env _).mono fun _ same => same
  · exact .ok rfl

/-! ## Acknowledgements -/

/-- The options change the maximum segment size only, and not beyond `TCP_MSS`. -/
theorem tcpParseopt_eq (opts : List UInt8) (pcb : TcpPcb) :
    ∃ mss, tcpParseopt opts pcb = { pcb with mss := mss } ∧
      (mss = pcb.mss ∨ (0 < mss ∧ mss ≤ tcpMss)) := by
  have loop : ∀ fuel optidx pcb, ∃ mss, tcpParseoptLoop opts fuel optidx pcb =
      { pcb with mss := mss } ∧ (mss = pcb.mss ∨ (0 < mss ∧ mss ≤ tcpMss)) := by
    intro fuel
    induction fuel with
    | zero =>
      intro optidx pcb
      exact ⟨pcb.mss, rfl, Or.inl rfl⟩
    | succ fuel ih =>
      intro optidx pcb
      unfold tcpParseoptLoop
      split
      · split
        · exact ⟨pcb.mss, rfl, Or.inl rfl⟩
        · exact ih _ pcb
        · split
          · exact ⟨pcb.mss, rfl, Or.inl rfl⟩
          · -- the value of the option is limited to `TCP_MSS`
            generalize 256 * tcpGetoptbyte opts (optidx + 2) + tcpGetoptbyte opts (optidx + 3) = mss
            have limited : 0 < (if mss > tcpMss ∨ mss = 0 then tcpMss else mss) ∧
                (if mss > tcpMss ∨ mss = 0 then tcpMss else mss) ≤ tcpMss := by
              have positive : 0 < tcpMss := by decide
              split <;> omega
            obtain ⟨mss', same, range⟩ := ih (optidx + 4)
              { pcb with mss := if mss > tcpMss ∨ mss = 0 then tcpMss else mss }
            refine ⟨mss', same, Or.inr ?_⟩
            cases range with
            | inl kept =>
              rw [kept]
              exact limited
            | inr range => exact range
        · dsimp only
          split
          · exact ⟨pcb.mss, rfl, Or.inl rfl⟩
          · exact ih _ pcb
      · exact ⟨pcb.mss, rfl, Or.inl rfl⟩
  exact loop _ _ pcb

/-- The options touch neither side. -/
theorem tcpParseopt_sides (opts : List UInt8) (pcb : TcpPcb) :
    receiveSide (tcpParseopt opts pcb) = receiveSide pcb ∧
      sendSide (tcpParseopt opts pcb) = sendSide pcb := by
  obtain ⟨mss, same, _⟩ := tcpParseopt_eq opts pcb
  rw [same]
  exact ⟨rfl, rfl⟩

/-- The window of the peer is beside both sides. -/
theorem tcpUpdateSndWnd_sides :
    receiveSide (tcpUpdateSndWnd i pcb) = receiveSide pcb ∧
      sendSide (tcpUpdateSndWnd i pcb) = sendSide pcb := by
  unfold tcpUpdateSndWnd
  split
  · dsimp only
    split
    · unfold tcpPersistStart
      split <;> exact ⟨rfl, rfl⟩
    · split <;> exact ⟨rfl, rfl⟩
  · exact ⟨rfl, rfl⟩

/-- The estimate of the round trip time is beside both sides. -/
theorem tcpEstimateRtt_sides (ackno : UInt32) (pcb : TcpPcb) :
    receiveSide (tcpEstimateRtt env ackno pcb) = receiveSide pcb ∧
      sendSide (tcpEstimateRtt env ackno pcb) = sendSide pcb := by
  unfold tcpEstimateRtt
  split <;> exact ⟨rfl, rfl⟩

/-- A duplicate acknowledgement does not touch the receiver. -/
theorem tcpDupack_receiveSide (rightWndEdge : UInt32) (pcb : TcpPcb) :
    receiveSide (tcpDupack i rightWndEdge pcb) = receiveSide pcb := by
  unfold tcpDupack
  split
  · unfold tcpDupackReaction
    split
    · rfl
    · split
      · exact tcpRexmitFast_receiveSide _
      · rfl
  · rfl

/-- The congestion window is beside both sides. -/
theorem tcpGrowCwnd_sides : Ensures WindowKept (tcpGrowCwnd pcb) fun pcb' =>
    receiveSide pcb' = receiveSide pcb ∧ sendSide pcb' = sendSide pcb := by
  unfold tcpGrowCwnd
  split
  · exact .ok ⟨rfl, rfl⟩
  · apply ensures_pass (by decide)
    exact .ok ⟨rfl, rfl⟩

/-- The accounting for an acknowledged segment changes the length of the queues only. -/
theorem tcpSegAcked_spec (next : TcpSeg) (recvAcked : Nat) (pcb : TcpPcb) :
    Ensures WindowKept (tcpSegAcked next recvAcked pcb) fun result =>
      pbufClen next.p ≤ pcb.sndQueuelen ∧ result = (u16 (recvAcked + next.len),
        { pcb with sndQueuelen := pcb.sndQueuelen - pbufClen next.p }) := by
  apply ensures_assert (fun _ => by decide)
  intro enough
  apply (tcpSegFree_windowKept next).bind
  intro _ _
  apply ensures_pass (by decide)
  exact .ok ⟨enough, rfl⟩

/-- What the removal of acknowledged segments leaves alone. -/
def besideQueues (pcb : TcpPcb) : TcpPcb :=
  { pcb with unacked := [], unsent := [], unsentOversize := 0, sndQueuelen := 0 }

/-- The removal of segments from `unacked` changes the queues only. -/
theorem tcpFreeAcked_besideQueues (ackno : UInt32) (unacked : List TcpSeg) (recvAcked : Nat)
    (pcb : TcpPcb) : Ensures WindowKept (tcpFreeAcked ackno unacked recvAcked pcb) fun result =>
      besideQueues result.2 = besideQueues pcb := by
  induction unacked generalizing recvAcked pcb with
  | nil => exact .ok rfl
  | cons next more ih =>
    unfold tcpFreeAcked
    split
    · apply (tcpSegAcked_spec next recvAcked _).bind
      rintro _ ⟨_, rfl⟩
      exact (ih _ _).mono fun _ same => same
    · exact .ok rfl

/-- The removal of segments from `unsent` changes the queues only. -/
theorem tcpFreeUnsentAcked_besideQueues (ackno : UInt32) (unsent : List TcpSeg) (recvAcked : Nat)
    (pcb : TcpPcb) :
    Ensures WindowKept (tcpFreeUnsentAcked ackno unsent recvAcked pcb) fun result =>
      besideQueues result.2 = besideQueues pcb := by
  induction unsent generalizing recvAcked pcb with
  | nil => exact .ok rfl
  | cons next more ih =>
    unfold tcpFreeUnsentAcked
    split
    · apply (tcpSegAcked_spec next recvAcked _).bind
      rintro _ ⟨_, rfl⟩
      exact (ih _ _).mono fun _ same => same
    · exact .ok rfl

/-- No kind of acknowledgement touches the receiver. -/
theorem tcpAckKinds_receiveSide (rightWndEdge : UInt32) (pcb : TcpPcb) :
    Ensures WindowKept (tcpAckKinds env i rightWndEdge pcb) fun result =>
      receiveSide result.2 = receiveSide pcb := by
  unfold tcpAckKinds
  split
  · exact .ok (tcpDupack_receiveSide i rightWndEdge pcb)
  split
  · unfold tcpNewAck
    apply (tcpGrowCwnd_sides _).bind
    rintro pcb' ⟨same, _⟩
    apply (tcpFreeAcked_besideQueues i.ackno pcb'.unacked i.recvAcked pcb').bind
    rintro ⟨recvAcked, pcb''⟩ same'
    exact .ok ((congrArg receiveSide same').trans same)
  · exact .ok (tcpSendEmptyAck_sides env 0 pcb).1

/-- The acknowledgement of a segment leaves the receiver alone, and the file-scope variables up
to the number of acknowledged bytes. -/
theorem tcpReceiveAck_receiveSide :
    Ensures WindowKept (tcpReceiveAck env i pcb) fun result =>
      receiveSide result.2 = receiveSide pcb ∧
        ∃ recvAcked, result.1 = { i with recvAcked := recvAcked } := by
  unfold tcpReceiveAck
  split
  · have window := (tcpUpdateSndWnd_sides i pcb).1
    apply (tcpAckKinds_receiveSide env i _ (tcpUpdateSndWnd i pcb)).bind
    rintro ⟨recvAcked, pcb'⟩ same
    apply (tcpFreeUnsentAcked_besideQueues i.ackno pcb'.unsent recvAcked pcb').bind
    rintro ⟨recvAcked', pcb''⟩ same'
    refine .ok ⟨?_, recvAcked', rfl⟩
    have estimated := (tcpEstimateRtt_sides env i.ackno
      { pcb'' with sndBuf := u16 (pcb''.sndBuf + recvAcked') }).1
    exact estimated.trans ((congrArg receiveSide same' :).trans
      ((show receiveSide pcb' = _ from same).trans window))
  · exact .ok ⟨rfl, i.recvAcked, rfl⟩

/-! ## Data leaves the sender alone -/

/-- The variables of an acknowledgement. -/
def ackSide (i : TcpInput) : UInt32 × TcpFlags × Nat := (i.ackno, i.flags, i.recvAcked)

/-- Trimming the left edge leaves the variables of an acknowledgement alone. -/
theorem tcpTrimLeft_ackSide (rcvNxt : UInt32) (i : TcpInput) :
    Ensures AnyError (tcpTrimLeft rcvNxt i) fun i' => ackSide i' = ackSide i := by
  apply ensures_pass trivial
  apply ensures_pass trivial
  apply ensures_pass trivial
  apply ensures_skip
  intro p
  exact .ok rfl

/-- The fields that data from the peer leaves alone, with the others blanked out. -/
def besideData (pcb : TcpPcb) : TcpPcb :=
  { pcb with
    state := .closed, tfAckDelay := false, tfAckNow := false, rcvNxt := 0, rcvWnd := 0
    rcvAnnWnd := 0, rcvAnnRightEdge := 0, ooseq := [], sent := [] }

/-- The sender is beside data from the peer. -/
theorem sendSide_of_beside {pcb pcb' : TcpPcb} (same : besideData pcb' = besideData pcb) :
    sendSide pcb' = sendSide pcb := by
  change sendSide (besideData pcb') = sendSide (besideData pcb)
  rw [same]

/-- The step of `rcv_nxt` leaves the sender alone. -/
theorem tcpAdvance_beside (message : String) (tcplen : Nat) (pcb : TcpPcb) :
    Ensures AnyError (tcpAdvance message tcplen pcb) fun pcb' =>
      besideData pcb' = besideData pcb := by
  apply ensures_pass trivial
  have updated : ∀ pcb : TcpPcb, Ensures AnyError (tcpUpdateRcvAnnWnd pcb) fun result =>
      besideData result.2 = besideData pcb := by
    intro pcb
    unfold tcpUpdateRcvAnnWnd
    dsimp only
    split
    · exact .ok rfl
    · split
      · exact .ok rfl
      · exact ensures_assert (fun _ => trivial) fun _ => .ok rfl
  apply (updated _).bind
  intro result same
  exact .ok same

/-- So does the data taken from `ooseq`. -/
theorem tcpDequeue_beside (queue : List TcpSeg) (i : TcpInput) (pcb : TcpPcb) :
    Ensures AnyError (tcpDequeue queue i pcb) fun result =>
      ackSide result.1 = ackSide i ∧ besideData result.2 = besideData pcb := by
  induction queue generalizing i pcb with
  | nil => exact .ok ⟨rfl, rfl⟩
  | cons cseg next ih =>
    unfold tcpDequeue
    split
    · apply (tcpAdvance_beside _ (tcpTcplen cseg) pcb).bind
      intro pcb' advanced
      apply ensures_skip
      intro recvData
      exact (ih _ _).mono fun _ sides => ⟨sides.1, sides.2.trans advanced⟩
    · exact .ok ⟨rfl, rfl⟩

/-- The part of `tcp_receive` behind the trimming of the left edge leaves the sender alone. -/
theorem tcpReceiveWindow_beside :
    Ensures AnyError (tcpReceiveWindow env i pcb) fun result =>
      ackSide result.1 = ackSide i ∧ besideData result.2 = besideData pcb := by
  have answered : besideData (tcpSendEmptyAck env 1 pcb).2 = besideData pcb :=
    (congrArg besideData (tcpSendEmptyAck_beside env 1 pcb) :)
  unfold tcpReceiveWindow
  split
  · split
    · unfold tcpReceiveInseq
      apply ensures_skip
      intro inseg
      apply ensures_skip
      intro adjusted
      apply (tcpAdvance_beside _ (tcpTcplen adjusted.1) pcb).bind
      intro pcb' advanced
      apply (tcpDequeue_beside adjusted.2 _ pcb').bind
      intro result sides
      have acked : besideData (tcpAck result.2) = besideData result.2 := by
        unfold tcpAck
        split <;> rfl
      exact .ok ⟨sides.1, acked.trans (sides.2.trans advanced)⟩
    · unfold tcpReceiveOoseq
      apply ensures_skip
      intro ooseq
      exact .ok ⟨rfl, answered⟩
  · exact .ok ⟨rfl, answered⟩

/-- Data from the peer leaves the sender alone. -/
theorem tcpReceiveData_beside :
    Ensures AnyError (tcpReceiveData env i pcb) fun result =>
      ackSide result.1 = ackSide i ∧ besideData result.2 = besideData pcb := by
  unfold tcpReceiveData
  split
  · split
    · apply (tcpTrimLeft_ackSide pcb.rcvNxt i).bind
      intro trimmed same
      exact (tcpReceiveWindow_beside env trimmed pcb).mono fun _ sides =>
        ⟨sides.1.trans same, sides.2⟩
    · apply (tcpReceiveWindow_beside env i _).mono
      intro result sides
      refine ⟨sides.1, sides.2.trans ?_⟩
      split <;> rfl
  · apply Ensures.ok
    refine ⟨rfl, ?_⟩
    split <;> rfl

/-! ## The end of a connection -/

/-- The fields beside those that the end of a connection changes. -/
def besideClosing (pcb : TcpPcb) : TcpPcb :=
  { pcb with state := .closed, tfAckNow := false, ooseq := [], rtime := -1, unsent := []
             unacked := [], unsentOversize := 0 }

/-- `tcp_pcb_purge` and the change to `TIME_WAIT` leave these fields alone. -/
theorem tcpEnterTimeWait_besideClosing :
    Ensures AnyError (tcpEnterTimeWait pcb) fun pcb' => besideClosing pcb' = besideClosing pcb := by
  have purged : Ensures AnyError (tcpPcbPurge pcb) fun pcb' =>
      besideClosing pcb' = besideClosing pcb := by
    unfold tcpPcbPurge
    split
    · apply ensures_skip
      intro _
      apply ensures_skip
      intro _
      apply ensures_skip
      intro _
      exact .ok rfl
    · exact .ok rfl
  apply purged.bind
  intro pcb' same
  exact .ok same

/-- The transitions behind `tcp_receive` leave these fields alone. -/
theorem tcpAfterReceive_besideClosing (state : TcpState) (i : TcpInput) (pcb : TcpPcb) :
    Ensures AnyError (tcpAfterReceive state i pcb) fun result =>
      besideClosing result.2 = besideClosing pcb := by
  have waits : ∀ pcb : TcpPcb, Ensures AnyError (do
      let pcb ← tcpEnterTimeWait pcb
      .ok (i, pcb)) fun result : TcpInput × TcpPcb =>
        besideClosing result.2 = besideClosing pcb := by
    intro pcb
    apply (tcpEnterTimeWait_besideClosing pcb).bind
    intro pcb' same
    exact .ok same
  unfold tcpAfterReceive
  split
  · refine .ok ?_
    split <;> rfl
  · refine .ok ?_
    split <;> rfl
  · split
    · split
      · exact waits (tcpAckNow pcb)
      · exact .ok rfl
    · refine .ok ?_
      split <;> rfl
  · split
    · exact waits (tcpAckNow pcb)
    · exact .ok rfl
  · split
    · exact waits pcb
    · exact .ok rfl
  · exact .ok rfl
  · exact .ok rfl

/-- What `tcp_close_shutdown` ensures, from what the `FIN` and its transmission ensure. -/
theorem tcpCloseShutdown_ensures {post : Err × TcpPcb → Prop} (idle : post (.ok, pcb))
    (sends : pcb.state = .synRcvd ∨ pcb.state = .established ∨ pcb.state = .closeWait →
      Ensures AnyError (tcpSendFin env pcb) fun queued =>
        (queued.1 = .ok → Ensures AnyError (tcpOutput env { queued.2 with
          state := if pcb.state = .closeWait then .lastAck else .finWait1 }) fun sent =>
            post (queued.1, sent.2)) ∧
        (queued.1 ≠ .ok → post queued)) :
    Ensures AnyError (tcpCloseShutdown env pcb) post := by
  have closes : pcb.state = .synRcvd ∨ pcb.state = .established ∨ pcb.state = .closeWait →
      Ensures AnyError (tcpSendFin env pcb >>= fun queued =>
        if queued.1 = .ok then
          tcpOutput env { queued.2 with
            state := if pcb.state = .closeWait then .lastAck else .finWait1 } >>= fun sent =>
              .ok (queued.1, sent.2)
        else .ok queued) post := by
    intro states
    apply (sends states).bind
    intro queued step
    split
    · rename_i success
      exact (step.1 success).bind fun _ => .ok
    · rename_i failure
      exact .ok (step.2 failure)
  unfold tcpCloseShutdown
  split
  · rename_i given
    exact closes (Or.inl given)
  · rename_i given
    exact closes (Or.inr (Or.inl given))
  · rename_i given
    exact closes (Or.inr (Or.inr given))
  · exact .ok idle

/-! ## The ways of `tcp_process` -/

/-- The states in which `tcp_process` calls `tcp_receive` at once. -/
def TcpState.Receiving : TcpState → Bool
  | .closed | .listen | .synSent | .synRcvd | .timeWait => false
  | _ => true

section Ways

variable {tolerated : String → Prop} {post : TcpProcessed → Prop} {env} {i} {pcb}

/-- What the switch of `tcp_process` ensures, from what each of its ways ensures. -/
theorem tcpProcessState_ensures (idle : ∀ err, post { err := err, input := i, pcb := pcb })
    (synAck : pcb.state = .synSent → i.flags.syn = true → i.ackno = pcb.lastack + 1 →
      Ensures tolerated (tcpProcessSynAck env i pcb) post)
    (again : pcb.state = .synSent → i.flags.ack = true →
      ¬(i.flags.syn = true ∧ i.ackno = pcb.lastack + 1) →
      Ensures tolerated (tcpRexmitRto env { pcb with rtime := 0 }) fun pcb' =>
        post { err := .ok, input := i, pcb := pcb' })
    (copy : pcb.state = .synRcvd → i.flags.ack = false → i.flags.syn = true →
      i.seqno = pcb.rcvNxt - 1 → post { err := .ok, input := i, pcb := tcpRexmit pcb })
    (accepted : pcb.state = .synRcvd → i.flags.ack = true →
      seqBetween i.ackno (pcb.lastack + 1) pcb.sndNxt = true → env.callback = .ok →
      Ensures tolerated (tcpProcessAccepted env i { pcb with state := .established }) post)
    (receives : pcb.state.Receiving = true → Ensures tolerated (tcpReceive env i pcb) fun
      received =>
      Ensures tolerated (tcpAfterReceive pcb.state received.1 received.2) fun after =>
        post { err := .ok, input := after.1, pcb := after.2 }) :
    Ensures tolerated (tcpProcessState env i pcb) post := by
  unfold tcpProcessState
  split
  · rename_i state
    unfold tcpProcessSynSent
    split
    · rename_i expected
      exact synAck state expected.2.1 expected.2.2
    rename_i unexpected
    split
    · rename_i isAck
      apply (again state isAck fun both => unexpected ⟨isAck, both⟩).bind
      intro pcb' done
      exact .ok done
    · exact .ok (idle _)
  · rename_i state
    unfold tcpProcessSynRcvd
    split
    · rename_i isAck
      split
      · rename_i between
        split
        · exact .ok (idle _)
        · rename_i accepts
          exact accepted state isAck between (not_not.1 accepts)
      · exact .ok (idle _)
    · rename_i noAck
      split
      · rename_i both
        exact .ok (copy state (by simpa using noAck) both.1 both.2)
      · exact .ok (idle _)
  · exact .ok (idle _)
  · exact .ok (idle _)
  · exact .ok (idle _)
  · rename_i notSent notRcvd notClosed notListen notWait
    have receiving : pcb.state.Receiving = true := by
      unfold TcpState.Receiving
      split <;> first | rfl | contradiction
    apply (receives receiving).bind
    intro received rest
    apply rest.bind
    intro after done
    exact .ok done

/-- What `tcp_process` ensures: it only sets flags, or it goes on to the switch. -/
theorem tcpProcess_ensures (closed : tolerated "tcp_input: pcb->state != CLOSED")
    (still : ∀ err reset delay now, post { err := err, input := { i with tfReset := reset }
                                           pcb := { pcb with
                                             tfAckDelay := delay, tfAckNow := now } })
    (switch : i.flags.rst = false →
      ¬(i.flags.syn = true ∧ pcb.state ≠ .synSent ∧ pcb.state ≠ .synRcvd) →
      Ensures tolerated (tcpProcessState env i (tcpParseopt i.opts
        { pcb with tmr := if pcb.tfRxclosed then pcb.tmr else env.ticks })) post) :
    Ensures tolerated (tcpProcess env i pcb) post := by
  unfold tcpProcess
  split
  · unfold tcpProcessRst
    split
    · exact ensures_assert (fun _ => closed) fun _ => .ok (still _ _ _ _)
    · split
      · exact .ok (still _ _ _ _)
      · exact .ok (still _ _ _ _)
  · rename_i noRst
    split
    · exact .ok (still _ _ _ _)
    · rename_i notLate
      exact switch (by simpa using noRst) notLate

end Ways

/-- An environment in which everything succeeds. -/
def plainEnv (mem : List UInt8) : TcpEnv :=
  { alloc := fun _ => true, route := true, mtu := 1500, busy := fun _ => false
    output := fun _ => .ok, callback := .ok, ticks := 1, inputPcb := false, lwipDebug := false
    mem := mem }

end Lwip
