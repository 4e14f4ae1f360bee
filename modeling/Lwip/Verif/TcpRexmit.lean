import Lwip.Verif.TcpTimed

/-!
# The retransmission counter

`tcp_slowtmr` compares the number of retransmissions with its limit for equality, once per tick.
A tick that finds the counter below the limit counts at most one retransmission, so on its own it
cannot pass the limit. Segments from the peer can: a copy of the `SYN` in state `SYN_RCVD`, an
unacceptable acknowledgement in state `SYN_SENT` and the third duplicate acknowledgement each
retransmit at once and count. Under the condition that none of them does so when the counter has
reached its limit, the index into `tcp_backoff` stays inside the table and the connection is
removed at the first tick that finds the limit reached.
-/

namespace Lwip

open Outcome Transition

variable {pcb' : TcpPcb}

/-- Retransmissions after which a connection is removed. -/
def rexmitLimit : TcpState → Nat
  | .closed | .synSent => tcpSynmaxrtx
  | _ => tcpMaxrtx

/-- The condition for the counter: nothing but the timer retransmits once the limit is reached. -/
def tcpRexmitGuard (pcb : TcpPcb) (event : TcpEvent) : Prop :=
  event.rexmits pcb → pcb.nrtx < rexmitLimit pcb.state

instance (pcb : TcpPcb) (event : TcpEvent) : Decidable (tcpRexmitGuard pcb event) := by
  unfold tcpRexmitGuard
  infer_instance

/-! ## Runs -/

theorem TcpMove.rexmitLimit_le {c c' : TcpCore} {act : TcpAct} (move : TcpMove c act c') :
    rexmitLimit c.state ≤ rexmitLimit c'.state := by
  have upTo (state : TcpState) : rexmitLimit state ≤ tcpMaxrtx := by
    cases state <;> decide
  have opened (state : TcpState) (isOpen : state.Open) : rexmitLimit state = tcpMaxrtx := by
    cases state <;> first | rfl | exact absurd isOpen (by unfold TcpState.Open; decide)
  cases move with
  | enter state before behind => exact (upTo _).trans (opened state behind).ge
  | purge before | synAck => exact upTo _
  | connect iss closed => exact Nat.le_of_eq (by rw [closed]; rfl)
  | _ => exact Nat.le_refl _

/-- A connection that has not been opened or is being opened has the lower limit. -/
theorem nrtx_lt_of_below {pcb : TcpPcb} (active : pcb.active = true)
    (within : pcb.nrtx ≤ rexmitLimit pcb.state) (below : ¬tcpSlowtmrRemoves pcb) :
    pcb.nrtx < rexmitLimit pcb.state := by
  apply Nat.lt_of_le_of_ne within
  intro reached
  apply below
  unfold TcpPcb.active at active
  unfold rexmitLimit at reached
  split at reached
  · rename_i closed
    simp [closed] at active
  · rename_i opening
    exact .inl ⟨opening, reached⟩
  · exact .inr reached

/-- An event keeps the counter within its limit. -/
theorem tcpStep_rexmitLimit {pcb : TcpPcb} {event : TcpEvent} (step : TcpStep pcb event pcb')
    (guarded : tcpRexmitGuard pcb event)
    (accounts : (core pcb).state = .timeWait ∨ Accounts (core pcb))
    (within : pcb.nrtx ≤ rexmitLimit pcb.state) : pcb'.nrtx ≤ rexmitLimit pcb'.state := by
  have moves := tcpStep_moves (fun _ _ _ => trivial) step accounts (admits_all pcb event)
  have higher : rexmitLimit pcb.state ≤ rexmitLimit pcb'.state := by
    change rexmitLimit (core pcb).state ≤ rexmitLimit (core pcb').state
    generalize core pcb = before, core pcb' = after at moves
    induction moves with
    | refl => exact Nat.le_refl _
    | tail _ _ _ move ih => exact ih.trans move.rexmitLimit_le
  apply Nat.le_trans _ higher
  cases ((tcpEvent_timed pcb event).of_ok step.2 pcb' rfl).counts with
  | inl fewer => exact fewer.trans within
  | inr counted =>
    apply counted.2.trans
    cases counted.1 with
    | inl rexmits => exact guarded rexmits
    | inr tick =>
      have active := step.1
      rw [tick.1.choose_spec] at active
      exact nrtx_lt_of_below active within tick.2

theorem tcpRun_rexmitLimit {start final : TcpPcb} (created : TcpCreated start)
    (run : Run TcpStep tcpRexmitGuard start final) : final.nrtx ≤ rexmitLimit final.state := by
  have zero : start.nrtx = 0 := congrArg Prod.fst created.timer
  have both : ((core final).state = .timeWait ∨ Accounts (core final)) ∧
      final.nrtx ≤ rexmitLimit final.state := by
    apply run.invariant ⟨created.accounts, zero.le.trans (Nat.zero_le _)⟩
    intro pcb event pcb' before guarded step
    have moves := tcpStep_moves (fun _ _ _ => trivial) step before.1 (admits_all pcb event)
    exact ⟨moves.accounts before.1, tcpStep_rexmitLimit step guarded before.1 before.2⟩
  exact both.2

/-- A connection has been retransmitting up to its limit. -/
def rexmitsReached (pcb : TcpPcb) : Prop :=
  (pcb.state = .synSent ∧ tcpSynmaxrtx ≤ pcb.nrtx) ∨ tcpMaxrtx ≤ pcb.nrtx

instance (pcb : TcpPcb) : Decidable (rexmitsReached pcb) := by
  unfold rexmitsReached
  infer_instance

/-- A counter within its limit is at the limit that the next tick looks for if one is reached. -/
theorem tcpSlowtmrRemoves_of_reached {pcb : TcpPcb} (within : pcb.nrtx ≤ rexmitLimit pcb.state)
    (reached : rexmitsReached pcb) : tcpSlowtmrRemoves pcb := by
  have upTo : rexmitLimit pcb.state ≤ tcpMaxrtx := by
    cases pcb.state <;> decide
  cases reached with
  | inl opening =>
    rw [opening.1] at within
    exact .inl ⟨opening.1, Nat.le_antisymm within opening.2⟩
  | inr many => exact .inr (Nat.le_antisymm (within.trans upTo) many)

/-- In every state of a run whose events meet the condition, `tcp_slowtmr` indexes `tcp_backoff`
inside the table and removes a connection that has been retransmitting up to its limit. -/
theorem tcpSlowtmr_removes_at_limit (start final : TcpPcb) (created : TcpCreated start)
    (run : Run TcpStep tcpRexmitGuard start final) :
    (tcpSlowtmrBacksOff final → final.nrtx < tcpBackoff.length) ∧
      (rexmitsReached final → ∀ env, tcpSlowtmr env final = .ok none) := by
  have within := tcpRun_rexmitLimit created run
  constructor
  · intro backsOff
    apply Nat.lt_of_le_of_lt within
    cases final.state <;> decide
  · intro reached env
    exact if_pos (tcpSlowtmrRemoves_of_reached within reached)

/-- An acknowledgement of nothing that has been sent, for a connection that is being opened. -/
def unacceptableAck : TcpEvent :=
  .segment (plainEnv []) [pbufRam 0 []]
    { seqno := 500, ackno := 7, flags := { ack := true }, wnd := 4096 } []

/-- The theorem at a connection that four acknowledgements make retransmit its `SYN`. -/
theorem tcpSlowtmr_removes_at_limit_synSent :
    ∃ final, Run TcpStep tcpRexmitGuard (tcpAlloc 0) final ∧ final.state = .synSent ∧
      final.nrtx = 4 ∧ (tcpSlowtmrBacksOff final → final.nrtx < tcpBackoff.length) ∧
      ∀ env, tcpSlowtmr env final = .ok none := by
  have returns : (tcpEventsIf tcpRexmitGuard (tcpAlloc 0)
      (.connect (plainEnv []) 1000 :: List.replicate 4 unacceptableAck)).map
        (fun pcb => (pcb.state, pcb.nrtx)) = some (.synSent, 4) := by
    decide +kernel
  obtain ⟨final, done, fields⟩ := Option.map_eq_some_iff.mp returns
  have state : final.state = .synSent := congrArg Prod.fst fields
  have count : final.nrtx = 4 := congrArg Prod.snd fields
  have run := run_tcpEventsIf done
  have facts := tcpSlowtmr_removes_at_limit (tcpAlloc 0) final (Or.inl ⟨0, rfl⟩) run
  have reached : rexmitsReached final := Or.inl ⟨state, by rw [count]; decide⟩
  exact ⟨final, run, state, count, facts.1, facts.2 reached⟩

/-- The `SYN` arrives once more, and the answer to it is sent again. -/
def synAgain : List TcpEvent :=
  [.segment (plainEnv []) [pbufRam 0 []] { seqno := 500, flags := { syn := true }, wnd := 4096 } [],
    .output (plainEnv [])]

/-- Copies of a `SYN` carry the counter over the limit between two ticks, so that `tcp_slowtmr`
indexes `tcp_backoff` outside of the table; unacceptable acknowledgements keep a connection that
is being opened from being removed at its limit. -/
theorem tcpSlowtmr_misses_limit :
    (∃ start final, TcpCreated start ∧ Run TcpStep (fun _ _ => True) start final ∧
        final.state = .synRcvd ∧ final.nrtx = 13 ∧ tcpSlowtmrBacksOff final ∧
        tcpBackoff.length ≤ final.nrtx) ∧
      ∃ final, Run TcpStep (fun _ _ => True) (tcpAlloc 0) final ∧ final.state = .synSent ∧
        rexmitsReached final ∧ tcpSlowtmr (plainEnv []) final ≠ .ok none := by
  constructor
  · have returns : (tcpEvents synRcvdPcb
        ((List.replicate 13 synAgain).flatten ++ List.replicate 5 (.slowtmr (plainEnv [])))).map
          (fun pcb => (pcb.state, pcb.nrtx, decide (tcpSlowtmrBacksOff pcb))) =
            some (.synRcvd, 13, true) := by
      decide +kernel
    obtain ⟨final, done, fields⟩ := Option.map_eq_some_iff.mp returns
    simp only [Prod.mk.injEq] at fields
    refine ⟨synRcvdPcb, final, synRcvdPcb_created, run_tcpEvents done, fields.1, fields.2.1,
      of_decide_eq_true fields.2.2, ?_⟩
    rw [fields.2.1]
    decide
  · have returns : (tcpEvents (tcpAlloc 0)
        (.connect (plainEnv []) 1000 :: List.replicate 5 unacceptableAck)).map
          (fun pcb => (pcb.state, decide (rexmitsReached pcb),
            tcpSucceeds pcb (.slowtmr (plainEnv [])))) = some (.synSent, true, true) := by
      decide +kernel
    obtain ⟨final, done, fields⟩ := Option.map_eq_some_iff.mp returns
    simp only [Prod.mk.injEq] at fields
    refine ⟨final, run_tcpEvents done, fields.1, of_decide_eq_true fields.2.1, ?_⟩
    intro removed
    have survives := fields.2.2
    simp only [tcpSucceeds, tcpEvent, removed] at survives
    cases survives

end Lwip
