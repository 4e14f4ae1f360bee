import Lwip.Verif.TcpRexmit

/-!
# The retransmission time-out

`tcp_receive` feeds each measured round trip to two estimators and sets the time-out to their sum;
`tcp_slowtmr` shifts that sum to the left by up to seven bits at a time-out. The estimators stay
within bounds that a round trip of five minutes gives, so their sum fits its 16 bits with room to
spare. The shifted sum does not: six time-outs in a row after one round trip of five minutes make
the time-out negative. Under the condition that the shifted sum fits, the time-out never falls
below the sum.
-/

namespace Lwip

open Outcome Transition

variable (env : TcpEnv)

/-- Round trips of up to five minutes, and at most `TCP_MAXRTX` backoffs in a row. -/
def rttGuard (pcb : TcpPcb) (event : TcpEvent) : Prop :=
  event.samplesWithin rttLimit pcb ∧ (event.timesOut pcb → pcb.nrtx < tcpMaxrtx)

instance (pcb : TcpPcb) (event : TcpEvent) : Decidable (rttGuard pcb event) := by
  unfold rttGuard
  infer_instance

/-! ## Runs -/

/-- The estimators stay within their bounds. -/
theorem tcpRun_rttBounded {start final : TcpPcb} (created : TcpCreated start)
    (run : Run TcpStep rttGuard start final) : RttBounded final := by
  have timer := created.timer
  have sa : start.sa = 0 := congrArg (fun fields => fields.2.1) timer
  have sv : start.sv = 6 := congrArg (fun fields => fields.2.2.1) timer
  apply run.invariant
  · constructor <;> omega
  · intro pcb event pcb' bounded guarded step
    exact (((tcpEvent_timed pcb event).of_ok step.2 pcb' rfl).retimes guarded.1 bounded).1

/-! ## Waiting for time-outs -/

/-- A connection that waits for an acknowledgement and does nothing else at a tick. -/
structure Waiting (pcb : TcpPcb) : Prop where
  active : pcb.active = true
  opened : pcb.state ≠ .synSent
  few : pcb.nrtx < tcpMaxrtx
  noPersist : pcb.persistBackoff = 0
  inOrder : pcb.ooseq = []
  running : 0 ≤ pcb.rtime
  fits : pcb.rto ≤ 32767

/-- A tick before the time-out is only counted. -/
theorem tcpSlowtmr_early {pcb : TcpPcb} (waiting : Waiting pcb) (early : pcb.rtime + 1 < pcb.rto) :
    TcpStep pcb (.slowtmr env) { pcb with rtime := pcb.rtime + 1 } := by
  have fits := waiting.fits
  have running := waiting.running
  have ticked : tcpRtimeTick pcb = { pcb with rtime := pcb.rtime + 1 } := by
    unfold tcpRtimeTick
    rw [if_pos running, toS16_of_range (by omega) (by omega)]
  have noTimeout : tcpSlowtmrRto env pcb = .ok { pcb with rtime := pcb.rtime + 1 } := by
    unfold tcpSlowtmrRto
    rw [ticked]
    apply if_neg
    intro due
    have reached : pcb.rtime + 1 ≥ pcb.rto := due.2
    omega
  have kept : tcpSlowtmrOoseq env { pcb with rtime := pcb.rtime + 1 } =
      .ok { pcb with rtime := pcb.rtime + 1 } := by
    apply if_neg
    intro old
    exact old.1 waiting.inOrder
  refine ⟨waiting.active, ?_⟩
  change tcpSlowtmr env pcb = _
  unfold tcpSlowtmr
  rw [if_neg, if_neg, noTimeout, ok_bind, kept]
  · rfl
  · rw [waiting.noPersist]
    decide
  · intro removed
    cases removed with
    | inl opening => exact waiting.opened opening.1
    | inr many => exact absurd waiting.few (by rw [many]; exact Nat.lt_irrefl _)

/-- Ticks before the time-out are only counted. -/
theorem run_early (env : TcpEnv) (n : Nat) {pcb : TcpPcb} (waiting : Waiting pcb)
    (early : pcb.rtime + n < pcb.rto) :
    Run TcpStep rttGuard pcb { pcb with rtime := pcb.rtime + n } := by
  induction n with
  | zero =>
    rw [Int.natCast_zero, Int.add_zero]
    exact Run.refl
  | succ n ih =>
    have running := waiting.running
    have before := ih (by omega)
    have still : Waiting { pcb with rtime := pcb.rtime + n } :=
      { waiting with running := by show 0 ≤ pcb.rtime + n; omega }
    have tick := tcpSlowtmr_early env still (by show pcb.rtime + n + 1 < pcb.rto; omega)
    rw [Int.natCast_succ, ← Int.add_assoc]
    exact before.tail (.slowtmr env) ⟨trivial, fun _ => waiting.few⟩ tick

instance (pcb : TcpPcb) : Decidable (Waiting pcb) :=
  decidable_of_iff (pcb.active = true ∧ pcb.state ≠ .synSent ∧ pcb.nrtx < tcpMaxrtx ∧
      pcb.persistBackoff = 0 ∧ pcb.ooseq = [] ∧ 0 ≤ pcb.rtime ∧ pcb.rto ≤ 32767)
    ⟨fun all => ⟨all.1, all.2.1, all.2.2.1, all.2.2.2.1, all.2.2.2.2.1, all.2.2.2.2.2.1,
        all.2.2.2.2.2.2⟩,
      fun w => ⟨w.active, w.opened, w.few, w.noPersist, w.inOrder, w.running, w.fits⟩⟩

/-- The control block after a number of time-outs, each waited for. -/
def tcpTimeouts (env : TcpEnv) : Nat → TcpPcb → Option TcpPcb
  | 0, pcb => some pcb
  | n + 1, pcb =>
    let due := { pcb with rtime := pcb.rto - 1 }
    if Waiting pcb ∧ pcb.rtime < pcb.rto ∧ tcpSucceeds due (.slowtmr env) then
      tcpTimeouts env n (tcpNext due (.slowtmr env))
    else none

/-- Time-outs that are waited for are a run. -/
theorem run_tcpTimeouts {env : TcpEnv} {n : Nat} {pcb final : TcpPcb}
    (done : tcpTimeouts env n pcb = some final) : Run TcpStep rttGuard pcb final := by
  induction n generalizing pcb with
  | zero =>
    cases done
    exact Run.refl
  | succ n ih =>
    unfold tcpTimeouts at done
    dsimp only at done
    split at done
    · rename_i possible
      have waiting := possible.1
      have early := run_early env (pcb.rto - 1 - pcb.rtime).toNat waiting (by omega)
      have due : pcb.rtime + ((pcb.rto - 1 - pcb.rtime).toNat : Int) = pcb.rto - 1 := by omega
      rw [due] at early
      have step : TcpStep { pcb with rtime := pcb.rto - 1 } (.slowtmr env) _ :=
        tcpStep_next waiting.active possible.2.2
      exact (early.tail (.slowtmr env) ⟨trivial, fun _ => waiting.few⟩ step).trans (ih done)
    · cases done

/-- An environment at a time. -/
def envAt (ticks : UInt32) : TcpEnv := { plainEnv [0, 1, 2, 3] with ticks := ticks }

/-- A connection is opened and left alone for a while before data is sent, acknowledged and sent
again. The measurement that the `SYN` started ends with the first acknowledgement of data. -/
def slowRoundTrip (ticks : UInt32) : List TcpEvent :=
  [.connect (envAt 1) 1000,
    .segment (envAt 1) [pbufRam 0 []]
      { seqno := 500, ackno := 1000, flags := { syn := true, ack := true }, wnd := 4096 } [],
    .write (envAt (ticks + 1)) { arg := 1, len := 3, copy := true, more := false },
    .output (envAt (ticks + 1)),
    .segment (envAt (ticks + 1)) [pbufRam 0 []]
      { seqno := 501, ackno := 1003, flags := { ack := true }, wnd := 4096 } [],
    .write (envAt (ticks + 1)) { arg := 1, len := 3, copy := true, more := false },
    .output (envAt (ticks + 1))]

/-! ## The time-out in every run -/

/-- In every run with round trips of up to five minutes and at most `TCP_MAXRTX` backoffs in a
row, the estimators are not negative; if each backoff fits its 16 bits, the time-out is not
negative either and never below the sum of the estimators. -/
theorem tcp_rto_above_estimate (start final : TcpPcb) (created : TcpCreated start) :
    (Run TcpStep rttGuard start final → 0 ≤ final.sa ∧ 0 ≤ final.sv) ∧
      (Run TcpStep (fun pcb event => rttGuard pcb event ∧ backoffFits pcb event) start final →
        0 ≤ final.rto ∧ final.sa / 8 + final.sv ≤ final.rto) := by
  constructor
  · intro run
    have bounded := tcpRun_rttBounded created run
    exact ⟨bounded.saNonneg, bounded.svNonneg⟩
  intro run
  have timer := created.timer
  have sa : start.sa = 0 := congrArg (fun fields => fields.2.1) timer
  have sv : start.sv = 6 := congrArg (fun fields => fields.2.2.1) timer
  have rto : start.rto = 6 := congrArg (fun fields => fields.2.2.2) timer
  have both : RttBounded final ∧ rtoEstimate final ≤ final.rto := by
    apply run.invariant
    · refine ⟨by constructor <;> omega, ?_⟩
      unfold rtoEstimate
      omega
    · intro pcb event pcb' before guarded step
      have after := ((tcpEvent_timed pcb event).of_ok step.2 pcb' rfl).retimes guarded.1.1 before.1
      exact ⟨after.1, after.2 guarded.2 before.2⟩
  have saNonneg := both.1.saNonneg
  have svNonneg := both.1.svNonneg
  have above : final.sa / 8 + final.sv ≤ final.rto := both.2
  exact ⟨by omega, above⟩

/-- The theorem at a connection that has timed out once. -/
theorem tcp_rto_above_estimate_backedOff :
    ∃ final, Run TcpStep (fun pcb event => rttGuard pcb event ∧ backoffFits pcb event)
        (tcpAlloc 0) final ∧ final.nrtx = 1 ∧ final.sa = 3 ∧ final.sv = 8 ∧ final.rto = 16 ∧
      0 ≤ final.rto ∧ final.sa / 8 + final.sv ≤ final.rto := by
  have returns : (tcpEventsIf (fun pcb event => rttGuard pcb event ∧ backoffFits pcb event)
      (tcpAlloc 0) (slowRoundTrip 3 ++ List.replicate 8 (.slowtmr (envAt 4)))).map rexmitTimer =
        some (1, 3, 8, 16) := by
    decide +kernel
  obtain ⟨final, done, timer⟩ := Option.map_eq_some_iff.mp returns
  have run := run_tcpEventsIf done
  exact ⟨final, run, congrArg (fun fields => fields.1) timer, congrArg
    (fun fields => fields.2.1) timer,
    congrArg (fun fields => fields.2.2.1) timer, congrArg (fun fields => fields.2.2.2) timer,
    (tcp_rto_above_estimate (tcpAlloc 0) final (Or.inl ⟨0, rfl⟩)).2 run⟩

/-- After a round trip of five minutes, six time-outs in a row make the time-out negative. -/
theorem tcp_rto_negative :
    ∃ final, Run TcpStep rttGuard (tcpAlloc 0) final ∧ final.nrtx = 6 ∧ final.sa = 600 ∧
      final.sv = 605 ∧ final.rto = -22016 := by
  have returns : ((tcpEventsIf rttGuard (tcpAlloc 0) (slowRoundTrip 600)).bind
      (tcpTimeouts (envAt 601) 6)).map rexmitTimer = some (6, 600, 605, -22016) := by
    decide +kernel
  obtain ⟨final, done, timer⟩ := Option.map_eq_some_iff.mp returns
  obtain ⟨middle, sent, waited⟩ := Option.bind_eq_some_iff.mp done
  exact ⟨final, (run_tcpEventsIf sent).trans (run_tcpTimeouts waited),
    congrArg (fun fields => fields.1) timer, congrArg (fun fields => fields.2.1) timer,
    congrArg (fun fields => fields.2.2.1) timer, congrArg (fun fields => fields.2.2.2) timer⟩

end Lwip
