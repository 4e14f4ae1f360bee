import Lwip.Verif.TcpTimers

/-!
# What events do to the retransmission timer

A retransmission counts and gives a measurement of the round trip up, an acknowledgement of new
data starts the timer from the estimators, and a measured round trip changes them. Each function
that does so is taken once, for the counter and for the estimators: the counter grows by one at
most and for a reason, and the estimators keep the bounds that a limit of the round trip gives.
-/

namespace Lwip

open Outcome Transition

variable {reason within fits : Prop} {before : Nat} {pcb' : TcpPcb} (env : TcpEnv) (i : TcpInput)
  (pcb : TcpPcb)

/-! ## Retransmissions -/

/-- `tcp_slowtmr` finds a limit reached and removes the connection. -/
def tcpSlowtmrRemoves (pcb : TcpPcb) : Prop :=
  (pcb.state = .synSent ∧ pcb.nrtx = tcpSynmaxrtx) ∨ pcb.nrtx = tcpMaxrtx

/-- `tcp_slowtmr` evaluates `tcp_backoff[pcb->nrtx]`. -/
def tcpSlowtmrBacksOff (pcb : TcpPcb) : Prop :=
  ¬tcpSlowtmrRemoves pcb ∧ pcb.persistBackoff = 0 ∧ pcb.unacked ≠ [] ∧
    (tcpRtimeTick pcb).rtime ≥ pcb.rto ∧ pcb.state ≠ .synSent

instance (pcb : TcpPcb) : Decidable (tcpSlowtmrBacksOff pcb) := by
  unfold tcpSlowtmrBacksOff tcpSlowtmrRemoves
  infer_instance

/-- `tcp_rexmit_fast` retransmits. -/
def fastRexmits (pcb : TcpPcb) : Prop := pcb.unacked ≠ [] ∧ pcb.tfInfr = false

/-- `tcp_receive` takes an acknowledgement as the third duplicate one, and retransmits. -/
def ackRexmits (i : TcpInput) (pcb : TcpPcb) : Prop :=
  let updated := tcpUpdateSndWnd i pcb
  i.flags.ack = true ∧ seqLeq i.ackno updated.lastack = true ∧ i.tcplen = 0 ∧
    updated.sndWl2 + UInt32.ofNat updated.sndWnd = UInt32.ofNat pcb.sndWnd + pcb.sndWl2 ∧
    updated.rtime ≥ 0 ∧ updated.lastack = i.ackno ∧ (tcpCountDupack updated).dupacks = 3 ∧
    fastRexmits updated

/-- The switch of `tcp_process` retransmits. -/
def stateRexmits (env : TcpEnv) (i : TcpInput) (pcb : TcpPcb) : Prop :=
  match pcb.state with
  | .synSent => i.flags.ack = true ∧ ¬(i.flags.syn = true ∧ i.ackno = pcb.lastack + 1) ∧
      pcb.unacked ≠ []
  | .synRcvd =>
    (i.flags.ack = false ∧ i.flags.syn = true ∧ i.seqno = pcb.rcvNxt - 1 ∧ pcb.unacked ≠ []) ∨
      (i.flags.ack = true ∧ seqBetween i.ackno (pcb.lastack + 1) pcb.sndNxt = true ∧
        env.callback = .ok ∧ ackRexmits i { pcb with state := .established })
  | .closed | .listen | .timeWait => False
  | _ => ackRexmits i pcb

/-- `tcp_process` retransmits. -/
def processRexmits (env : TcpEnv) (i : TcpInput) (pcb : TcpPcb) : Prop :=
  i.flags.rst = false ∧ ¬(i.flags.syn = true ∧ pcb.state ≠ .synSent ∧ pcb.state ≠ .synRcvd) ∧
    stateRexmits env i (tcpParseopt i.opts
      { pcb with tmr := if pcb.tfRxclosed then pcb.tmr else env.ticks })

/-- An event other than a tick of the timer retransmits. -/
def TcpEvent.rexmits (pcb : TcpPcb) : TcpEvent → Prop
  | .segment env p tcphdr opts => processRexmits env (tcpInputOf p tcphdr opts) pcb
  | .accepted _ p tcphdr => ackRexmits (tcpInputOf p tcphdr []) pcb
  | .rexmit | .rexmitRto _ => pcb.unacked ≠ []
  | .rexmitFast => fastRexmits pcb
  | _ => False

/-! ## Samples and time-outs -/

/-- The longest round trip: five minutes, in ticks of the slow timer. -/
def rttLimit : Nat := 600

/-- The time-out without a backoff: `(pcb->sa >> 3) + pcb->sv`. -/
def rtoEstimate (pcb : TcpPcb) : Int := pcb.sa / 8 + pcb.sv

/-- `tcp_receive` takes a sample of the round trip time: the segment that is measured has been
acknowledged, and the measurement was not given up for a retransmission. -/
def ackSamples (i : TcpInput) (pcb : TcpPcb) : Prop :=
  i.flags.ack = true ∧ pcb.rttest ≠ 0 ∧ seqLt pcb.rtseq i.ackno = true ∧ ¬ackRexmits i pcb

/-- The switch of `tcp_process` takes a sample. -/
def stateSamples (env : TcpEnv) (i : TcpInput) (pcb : TcpPcb) : Prop :=
  match pcb.state with
  | .synRcvd => i.flags.ack = true ∧ seqBetween i.ackno (pcb.lastack + 1) pcb.sndNxt = true ∧
      env.callback = .ok ∧ ackSamples i { pcb with state := .established }
  | .synSent | .closed | .listen | .timeWait => False
  | _ => ackSamples i pcb

/-- `tcp_process` takes a sample. -/
def processSamples (env : TcpEnv) (i : TcpInput) (pcb : TcpPcb) : Prop :=
  i.flags.rst = false ∧ ¬(i.flags.syn = true ∧ pcb.state ≠ .synSent ∧ pcb.state ≠ .synRcvd) ∧
    stateSamples env i (tcpParseopt i.opts
      { pcb with tmr := if pcb.tfRxclosed then pcb.tmr else env.ticks })

/-- If an event takes a sample, it is within a limit. -/
def TcpEvent.samplesWithin (limit : Nat) (pcb : TcpPcb) : TcpEvent → Prop
  | .segment env p tcphdr opts =>
    processSamples env (tcpInputOf p tcphdr opts) pcb → (env.ticks - pcb.rttest).toNat ≤ limit
  | .accepted env p tcphdr =>
    ackSamples (tcpInputOf p tcphdr []) pcb → (env.ticks - pcb.rttest).toNat ≤ limit
  | _ => True

/-- An event is a time-out with a backoff. -/
def TcpEvent.timesOut (pcb : TcpPcb) : TcpEvent → Prop
  | .slowtmr _ => tcpSlowtmrBacksOff pcb
  | _ => False

/-- The condition for the time-out: its backoff fits 16 bits with a sign. -/
def backoffFits (pcb : TcpPcb) (event : TcpEvent) : Prop :=
  event.timesOut pcb → rtoEstimate pcb * 2 ^ tcpBackoff.getD pcb.nrtx 0 ≤ 32767

section Deciding

instance (pcb : TcpPcb) : Decidable (fastRexmits pcb) := by
  unfold fastRexmits
  infer_instance

instance (i : TcpInput) (pcb : TcpPcb) : Decidable (ackRexmits i pcb) := by
  unfold ackRexmits
  infer_instance

instance (env : TcpEnv) (i : TcpInput) (pcb : TcpPcb) : Decidable (stateRexmits env i pcb) := by
  unfold stateRexmits
  split <;> infer_instance

instance (env : TcpEnv) (i : TcpInput) (pcb : TcpPcb) : Decidable (processRexmits env i pcb) := by
  unfold processRexmits
  infer_instance

instance (pcb : TcpPcb) (event : TcpEvent) : Decidable (event.rexmits pcb) := by
  unfold TcpEvent.rexmits
  split <;> infer_instance

instance (i : TcpInput) (pcb : TcpPcb) : Decidable (ackSamples i pcb) := by
  unfold ackSamples
  infer_instance

instance (env : TcpEnv) (i : TcpInput) (pcb : TcpPcb) : Decidable (stateSamples env i pcb) := by
  unfold stateSamples
  exact match pcb.state with
    | .synRcvd | .synSent | .closed | .listen | .timeWait | .established | .finWait1 | .finWait2
    | .closeWait | .closing | .lastAck => inferInstance

instance (env : TcpEnv) (i : TcpInput) (pcb : TcpPcb) : Decidable (processSamples env i pcb) := by
  unfold processSamples
  infer_instance

instance (pcb : TcpPcb) (event : TcpEvent) : Decidable (event.timesOut pcb) := by
  unfold TcpEvent.timesOut
  split <;> infer_instance

instance (limit : Nat) (pcb : TcpPcb) (event : TcpEvent) :
    Decidable (event.samplesWithin limit pcb) := by
  unfold TcpEvent.samplesWithin
  exact match event with
    | .connect .. | .write .. | .enqueueFlags .. | .sendFin .. | .close .. | .output ..
    | .segment .. | .accept | .accepted .. | .recved .. | .finWindow | .rexmit | .rexmitFast
    | .rexmitRto .. | .fasttmr .. | .slowtmr .. | .keepalive .. => inferInstance

instance (pcb : TcpPcb) (event : TcpEvent) : Decidable (backoffFits pcb event) := by
  unfold backoffFits
  infer_instance

end Deciding

/-! ## The counter and the estimators -/

/-- The counter does not grow, or it grows by one for a reason. -/
def Counts (reason : Prop) (before after : Nat) : Prop :=
  after ≤ before ∨ (reason ∧ after ≤ before + 1)

/-- A counter that stays. -/
theorem counts_of_eq {after : Nat} (same : after = before) :
    Counts reason before after := Or.inl (Nat.le_of_eq same)

/-- Another reason for the count. -/
theorem Counts.imp {other : Prop} {after : Nat} (counts : Counts reason before after)
    (given : reason → other) : Counts other before after :=
  Or.imp id (fun counted => ⟨given counted.1, counted.2⟩) counts

/-- The bounds of the estimators: eight and four times the longest round trip, and what the
shifts round down. -/
structure RttBounded (pcb : TcpPcb) : Prop where
  saNonneg : 0 ≤ pcb.sa
  saLe : pcb.sa ≤ 4807
  svNonneg : 0 ≤ pcb.sv
  svLe : pcb.sv ≤ 2403

/-- A change of the control block keeps the bounds of the estimators, and keeps the time-out above
their sum under a condition. -/
def Retimes (fits : Prop) (pcb pcb' : TcpPcb) : Prop :=
  RttBounded pcb → RttBounded pcb' ∧
    (fits → rtoEstimate pcb ≤ pcb.rto → rtoEstimate pcb' ≤ pcb'.rto)

/-- The timer without its counter stays as it is. -/
theorem retimes_of_estimators {pcb : TcpPcb} (same : (rexmitTimer pcb').2 = (rexmitTimer pcb).2) :
    Retimes fits pcb pcb' := by
  have sa : pcb'.sa = pcb.sa := congrArg Prod.fst same
  have sv : pcb'.sv = pcb.sv := congrArg (fun fields => fields.2.1) same
  have rto : pcb'.rto = pcb.rto := congrArg (fun fields => fields.2.2) same
  intro bounded
  constructor
  · constructor
    · exact sa ▸ bounded.saNonneg
    · exact sa ▸ bounded.saLe
    · exact sv ▸ bounded.svNonneg
    · exact sv ▸ bounded.svLe
  · unfold rtoEstimate
    rw [sa, sv, rto]
    exact fun _ => id

/-- A timer that stays. -/
theorem retimes_of_timer {pcb : TcpPcb} (same : rexmitTimer pcb' = rexmitTimer pcb) :
    Retimes fits pcb pcb' := retimes_of_estimators (congrArg Prod.snd same)

/-- One change after another. -/
theorem Retimes.trans {first second third : TcpPcb} (before : Retimes fits first second)
    (after : Retimes fits second third) : Retimes fits first third := by
  intro bounded
  have middle := before bounded
  have final := after middle.1
  exact ⟨final.1, fun given above => final.2 given (middle.2 given above)⟩

/-- What a change does to the timer: to the counter for a reason, and to the estimators if a
measured round trip is within the limit. -/
structure Timed (reason within fits : Prop) (pcb pcb' : TcpPcb) : Prop where
  counts : Counts reason pcb.nrtx pcb'.nrtx
  retimes : within → Retimes fits pcb pcb'

section Timed

variable {pcb middle : TcpPcb}

/-- A timer that stays. -/
theorem timed_of_timer (same : rexmitTimer pcb' = rexmitTimer pcb) :
    Timed reason within fits pcb pcb' :=
  ⟨counts_of_eq (nrtx_of_timer same), fun _ => retimes_of_timer same⟩

/-- Other reasons for what happens. -/
theorem Timed.imp {reason' within' : Prop} (timed : Timed reason within fits pcb pcb')
    (because : reason → reason') (given : within' → within) :
    Timed reason' within' fits pcb pcb' :=
  ⟨timed.counts.imp because, fun limit => timed.retimes (given limit)⟩

/-- The timer is changed behind a step that leaves it alone. -/
theorem Timed.after (timed : Timed reason within fits middle pcb')
    (same : rexmitTimer middle = rexmitTimer pcb) : Timed reason within fits pcb pcb' where
  counts := by
    rw [← nrtx_of_timer same]
    exact timed.counts
  retimes := fun given => (retimes_of_timer same).trans (timed.retimes given)

/-- The timer is left alone behind a change. -/
theorem Timed.then (timed : Timed reason within fits pcb middle)
    (same : rexmitTimer pcb' = rexmitTimer middle) : Timed reason within fits pcb pcb' where
  counts := by
    rw [nrtx_of_timer same]
    exact timed.counts
  retimes := fun given => (timed.retimes given).trans (retimes_of_timer same)

end Timed

/-- A value that fits 16 bits with a sign is not changed by the conversion. -/
theorem toS16_of_range {z : Int} (low : -32768 ≤ z) (high : z ≤ 32767) : toS16 z = z :=
  Int.bmod_eq_of_le (by omega) (by omega)

/-- A bounded estimate fits 16 bits with a sign. -/
theorem RttBounded.toS16_estimate {pcb : TcpPcb} (bounded : RttBounded pcb) :
    toS16 (pcb.sa / 8 + pcb.sv) = rtoEstimate pcb := by
  have saNonneg := bounded.saNonneg
  have saLe := bounded.saLe
  have svNonneg := bounded.svNonneg
  have svLe := bounded.svLe
  exact toS16_of_range (by omega) (by omega)

/-- A sample within the limit keeps the bounds. -/
theorem tcpEstimateRtt_retimes (ackno : UInt32) (pcb : TcpPcb)
    (within : pcb.rttest ≠ 0 ∧ seqLt pcb.rtseq ackno = true → (env.ticks - pcb.rttest).toNat ≤
      rttLimit) :
    Retimes fits pcb (tcpEstimateRtt env ackno pcb) := by
  intro bounded
  have saNonneg := bounded.saNonneg
  have saLe := bounded.saLe
  have svNonneg := bounded.svNonneg
  have svLe := bounded.svLe
  unfold tcpEstimateRtt
  split
  · rename_i sampled
    have limit : (env.ticks - pcb.rttest).toNat ≤ 600 := within sampled
    generalize (env.ticks - pcb.rttest).toNat = m at limit
    -- no conversion in the estimator changes its value
    have sample : toS16 (m : Int) = m := toS16_of_range (by omega) (by omega)
    have error : toS16 ((m : Int) - pcb.sa / 8) = m - pcb.sa / 8 :=
      toS16_of_range (by omega) (by omega)
    have sa : toS16 (pcb.sa + (m - pcb.sa / 8)) = pcb.sa + (m - pcb.sa / 8) :=
      toS16_of_range (by omega) (by omega)
    have negated : toS16 (-((m : Int) - pcb.sa / 8)) = -((m : Int) - pcb.sa / 8) :=
      toS16_of_range (by omega) (by omega)
    dsimp only
    rw [sample, error, sa, negated]
    have deviation : ∃ d : Int, 0 ≤ d ∧ d ≤ 600 ∧ (if (m : Int) - pcb.sa / 8 < 0 then
        -((m : Int) - pcb.sa / 8) else (m : Int) - pcb.sa / 8) = d := by
      split
      · exact ⟨_, by omega, by omega, rfl⟩
      · exact ⟨_, by omega, by omega, rfl⟩
    obtain ⟨d, nonneg, le, same⟩ := deviation
    rw [same]
    have change : toS16 (d - pcb.sv / 4) = d - pcb.sv / 4 := toS16_of_range (by omega) (by omega)
    have sv : toS16 (pcb.sv + (d - pcb.sv / 4)) = pcb.sv + (d - pcb.sv / 4) :=
      toS16_of_range (by omega) (by omega)
    rw [change, sv]
    have estimated : RttBounded { pcb with
        sa := pcb.sa + (m - pcb.sa / 8), sv := pcb.sv + (d - pcb.sv / 4)
        rto := toS16 ((pcb.sa + (m - pcb.sa / 8)) / 8 + (pcb.sv + (d - pcb.sv / 4)))
        rttest := 0 } := by
      constructor
      · show 0 ≤ pcb.sa + (m - pcb.sa / 8)
        omega
      · show pcb.sa + (m - pcb.sa / 8) ≤ 4807
        omega
      · show 0 ≤ pcb.sv + (d - pcb.sv / 4)
        omega
      · show pcb.sv + (d - pcb.sv / 4) ≤ 2403
        omega
    exact ⟨estimated, fun _ _ => estimated.toS16_estimate.ge⟩
  · exact ⟨bounded, fun _ => id⟩

/-! ## Retransmissions -/

/-- A retransmission counts, keeps the estimators and gives a measurement up; without one the timer
stays as it is. -/
def Rexmitted (reason : Prop) (pcb pcb' : TcpPcb) : Prop :=
  (reason ∧ pcb'.nrtx = (pcb.nrtx + 1) % 256 ∧ (rexmitTimer pcb').2 = (rexmitTimer pcb).2 ∧
      pcb'.rttest = 0) ∨
    (¬reason ∧ rttTimer pcb' = rttTimer pcb)

/-- A retransmission is a change of the timer. -/
theorem Rexmitted.timed {pcb : TcpPcb} (rexmitted : Rexmitted reason pcb pcb') :
    Timed reason within fits pcb pcb' := by
  cases rexmitted with
  | inl again =>
    obtain ⟨given, counted, same, _⟩ := again
    refine ⟨Or.inr ⟨given, ?_⟩, fun _ => retimes_of_estimators same⟩
    rw [counted]
    exact Nat.mod_le _ _
  | inr nothing => exact timed_of_timer (timer_of_rtt nothing.2)

/-- `tcp_rexmit` counts if there is a segment. -/
theorem tcpRexmit_rexmitted : Rexmitted (pcb.unacked ≠ []) pcb (tcpRexmit pcb) := by
  unfold tcpRexmit
  split
  · rename_i none'
    exact .inr ⟨fun some' => some' none', rfl⟩
  · rename_i some'
    exact .inl ⟨by rw [some']; exact List.cons_ne_nil _ _, rfl, rfl, rfl⟩

/-- `tcp_rexmit_fast` counts if it retransmits. -/
theorem tcpRexmitFast_rexmitted : Rexmitted (fastRexmits pcb) pcb (tcpRexmitFast pcb) := by
  unfold tcpRexmitFast
  split
  · rename_i both
    rcases tcpRexmit_rexmitted pcb with again | nothing
    · exact .inl ⟨⟨both.1, by simpa using both.2⟩, again.2⟩
    · exact absurd both.1 nothing.1
  · rename_i other
    exact .inr ⟨fun fast => other ⟨fast.1, by simpa using fast.2⟩, rfl⟩

/-- The third duplicate acknowledgement retransmits, the others leave the timer alone. -/
theorem tcpDupack_rexmitted (rightWndEdge : UInt32) (pcb : TcpPcb) :
    Rexmitted (i.tcplen = 0 ∧ pcb.sndWl2 + UInt32.ofNat pcb.sndWnd = rightWndEdge ∧
        pcb.rtime ≥ 0 ∧ pcb.lastack = i.ackno ∧ (tcpCountDupack pcb).dupacks = 3 ∧
        fastRexmits pcb) pcb (tcpDupack i rightWndEdge pcb) := by
  unfold tcpDupack
  split
  · rename_i duplicate
    unfold tcpDupackReaction
    split
    · rename_i later
      refine .inr ⟨fun third => ?_, rfl⟩
      have three := third.2.2.2.2.1
      omega
    split
    · rename_i three
      rcases tcpRexmitFast_rexmitted (tcpCountDupack pcb) with ⟨fast, again⟩ | ⟨quiet, same⟩
      · exact .inl ⟨⟨duplicate.1, duplicate.2.1, duplicate.2.2.1, duplicate.2.2.2, three, fast⟩,
          again⟩
      · exact .inr ⟨fun third => quiet third.2.2.2.2.2, same⟩
    · rename_i earlier
      exact .inr ⟨fun third => earlier third.2.2.2.2.1, rfl⟩
  · rename_i plain
    exact .inr ⟨fun third => plain ⟨third.1, third.2.1, third.2.2.1, third.2.2.2.1⟩, rfl⟩

/-- `tcp_rexmit_rto` counts if there is a segment. -/
theorem tcpRexmitRto_timed :
    Ensures AnyError (tcpRexmitRto env pcb) fun pcb' =>
      Timed (pcb.unacked ≠ []) within fits pcb pcb' := by
  apply (tcpRexmitRto_beside env pcb).any.mono
  intro pcb' same
  have timer := timer_of_beside same
  refine ⟨?_, fun _ => retimes_of_estimators (congrArg Prod.snd timer :)⟩
  rw [nrtx_of_timer timer]
  by_cases none' : pcb.unacked = []
  · rw [if_pos none']
    exact counts_of_eq rfl
  · rw [if_neg none']
    exact .inr ⟨none', Nat.mod_le _ _⟩

/-! ## Acknowledgements -/

/-- A measurement that an acknowledgement leaves running is the one that ran before, and nothing
was retransmitted. -/
def Measures (i : TcpInput) (pcb pcb' : TcpPcb) : Prop :=
  pcb'.rttest ≠ 0 → pcb'.rttest = pcb.rttest ∧ pcb'.rtseq = pcb.rtseq ∧ ¬ackRexmits i pcb

/-- The timer behind an acknowledgement of new data starts from the estimators. -/
theorem tcpNewAck_timed :
    Ensures AnyError (tcpNewAck i pcb) fun result => Timed reason within fits pcb result.2 ∧
      result.2.rttest = pcb.rttest ∧ result.2.rtseq = pcb.rtseq := by
  apply (tcpGrowCwnd_rttTimer _).bind
  intro grown same
  apply (tcpFreeAcked_besideQueues i.ackno grown.unacked i.recvAcked grown).any.bind
  intro freed kept
  have timer := (rtt_of_besideQueues kept).trans same
  have zero : freed.2.nrtx = 0 := nrtx_of_timer (timer_of_rtt timer)
  have started : Retimes fits pcb { pcb with rto := toS16 (pcb.sa / 8 + pcb.sv) } := by
    intro bounded
    exact ⟨⟨bounded.saNonneg, bounded.saLe, bounded.svNonneg, bounded.svLe⟩,
      fun _ _ => bounded.toS16_estimate.ge⟩
  refine .ok ⟨⟨.inl ?_, fun _ => ?_⟩, congrArg (fun fields => fields.2.1) timer,
    congrArg (fun fields => fields.2.2) timer⟩
  · change freed.2.nrtx ≤ pcb.nrtx
    omega
  · exact started.trans (retimes_of_estimators (congrArg (fun fields => fields.1.2) timer :))

/-- The three kinds of acknowledgements keep the timer and say whether the measurement goes on. -/
theorem tcpAckKinds_timed (isAck : i.flags.ack = true) :
    Ensures AnyError (tcpAckKinds env i (UInt32.ofNat pcb.sndWnd + pcb.sndWl2)
      (tcpUpdateSndWnd i pcb)) fun result =>
        Timed (ackRexmits i pcb) within fits pcb result.2 ∧ Measures i pcb result.2 := by
  have window := tcpUpdateSndWnd_rttTimer i pcb
  have rttest : (tcpUpdateSndWnd i pcb).rttest = pcb.rttest :=
    congrArg (fun fields => fields.2.1) window
  have rtseq : (tcpUpdateSndWnd i pcb).rtseq = pcb.rtseq :=
    congrArg (fun fields => fields.2.2) window
  have measured {pcb' : TcpPcb} (same : rttTimer pcb' = rttTimer (tcpUpdateSndWnd i pcb))
      (quiet : ¬ackRexmits i pcb) : Measures i pcb pcb' :=
    fun _ => ⟨(congrArg (fun fields => fields.2.1) same).trans rttest,
      (congrArg (fun fields => fields.2.2) same).trans rtseq, quiet⟩
  unfold tcpAckKinds
  split
  · rename_i old
    have dupack := tcpDupack_rexmitted i (UInt32.ofNat pcb.sndWnd + pcb.sndWl2)
      (tcpUpdateSndWnd i pcb)
    refine .ok ⟨(dupack.timed.imp (fun third => ⟨isAck, old, third⟩) id).after
      (timer_of_rtt window), ?_⟩
    rcases dupack with ⟨_, _, _, stopped⟩ | ⟨other, same⟩
    · exact fun running => absurd stopped running
    · exact measured same fun third => other third.2.2
  rename_i new
  have noRexmit : ¬ackRexmits i pcb := fun third => new third.2.1
  split
  · apply (tcpNewAck_timed i _).mono
    intro result kept
    exact ⟨kept.1.after (timer_of_rtt window),
      fun _ => ⟨kept.2.1.trans rttest, kept.2.2.trans rtseq, noRexmit⟩⟩
  · have sent : rttTimer (tcpSendEmptyAck env 0 (tcpUpdateSndWnd i pcb)).2 = _ :=
      (congrArg rttTimer (tcpSendEmptyAck_beside env 0 (tcpUpdateSndWnd i pcb)) :)
    exact .ok ⟨timed_of_timer (timer_of_rtt (sent.trans window)), measured sent noRexmit⟩

/-- The measurement that `tcp_receive` ends is within the limit. -/
abbrev ackWithin (env : TcpEnv) (samples : Prop) (pcb : TcpPcb) : Prop :=
  samples → (env.ticks - pcb.rttest).toNat ≤ rttLimit

/-- `tcp_receive` counts if it takes an acknowledgement as the third duplicate one. -/
theorem tcpReceive_timed :
    Ensures AnyError (tcpReceive env i pcb) fun result =>
      Timed (ackRexmits i pcb) (ackWithin env (ackSamples i pcb) pcb) fits pcb result.2 := by
  have acked : Ensures AnyError (tcpReceiveAck env i pcb) fun result =>
      Timed (ackRexmits i pcb) (ackWithin env (ackSamples i pcb) pcb) fits pcb result.2 := by
    unfold tcpReceiveAck
    split
    · rename_i isAck
      have kinds : Ensures AnyError _ fun result : Nat × TcpPcb =>
          Timed _ (ackWithin env (ackSamples i pcb) pcb) fits pcb result.2 ∧ _ :=
        tcpAckKinds_timed env i pcb isAck
      apply kinds.bind
      intro middle kept
      apply (tcpFreeUnsentAcked_besideQueues i.ackno middle.2.unsent middle.1 middle.2).any.bind
      intro freed queues
      have same := rtt_of_besideQueues queues
      have pruned : Timed _ _ fits pcb { freed.2 with
          sndBuf := u16 (freed.2.sndBuf + freed.1) } := kept.1.then (timer_of_rtt same)
      have rttest : freed.2.rttest = middle.2.rttest := congrArg (fun fields => fields.2.1) same
      have rtseq : freed.2.rtseq = middle.2.rtseq := congrArg (fun fields => fields.2.2) same
      have estimated : ∀ pcb : TcpPcb, (tcpEstimateRtt env i.ackno pcb).nrtx = pcb.nrtx := by
        intro pcb
        unfold tcpEstimateRtt
        split <;> rfl
      refine .ok ⟨?_, fun within => (pruned.retimes within).trans ?_⟩
      · rw [estimated]
        exact pruned.counts
      · apply tcpEstimateRtt_retimes
        intro sampled
        rw [rttest, rtseq] at sampled
        have measured := kept.2 sampled.1
        rw [rttest, measured.1]
        rw [measured.1, measured.2.1] at sampled
        exact within ⟨isAck, sampled.1, sampled.2, measured.2.2⟩
    · exact .ok (timed_of_timer rfl)
  apply ensures_pass trivial
  apply acked.bind
  intro received kept
  apply (tcpReceiveData_beside env received.1 received.2).mono
  intro result same
  exact kept.then (timer_of_besideData same.2)

/-- An accepted segment counts as in `tcp_receive`. -/
theorem tcpProcessAccepted_timed :
    Ensures AnyError (tcpProcessAccepted env i pcb) fun processed =>
      Timed (ackRexmits i pcb) (ackWithin env (ackSamples i pcb) pcb) fits pcb processed.pcb := by
  apply (tcpReceive_timed env i pcb).bind
  intro received kept
  apply Ensures.ok
  split <;> exact kept.then rfl

/-- The answer to the SYN does not count. -/
theorem tcpProcessSynAck_timed :
    Ensures AnyError (tcpProcessSynAck env i pcb) fun processed =>
      Timed reason within fits pcb processed.pcb := by
  apply ensures_pass trivial
  apply (tcpFreeSyn_timer _).bind
  intro pcb' kept
  have same : pcb'.nrtx = pcb.nrtx := nrtx_of_timer kept
  have fewer : (if pcb'.unacked = [] then pcb'.nrtx else 0) ≤ pcb.nrtx := by
    split <;> omega
  have estimators := (retimes_of_timer kept : Retimes fits pcb pcb')
  dsimp only
  split
  · exact .ok ⟨.inl fewer, fun _ => estimators.trans (retimes_of_estimators rfl)⟩
  · exact .ok ⟨.inl fewer, fun _ => estimators.trans (retimes_of_estimators rfl)⟩

/-- The switch of `tcp_process` keeps the timer if its sample is within the limit. -/
theorem tcpProcessState_timed :
    Ensures AnyError (tcpProcessState env i pcb) fun processed =>
      Timed (stateRexmits env i pcb) (ackWithin env (stateSamples env i pcb) pcb) fits pcb
        processed.pcb := by
  apply tcpProcessState_ensures
  · intro _
    exact timed_of_timer rfl
  · intro _ _ _
    exact tcpProcessSynAck_timed env i pcb
  · intro state isAck unexpected
    apply (tcpRexmitRto_timed env { pcb with rtime := 0 }).mono
    intro pcb' timed
    refine (timed.imp (fun some' => ?_) id).after rfl
    unfold stateRexmits
    rw [state]
    exact ⟨isAck, unexpected, some'⟩
  · intro state noAck isSyn again
    refine (tcpRexmit_rexmitted pcb).timed.imp (fun some' => ?_) id
    unfold stateRexmits
    rw [state]
    exact .inl ⟨noAck, isSyn, again, some'⟩
  · intro state isAck between accepts
    apply (tcpProcessAccepted_timed env i { pcb with state := .established }).mono
    intro processed timed
    refine (timed.imp (fun third => ?_) (fun within sampled => within ?_)).after rfl
    · unfold stateRexmits
      rw [state]
      exact .inr ⟨isAck, between, accepts, third⟩
    · unfold stateSamples
      rw [state]
      exact ⟨isAck, between, accepts, sampled⟩
  · intro receiving
    apply (tcpReceive_timed env i pcb).mono
    intro result timed
    apply (tcpAfterReceive_timer pcb.state result.1 result.2).mono
    intro after same
    refine (timed.imp (fun third => ?_) (fun within sampled => within ?_)).then same
    · unfold stateRexmits
      cases state : pcb.state <;> rw [state] at receiving <;> first | exact third | cases receiving
    · unfold stateSamples
      cases state : pcb.state <;> rw [state] at receiving <;>
        first | exact sampled | cases receiving

/-- `tcp_process` counts if it retransmits. -/
theorem tcpProcess_timed :
    Ensures AnyError (tcpProcess env i pcb) fun processed =>
      Timed (processRexmits env i pcb) (ackWithin env (processSamples env i pcb) pcb) fits pcb
        processed.pcb := by
  apply tcpProcess_ensures trivial
  · intro _ _ _ _
    exact timed_of_timer rfl
  intro noRst noSyn
  have parsed := tcpParseopt_rttTimer i.opts
    { pcb with tmr := if pcb.tfRxclosed then pcb.tmr else env.ticks }
  apply (tcpProcessState_timed env i _).mono
  intro processed timed
  refine (timed.imp (fun rexmits => ⟨noRst, noSyn, rexmits⟩) (fun within sampled => ?_)).after
    (timer_of_rtt parsed)
  rw [show (tcpParseopt i.opts _).rttest = pcb.rttest from congrArg (·.2.1) parsed]
  exact within ⟨noRst, noSyn, sampled⟩

/-! ## Events -/

/-- A time-out keeps the bounds of the estimators; it keeps the time-out above their sum if the
backoff fits. -/
theorem tcpRtoBackoff_retimes :
    Retimes (pcb.state ≠ .synSent → rtoEstimate pcb * 2 ^ tcpBackoff.getD pcb.nrtx 0 ≤ 32767) pcb
      (tcpRtoBackoff pcb) := by
  intro bounded
  have saNonneg := bounded.saNonneg
  have svNonneg := bounded.svNonneg
  have nonneg : 0 ≤ rtoEstimate pcb := by
    unfold rtoEstimate
    omega
  constructor
  · exact ⟨bounded.saNonneg, bounded.saLe, bounded.svNonneg, bounded.svLe⟩
  intro fits above
  change rtoEstimate pcb ≤ if pcb.state ≠ .synSent then
    toS16 (rtoEstimate pcb * 2 ^ tcpBackoff.getD pcb.nrtx 0) else pcb.rto
  split
  · rename_i notSent
    have limit := fits notSent
    have power : (1 : Int) ≤ 2 ^ tcpBackoff.getD pcb.nrtx 0 := Int.pow_pos (by decide)
    have grows : rtoEstimate pcb ≤ rtoEstimate pcb * 2 ^ tcpBackoff.getD pcb.nrtx 0 := calc
      rtoEstimate pcb = rtoEstimate pcb * 1 := (Int.mul_one _).symm
      _ ≤ _ := Int.mul_le_mul_of_nonneg_left power nonneg
    rw [toS16_of_range (by omega) limit]
    exact grows
  · exact above

/-- The timer of the control block that is left, if one is. -/
def TimedLeft (reason within fits : Prop) (pcb : TcpPcb) (result : Option TcpPcb) : Prop :=
  ∀ pcb', result = some pcb' → Timed reason within fits pcb pcb'

/-- A control block that is left. -/
theorem Timed.left {pcb : TcpPcb} (timed : Timed reason within fits pcb pcb') :
    TimedLeft reason within fits pcb (some pcb') := by
  intro final found
  rw [← Option.some.inj found]
  exact timed

/-- No control block is left. -/
theorem timedLeft_none {pcb : TcpPcb} : TimedLeft reason within fits pcb none :=
  fun _ found => absurd found.symm (Option.some_ne_none _)

/-- A tick below the limit counts at most one retransmission, and keeps the time-out above the sum
of the estimators if the backoff fits. -/
theorem tcpSlowtmr_timed :
    Ensures AnyError (tcpSlowtmr env pcb)
      (TimedLeft (¬tcpSlowtmrRemoves pcb) within (backoffFits pcb (.slowtmr env)) pcb) := by
  unfold tcpSlowtmr
  split
  · exact .ok timedLeft_none
  rename_i below
  split
  · apply (tcpSlowtmrOoseq_timer env _).bind
    intro pcb' same
    exact .ok (timed_of_timer (same.trans
      (timer_of_beside (tcpSlowtmrPersist_beside env pcb)))).left
  rename_i noPersist
  have timed : Ensures AnyError (tcpSlowtmrRto env pcb) fun pcb' =>
      Timed (¬tcpSlowtmrRemoves pcb) within (backoffFits pcb (.slowtmr env)) pcb pcb' := by
    unfold tcpSlowtmrRto
    dsimp only
    split
    · rename_i due
      have backedOff : Retimes (backoffFits pcb (.slowtmr env)) pcb
          (tcpRtoBackoff (tcpRtimeTick pcb)) := by
        intro bounded
        have kept := tcpRtoBackoff_retimes (tcpRtimeTick pcb)
          ⟨bounded.saNonneg, bounded.saLe, bounded.svNonneg, bounded.svLe⟩
        exact ⟨kept.1, fun given => kept.2 fun notSent =>
          given ⟨below, Nat.eq_zero_of_not_pos noPersist, due.1, due.2, notSent⟩⟩
      apply (tcpRexmitRto_timed env (tcpRtoBackoff (tcpRtimeTick pcb))).mono
      intro pcb' timed
      exact ⟨timed.counts.imp fun _ => below, fun given => backedOff.trans (timed.retimes given)⟩
    · exact .ok (timed_of_timer rfl)
  apply timed.bind
  intro middle kept
  apply (tcpSlowtmrOoseq_timer env middle).bind
  intro pcb' same
  exact .ok (kept.then same).left

/-- An event counts if it retransmits, and a tick if it does not find a limit reached. If its sample
is within the limit, it keeps the bounds of the estimators; if its backoff fits, it keeps the
time-out above their sum. -/
theorem tcpEvent_timed (event : TcpEvent) :
    Ensures AnyError (tcpEvent pcb event)
      (TimedLeft (event.rexmits pcb ∨ ((∃ env, event = .slowtmr env) ∧ ¬tcpSlowtmrRemoves pcb))
        (event.samplesWithin rttLimit pcb) (backoffFits pcb event) pcb) := by
  cases event with
  | segment env p tcphdr opts =>
    apply (tcpProcess_timed env (tcpInputOf p tcphdr opts) pcb).bind
    intro processed timed
    apply Ensures.ok
    split
    · exact (timed.imp Or.inl id).left
    · exact timedLeft_none
  | accepted env p tcphdr =>
    apply (tcpProcessAccepted_timed env (tcpInputOf p tcphdr []) pcb).bind
    intro processed timed
    exact .ok (timed.imp Or.inl id).left
  | rexmit => exact .ok ((tcpRexmit_rexmitted pcb).timed.imp Or.inl id).left
  | rexmitFast => exact .ok ((tcpRexmitFast_rexmitted pcb).timed.imp Or.inl id).left
  | rexmitRto env =>
    apply (tcpRexmitRto_timed env pcb).bind
    intro pcb' timed
    exact .ok (timed.imp Or.inl id).left
  | slowtmr env =>
    apply (tcpSlowtmr_timed env pcb).mono
    intro result timed pcb' found
    exact (timed pcb' found).imp (fun below => .inr ⟨⟨env, rfl⟩, below⟩) id
  | _ =>
    apply (tcpEvent_timer pcb rfl).mono
    intro result left
    obtain ⟨pcb', same, timer⟩ := left
    rw [same]
    exact (timed_of_timer timer).left

end Lwip
