import Lwip.Base.Transition
import Lwip.Core.Dhcp

/-!
# Expiry and timers of a DHCP lease

The lease time is counted by `dhcp_coarse_tmr` while the client is bound, renews or rebinds. When it
is over, `dhcp_release` removes the address only in the first two of these states: a client that
rebinds keeps its address without a lease. `dhcp_bind` does not stop the count of an earlier lease
when the new one is infinite. The rebinding time of a long lease overflows.
-/

namespace Lwip.Dhcp

open Transition

/-! ## Functions of the client -/

/-- A state is entered, and nothing changes for the address and the lease time. -/
structure Enters (state : DhcpState) (n n' : DhcpNetif) : Prop where
  state : n'.dhcp.state = state
  ipAddr : n'.ipAddr = n.ipAddr
  leaseUsed : n'.dhcp.leaseUsed = n.dhcp.leaseUsed
  t0Timeout : n'.dhcp.t0Timeout = n.dhcp.t0Timeout

section Functions

variable {env : DhcpEnv} {n n' : DhcpNetif} {state : DhcpState}

theorem enters_setState (n : DhcpNetif) (state : DhcpState) :
    Enters state n (dhcpSetState n state) := by
  unfold dhcpSetState
  split
  · exact ⟨rfl, rfl, rfl, rfl⟩
  · rename_i same
    exact ⟨(Decidable.not_not.1 same).symm, rfl, rfl, rfl⟩

/-- A message is sent in a state. -/
theorem Enters.send (enters : Enters state n n') (call : Nat) (type : DhcpMsgType)
    (requestedIp serverId dest : Option UInt32) :
    Enters state n (dhcpSend env call type requestedIp serverId dest n').2 := by
  unfold dhcpSend
  split
  · exact enters
  · dsimp only
    split
    · exact ⟨enters.state, enters.ipAddr, enters.leaseUsed, enters.t0Timeout⟩
    · exact ⟨enters.state, enters.ipAddr, enters.leaseUsed, enters.t0Timeout⟩

theorem Enters.retry (enters : Enters state n n') (msecs : Nat → Nat) :
    Enters state n (dhcpRetry msecs n') :=
  ⟨enters.state, enters.ipAddr, enters.leaseUsed, enters.t0Timeout⟩

theorem enters_discover (env : DhcpEnv) (call : Nat) (n : DhcpNetif) :
    Enters .selecting n (dhcpDiscover env call n).2 := by
  have entered := enters_setState { n with dhcp := { n.dhcp with offeredIpAddr := 0 } } .selecting
  have started : Enters .selecting n
      (dhcpSetState { n with dhcp := { n.dhcp with offeredIpAddr := 0 } } .selecting) :=
    ⟨entered.state, entered.ipAddr, entered.leaseUsed, entered.t0Timeout⟩
  unfold dhcpDiscover
  dsimp only
  exact (started.send ..).retry _

section

variable (env : DhcpEnv) (n : DhcpNetif)

theorem enters_select : Enters .requesting n (dhcpSelect env n).2 := by
  unfold dhcpSelect
  dsimp only
  exact ((enters_setState n .requesting).send ..).retry _

theorem enters_renew : Enters .renewing n (dhcpRenew env n).2 := by
  unfold dhcpRenew
  dsimp only
  exact ((enters_setState n .renewing).send ..).retry _

theorem enters_rebind : Enters .rebinding n (dhcpRebind env n).2 := by
  unfold dhcpRebind
  dsimp only
  exact ((enters_setState n .rebinding).send ..).retry _

theorem enters_reboot : Enters .rebooting n (dhcpReboot env n).2 := by
  unfold dhcpReboot
  dsimp only
  exact ((enters_setState n .rebooting).send ..).retry _

/-- `dhcp_release` forgets the lease time, and removes the address if the client is bound or
renews. -/
theorem dhcpRelease_spec :
    (dhcpRelease env n).2.dhcp.t0Timeout = 0 ∧
      (dhcpRelease env n).2.ipAddr = if dhcpSuppliedAddress n then 0 else n.ipAddr := by
  have entered := enters_setState n .off
  unfold dhcpRelease
  cases supplied : dhcpSuppliedAddress n with
  | true =>
    refine ⟨?_, rfl⟩
    exact (Enters.send ⟨rfl, rfl, rfl, rfl⟩ ..).t0Timeout
  | false => exact ⟨rfl, entered.ipAddr⟩

/-- The timers T2 and T1 do not touch the address and the lease time. -/
theorem dhcpCoarseRebind_spec :
    ∃ state, Enters state n (dhcpCoarseRebind env n) ∧
      (state = n.dhcp.state ∨ state = .rebinding ∨ state = .renewing) := by
  unfold dhcpCoarseRebind
  dsimp only
  split
  · unfold dhcpT2Timeout
    dsimp only
    split
    · have rebound := enters_rebind env { n with dhcp := { n.dhcp with t2RebindTime := 0 } }
      refine ⟨.rebinding, ?_, Or.inr (Or.inl rfl)⟩
      split
      · exact ⟨rebound.state, rebound.ipAddr, rebound.leaseUsed, rebound.t0Timeout⟩
      · exact ⟨rebound.state, rebound.ipAddr, rebound.leaseUsed, rebound.t0Timeout⟩
    · exact ⟨n.dhcp.state, ⟨rfl, rfl, rfl, rfl⟩, Or.inl rfl⟩
  split
  · unfold dhcpT1Timeout
    dsimp only
    split
    · have renewed := enters_renew env { n with dhcp := { n.dhcp with
        t2RebindTime := n.dhcp.t2RebindTime - 1, t1RenewTime := 0 } }
      refine ⟨.renewing, ?_, Or.inr (Or.inr rfl)⟩
      split
      · exact ⟨renewed.state, renewed.ipAddr, renewed.leaseUsed, renewed.t0Timeout⟩
      · exact ⟨renewed.state, renewed.ipAddr, renewed.leaseUsed, renewed.t0Timeout⟩
    · exact ⟨n.dhcp.state, ⟨rfl, rfl, rfl, rfl⟩, Or.inl rfl⟩
  · exact ⟨n.dhcp.state, ⟨rfl, rfl, rfl, rfl⟩, Or.inl rfl⟩

end

end Functions

/-! ## Events without a new lease -/

/-- A `DHCP_ACK` that `dhcp_recv` acts on. -/
def AckProcessed (n : DhcpNetif) : DhcpEvent → Prop
  | .recv reply => dhcpAccepted reply n = true ∧ reply.msgType = some .ack ∧
      (n.dhcp.state = .requesting ∨ n.dhcp.state = .rebooting ∨ n.dhcp.state = .rebinding ∨
        n.dhcp.state = .renewing)
  | _ => False

/-- No address and no lease time is set, and no address is checked. -/
structure Quiet (n n' : DhcpNetif) : Prop where
  ipAddr : n'.ipAddr = n.ipAddr ∨ n'.ipAddr = 0
  t0Timeout : n'.dhcp.t0Timeout = n.dhcp.t0Timeout ∨ n'.dhcp.t0Timeout = 0
  state : n'.dhcp.state ≠ .checking

section Quiet

variable {env : DhcpEnv} {n n' m : DhcpNetif} {state : DhcpState}

theorem Enters.quiet (enters : Enters state n n') (other : state ≠ .checking) : Quiet n n' where
  ipAddr := Or.inl enters.ipAddr
  t0Timeout := Or.inl enters.t0Timeout
  state := by
    rw [enters.state]
    exact other

theorem quiet_same (n : DhcpNetif) (other : n.dhcp.state ≠ .checking) : Quiet n n :=
  ⟨Or.inl rfl, Or.inl rfl, other⟩

/-- The lease is released, and discovery starts again. -/
theorem quiet_restart (env : DhcpEnv) (n : DhcpNetif) :
    Quiet n (dhcpDiscover env 1 (dhcpRelease env n).2).2 := by
  have released := dhcpRelease_spec env n
  have entered := enters_discover env 1 (dhcpRelease env n).2
  constructor
  · rw [entered.ipAddr, released.2]
    split
    · exact .inr rfl
    · exact .inl rfl
  · rw [entered.t0Timeout]
    exact .inr released.1
  · rw [entered.state]
    decide

section

variable (env : DhcpEnv) (other : n.dhcp.state ≠ .checking)

include other

theorem quiet_coarseRebind : Quiet n (dhcpCoarseRebind env n) := by
  obtain ⟨state, entered, kept⟩ := dhcpCoarseRebind_spec env n
  apply entered.quiet
  rcases kept with kept | kept | kept
  · rw [kept]
    exact other
  · rw [kept]
    decide
  · rw [kept]
    decide

theorem quiet_coarseTmr : Quiet n (dhcpCoarseTmr env n) := by
  unfold dhcpCoarseTmr
  split
  · exact quiet_same n other
  split
  · have restarted := quiet_restart env (dhcpUseTick n)
    exact ⟨restarted.ipAddr, restarted.t0Timeout, restarted.state⟩
  split
  · have counted : Quiet (dhcpUseTick n) (dhcpCoarseRebind env (dhcpUseTick n)) :=
      quiet_coarseRebind env other
    exact ⟨counted.ipAddr, counted.t0Timeout, counted.state⟩
  · exact quiet_coarseRebind env other

theorem quiet_timeout : Quiet n (dhcpTimeout env n) := by
  have discovered := (enters_discover env 0 n).quiet (by decide)
  unfold dhcpTimeout
  split
  · exact discovered
  split
  · split
    · exact (enters_select env n).quiet (by decide)
    · exact quiet_restart env n
  split
  · split
    · exact (enters_reboot env n).quiet (by decide)
    · exact discovered
  · exact quiet_same n other

theorem quiet_fineTmr : Quiet n (dhcpFineTmr env n) := by
  unfold dhcpFineTmr
  dsimp only
  split
  · have timed : Quiet { n with dhcp := { n.dhcp with
        requestTimeout := n.dhcp.requestTimeout - 1 } } _ := quiet_timeout env other
    exact ⟨timed.ipAddr, timed.t0Timeout, timed.state⟩
  · exact ⟨Or.inl rfl, Or.inl rfl, other⟩

end

theorem dhcpHandleNak_spec (env : DhcpEnv) (n : DhcpNetif) :
    Quiet n (dhcpHandleNak env n) ∧ (dhcpHandleNak env n).ipAddr = 0 := by
  have entered := enters_discover env 0 (netifSetAddr (dhcpSetState n .backingOff) 0 0 0)
  have backedOff := enters_setState n .backingOff
  have removed : (dhcpHandleNak env n).ipAddr = 0 := entered.ipAddr
  refine ⟨⟨Or.inr removed, Or.inl (entered.t0Timeout.trans backedOff.t0Timeout), ?_⟩, removed⟩
  have selecting : (dhcpHandleNak env n).dhcp.state = .selecting := entered.state
  rw [selecting]
  decide

/-- `dhcp_recv` ignores a message, or handles a refusal or an offer, unless it acts on a
`DHCP_ACK`. -/
theorem dhcpRecv_cases (env : DhcpEnv) {reply : DhcpReply}
    (noAck : ¬AckProcessed n (.recv reply)) :
    dhcpRecv env reply n = n ∨ dhcpRecv env reply n = dhcpHandleNak env n ∨
      (n.dhcp.state = .selecting ∧ dhcpRecv env reply n =
        dhcpHandleOffer env reply { n with dhcp := { n.dhcp with requestTimeout := 0 } }) := by
  unfold dhcpRecv
  split
  · exact .inl rfl
  rename_i accepted
  rw [Bool.not_eq_true', Bool.not_eq_false] at accepted
  split
  · rename_i isAck
    split
    · rename_i requesting
      exact absurd ⟨accepted, isAck, Or.inl requesting⟩ noAck
    split
    · rename_i renewing
      exact absurd ⟨accepted, isAck, Or.inr renewing⟩ noAck
    · exact .inl rfl
  split
  · exact .inr (.inl rfl)
  split
  · rename_i offered
    exact .inr (.inr ⟨offered.2, rfl⟩)
  · exact .inl rfl

/-- `dhcp_recv`, unless it acts on a `DHCP_ACK`. -/
theorem quiet_recv (env : DhcpEnv) {reply : DhcpReply} (other : n.dhcp.state ≠ .checking)
    (noAck : ¬AckProcessed n (.recv reply)) : Quiet n (dhcpRecv env reply n) := by
  rcases dhcpRecv_cases env noAck with same | same | ⟨_, same⟩
  · rw [same]
    exact quiet_same n other
  · rw [same]
    exact (dhcpHandleNak_spec env n).1
  · rw [same]
    unfold dhcpHandleOffer
    split
    · rename_i serverId _
      have entered := enters_select env { n with dhcp := { n.dhcp with
        requestTimeout := 0, serverIpAddr := serverId, offeredIpAddr := reply.yiaddr } }
      have requested := entered.quiet (by decide)
      exact ⟨requested.ipAddr, requested.t0Timeout, requested.state⟩
    · exact ⟨Or.inl rfl, Or.inl rfl, other⟩

/-- Every event, unless it is a `DHCP_ACK` that is acted on. -/
theorem quiet_event (env : DhcpEnv) {event : DhcpEvent} (other : n.dhcp.state ≠ .checking)
    (noAck : ¬AckProcessed n event) : Quiet n (dhcpEvent env n event) := by
  cases event with
  | coarseTmr => exact quiet_coarseTmr env other
  | fineTmr => exact quiet_fineTmr env other
  | recv reply => exact quiet_recv env other noAck
  | arpReply addr =>
    have ignored : dhcpArpReply env addr n = n := if_neg fun checking => other checking.1
    change Quiet n (dhcpArpReply env addr n)
    rw [ignored]
    exact quiet_same n other

end Quiet

/-! ## The lease time -/

/-- The states in which the address is used. -/
def UsesAddress (state : DhcpState) : Prop :=
  state = .bound ∨ state = .renewing ∨ state = .rebinding

/-- A lease after some coarse ticks. -/
inductive Leased (total ticks : Nat) (n : DhcpNetif) : Prop
  | gone (removed : n.ipAddr = 0) (other : n.dhcp.state ≠ .checking)
  | held (before : ticks < total) (used : n.dhcp.leaseUsed = ticks)
      (time : n.dhcp.t0Timeout = total) (uses : UsesAddress n.dhcp.state)

/-- The lease does not expire while the client rebinds, unless it has no address. -/
def ExpiresInTime (n : DhcpNetif) (event : DhcpEvent) : Prop :=
  event = .coarseTmr → dhcpExpires n.dhcp → n.dhcp.state = .rebinding → n.ipAddr = 0

section Lease

variable {env : DhcpEnv} {n : DhcpNetif} {total ticks : Nat}

theorem Quiet.gone {n' : DhcpNetif} (quiet : Quiet n n') (removed : n.ipAddr = 0) :
    Leased total ticks n' := by
  apply Leased.gone _ quiet.state
  cases quiet.ipAddr with
  | inl same => exact same.trans removed
  | inr zero => exact zero

/-- A state in which the address is used is not that of a check. -/
theorem UsesAddress.not_checking {state : DhcpState} (uses : UsesAddress state) :
    state ≠ .checking := by
  rcases uses with is | is | is <;> rw [is] <;> decide

theorem leased_coarseTmr (env : DhcpEnv) (small : total < 65536) (before : ticks < total)
    (used : n.dhcp.leaseUsed = ticks) (time : n.dhcp.t0Timeout = total)
    (uses : UsesAddress n.dhcp.state) (inTime : ExpiresInTime n .coarseTmr) :
    Leased total (ticks + 1) (dhcpCoarseTmr env n) := by
  have count : u16 (n.dhcp.leaseUsed + 1) = ticks + 1 := by
    rw [used]
    exact u16_of_lt (by omega)
  have isOn : n.dhcp.state ≠ .off := by
    rcases uses with is | is | is <;> rw [is] <;> decide
  unfold dhcpCoarseTmr
  rw [if_neg isOn]
  split
  · rename_i expires
    have entered := enters_discover env 1 (dhcpRelease env (dhcpUseTick n)).2
    have released := (dhcpRelease_spec env (dhcpUseTick n)).2
    -- the address is removed now, unless the client rebinds and it is removed already
    have removed : (dhcpRelease env (dhcpUseTick n)).2.ipAddr = 0 := by
      rw [released]
      split
      · rfl
      rename_i unsupplied
      have rebinds : n.dhcp.state = .rebinding := by
        rcases uses with is | is | is
        · exact absurd (decide_eq_true (Or.inl is)) unsupplied
        · exact absurd (decide_eq_true (Or.inr is)) unsupplied
        · exact is
      exact inTime rfl expires rebinds
    apply Leased.gone (entered.ipAddr.trans removed)
    rw [entered.state]
    decide
  · rename_i goesOn
    have later : ticks + 1 < total := by
      unfold dhcpExpires at goesOn
      rw [count, time] at goesOn
      omega
    rw [if_pos (by omega)]
    obtain ⟨state, entered, kept⟩ := dhcpCoarseRebind_spec env (dhcpUseTick n)
    have used' : (dhcpUseTick n).dhcp.leaseUsed = ticks + 1 := count
    apply Leased.held later (entered.leaseUsed.trans used') (entered.t0Timeout.trans time)
    rw [entered.state]
    rcases kept with kept | kept | kept
    · rw [kept]
      exact uses
    · exact .inr (.inr kept)
    · exact .inr (.inl kept)

/-- `dhcp_fine_tmr` does nothing for a lease. -/
theorem dhcpFineTmr_uses (env : DhcpEnv) (uses : UsesAddress n.dhcp.state) :
    Enters n.dhcp.state n (dhcpFineTmr env n) := by
  have nothing (m : DhcpNetif) (uses : UsesAddress m.dhcp.state) : dhcpTimeout env m = m := by
    unfold dhcpTimeout
    rcases uses with is | is | is <;> rw [is] <;> rfl
  unfold dhcpFineTmr
  dsimp only
  split
  · have still := nothing { n with dhcp := { n.dhcp with
      requestTimeout := n.dhcp.requestTimeout - 1 } } uses
    rw [still]
    exact ⟨rfl, rfl, rfl, rfl⟩
  · exact ⟨rfl, rfl, rfl, rfl⟩

/-- `dhcp_recv` removes the address of a lease or does nothing, unless it acts on a `DHCP_ACK`. -/
theorem dhcpRecv_uses (env : DhcpEnv) {reply : DhcpReply} (uses : UsesAddress n.dhcp.state)
    (noAck : ¬AckProcessed n (.recv reply)) :
    dhcpRecv env reply n = n ∨ (dhcpRecv env reply n).ipAddr = 0 := by
  rcases dhcpRecv_cases env noAck with same | same | ⟨selecting, _⟩
  · exact .inl same
  · rw [same]
    exact .inr (dhcpHandleNak_spec env n).2
  · unfold UsesAddress at uses
    rw [selecting] at uses
    exact absurd uses (by decide)

/-- Coarse ticks of an event. -/
def DhcpEvent.coarseTicks (event : DhcpEvent) : Nat := if event = .coarseTmr then 1 else 0

theorem leased_event (env : DhcpEnv) {event : DhcpEvent} (small : total < 65536)
    (leased : Leased total ticks n) (noAck : ¬AckProcessed n event)
    (inTime : ExpiresInTime n event) :
    Leased total (ticks + event.coarseTicks) (dhcpEvent env n event) := by
  cases leased with
  | gone removed other => exact (quiet_event env other noAck).gone removed
  | held before used time uses =>
    cases event with
    | coarseTmr => exact leased_coarseTmr env small before used time uses inTime
    | fineTmr =>
      have same := dhcpFineTmr_uses env uses
      have uses' : UsesAddress (dhcpFineTmr env n).dhcp.state := by
        rw [same.state]
        exact uses
      exact .held before (same.leaseUsed.trans used) (same.t0Timeout.trans time) uses'
    | recv reply =>
      have quiet := quiet_recv env uses.not_checking noAck
      cases dhcpRecv_uses env uses noAck with
      | inl same =>
        change Leased total ticks (dhcpRecv env reply n)
        rw [same]
        exact .held before used time uses
      | inr removed => exact .gone removed quiet.state
    | arpReply addr =>
      have ignored : dhcpArpReply env addr n = n :=
        if_neg fun checking => uses.not_checking checking.1
      change Leased total ticks (dhcpArpReply env addr n)
      rw [ignored]
      exact .held before used time uses

end Lease

theorem dhcpTicks_eq (secs : UInt32) :
    dhcpTicks secs = max 1 (min 65535 ((secs.toNat + 30) % 4294967296 / 60)) := by
  have rounded : ((secs + 30) / 60).toNat = (secs.toNat + 30) % 4294967296 / 60 := rfl
  unfold dhcpTicks
  dsimp only
  rw [rounded]
  split <;> split <;> omega

/-- A time in coarse ticks is positive and fits a `u16_t`. -/
theorem dhcpTicks_range (secs : UInt32) : 0 < dhcpTicks secs ∧ dhcpTicks secs < 65536 := by
  rw [dhcpTicks_eq]
  omega

theorem dhcpBindTimers_lease (d : DhcpClient) :
    (dhcpBindTimers d).leaseUsed = 0 ∧ (dhcpBindTimers d).t0Timeout =
      if d.offeredT0Lease ≠ 0xffffffff then dhcpTicks d.offeredT0Lease else d.t0Timeout := by
  unfold dhcpBindTimers
  dsimp only
  split <;> split <;> split <;> split <;> exact ⟨rfl, rfl⟩

theorem dhcpBind_lease (n : DhcpNetif) :
    (dhcpBind n).dhcp.state = .bound ∧ (dhcpBind n).dhcp.leaseUsed = 0 ∧
      (dhcpBind n).dhcp.t0Timeout =
        if n.dhcp.offeredT0Lease ≠ 0xffffffff then dhcpTicks n.dhcp.offeredT0Lease
        else n.dhcp.t0Timeout := by
  have entered := enters_setState { n with dhcp := dhcpBindTimers n.dhcp } .bound
  have timers := dhcpBindTimers_lease n.dhcp
  unfold dhcpBind
  dsimp only [netifSetAddr]
  exact ⟨entered.state, entered.leaseUsed.trans timers.1, entered.t0Timeout.trans timers.2⟩

/-- An interface and the number of coarse ticks it has seen. -/
abbrev TickedNetif := DhcpNetif × Nat

/-- One event, with its coarse ticks counted. -/
def TickedStep (x : TickedNetif) (event : DhcpEnv × DhcpEvent) (y : TickedNetif) : Prop :=
  DhcpStep x.1 event y.1 ∧ y.2 = x.2 + event.2.coarseTicks

/-- If no `DHCP_ACK` is acted on and the lease does not expire while the client rebinds, then the
interface has no address once the lease time is over. After an infinite lease on a client that
does not count an earlier lease, the lease time is never over. -/
theorem dhcp_lease_expiry (n : DhcpNetif) :
    (n.dhcp.offeredT0Lease ≠ 0xffffffff → ∀ final,
        Run TickedStep
          (fun x event => ¬AckProcessed x.1 event.2 ∧ ExpiresInTime x.1 event.2)
          (dhcpBind n, 0) final →
        (dhcpBind n).dhcp.t0Timeout ≤ final.2 → final.1.ipAddr = 0) ∧
      (n.dhcp.offeredT0Lease = 0xffffffff → n.dhcp.t0Timeout = 0 → ∀ final,
        Run DhcpStep (fun m event => ¬AckProcessed m event.2) (dhcpBind n) final →
        ¬dhcpExpires final.dhcp) := by
  have start := dhcpBind_lease n
  constructor
  · intro finite final run expired
    rw [if_pos finite] at start
    have range := dhcpTicks_range n.dhcp.offeredT0Lease
    have initial : Leased (dhcpBind n).dhcp.t0Timeout 0 (dhcpBind n) := by
      refine .held ?_ start.2.1 rfl (Or.inl start.1)
      rw [start.2.2]
      exact range.1
    have kept (x : TickedNetif) (event : DhcpEnv × DhcpEvent) (y : TickedNetif)
        (leased : Leased (dhcpBind n).dhcp.t0Timeout x.2 x.1)
        (meets : ¬AckProcessed x.1 event.2 ∧ ExpiresInTime x.1 event.2)
        (step : TickedStep x event y) : Leased (dhcpBind n).dhcp.t0Timeout y.2 y.1 := by
      rw [step.1, step.2]
      apply leased_event event.1 _ leased meets.1 meets.2
      rw [start.2.2]
      exact range.2
    cases run.invariant initial kept with
    | gone removed => exact removed
    | held before => omega
  · intro infinite noLease final run
    rw [if_neg (Decidable.not_not.2 infinite), noLease] at start
    have kept (m : DhcpNetif) (event : DhcpEnv × DhcpEvent) (m' : DhcpNetif)
        (untimed : m.dhcp.t0Timeout = 0 ∧ m.dhcp.state ≠ .checking)
        (noAck : ¬AckProcessed m event.2) (step : DhcpStep m event m') :
        m'.dhcp.t0Timeout = 0 ∧ m'.dhcp.state ≠ .checking := by
      have quiet := quiet_event event.1 untimed.2 noAck
      rw [← step] at quiet
      refine ⟨?_, quiet.state⟩
      cases quiet.t0Timeout with
      | inl same => exact same.trans untimed.1
      | inr zero => exact zero
    have initial : (dhcpBind n).dhcp.t0Timeout = 0 ∧ (dhcpBind n).dhcp.state ≠ .checking := by
      refine ⟨start.2.2, ?_⟩
      rw [start.1]
      decide
    have untimed := run.invariant initial kept
    exact fun expires => expires.1 untimed.1

/-- Enough memory, and zero as every random number. -/
def plainDhcpEnv : DhcpEnv := { alloc := fun _ => true, rand := fun _ => 0 }

/-- An interface without an address. -/
def plainDhcpNetif : DhcpNetif :=
  { ipAddr := 0, netmask := 0, gw := 0, etharp := false, dhcp := dhcpZero, lastXid := 0
    sent := [] }

/-- A message of a server that leases 192.168.0.100. -/
def serverReply (type : DhcpMsgType) (leaseTime : UInt32) : DhcpReply :=
  { valid := true, xid := 0, yiaddr := 0xc0a80064, msgType := some type, serverId := some 0xc0a80001
    leaseTime := some leaseTime, t1 := none, t2 := none, subnetMask := none, router := none }

/-- The interface after some events. -/
def dhcpEvents (n : DhcpNetif) (events : List DhcpEvent) : DhcpNetif :=
  events.foldl (dhcpEvent plainDhcpEnv) n

theorem run_dhcpEvents (n : DhcpNetif) (events : List DhcpEvent) :
    Run DhcpStep (fun _ _ => True) n (dhcpEvents n events) := by
  induction events generalizing n with
  | nil => exact Run.refl
  | cons event events ih =>
    have step : DhcpStep n (plainDhcpEnv, event) (dhcpEvent plainDhcpEnv n event) := rfl
    exact (Run.single _ trivial step).trans (ih _)

/-- Coarse ticks are a run without a new lease. -/
theorem run_coarseTicks (n : DhcpNetif) (count : Nat) :
    Run TickedStep (fun x event => ¬AckProcessed x.1 event.2) (n, 0)
      (dhcpEvents n (List.replicate count .coarseTmr), count) := by
  induction count with
  | zero => exact Run.refl
  | succ count ih =>
    have last : dhcpEvents n (List.replicate (count + 1) .coarseTmr) =
        dhcpEvent plainDhcpEnv (dhcpEvents n (List.replicate count .coarseTmr)) .coarseTmr := by
      rw [List.replicate_succ', dhcpEvents, List.foldl_append]
      rfl
    rw [last]
    have step : TickedStep (dhcpEvents n (List.replicate count .coarseTmr), count)
        (plainDhcpEnv, .coarseTmr) (dhcpEvent plainDhcpEnv
          (dhcpEvents n (List.replicate count .coarseTmr)) .coarseTmr, count + 1) := ⟨rfl, rfl⟩
    exact ih.tail (plainDhcpEnv, .coarseTmr) id step

/-- The client that `dhcp_start` has started. -/
def startedClient : DhcpNetif := (dhcpStart plainDhcpEnv true plainDhcpNetif).2

/-- A client that has been offered an address and gets an acknowledgement for a lease time. -/
def acknowledged (leaseTime : UInt32) : DhcpNetif :=
  dhcpHandleAck (serverReply .ack leaseTime)
    (dhcpEvents startedClient [.recv (serverReply .offer leaseTime)])

/-- A lease of one minute is over after one tick, and an infinite first lease is not. -/
theorem dhcp_lease_expiry_minute :
    (dhcpBind (acknowledged 60)).ipAddr = 0xc0a80064 ∧
      (dhcpCoarseTmr plainDhcpEnv (dhcpBind (acknowledged 60))).ipAddr = 0 ∧
      ¬dhcpExpires (dhcpCoarseTmr plainDhcpEnv (dhcpBind (acknowledged 0xffffffff))).dhcp := by
  have ticked : TickedStep (dhcpBind (acknowledged 60), 0) (plainDhcpEnv, .coarseTmr)
      (dhcpCoarseTmr plainDhcpEnv (dhcpBind (acknowledged 60)), 1) := ⟨rfl, rfl⟩
  have inTime : ExpiresInTime (dhcpBind (acknowledged 60)) .coarseTmr := by
    intro _ _ rebinds
    exact absurd rebinds (by decide +kernel)
  have step : DhcpStep (dhcpBind (acknowledged 0xffffffff)) (plainDhcpEnv, .coarseTmr)
      (dhcpCoarseTmr plainDhcpEnv (dhcpBind (acknowledged 0xffffffff))) := rfl
  have finite : (acknowledged 60).dhcp.offeredT0Lease ≠ 0xffffffff := by decide +kernel
  have expired : (dhcpBind (acknowledged 60)).dhcp.t0Timeout ≤ 1 := by decide +kernel
  have infinite : (acknowledged 0xffffffff).dhcp.offeredT0Lease = 0xffffffff := by decide +kernel
  have noLease : (acknowledged 0xffffffff).dhcp.t0Timeout = 0 := by decide +kernel
  have removed := (dhcp_lease_expiry (acknowledged 60)).1 finite _
    (Run.single (plainDhcpEnv, .coarseTmr) ⟨id, inTime⟩ ticked) expired
  have unending := (dhcp_lease_expiry (acknowledged 0xffffffff)).2 infinite noLease _
    (Run.single (plainDhcpEnv, .coarseTmr) id step)
  exact ⟨by decide +kernel, removed, unending⟩

/-- The client with a lease of ten minutes, once it is renewed for an infinite time. -/
def renewedForever : DhcpNetif :=
  dhcpHandleAck (serverReply .ack 0xffffffff)
    (dhcpEvents (dhcpBind (acknowledged 600)) (List.replicate 5 .coarseTmr))

/-- A lease of ten minutes expires while the client rebinds, which keeps its address. If the lease
is renewed for an infinite time before, it still expires ten minutes later. -/
theorem dhcp_address_kept_after_expiry :
    (Run DhcpStep (fun _ _ => True) startedClient (dhcpBind (acknowledged 600)) ∧
        (acknowledged 600).dhcp.offeredT0Lease ≠ 0xffffffff ∧
        ∃ final, Run TickedStep (fun x event => ¬AckProcessed x.1 event.2)
            (dhcpBind (acknowledged 600), 0) (final, (dhcpBind (acknowledged 600)).dhcp.t0Timeout) ∧
          final.ipAddr = 0xc0a80064) ∧
      Run DhcpStep (fun _ _ => True) startedClient (dhcpBind renewedForever) ∧
        renewedForever.dhcp.offeredT0Lease = 0xffffffff ∧
        ∃ final, Run TickedStep (fun x event => ¬AckProcessed x.1 event.2)
            (dhcpBind renewedForever, 0) (final, 9) ∧ dhcpExpires final.dhcp := by
  have total : (dhcpBind (acknowledged 600)).dhcp.t0Timeout = 10 := by decide +kernel
  have bound : dhcpEvents startedClient
      [.recv (serverReply .offer 600), .recv (serverReply .ack 600)] =
        dhcpBind (acknowledged 600) := by decide +kernel
  have renewed : dhcpEvents startedClient
      ([.recv (serverReply .offer 600), .recv (serverReply .ack 600)] ++
        List.replicate 5 .coarseTmr ++ [.recv (serverReply .ack 0xffffffff)]) =
        dhcpBind renewedForever := by decide +kernel
  rw [total]
  refine ⟨⟨bound ▸ run_dhcpEvents .., by decide +kernel, _, run_coarseTicks _ 10, ?_⟩,
    renewed ▸ run_dhcpEvents .., by decide +kernel, _, run_coarseTicks _ 9, ?_⟩
  · decide +kernel
  · decide +kernel

/-! ## The order of the timers -/

/-- The timers of a lease expire in their order. -/
structure TimersOrdered (d : DhcpClient) : Prop where
  first : 1 ≤ d.t1RenewTime
  renews : d.t1RenewTime ≤ d.t2RebindTime
  rebinds : d.t2RebindTime ≤ d.t0Timeout

/-- Seven times the lease time does not overflow, or leaves enough for the largest number of coarse
ticks while the lease time can be rounded. -/
def RebindFits (lease : UInt32) : Prop :=
  lease.toNat * 7 < 4294967296 ∨
    (31456560 ≤ lease.toNat * 7 % 4294967296 ∧ lease.toNat + 30 < 4294967296)

/-- The timers that `dhcp_bind` loads for finite times. -/
theorem dhcpBind_timers {n : DhcpNetif} (t0 : n.dhcp.offeredT0Lease ≠ 0xffffffff)
    (t1 : n.dhcp.offeredT1Renew ≠ 0xffffffff) (t2 : n.dhcp.offeredT2Rebind ≠ 0xffffffff) :
    TimersOrdered (dhcpBind n).dhcp ↔
      dhcpTicks n.dhcp.offeredT1Renew ≤ dhcpTicks n.dhcp.offeredT2Rebind ∧
        dhcpTicks n.dhcp.offeredT2Rebind ≤ dhcpTicks n.dhcp.offeredT0Lease := by
  have loaded : (dhcpBind n).dhcp.t1RenewTime = dhcpTicks n.dhcp.offeredT1Renew ∧
      (dhcpBind n).dhcp.t2RebindTime = dhcpTicks n.dhcp.offeredT2Rebind ∧
      (dhcpBind n).dhcp.t0Timeout = dhcpTicks n.dhcp.offeredT0Lease := by
    simp only [dhcpBind, netifSetAddr, dhcpSetState, dhcpBindTimers, if_pos t0, if_pos t1,
      if_pos t2]
    split <;> split <;> exact ⟨rfl, rfl, rfl⟩
  have range := dhcpTicks_range n.dhcp.offeredT1Renew
  constructor
  · intro ordered
    have renews := ordered.renews
    have rebinds := ordered.rebinds
    omega
  · intro order
    exact ⟨by omega, by omega, by omega⟩

/-- Without options for T1 and T2, the timers for a finite lease of a minute at least are in order
exactly if the rebinding time does not overflow. -/
theorem dhcp_timers_ordered_iff (n : DhcpNetif) (reply : DhcpReply) (lease : UInt32)
    (given : reply.leaseTime = some lease) (noT1 : reply.t1 = none) (noT2 : reply.t2 = none)
    (finite : lease ≠ 0xffffffff) (long : 60 ≤ lease.toNat) :
    TimersOrdered (dhcpBind (dhcpHandleAck reply n)).dhcp ↔ RebindFits lease := by
  have renew : (lease / 2).toNat = lease.toNat / 2 := rfl
  have rebind : (lease * 7 / 8).toNat = lease.toNat * 7 % 4294967296 / 8 := rfl
  have bounded := lease.toNat_lt
  have timers : (dhcpHandleAck reply n).dhcp.offeredT0Lease = lease ∧
      (dhcpHandleAck reply n).dhcp.offeredT1Renew = lease / 2 ∧
      (dhcpHandleAck reply n).dhcp.offeredT2Rebind = lease * 7 / 8 := by
    simp only [dhcpHandleAck, given, noT1, noT2]
    exact ⟨rfl, rfl, rfl⟩
  have small : ∀ secs : UInt32, secs.toNat < 4294967295 → secs ≠ 0xffffffff := by
    intro secs less same
    rw [same] at less
    exact absurd less (by decide)
  rw [dhcpBind_timers, timers.1, timers.2.1, timers.2.2, dhcpTicks_eq, dhcpTicks_eq, dhcpTicks_eq,
    renew, rebind, Nat.mod_eq_of_lt (show lease.toNat / 2 + 30 < 4294967296 by omega)]
  · unfold RebindFits
    by_cases fits : lease.toNat * 7 < 4294967296
    · rw [Nat.mod_eq_of_lt fits, Nat.mod_eq_of_lt (by omega), Nat.mod_eq_of_lt (by omega)]
      omega
    -- renewal is due after the largest number of ticks
    have latest : 65535 ≤ (lease.toNat / 2 + 30) / 60 := by omega
    by_cases rounds : lease.toNat + 30 < 4294967296
    · rw [Nat.mod_eq_of_lt rounds, Nat.mod_eq_of_lt (by omega)]
      omega
    · have expires : (lease.toNat + 30) % 4294967296 / 60 = 0 := by omega
      omega
  · rw [timers.1]
    exact finite
  · rw [timers.2.1]
    exact small _ (by omega)
  · rw [timers.2.2]
    exact small _ (by omega)

/-- A lease of an hour. -/
theorem dhcp_timers_ordered_hour : TimersOrdered (dhcpBind (acknowledged 3600)).dhcp :=
  (dhcp_timers_ordered_iff _ _ 3600 rfl rfl rfl (by decide) (by decide)).mpr (Or.inl (by decide))

/-- For a lease of about 19 years, rebinding is due after one tick, before renewal. -/
theorem dhcp_rebinds_before_renewal : ¬TimersOrdered (dhcpBind (acknowledged 613566757)).dhcp := by
  intro ordered
  exact absurd ordered.renews (by decide +kernel)

end Lwip.Dhcp
