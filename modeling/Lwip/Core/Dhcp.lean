import Lwip.Core.Arch

/-!
# DHCP client

The client of `core/ipv4/dhcp.c` for one network interface, with `DHCP_DOES_ARP_CHECK` and without
`LWIP_DHCP_AUTOIP_COOP` and `LWIP_DHCP_BOOTP_FILE`. Addresses are numbers in host byte order. A
received message is what `dhcp_parse_reply` makes of it. Of a message that is sent, the fields
that depend on the client are recorded.
-/

namespace Lwip.Dhcp

def dhcpFineTimerMsecs : Nat := 500

def rebootTries : Nat := 2

/-- `dhcp_state_enum_t`. -/
inductive DhcpState where
  | off
  | requesting
  | rebooting
  | rebinding
  | renewing
  | selecting
  | checking
  | bound
  | backingOff
  deriving DecidableEq, Repr

/-- Types of messages. -/
inductive DhcpMsgType where
  | discover
  | offer
  | request
  | decline
  | ack
  | nak
  | release
  deriving DecidableEq, Repr

/-- What the client sends. -/
inductive DhcpSent where
  | msg (type : DhcpMsgType) (xid ciaddr : UInt32) (requestedIp serverId dest : Option UInt32)
  | arpQuery (ipaddr : UInt32)
  deriving DecidableEq, Repr

/-- A received message. -/
structure DhcpReply where
  /-- Whether length, `op` and `chaddr` are right and `dhcp_parse_reply` succeeds. -/
  valid : Bool
  xid : UInt32
  yiaddr : UInt32
  msgType : Option DhcpMsgType
  serverId : Option UInt32
  leaseTime : Option UInt32
  t1 : Option UInt32
  t2 : Option UInt32
  subnetMask : Option UInt32
  router : Option UInt32
  deriving DecidableEq, Repr

/-- `struct dhcp`. -/
structure DhcpClient where
  xid : UInt32
  pcbAllocated : Bool
  state : DhcpState
  tries : Nat
  subnetMaskGiven : Bool
  /-- Fine ticks until the request times out. -/
  requestTimeout : Nat
  /-- Coarse ticks for the renewal time. -/
  t1Timeout : Nat
  /-- Coarse ticks for the rebinding time. -/
  t2Timeout : Nat
  /-- Coarse ticks until the next try to renew. -/
  t1RenewTime : Nat
  /-- Coarse ticks until the next try to rebind. -/
  t2RebindTime : Nat
  /-- Coarse ticks since the lease began. -/
  leaseUsed : Nat
  /-- Coarse ticks for the lease time. -/
  t0Timeout : Nat
  serverIpAddr : UInt32
  offeredIpAddr : UInt32
  offeredSnMask : UInt32
  offeredGwAddr : UInt32
  /-- Lease time in seconds. -/
  offeredT0Lease : UInt32
  /-- Renewal time in seconds. -/
  offeredT1Renew : UInt32
  /-- Rebinding time in seconds. -/
  offeredT2Rebind : UInt32
  deriving DecidableEq, Repr

/-- A client that is all zero. -/
def dhcpZero : DhcpClient :=
  { xid := 0, pcbAllocated := false, state := .off, tries := 0, subnetMaskGiven := false
    requestTimeout := 0, t1Timeout := 0, t2Timeout := 0, t1RenewTime := 0, t2RebindTime := 0
    leaseUsed := 0, t0Timeout := 0, serverIpAddr := 0, offeredIpAddr := 0, offeredSnMask := 0
    offeredGwAddr := 0, offeredT0Lease := 0, offeredT1Renew := 0, offeredT2Rebind := 0 }

/-- The network interface with its client. -/
structure DhcpNetif where
  ipAddr : UInt32
  netmask : UInt32
  gw : UInt32
  /-- `NETIF_FLAG_ETHARP`. -/
  etharp : Bool
  dhcp : DhcpClient
  lastXid : UInt32
  /-- What has been sent. -/
  sent : List DhcpSent
  deriving DecidableEq, Repr

/-- What a call meets outside of the client. -/
structure DhcpEnv where
  /-- Whether a call of `pbuf_alloc` finds memory. -/
  alloc : Nat → Bool
  rand : Nat → UInt32

def netifSetAddr (n : DhcpNetif) (ipaddr netmask gw : UInt32) : DhcpNetif :=
  { n with ipAddr := ipaddr, netmask := netmask, gw := gw }

def dhcpSetState (n : DhcpNetif) (newState : DhcpState) : DhcpNetif :=
  if newState ≠ n.dhcp.state then
    { n with dhcp := { n.dhcp with state := newState, tries := 0, requestTimeout := 0 } }
  else n

/-- `dhcp_create_msg` and the transmission of the message. The number tells which message of the
call it is. -/
def dhcpSend (env : DhcpEnv) (call : Nat) (type : DhcpMsgType)
    (requestedIp serverId dest : Option UInt32) (n : DhcpNetif) : Err × DhcpNetif :=
  if !env.alloc call then (.mem, n)
  else
    let n :=
      if type ≠ .request then
        let lastXid := if n.dhcp.tries = 0 then env.rand call else n.lastXid
        { n with lastXid := lastXid, dhcp := { n.dhcp with xid := lastXid } }
      else n
    let ciaddr :=
      if type = .decline ∨ type = .release ∨ (type = .request ∧
        (n.dhcp.state = .renewing ∨ n.dhcp.state = .rebinding)) then n.ipAddr else 0
    (.ok, { n with sent := n.sent ++ [.msg type n.dhcp.xid ciaddr requestedIp serverId dest] })

/-- One more try, and the time until it is given up. -/
def dhcpRetry (msecs : Nat → Nat) (n : DhcpNetif) : DhcpNetif :=
  let tries := if n.dhcp.tries < 255 then n.dhcp.tries + 1 else n.dhcp.tries
  { n with dhcp := { n.dhcp with
      tries := tries
      requestTimeout := (msecs tries + dhcpFineTimerMsecs - 1) / dhcpFineTimerMsecs } }

def dhcpDiscover (env : DhcpEnv) (call : Nat) (n : DhcpNetif) : Err × DhcpNetif :=
  let n := { n with dhcp := { n.dhcp with offeredIpAddr := 0 } }
  let result := dhcpSend env call .discover none none none (dhcpSetState n .selecting)
  (result.1, dhcpRetry (fun tries => (if tries < 6 then 1 <<< tries else 60) * 1000) result.2)

def dhcpSelect (env : DhcpEnv) (n : DhcpNetif) : Err × DhcpNetif :=
  let result := dhcpSend env 0 .request (some n.dhcp.offeredIpAddr) (some n.dhcp.serverIpAddr) none
    (dhcpSetState n .requesting)
  (result.1, dhcpRetry (fun tries => (if tries < 6 then 1 <<< tries else 60) * 1000) result.2)

def dhcpCheck (n : DhcpNetif) : DhcpNetif :=
  let n := dhcpSetState n .checking
  dhcpRetry (fun _ => 500) { n with sent := n.sent ++ [.arpQuery n.dhcp.offeredIpAddr] }

def dhcpRenew (env : DhcpEnv) (n : DhcpNetif) : Err × DhcpNetif :=
  let result := dhcpSend env 0 .request none none (some n.dhcp.serverIpAddr)
    (dhcpSetState n .renewing)
  (result.1, dhcpRetry (fun tries => if tries < 10 then tries * 2000 else 20 * 1000) result.2)

def dhcpRebind (env : DhcpEnv) (n : DhcpNetif) : Err × DhcpNetif :=
  let result := dhcpSend env 0 .request none none none (dhcpSetState n .rebinding)
  (result.1, dhcpRetry (fun tries => if tries < 10 then tries * 1000 else 10 * 1000) result.2)

def dhcpReboot (env : DhcpEnv) (n : DhcpNetif) : Err × DhcpNetif :=
  let result := dhcpSend env 0 .request (some n.dhcp.offeredIpAddr) none none
    (dhcpSetState n .rebooting)
  (result.1, dhcpRetry (fun tries => if tries < 10 then tries * 1000 else 10 * 1000) result.2)

def dhcpDecline (env : DhcpEnv) (n : DhcpNetif) : Err × DhcpNetif :=
  let result := dhcpSend env 0 .decline (some n.dhcp.offeredIpAddr) none none
    (dhcpSetState n .backingOff)
  (result.1, dhcpRetry (fun _ => 10 * 1000) result.2)

def dhcpSuppliedAddress (n : DhcpNetif) : Bool :=
  n.dhcp.state = .bound ∨ n.dhcp.state = .renewing

/-- `dhcp_release` forgets the offer and stops the timers. -/
def dhcpForget (d : DhcpClient) : DhcpClient :=
  { d with
    serverIpAddr := 0, offeredIpAddr := 0, offeredSnMask := 0, offeredGwAddr := 0
    offeredT0Lease := 0, offeredT1Renew := 0, offeredT2Rebind := 0
    t1RenewTime := 0, t2RebindTime := 0, leaseUsed := 0, t0Timeout := 0 }

def dhcpRelease (env : DhcpEnv) (n : DhcpNetif) : Err × DhcpNetif :=
  let serverIpAddr := n.dhcp.serverIpAddr
  let isDhcpSuppliedAddress := dhcpSuppliedAddress n
  let n := dhcpSetState n .off
  let n := { n with dhcp := dhcpForget n.dhcp }
  if !isDhcpSuppliedAddress then (.ok, n)
  else
    let result := dhcpSend env 0 .release none (some serverIpAddr) (some serverIpAddr) n
    (result.1, netifSetAddr result.2 0 0 0)

/-- A time in coarse ticks: at least one, and at most what fits a `u16_t`. -/
def dhcpTicks (secs : UInt32) : Nat :=
  let timeout := ((secs + 30) / 60).toNat
  let timeout := if timeout > 0xffff then 0xffff else timeout
  if timeout = 0 then 1 else timeout

/-- The timers that `dhcp_bind` sets. -/
def dhcpBindTimers (d : DhcpClient) : DhcpClient :=
  let d := { d with leaseUsed := 0 }
  let d :=
    if d.offeredT0Lease ≠ 0xffffffff then { d with t0Timeout := dhcpTicks d.offeredT0Lease } else d
  let d :=
    if d.offeredT1Renew ≠ 0xffffffff then
      { d with t1Timeout := dhcpTicks d.offeredT1Renew, t1RenewTime := dhcpTicks d.offeredT1Renew }
    else d
  let d :=
    if d.offeredT2Rebind ≠ 0xffffffff then
      { d with
        t2Timeout := dhcpTicks d.offeredT2Rebind, t2RebindTime := dhcpTicks d.offeredT2Rebind }
    else d
  if d.t1Timeout ≥ d.t2Timeout ∧ d.t2Timeout > 0 then { d with t1Timeout := 0 } else d

/-- The subnet mask that `dhcp_bind` sets. -/
def dhcpBindMask (d : DhcpClient) : UInt32 :=
  if d.subnetMaskGiven then d.offeredSnMask
  else
    let firstOctet := d.offeredIpAddr >>> 24
    if firstOctet ≤ 127 then 0xff000000 else if firstOctet ≥ 192 then 0xffffff00 else 0xffff0000

def dhcpBind (n : DhcpNetif) : DhcpNetif :=
  let snMask := dhcpBindMask n.dhcp
  let gwAddr :=
    if n.dhcp.offeredGwAddr = 0 then (n.dhcp.offeredIpAddr &&& snMask) ||| 1
    else n.dhcp.offeredGwAddr
  let n := dhcpSetState { n with dhcp := dhcpBindTimers n.dhcp } .bound
  netifSetAddr n n.dhcp.offeredIpAddr snMask gwAddr

/-! ## Timers -/

def dhcpT1Timeout (env : DhcpEnv) (n : DhcpNetif) : DhcpNetif :=
  if n.dhcp.state = .requesting ∨ n.dhcp.state = .bound ∨ n.dhcp.state = .renewing then
    let n := (dhcpRenew env n).2
    let half := ((n.dhcp.t2Timeout : Int) - n.dhcp.leaseUsed).tdiv 2
    if half ≥ 1 then { n with dhcp := { n.dhcp with t1RenewTime := toU16 half } } else n
  else n

def dhcpT2Timeout (env : DhcpEnv) (n : DhcpNetif) : DhcpNetif :=
  if n.dhcp.state = .requesting ∨ n.dhcp.state = .bound ∨ n.dhcp.state = .renewing ∨
      n.dhcp.state = .rebinding then
    let n := (dhcpRebind env n).2
    let half := ((n.dhcp.t0Timeout : Int) - n.dhcp.leaseUsed).tdiv 2
    if half ≥ 1 then { n with dhcp := { n.dhcp with t2RebindTime := toU16 half } } else n
  else n

/-- Whether the lease expires with the next coarse tick. -/
def dhcpExpires (d : DhcpClient) : Prop := d.t0Timeout ≠ 0 ∧ u16 (d.leaseUsed + 1) = d.t0Timeout

instance (d : DhcpClient) : Decidable (dhcpExpires d) := inferInstanceAs (Decidable (_ ∧ _))

/-- The end of `dhcp_coarse_tmr`, for the timers T2 and T1. -/
def dhcpCoarseRebind (env : DhcpEnv) (n : DhcpNetif) : DhcpNetif :=
  if n.dhcp.t2RebindTime = 1 then
    dhcpT2Timeout env { n with dhcp := { n.dhcp with t2RebindTime := 0 } }
  else
    let n := { n with dhcp := { n.dhcp with t2RebindTime := n.dhcp.t2RebindTime - 1 } }
    if n.dhcp.t1RenewTime = 1 then
      dhcpT1Timeout env { n with dhcp := { n.dhcp with t1RenewTime := 0 } }
    else { n with dhcp := { n.dhcp with t1RenewTime := n.dhcp.t1RenewTime - 1 } }

/-- One more coarse tick of the lease is used. -/
def dhcpUseTick (n : DhcpNetif) : DhcpNetif :=
  { n with dhcp := { n.dhcp with leaseUsed := u16 (n.dhcp.leaseUsed + 1) } }

def dhcpCoarseTmr (env : DhcpEnv) (n : DhcpNetif) : DhcpNetif :=
  if n.dhcp.state = .off then n
  else if dhcpExpires n.dhcp then (dhcpDiscover env 1 (dhcpRelease env (dhcpUseTick n)).2).2
  else if n.dhcp.t0Timeout ≠ 0 then dhcpCoarseRebind env (dhcpUseTick n)
  else dhcpCoarseRebind env n

def dhcpTimeout (env : DhcpEnv) (n : DhcpNetif) : DhcpNetif :=
  if n.dhcp.state = .backingOff ∨ n.dhcp.state = .selecting then (dhcpDiscover env 0 n).2
  else if n.dhcp.state = .requesting then
    if n.dhcp.tries ≤ 5 then (dhcpSelect env n).2
    else (dhcpDiscover env 1 (dhcpRelease env n).2).2
  else if n.dhcp.state = .checking then
    if n.dhcp.tries ≤ 1 then dhcpCheck n else dhcpBind n
  else if n.dhcp.state = .rebooting then
    if n.dhcp.tries < rebootTries then (dhcpReboot env n).2 else (dhcpDiscover env 0 n).2
  else n

def dhcpFineTmr (env : DhcpEnv) (n : DhcpNetif) : DhcpNetif :=
  let requestTimeout := n.dhcp.requestTimeout
  let n := { n with dhcp := { n.dhcp with requestTimeout := requestTimeout - 1 } }
  if requestTimeout = 1 then dhcpTimeout env n else n

/-! ## Received messages -/

def dhcpHandleNak (env : DhcpEnv) (n : DhcpNetif) : DhcpNetif :=
  (dhcpDiscover env 0 (netifSetAddr (dhcpSetState n .backingOff) 0 0 0)).2

def dhcpHandleOffer (env : DhcpEnv) (reply : DhcpReply) (n : DhcpNetif) : DhcpNetif :=
  match reply.serverId with
  | some serverId =>
    (dhcpSelect env { n with dhcp := { n.dhcp with
      serverIpAddr := serverId, offeredIpAddr := reply.yiaddr } }).2
  | none => n

def dhcpHandleAck (reply : DhcpReply) (n : DhcpNetif) : DhcpNetif :=
  let offeredT0Lease := reply.leaseTime.getD n.dhcp.offeredT0Lease
  { n with dhcp := { n.dhcp with
    offeredT0Lease := offeredT0Lease
    offeredT1Renew := reply.t1.getD (offeredT0Lease / 2)
    offeredT2Rebind := reply.t2.getD (offeredT0Lease * 7 / 8)
    offeredIpAddr := reply.yiaddr
    offeredSnMask := reply.subnetMask.getD 0
    subnetMaskGiven := reply.subnetMask.isSome
    offeredGwAddr := reply.router.getD 0 } }

/-- Whether `dhcp_recv` looks at the type of a message. -/
def dhcpAccepted (reply : DhcpReply) (n : DhcpNetif) : Bool :=
  n.dhcp.pcbAllocated && reply.valid && decide (reply.xid = n.dhcp.xid)

def dhcpRecv (env : DhcpEnv) (reply : DhcpReply) (n : DhcpNetif) : DhcpNetif :=
  if !dhcpAccepted reply n then n
  else if reply.msgType = some .ack then
    if n.dhcp.state = .requesting then
      if n.etharp then dhcpCheck (dhcpHandleAck reply n) else dhcpBind (dhcpHandleAck reply n)
    else if n.dhcp.state = .rebooting ∨ n.dhcp.state = .rebinding ∨ n.dhcp.state = .renewing then
      dhcpBind (dhcpHandleAck reply n)
    else n
  else if reply.msgType = some .nak ∧ (n.dhcp.state = .rebooting ∨ n.dhcp.state = .requesting ∨
      n.dhcp.state = .rebinding ∨ n.dhcp.state = .renewing) then dhcpHandleNak env n
  else if reply.msgType = some .offer ∧ n.dhcp.state = .selecting then
    dhcpHandleOffer env reply { n with dhcp := { n.dhcp with requestTimeout := 0 } }
  else n

def dhcpArpReply (env : DhcpEnv) (addr : UInt32) (n : DhcpNetif) : DhcpNetif :=
  if n.dhcp.state = .checking ∧ addr = n.dhcp.offeredIpAddr then (dhcpDecline env n).2 else n

def dhcpStop (n : DhcpNetif) : DhcpNetif :=
  let n := dhcpSetState n .off
  { n with dhcp := { n.dhcp with pcbAllocated := false } }

/-- `dhcp_start`, for an interface that is up and has a large enough MTU; `pcb` tells whether
there is a PCB. -/
def dhcpStart (env : DhcpEnv) (pcb : Bool) (n : DhcpNetif) : Err × DhcpNetif :=
  let n := { n with dhcp := dhcpZero }
  if !pcb then (.mem, n)
  else
    let result := dhcpDiscover env 0 { n with dhcp := { n.dhcp with pcbAllocated := true } }
    if result.1 ≠ .ok then (.mem, dhcpStop result.2) else result

/-! ## Events -/

/-- What happens to the client. -/
inductive DhcpEvent where
  | coarseTmr
  | fineTmr
  | recv (reply : DhcpReply)
  | arpReply (addr : UInt32)
  deriving DecidableEq, Repr

/-- The interface after an event. -/
def dhcpEvent (env : DhcpEnv) (n : DhcpNetif) : DhcpEvent → DhcpNetif
  | .coarseTmr => dhcpCoarseTmr env n
  | .fineTmr => dhcpFineTmr env n
  | .recv reply => dhcpRecv env reply n
  | .arpReply addr => dhcpArpReply env addr n

/-- One event, in some environment. -/
def DhcpStep (n : DhcpNetif) (event : DhcpEnv × DhcpEvent) (n' : DhcpNetif) : Prop :=
  n' = dhcpEvent event.1 n event.2

end Lwip.Dhcp
