import Lwip.Core.Arch

/-!
# Lists of control blocks

The functions of `core/tcp.c` and `core/udp.c` that search the lists of control blocks for a local
port that is free, and for a connection to abort in favour of a new one.
-/

namespace Lwip

/-! ## Local ports -/

/-- `TCP_LOCAL_PORT_RANGE_START` and `UDP_LOCAL_PORT_RANGE_START`. -/
def localPortRangeStart : Nat := 0xc000

/-- `TCP_LOCAL_PORT_RANGE_END` and `UDP_LOCAL_PORT_RANGE_END`. -/
def localPortRangeEnd : Nat := 0xffff

/-- `tcp_port++`, which goes on at the start of the range. -/
def nextPort (port : Nat) : Nat :=
  if port = localPortRangeEnd then localPortRangeStart else u16 (port + 1)

/-- The search from the label `again` on, over the local ports of the control blocks on each list;
`n` ports were in use so far. The results are the return value and the counter. -/
def newPort (lists : List (List Nat)) (n port : Nat) : Nat × Nat :=
  let port := nextPort port
  if lists.any fun pcbs => pcbs.any fun localPort => localPort = port then
    if n + 1 > localPortRangeEnd - localPortRangeStart then (0, port)
    else newPort lists (n + 1) port
  else (port, port)
termination_by localPortRangeEnd - n

/-- `tcp_new_port`, with the lists in `tcp_pcb_lists`. -/
def tcpNewPort (listenPcbs boundPcbs activePcbs twPcbs : List Nat) (tcpPort : Nat) : Nat × Nat :=
  newPort [listenPcbs, boundPcbs, activePcbs, twPcbs] 0 tcpPort

def udpNewPort (udpPcbs : List Nat) (udpPort : Nat) : Nat × Nat := newPort [udpPcbs] 0 udpPort

/-! ## Priorities -/

def tcpPrioMax : Nat := 127

/-- What `tcp_kill_prio` looks at in a control block. -/
structure PrioPcb where
  prio : Nat
  tmr : UInt32
  deriving DecidableEq, Repr

/-- `(u32_t)(tcp_ticks - pcb->tmr)`. -/
def PrioPcb.inactivity (ticks : UInt32) (pcb : PrioPcb) : Nat := (ticks - pcb.tmr).toNat

/-- Local variables of `tcp_kill_prio`. -/
structure KillLocals where
  mprio : Nat
  inactivity : Nat
  inactive : Option PrioPcb

/-- One pass of the loop of `tcp_kill_prio`. -/
def tcpKillPrioPass (ticks : UInt32) (l : KillLocals) (pcb : PrioPcb) : KillLocals :=
  if pcb.prio ≤ l.mprio ∧ pcb.inactivity ticks ≥ l.inactivity then
    { mprio := pcb.prio, inactivity := pcb.inactivity ticks, inactive := some pcb }
  else l

/-- `tcp_kill_prio`: the connection that it aborts, if any. -/
def tcpKillPrio (ticks : UInt32) (prio : Nat) (activePcbs : List PrioPcb) : Option PrioPcb :=
  (activePcbs.foldl (tcpKillPrioPass ticks)
    { mprio := min tcpPrioMax prio, inactivity := 0, inactive := none }).inactive

end Lwip
