import Lwip.Base.Oldest
import Lwip.Core.Pbuf

/-!
# ARP cache

The table of `core/ipv4/etharp.c` with `ARP_QUEUEING` and `ETHARP_SUPPORT_STATIC_ENTRIES`, without
`ETHARP_TABLE_MATCH_NETIF` and `LWIP_AUTOIP`. IPv4 addresses are numbers in host byte order. A
network interface is known by a number, under which its fields are found. Packets handed to
`linkoutput` are recorded; packets and queue elements that are freed are dropped.
-/

namespace Lwip.Arp

open Oldest

def arpTableSize : Nat := 10

def arpQueueLen : Nat := 3

def arpMaxage : Nat := 300

def arpMaxpending : Nat := 5

def arpAgeRerequestUsedUnicast : Nat := arpMaxage - 30

def arpAgeRerequestUsedBroadcast : Nat := arpMaxage - 15

def ethHwaddrLen : Nat := 6

/-- `struct eth_addr`. -/
abbrev EthAddr := BitVec 48

def ethbroadcast : EthAddr := 0xffffffffffff

def ethzero : EthAddr := 0

/-- What `etharp.c` reads of a `struct netif`. -/
structure Netif where
  ipAddr : UInt32
  netmask : UInt32
  gw : UInt32
  /-- `NETIF_FLAG_BROADCAST`. -/
  broadcast : Bool
  hwaddr : EthAddr
  hwaddrLen : Nat
  deriving DecidableEq, Repr

/-- `struct etharp_hdr`. -/
structure EtharpHdr where
  hwtype : Nat
  proto : Nat
  hwlen : Nat
  protolen : Nat
  opcode : Nat
  shwaddr : EthAddr
  sipaddr : UInt32
  dhwaddr : EthAddr
  dipaddr : UInt32
  deriving DecidableEq, Repr

/-- What is handed to `linkoutput`. -/
inductive EthFrame where
  | arp (netif : Nat) (src dst : EthAddr) (hdr : EtharpHdr)
  | ip (netif : Nat) (src dst : EthAddr) (p : Chain)
  deriving DecidableEq, Repr

/-- `enum etharp_state`. -/
inductive EtharpState where
  | empty
  | pending
  | stable
  | stableRerequesting1
  | stableRerequesting2
  | static
  deriving DecidableEq, Repr

/-- The value of a state. -/
def EtharpState.num : EtharpState → Nat
  | .empty => 0
  | .pending => 1
  | .stable => 2
  | .stableRerequesting1 => 3
  | .stableRerequesting2 => 4
  | .static => 5

/-- `struct etharp_entry`. -/
structure EtharpEntry where
  q : List Chain
  ipaddr : UInt32
  netif : Nat
  ethaddr : EthAddr
  ctime : Nat
  state : EtharpState
  deriving DecidableEq, Repr

/-- `arp_table`, `etharp_cached_entry` and what has been handed to `linkoutput`. -/
structure EtharpCache where
  /-- `arp_table`. -/
  table : Fin arpTableSize → EtharpEntry
  /-- `etharp_cached_entry`. -/
  cachedEntry : Fin arpTableSize
  /-- Packets handed to `linkoutput`. -/
  sent : List EthFrame

/-- The table at the start. -/
def etharpInit : EtharpCache :=
  { table := fun _ =>
      { q := [], ipaddr := 0, netif := 0, ethaddr := ethzero, ctime := 0, state := .empty }
    cachedEntry := ⟨0, by decide⟩, sent := [] }

/-- What a call meets outside of the ARP cache. -/
structure EtharpEnv where
  netifs : Nat → Netif
  /-- Whether a call of `pbuf_alloc` finds memory. -/
  alloc : Nat → Bool
  /-- Whether `memp_malloc(MEMP_ARP_QUEUE)` finds memory. -/
  malloc : Bool
  /-- Whether a received packet has room for the Ethernet header of the reply. -/
  room : Bool
  linkoutput : Err
  /-- Whether `LWIP_DEBUG` is defined. -/
  lwipDebug : Bool

/-- `ETHARP_FLAG_TRY_HARD`, `ETHARP_FLAG_FIND_ONLY` and `ETHARP_FLAG_STATIC_ENTRY`. -/
structure EtharpFlags where
  tryHard : Bool := false
  /-- Do not create an entry. -/
  findOnly : Bool := false
  staticEntry : Bool := false
  deriving DecidableEq, Repr

/-! ## IP addresses -/

def ip4AddrNetcmp (addr1 addr2 mask : UInt32) : Bool := addr1 &&& mask = addr2 &&& mask

def ip4AddrIsany (addr : UInt32) : Bool := addr = 0

def ip4AddrIsmulticast (addr : UInt32) : Bool := addr &&& 0xf0000000 = 0xe0000000

def ip4AddrIslinklocal (addr : UInt32) : Bool := addr &&& 0xffff0000 = 0xa9fe0000

/-- `ip4_addr_isbroadcast_u32`. -/
def ip4AddrIsbroadcast (addr : UInt32) (netif : Netif) : Bool :=
  if ~~~addr = 0 ∨ addr = 0 then true
  else if !netif.broadcast then false
  else if addr = netif.ipAddr then false
  else ip4AddrNetcmp addr netif.ipAddr netif.netmask ∧
    addr &&& ~~~netif.netmask = 0xffffffff &&& ~~~netif.netmask

/-! ## Output -/

def sizeofEthHdr : Nat := 14

/-- `ethernet_output` for an IP packet. -/
def ethernetOutput (env : EtharpEnv) (netif : Nat) (p : Chain) (src dst : EthAddr)
    (s : EtharpCache) : Asserting (Err × EtharpCache) := do
  match ← pbufHeader p sizeofEthHdr with
  | none => .ok (.buf, s)
  | some p =>
    lwipAssert "netif->hwaddr_len must be 6 for ethernet_output!"
      ((env.netifs netif).hwaddrLen = ethHwaddrLen)
    .ok (env.linkoutput, { s with sent := s.sent ++ [.ip netif src dst p] })

/-- `etharp_raw`; the last argument tells whether `pbuf_alloc` finds memory. -/
def etharpRaw (env : EtharpEnv) (netif : Nat) (ethsrcAddr ethdstAddr hwsrcAddr : EthAddr)
    (ipsrcAddr : UInt32) (hwdstAddr : EthAddr) (ipdstAddr : UInt32) (opcode : Nat) (alloc : Bool)
    (s : EtharpCache) : Asserting (Err × EtharpCache) :=
  if !alloc then .ok (.mem, s)
  else do
    lwipAssert "netif->hwaddr_len must be the same as ETH_HWADDR_LEN for etharp!"
      ((env.netifs netif).hwaddrLen = ethHwaddrLen)
    .ok (.ok, { s with sent := s.sent ++ [.arp netif ethsrcAddr ethdstAddr
      { hwtype := 1, proto := 0x800, hwlen := ethHwaddrLen, protolen := 4, opcode := opcode
        shwaddr := hwsrcAddr, sipaddr := ipsrcAddr, dhwaddr := hwdstAddr, dipaddr := ipdstAddr }] })

def arpRequest : Nat := 1

def arpReply : Nat := 2

def etharpRequestDst (env : EtharpEnv) (netif : Nat) (ipaddr : UInt32) (hwDstAddr : EthAddr)
    (alloc : Bool) (s : EtharpCache) : Asserting (Err × EtharpCache) :=
  let n := env.netifs netif
  etharpRaw env netif n.hwaddr hwDstAddr n.hwaddr n.ipAddr ethzero ipaddr arpRequest alloc s

def etharpRequest (env : EtharpEnv) (netif : Nat) (ipaddr : UInt32) (alloc : Bool)
    (s : EtharpCache) : Asserting (Err × EtharpCache) :=
  etharpRequestDst env netif ipaddr ethbroadcast alloc s

/-! ## Entries -/

/-- An entry is written. -/
def EtharpCache.put (s : EtharpCache) (i : Fin arpTableSize) (entry : EtharpEntry) : EtharpCache :=
  { s with table := fun j => if j = i then entry else s.table j }

/-- What `etharp_free_entry` makes of an entry. -/
def EtharpEntry.freed (entry : EtharpEntry) (lwipDebug : Bool) : EtharpEntry :=
  if lwipDebug then
    { q := [], ipaddr := 0, netif := 0, ethaddr := ethzero, ctime := 0, state := .empty }
  else { entry with q := [], state := .empty }

def etharpFreeEntry (env : EtharpEnv) (i : Fin arpTableSize) (s : EtharpCache) : EtharpCache :=
  s.put i ((s.table i).freed env.lwipDebug)

/-- One pass of the loop of `etharp_tmr`. -/
def etharpTmrEntry (env : EtharpEnv) (s : EtharpCache) (i : Fin arpTableSize) :
    Asserting EtharpCache :=
  let entry := s.table i
  if entry.state ≠ .empty ∧ entry.state ≠ .static then
    let entry := { entry with ctime := u16 (entry.ctime + 1) }
    let s := s.put i entry
    if entry.ctime ≥ arpMaxage ∨ (entry.state = .pending ∧ entry.ctime ≥ arpMaxpending) then
      .ok (etharpFreeEntry env i s)
    else if entry.state = .stableRerequesting1 then
      .ok (s.put i { entry with state := .stableRerequesting2 })
    else if entry.state = .stableRerequesting2 then .ok (s.put i { entry with state := .stable })
    else if entry.state = .pending then do
      let result ← etharpRequest env entry.netif entry.ipaddr (env.alloc i) s
      .ok result.2
    else .ok s
  else .ok s

def etharpTmr (env : EtharpEnv) (s : EtharpCache) : Asserting EtharpCache :=
  (List.finRange arpTableSize).foldlM (etharpTmrEntry env) s

/-- Local variables of `etharp_find_entry`. -/
structure FindLocals where
  empty : Option (Fin arpTableSize)
  /-- `old_stable` and `age_stable`. -/
  oldStable : Best (Fin arpTableSize)
  /-- `old_pending` and `age_pending`. -/
  oldPending : Best (Fin arpTableSize)
  /-- `old_queue` and `age_queue`. -/
  oldQueue : Best (Fin arpTableSize)
  deriving DecidableEq, Repr

/-- The candidates after an entry that is in use and does not match. -/
def etharpCandidate (i : Fin arpTableSize) (entry : EtharpEntry) (l : FindLocals) : FindLocals :=
  if entry.state = .pending then
    if entry.q ≠ [] then { l with oldQueue := l.oldQueue.offer i entry.ctime }
    else { l with oldPending := l.oldPending.offer i entry.ctime }
  else if entry.state.num ≥ EtharpState.stable.num then
    if entry.state.num < EtharpState.static.num then
      { l with oldStable := l.oldStable.offer i entry.ctime }
    else l
  else l

/-- The loop of `etharp_find_entry`: the entry that matches, or the candidates. -/
def etharpFindLoop (table : Fin arpTableSize → EtharpEntry) (ipaddr : Option UInt32) :
    List (Fin arpTableSize) → FindLocals → Asserting (Fin arpTableSize ⊕ FindLocals)
  | [], l => .ok (.inr l)
  | i :: rest, l =>
    let state := (table i).state
    if l.empty = none ∧ state = .empty then
      etharpFindLoop table ipaddr rest { l with empty := some i }
    else if state ≠ .empty then do
      lwipAssert "state == ETHARP_STATE_PENDING || state >= ETHARP_STATE_STABLE"
        (state = .pending ∨ state.num ≥ EtharpState.stable.num)
      if ipaddr = some (table i).ipaddr then .ok (.inl i)
      else etharpFindLoop table ipaddr rest (etharpCandidate i (table i) l)
    else etharpFindLoop table ipaddr rest l

/-- The entry that is recycled if there is no empty one. -/
def etharpRecycle (table : Fin arpTableSize → EtharpEntry) (l : FindLocals) :
    Asserting (Option (Fin arpTableSize)) :=
  match l.oldStable.pick with
  | some i => do
    lwipAssert "arp_table[i].q == NULL" ((table i).q = [])
    .ok (some i)
  | none =>
    match l.oldPending.pick with
    | some i => .ok (some i)
    | none => .ok l.oldQueue.pick

/-- The new entry of `etharp_find_entry`. -/
def etharpNewEntry (env : EtharpEnv) (ipaddr : Option UInt32) (l : FindLocals) (s : EtharpCache) :
    Asserting (Option (Fin arpTableSize × EtharpCache)) :=
  match l.empty with
  | some i => created i s
  | none => do
    match ← etharpRecycle s.table l with
    | none => .ok none
    | some i => created i (etharpFreeEntry env i s)
where
  created (i : Fin arpTableSize) (s : EtharpCache) :
      Asserting (Option (Fin arpTableSize × EtharpCache)) := do
    lwipAssert "arp_table[i].state == ETHARP_STATE_EMPTY" ((s.table i).state = .empty)
    .ok (some (i, s.put i
      { s.table i with ipaddr := ipaddr.getD (s.table i).ipaddr, ctime := 0 }))

/-- `etharp_find_entry`; `none` is `ERR_MEM`. -/
def etharpFindEntry (env : EtharpEnv) (ipaddr : Option UInt32) (flags : EtharpFlags)
    (s : EtharpCache) : Asserting (Option (Fin arpTableSize × EtharpCache)) := do
  match ← etharpFindLoop s.table ipaddr (List.finRange arpTableSize)
      { empty := none, oldStable := .none, oldPending := .none, oldQueue := .none } with
  | .inl i => .ok (some (i, s))
  | .inr l =>
    if flags.findOnly ∨ (l.empty = none ∧ !flags.tryHard) then .ok none
    else etharpNewEntry env ipaddr l s

/-- The queued packets of an entry are sent. -/
def etharpSendQueue (env : EtharpEnv) (netif : Nat) (ethaddr : EthAddr) :
    List Chain → EtharpCache → Asserting EtharpCache
  | [], s => .ok s
  | p :: q, s => do
    let result ← ethernetOutput env netif p (env.netifs netif).hwaddr ethaddr s
    etharpSendQueue env netif ethaddr q result.2

def etharpUpdateArpEntry (env : EtharpEnv) (netif : Nat) (ipaddr : UInt32) (ethaddr : EthAddr)
    (flags : EtharpFlags) (s : EtharpCache) : Asserting (Err × EtharpCache) := do
  lwipAssert "netif->hwaddr_len == ETH_HWADDR_LEN" ((env.netifs netif).hwaddrLen = ethHwaddrLen)
  if ip4AddrIsany ipaddr ∨ ip4AddrIsbroadcast ipaddr (env.netifs netif) ∨ ip4AddrIsmulticast ipaddr
  then .ok (.arg, s)
  else
    match ← etharpFindEntry env (some ipaddr) flags s with
    | none => .ok (.mem, s)
    | some (i, s) =>
      if !flags.staticEntry ∧ (s.table i).state = .static then .ok (.val, s)
      else
        let queued := (s.table i).q
        let s ← etharpSendQueue env netif ethaddr queued (s.put i
          { s.table i with
            state := if flags.staticEntry then .static else .stable
            netif := netif, ethaddr := ethaddr, ctime := 0, q := [] })
        .ok (.ok, s)

/-- `etharp_add_static_entry`; `route` is what `ip4_route` returns. -/
def etharpAddStaticEntry (env : EtharpEnv) (route : Option Nat) (ipaddr : UInt32)
    (ethaddr : EthAddr) (s : EtharpCache) : Asserting (Err × EtharpCache) :=
  match route with
  | none => .ok (.rte, s)
  | some netif =>
    etharpUpdateArpEntry env netif ipaddr ethaddr { tryHard := true, staticEntry := true } s

def etharpRemoveStaticEntry (env : EtharpEnv) (ipaddr : UInt32) (s : EtharpCache) :
    Asserting (Err × EtharpCache) := do
  match ← etharpFindEntry env (some ipaddr) { findOnly := true } s with
  | none => .ok (.mem, s)
  | some (i, s) =>
    if (s.table i).state ≠ .static then .ok (.arg, s) else .ok (.ok, etharpFreeEntry env i s)

def etharpCleanupNetif (env : EtharpEnv) (netif : Nat) (s : EtharpCache) : EtharpCache :=
  (List.finRange arpTableSize).foldl (fun s i =>
    if (s.table i).state ≠ .empty ∧ (s.table i).netif = netif then etharpFreeEntry env i s else s) s

def etharpInput (env : EtharpEnv) (netif : Nat) (hdr : EtharpHdr) (s : EtharpCache) :
    Asserting EtharpCache :=
  let n := env.netifs netif
  if hdr.hwtype ≠ 1 ∨ hdr.hwlen ≠ ethHwaddrLen ∨ hdr.protolen ≠ 4 ∨ hdr.proto ≠ 0x800 then .ok s
  else do
    let forUs := !ip4AddrIsany n.ipAddr && decide (hdr.dipaddr = n.ipAddr)
    let result ← etharpUpdateArpEntry env netif hdr.sipaddr hdr.shwaddr
      { tryHard := forUs, findOnly := !forUs } s
    let s := result.2
    if hdr.opcode = arpRequest ∧ forUs then
      lwipAssert "netif->hwaddr_len must be the same as ETH_HWADDR_LEN for etharp!"
        (n.hwaddrLen = ethHwaddrLen)
      if !env.room then .ok s
      else .ok { s with sent := s.sent ++ [.arp netif n.hwaddr hdr.shwaddr
        { hdr with
          opcode := arpReply, dipaddr := hdr.sipaddr, sipaddr := n.ipAddr, dhwaddr := hdr.shwaddr
          shwaddr := n.hwaddr }] }
    else .ok s

/-! ## Queries -/

/-- The packet that is queued: a copy if it may change, and otherwise the packet itself. `none` if
there is no memory for the copy. -/
def etharpTakeOver (env : EtharpEnv) (q : Chain) : Chain → Asserting (Option Chain)
  | [] => .ok (some (pbufRef q))
  | p :: next => do
    lwipAssert "no packet queues allowed!" (p.len ≠ p.totLen ∨ next = [])
    if p.type ≠ .rom then
      if !env.alloc 1 then .ok none
      else do
        let result ← pbufCopy [pbufRam pbufLinkHlen (List.replicate p.totLen 0)] q
        .ok (if result.1 = .ok then some result.2 else none)
    else etharpTakeOver env q next

/-- The queue of an entry after one more packet. -/
def etharpEnqueue (queue : List Chain) (p : Chain) : List Chain :=
  let qlen := queue.length
  if qlen ≥ arpQueueLen then (queue ++ [p]).tail else queue ++ [p]

/-- The end of `etharp_query`, for a packet. -/
def etharpQueryPacket (env : EtharpEnv) (netif : Nat) (i : Fin arpTableSize) (q : Chain)
    (s : EtharpCache) : Asserting (Err × EtharpCache) :=
  if (s.table i).state.num ≥ EtharpState.stable.num then
    ethernetOutput env netif q (env.netifs netif).hwaddr (s.table i).ethaddr
      { s with cachedEntry := i }
  else if (s.table i).state = .pending then do
    match ← etharpTakeOver env q q with
    | none => .ok (.mem, s)
    | some p =>
      if env.malloc then
        .ok (.ok, s.put i { s.table i with q := etharpEnqueue (s.table i).q p })
      else .ok (.mem, s)
  else .ok (.mem, s)

/-- `etharp_query`; the packet is `none` for `NULL`. -/
def etharpQuery (env : EtharpEnv) (netif : Nat) (ipaddr : UInt32) (q : Option Chain)
    (s : EtharpCache) : Asserting (Err × EtharpCache) := do
  if ip4AddrIsbroadcast ipaddr (env.netifs netif) ∨ ip4AddrIsmulticast ipaddr ∨ ip4AddrIsany ipaddr
  then .ok (.arg, s)
  else
    match ← etharpFindEntry env (some ipaddr) { tryHard := true } s with
    | none => .ok (.mem, s)
    | some (i, s) =>
      let isNewEntry : Bool := (s.table i).state = .empty
      let s :=
        if isNewEntry then s.put i { s.table i with state := .pending, netif := netif } else s
      lwipAssert "arp_table[i].state == PENDING or STABLE"
        ((s.table i).state = .pending ∨ (s.table i).state.num ≥ EtharpState.stable.num)
      match q with
      | none => etharpRequest env netif ipaddr (env.alloc 0) s
      | some q =>
        if isNewEntry then
          let result ← etharpRequest env netif ipaddr (env.alloc 0) s
          etharpQueryPacket env netif i q result.2
        else etharpQueryPacket env netif i q s

/-- The request of `etharp_output_to_arp_index` for an entry that is about to expire; `ERR_MEM` if
there is none. -/
def etharpRerequest (env : EtharpEnv) (netif : Nat) (entry : EtharpEntry) (s : EtharpCache) :
    Asserting (Err × EtharpCache) :=
  if entry.state = .stable ∧ entry.ctime ≥ arpAgeRerequestUsedBroadcast then
    etharpRequest env netif entry.ipaddr (env.alloc 0) s
  else if entry.state = .stable ∧ entry.ctime ≥ arpAgeRerequestUsedUnicast then
    etharpRequestDst env netif entry.ipaddr entry.ethaddr (env.alloc 0) s
  else .ok (.mem, s)

def etharpOutputToArpIndex (env : EtharpEnv) (netif : Nat) (q : Chain) (i : Fin arpTableSize)
    (s : EtharpCache) : Asserting (Err × EtharpCache) := do
  let entry := s.table i
  lwipAssert "arp_table[arp_idx].state >= ETHARP_STATE_STABLE"
    (entry.state.num ≥ EtharpState.stable.num)
  let result ← etharpRerequest env netif entry s
  let s :=
    if result.1 = .ok then result.2.put i { entry with state := .stableRerequesting1 }
    else result.2
  ethernetOutput env netif q (env.netifs netif).hwaddr entry.ethaddr s

/-- The Ethernet address of a multicast address. -/
def ethMulticast (ipaddr : UInt32) : EthAddr :=
  0x01005e000000 ||| BitVec.ofNat 48 (ipaddr.toNat &&& 0x7fffff)

/-- The end of `etharp_output`, for a unicast address: an entry that is stable is used, and
otherwise the address is queried. -/
def etharpOutputUnicast (env : EtharpEnv) (netif : Nat) (q : Chain) (dstAddr : UInt32)
    (s : EtharpCache) : Asserting (Err × EtharpCache) :=
  let usable (i : Fin arpTableSize) : Bool :=
    (s.table i).state.num ≥ EtharpState.stable.num ∧ dstAddr = (s.table i).ipaddr
  if usable s.cachedEntry then etharpOutputToArpIndex env netif q s.cachedEntry s
  else
    match (List.finRange arpTableSize).find? usable with
    | some i => etharpOutputToArpIndex env netif q i { s with cachedEntry := i }
    | none => etharpQuery env netif dstAddr (some q) s

def etharpOutput (env : EtharpEnv) (netif : Nat) (q : Chain) (ipaddr : UInt32) (s : EtharpCache) :
    Asserting (Err × EtharpCache) :=
  let n := env.netifs netif
  if ip4AddrIsbroadcast ipaddr n then ethernetOutput env netif q n.hwaddr ethbroadcast s
  else if ip4AddrIsmulticast ipaddr then
    ethernetOutput env netif q n.hwaddr (ethMulticast ipaddr) s
  else if !ip4AddrNetcmp ipaddr n.ipAddr n.netmask ∧ !ip4AddrIslinklocal ipaddr then
    if !ip4AddrIsany n.gw then etharpOutputUnicast env netif q n.gw s else .ok (.rte, s)
  else etharpOutputUnicast env netif q ipaddr s

/-! ## Events -/

/-- A call of the ARP cache. -/
inductive EtharpEvent where
  | query (netif : Nat) (ipaddr : UInt32) (q : Option Chain)
  | output (netif : Nat) (q : Chain) (ipaddr : UInt32)
  | input (netif : Nat) (hdr : EtharpHdr)
  | addStatic (route : Option Nat) (ipaddr : UInt32) (ethaddr : EthAddr)
  | removeStatic (ipaddr : UInt32)
  | cleanup (netif : Nat)
  | tmr

/-- The ARP cache after a call. -/
def etharpEvent (env : EtharpEnv) (s : EtharpCache) : EtharpEvent → Asserting EtharpCache
  | .query netif ipaddr q => (etharpQuery env netif ipaddr q s).map Prod.snd
  | .output netif q ipaddr => (etharpOutput env netif q ipaddr s).map Prod.snd
  | .input netif hdr => etharpInput env netif hdr s
  | .addStatic route ipaddr ethaddr =>
    (etharpAddStaticEntry env route ipaddr ethaddr s).map Prod.snd
  | .removeStatic ipaddr => (etharpRemoveStaticEntry env ipaddr s).map Prod.snd
  | .cleanup netif => .ok (etharpCleanupNetif env netif s)
  | .tmr => etharpTmr env s

/-- One call of the ARP cache, in some environment. -/
def EtharpStep (s : EtharpCache) (call : EtharpEnv × EtharpEvent) (s' : EtharpCache) : Prop :=
  etharpEvent call.1 s call.2 = .ok s'

end Lwip.Arp
