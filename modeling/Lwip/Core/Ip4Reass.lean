import Lwip.Base.Logged
import Lwip.Core.Ip4Frag

/-!
# IPv4 reassembly

`ip4_reass` and `ip_reass_tmr` with the configuration of the port: `IP_REASS_CHECK_OVERLAP` and
`IP_REASS_FREE_OLDEST` are on. A `struct ip_reass_helper` lies over the header of its fragment
and links it to the next one; here it is kept beside the chain of the fragment, and the linked
fragments are a list. A pointer to an element of `reassdatagrams` is the list split at that
element. The message of `icmp_time_exceeded` has no effect on the queue and is left out. The
functions that free fragments log the chains that they hand to `pbuf_free`.
-/

namespace Lwip

def ipReassMaxPbufs : Nat := 10

def ipReassMaxage : Nat := 3

def mempNumReassdata : Nat := 10

/-- A queued fragment with its `struct ip_reass_helper`. -/
structure IpReassHelper where
  p : Chain
  start : Nat
  /-- `end`. -/
  stop : Nat
  deriving DecidableEq, Repr

/-- `struct ip_reassdata`. -/
structure IpReassdata where
  p : List IpReassHelper
  /-- Header for matching, of the first fragment if that was received. -/
  iphdr : List UInt8
  datagramLen : Nat
  /-- `IP_REASS_FLAG_LASTFRAG` of `flags`. -/
  lastfrag : Bool
  timer : Nat
  deriving DecidableEq, Repr

/-- The static variables of the reassembly. -/
structure IpReass where
  reassdatagrams : List IpReassdata
  /-- `ip_reass_pbufcount`. -/
  pbufcount : Nat
  deriving DecidableEq, Repr

/-- A pointer to an element of `reassdatagrams`: what is before it, the element, and what is
behind it. -/
structure ReassdataPtr where
  before : List IpReassdata
  ipr : IpReassdata
  behind : List IpReassdata
  deriving DecidableEq, Repr

def ipAddressesAndIdMatch (iphdrA iphdrB : List UInt8) : Bool :=
  iphSrc iphdrA = iphSrc iphdrB && iphDest iphdrA = iphDest iphdrB && iphId iphdrA = iphId iphdrB

/-- The header at the payload pointer of a fragment. -/
def fraghdrOf : Chain → List UInt8
  | [] => []
  | q :: _ => iphdrOf q

/-- `offset` of a fragment, in bytes. -/
def fragOffset (fraghdr : List UInt8) : Nat := u16 ((iphOffset fraghdr &&& ipOffmask) * 8)

/-- `len` of a fragment: the length without the header. -/
def fragLen (fraghdr : List UInt8) : Nat := toU16 ((iphLen fraghdr : Int) - iphHl fraghdr * 4)

/-- A function with assertions, with the chains that it hands to `pbuf_free`. -/
abbrev Freeing := Logged String Chain

/-- `pbuf_free` of a fragment. -/
def Freeing.pbufFree (p : Chain) : Freeing Unit := do
  let _ ← Logged.lift (Lwip.pbufFree p)
  Logged.tell [p]

/-- Freeing of the queued fragments; the result is `pbufs_freed`. -/
def ipReassFreePbufs (pbufsFreed : Nat) : List IpReassHelper → Freeing Nat
  | [] => pure pbufsFreed
  | pcur :: next => do
    let clen := pbufClen pcur.p
    Logged.lift (lwipAssert "pbufs_freed + clen <= 0xffff" (pbufsFreed + clen ≤ 0xffff))
    Freeing.pbufFree pcur.p
    ipReassFreePbufs (pbufsFreed + clen) next

/-- `ip_reass_free_complete_datagram`, with `ip_reass_dequeue_datagram`. -/
def ipReassFreeCompleteDatagram (ptr : ReassdataPtr) (pbufcount : Nat) :
    Freeing (Nat × IpReass) := do
  -- the helper of the first fragment is read without a check
  Logged.lift (lwipAssert "ipr->p == NULL" (ptr.ipr.p ≠ []))
  let pbufsFreed ← ipReassFreePbufs 0 ptr.ipr.p
  Logged.lift (lwipAssert "ip_reass_pbufcount >= clen" (pbufcount ≥ pbufsFreed))
  pure (pbufsFreed,
    { reassdatagrams := ptr.before ++ ptr.behind, pbufcount := pbufcount - pbufsFreed })

/-- The loop of `ip_reass_tmr`, behind the elements that were already visited. -/
def ipReassTmrLoop (before : List IpReassdata) (pbufcount : Nat) :
    List IpReassdata → Freeing IpReass
  | [] => pure { reassdatagrams := before, pbufcount }
  | r :: next =>
    if r.timer > 0 then
      ipReassTmrLoop (before ++ [{ r with timer := r.timer - 1 }]) pbufcount next
    else do
      let (_, s) ← ipReassFreeCompleteDatagram { before, ipr := r, behind := next } pbufcount
      ipReassTmrLoop before s.pbufcount next

def ipReassTmr (s : IpReass) : Freeing IpReass := ipReassTmrLoop [] s.pbufcount s.reassdatagrams

/-- The inner loop of `ip_reass_remove_oldest_datagram`: the oldest datagram other than the one
of `fraghdr`, and the number of those. -/
def ipReassOldest (fraghdr : List UInt8) (before : List IpReassdata)
    (oldest : Option ReassdataPtr) (otherDatagrams : Nat) :
    List IpReassdata → Option ReassdataPtr × Nat
  | [] => (oldest, otherDatagrams)
  | r :: next =>
    if !ipAddressesAndIdMatch r.iphdr fraghdr then
      let older := oldest.all fun o => r.timer ≤ o.ipr.timer
      ipReassOldest fraghdr (before ++ [r])
        (if older then some { before, ipr := r, behind := next } else oldest)
        (otherDatagrams + 1) next
    else
      ipReassOldest fraghdr (before ++ [r]) oldest otherDatagrams next

/-- Freeing of the oldest datagram, if there is one. -/
def ipReassFreeOldest (oldest : Option ReassdataPtr) (s : IpReass) : Freeing (Nat × IpReass) :=
  match oldest with
  | some ptr => ipReassFreeCompleteDatagram ptr s.pbufcount
  | none => pure (0, s)

/-- The outer loop of `ip_reass_remove_oldest_datagram`. Each further round has freed a
datagram, so the number of datagrams is enough fuel. -/
def ipReassRemoveLoop (fraghdr : List UInt8) (pbufsNeeded : Nat) :
    Nat → Nat → IpReass → Freeing (Nat × IpReass)
  | 0, _, _ => Logged.lift (.error "no end")
  | fuel + 1, pbufsFreed, s => do
    let (oldest, otherDatagrams) := ipReassOldest fraghdr [] none 0 s.reassdatagrams
    let (pbufsFreedCurrent, s) ← ipReassFreeOldest oldest s
    if pbufsFreed + pbufsFreedCurrent < pbufsNeeded ∧ otherDatagrams > 1 then
      ipReassRemoveLoop fraghdr pbufsNeeded fuel (pbufsFreed + pbufsFreedCurrent) s
    else
      pure (pbufsFreed + pbufsFreedCurrent, s)

def ipReassRemoveOldestDatagram (fraghdr : List UInt8) (pbufsNeeded : Nat) (s : IpReass) :
    Freeing (Nat × IpReass) :=
  ipReassRemoveLoop fraghdr pbufsNeeded (s.reassdatagrams.length + 1) 0 s

/-- `memp_malloc(MEMP_REASSDATA)` finds a free element of the pool. -/
def reassdataFree (s : IpReass) : Bool := s.reassdatagrams.length < mempNumReassdata

/-- The allocation in `ip_reass_enqueue_new_datagram`, tried again after old datagrams were
freed. -/
def ipReassMalloc (fraghdr : List UInt8) (clen : Nat) (s : IpReass) : Freeing (Bool × IpReass) :=
  if reassdataFree s then pure (true, s)
  else do
    let (pbufsFreed, s) ← ipReassRemoveOldestDatagram fraghdr clen s
    pure (decide (pbufsFreed ≥ clen) && reassdataFree s, s)

/-- `ip_reass_enqueue_new_datagram`; the new element is at the front of the list. -/
def ipReassEnqueueNewDatagram (fraghdr : List UInt8) (clen : Nat) (s : IpReass) :
    Freeing (Option ReassdataPtr × IpReass) := do
  let (allocated, s) ← ipReassMalloc fraghdr clen s
  let ipr : IpReassdata :=
    { p := [], iphdr := fraghdr, datagramLen := 0, lastfrag := false, timer := ipReassMaxage }
  pure (if allocated then some { before := [], ipr, behind := s.reassdatagrams } else none, s)

/-- The loop of `ip_reass_chain_frag_into_datagram_and_validate` with the append behind it: the
queue is split at the place of the new fragment, and `valid` says whether holes were seen on the
way. `none` is a jump to `freepbuf`. -/
def ipReassInsert (iprh : IpReassHelper) (iprhPrev : Option IpReassHelper) (valid : Bool) :
    List IpReassHelper → Asserting (Option (List IpReassHelper × List IpReassHelper × Bool))
  | [] => do
    lwipAssert "check fragments don't overlap" (∀ prev ∈ iprhPrev, prev.stop ≤ iprh.start)
    .ok (some ([], [], valid && iprhPrev.all (·.stop = iprh.start)))
  | iprhTmp :: next =>
    if iprh.start < iprhTmp.start then
      -- a fragment in front of all others is not compared with the one behind it
      if iprhPrev.any fun prev => iprh.start < prev.stop ∨ iprh.stop > iprhTmp.start then .ok none
      else .ok (some ([], iprhTmp :: next, valid))
    else if iprh.start = iprhTmp.start then .ok none
    else if iprh.start < iprhTmp.stop then .ok none
    else do
      let inserted ← ipReassInsert iprh (some iprhTmp)
        (valid && iprhPrev.all (·.stop = iprhTmp.start)) next
      .ok (inserted.map fun (front, back, valid) => (iprhTmp :: front, back, valid))

/-- The walk behind the new fragment: the last helper, if there are no holes. -/
def ipReassNoHoles (iprhPrev : IpReassHelper) : List IpReassHelper → Option IpReassHelper
  | [] => some iprhPrev
  | iprh :: next => if iprhPrev.stop ≠ iprh.start then none else ipReassNoHoles iprh next

/-- The validation part of `ip_reass_chain_frag_into_datagram_and_validate`. -/
def ipReassValidate (ipr : IpReassdata) (iprh : IpReassHelper) (back : List IpReassHelper)
    (valid : Bool) : Asserting Bool :=
  if ipr.lastfrag ∧ valid then
    match ipr.p with
    | [] => .ok false
    | first :: others =>
      if first.start ≠ 0 then .ok false
      else
        match ipReassNoHoles iprh back with
        | none => .ok false
        | some last => do
          lwipAssert "sanity check" (others ≠ [])
          lwipAssert "validate_datagram:datagram end!=datagram len" (last.stop = ipr.datagramLen)
          .ok true
  else
    .ok false

/-- `ip_reass_chain_frag_into_datagram_and_validate`: the return value, the datagram and
`ip_reass_pbufcount`. -/
def ipReassChainFragIntoDatagramAndValidate (ipr : IpReassdata) (newP : Chain) (pbufcount : Nat) :
    Freeing (Bool × IpReassdata × Nat) := do
  let fraghdr := fraghdrOf newP
  let offset := fragOffset fraghdr
  let iprh : IpReassHelper :=
    { p := newP, start := offset, stop := u16 (offset + fragLen fraghdr) }
  match ← Logged.lift (ipReassInsert iprh none true ipr.p) with
  | none => do
    Freeing.pbufFree newP
    pure (false, ipr, toU16 ((pbufcount : Int) - pbufClen newP))
  | some (front, back, valid) => do
    let ipr := { ipr with p := front ++ iprh :: back }
    let valid ← Logged.lift (ipReassValidate ipr iprh back valid)
    pure (valid, ipr, pbufcount)

/-- Search of `reassdatagrams` for the datagram of a fragment. -/
def ipReassFind (fraghdr : List UInt8) : List IpReassdata → Option ReassdataPtr
  | [] => none
  | ipr :: next =>
    if ipAddressesAndIdMatch ipr.iphdr fraghdr then some { before := [], ipr, behind := next }
    else (ipReassFind fraghdr next).map fun ptr => { ptr with before := ipr :: ptr.before }

/-- The limit on queued pbufs in `ip4_reass`: whether there is room for the fragment, perhaps
after the oldest datagrams were freed. -/
def ip4ReassRoom (fraghdr : List UInt8) (clen : Nat) (s : IpReass) : Freeing (Bool × IpReass) :=
  if s.pbufcount + clen > ipReassMaxPbufs then do
    let (pbufsFreed, s) ← ipReassRemoveOldestDatagram fraghdr clen s
    pure (decide (pbufsFreed ≠ 0 ∧ s.pbufcount + clen ≤ ipReassMaxPbufs), s)
  else
    pure (true, s)

/-- `ip4_reass` up to the datagram that the fragment belongs to; `none` is a jump to
`nullreturn`. -/
def ip4ReassDatagram (p : Chain) (s : IpReass) : Freeing (Option ReassdataPtr × IpReass) :=
  let fraghdr := fraghdrOf p
  let clen := pbufClen p
  if iphHl fraghdr * 4 ≠ ipHlen then pure (none, s)
  else do
    let (room, s) ← ip4ReassRoom fraghdr clen s
    if !room then pure (none, s)
    else
      match ipReassFind fraghdr s.reassdatagrams with
      | none => ipReassEnqueueNewDatagram fraghdr clen s
      | some ptr =>
        let first := iphOffset fraghdr &&& ipOffmask = 0 ∧ iphOffset ptr.ipr.iphdr &&& ipOffmask ≠ 0
        pure (some { ptr with
          ipr := { ptr.ipr with iphdr := if first then fraghdr else ptr.ipr.iphdr } }, s)

/-- The middle of `ip4_reass`: count the pbufs, note a last fragment, and queue the fragment. -/
def ip4ReassChain (p : Chain) (ipr : IpReassdata) (pbufcount : Nat) :
    Freeing (Bool × IpReassdata × Nat) :=
  let fraghdr := fraghdrOf p
  let ipr :=
    if iphOffset fraghdr &&& ipMf = 0 then
      { ipr with lastfrag := true, datagramLen := u16 (fragOffset fraghdr + fragLen fraghdr) }
    else ipr
  ipReassChainFragIntoDatagramAndValidate ipr p (u16 (pbufcount + pbufClen p))

/-- The loop of `ip4_reass` that links the fragments, without the headers of all but the
first. The result of `pbuf_header` is not looked at. -/
def ip4ReassCat (p : Chain) : List IpReassHelper → Asserting Chain
  | [] => .ok p
  | r :: next => do
    let hidden ← pbufHeader r.p (-(ipHlen : Int))
    let p ← pbufCat p (hidden.getD r.p)
    ip4ReassCat p next

/-- The header of the reassembled datagram. -/
def ip4ReassHeader (iphdr : List UInt8) (datagramLen : Nat) : List UInt8 :=
  let fraghdr := iphLenSet iphdr datagramLen
  let fraghdr := iphOffsetSet fraghdr 0
  let fraghdr := iphChksumSet fraghdr 0
  iphChksumSet fraghdr (inetChksum false fraghdr)

/-- The end of `ip4_reass` for a complete datagram: header and linked fragments. -/
def ip4ReassComplete (ipr : IpReassdata) : Asserting Chain :=
  match ipr.p with
  | [] => .error "ipr->p == NULL"
  | first :: r =>
    let datagramLen := u16 (ipr.datagramLen + ipHlen)
    ip4ReassCat (setIphdr (ip4ReassHeader ipr.iphdr datagramLen) first.p) r

def ip4Reass (p : Chain) (s : IpReass) : Freeing (Option Chain × IpReass) := do
  let (datagram, s) ← ip4ReassDatagram p s
  match datagram with
  | none => do
    Freeing.pbufFree p
    pure (none, s)
  | some ptr => do
    let (valid, ipr, pbufcount) ← ip4ReassChain p ptr.ipr s.pbufcount
    if valid then do
      let p ← Logged.lift (ip4ReassComplete ipr)
      pure (some p,
        { reassdatagrams := ptr.before ++ ptr.behind
          pbufcount := toU16 ((pbufcount : Int) - pbufClen p) })
    else
      pure (none, { reassdatagrams := ptr.before ++ ipr :: ptr.behind, pbufcount })

end Lwip
