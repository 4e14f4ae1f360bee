import Lwip.Core.Arch

/-!
# Mailboxes of the Win32 port

`sys_mbox_t` of `ports/win32/sys_arch.c`: a ring of message pointers and a semaphore that counts
them. A message is a pointer, so it can be `NULL`. Calls of any number of threads interleave;
a section between `SYS_ARCH_PROTECT` and `SYS_ARCH_UNPROTECT` is one step, and so is every wait
for the semaphore. The parameter checks on the handle are left out: the mailbox is valid.
-/

namespace Lwip

/-- `MAX_QUEUE_ENTRIES`. -/
def maxQueueEntries : Nat := 100

/-- `SYS_ARCH_TIMEOUT`. -/
def sysArchTimeout : UInt32 := 0xffffffff

/-- `sys_mbox_t`, with messages that point to values of the type `α`. -/
structure SysMbox (α : Type) where
  sem : Nat
  /-- `q_mem`: the ring. -/
  qMem : List (Option α)
  /-- Slot that is written next. -/
  head : Nat
  /-- Slot that is read next. -/
  tail : Nat

variable {α : Type}

/-- `sys_mbox_new`. -/
def sysMboxNew : SysMbox α :=
  { sem := 0, qMem := List.replicate maxQueueEntries none, head := 0, tail := 0 }

/-- `sys_mbox_post`. -/
def sysMboxPost (q : SysMbox α) (msg : Option α) : Asserting (SysMbox α) := do
  let qMem := q.qMem.set q.head msg
  let head := if q.head + 1 ≥ maxQueueEntries then 0 else q.head + 1
  lwipAssert "mbox is full!" (head ≠ q.tail)
  lwipAssert "Error releasing sem" (q.sem < maxQueueEntries)
  .ok { q with sem := q.sem + 1, qMem, head }

/-- `sys_mbox_trypost`. -/
def sysMboxTrypost (q : SysMbox α) (msg : Option α) : Asserting (SysMbox α × Err) := do
  let newHead := if q.head + 1 ≥ maxQueueEntries then 0 else q.head + 1
  if newHead = q.tail then
    .ok (q, .mem)
  else do
    let qMem := q.qMem.set q.head msg
    lwipAssert "mbox is full!" (newHead ≠ q.tail)
    lwipAssert "Error releasing sem" (q.sem < maxQueueEntries)
    .ok ({ q with sem := q.sem + 1, qMem, head := newHead }, .ok)

/-- `WaitForSingleObject` on the semaphore, where it does not block. -/
def SysMbox.waitForSem (q : SysMbox α) : Option (SysMbox α) :=
  if 0 < q.sem then some { q with sem := q.sem - 1 } else none

/-- The protected section of `sys_arch_mbox_fetch` and `sys_arch_mbox_tryfetch`. -/
def SysMbox.take (q : SysMbox α) : Option α × SysMbox α :=
  (q.qMem.getD q.tail none,
    { q with tail := if q.tail + 1 ≥ maxQueueEntries then 0 else q.tail + 1 })

/-! ## Threads -/

/-- Where a thread is in its calls. -/
inductive MboxThread where
  | outside
  /-- In `sys_arch_mbox_fetch`, waiting for the semaphore. -/
  | waiting (timeout starttime : UInt32) (wants : Bool)
  /-- Behind the wait, before the protected section. `sys_arch_mbox_tryfetch` has no start
  time. -/
  | signalled (starttime : Option UInt32) (wants : Bool)
  deriving DecidableEq, Repr

/-- A thread that has passed the semaphore and not yet taken its message. -/
def MboxThread.isSignalled : MboxThread → Bool
  | .signalled _ _ => true
  | _ => false

/-- What a thread does next. -/
inductive MboxAction (α : Type) where
  | post (msg : Option α)
  | trypost (msg : Option α)
  /-- `sys_arch_mbox_fetch` up to the wait; `wants` tells whether `msg` is not `NULL`. -/
  | fetch (timeout : UInt32) (wants : Bool) (now : UInt32)
  /-- `sys_arch_mbox_tryfetch` up to the end of the wait. -/
  | tryfetch (wants : Bool)
  /-- The wait ends with `WAIT_OBJECT_0`. -/
  | wake
  /-- The wait ends with `WAIT_TIMEOUT`. -/
  | expire
  /-- The protected section of a fetch, and the return behind it. -/
  | take (now : UInt32)

/-- How a call returns. -/
inductive MboxReturn (α : Type) where
  | posted
  | tried (err : Err)
  | fetched (result : UInt32) (msg : Option (Option α))

/-- A mailbox, the threads that use it, and what has been posted and fetched so far. -/
structure MboxSystem (α : Type) where
  mbox : SysMbox α
  threads : List MboxThread
  /-- All messages posted, in the order of the protected sections. -/
  posted : List (Option α)
  /-- All messages fetched, in the order of the protected sections. -/
  fetched : List (Option α)

/-- A new mailbox with `n` threads. -/
def mboxStart (n : Nat) : MboxSystem α :=
  { mbox := sysMboxNew, threads := List.replicate n .outside, posted := [], fetched := [] }

/-- The step of thread `i`, if it can take it: the new state and what a call returns. -/
def mboxStep (s : MboxSystem α) (i : Nat) (action : MboxAction α) :
    Option (Asserting (MboxSystem α × Option (MboxReturn α))) :=
  match s.threads[i]?, action with
  | some .outside, .post msg => some do
    let q ← sysMboxPost s.mbox msg
    .ok ({ s with mbox := q, posted := s.posted ++ [msg] }, some .posted)
  | some .outside, .trypost msg => some do
    let (q, err) ← sysMboxTrypost s.mbox msg
    .ok ({ s with mbox := q, posted := if err = .ok then s.posted ++ [msg] else s.posted },
      some (.tried err))
  | some .outside, .fetch timeout wants now =>
    some (.ok ({ s with threads := s.threads.set i (.waiting timeout now wants) }, none))
  | some .outside, .tryfetch wants =>
    match s.mbox.waitForSem with
    | some q =>
      some (.ok ({ s with mbox := q, threads := s.threads.set i (.signalled none wants) }, none))
    | none =>
      some (.ok (s, some (.fetched sysArchTimeout (if wants then some none else none))))
  | some (.waiting _ starttime wants), .wake =>
    match s.mbox.waitForSem with
    | some q => some (.ok
        ({ s with mbox := q, threads := s.threads.set i (.signalled (some starttime) wants) },
          none))
    | none => none
  | some (.waiting timeout _ wants), .expire =>
    -- a time-out of zero is replaced by `INFINITE`
    if timeout = 0 then none
    else some (.ok ({ s with threads := s.threads.set i .outside },
      some (.fetched sysArchTimeout (if wants then some none else none))))
  | some (.signalled starttime wants), .take now =>
    let (msg, q) := s.mbox.take
    some (.ok ({ s with mbox := q, threads := s.threads.set i .outside
                        fetched := s.fetched ++ [msg] },
      some (.fetched ((starttime.map fun start => now - start).getD 0)
        (if wants then some msg else none))))
  | _, _ => none

/-- A step of one of the threads that no assertion stops. -/
def mboxMoves (s : MboxSystem α) (label : Nat × MboxAction α) (s' : MboxSystem α) : Prop :=
  ∃ returned, mboxStep s label.1 label.2 = some (.ok (s', returned))

end Lwip
