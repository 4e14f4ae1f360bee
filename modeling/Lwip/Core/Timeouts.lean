import Mathlib.Data.UInt

/-!
# One-shot timeouts

The list behind `next_timeout` in `core/timeouts.c`. Each element stores its time relative to
the element before it, the first one relative to `timeouts_last_time`. Times are 32-bit
milliseconds and wrap around with `sys_now()`. The pool element that holds a timeout is kept
as its identity, since the source tells timeouts apart by pointer.
-/

namespace Lwip.Timeouts

/-- `struct sys_timeo`: the list link is the position in the list. -/
structure SysTimeo (H A : Type) where
  /-- Address of the `MEMP_SYS_TIMEOUT` element. -/
  ptr : Nat
  /-- Milliseconds after the element before this one. -/
  time : UInt32
  h : H
  arg : A

/-- The module's two static variables. -/
structure State (H A : Type) where
  /-- `next_timeout` and everything linked behind it. -/
  nextTimeout : List (SysTimeo H A)
  timeoutsLastTime : UInt32

variable {H A : Type}

/-- The `for` loop of `sys_timeout` over `next_timeout`, entered with the new element not yet
linked. `firstTime` is `next_timeout->time`, which the loop does not change. -/
def sysTimeoutLoop (msecs firstTime : UInt32) (timeout : SysTimeo H A) :
    List (SysTimeo H A) → List (SysTimeo H A)
  | [] => []
  | t :: rest =>
    let timeout := { timeout with time := timeout.time - t.time }
    match rest with
    | [] =>
      -- last element: a remaining time above `msecs` is replaced instead of kept
      let timeout :=
        if timeout.time > msecs then { timeout with time := msecs + firstTime } else timeout
      [t, timeout]
    | next :: more =>
      if next.time > timeout.time then
        t :: timeout :: { next with time := next.time - timeout.time } :: more
      else
        t :: sysTimeoutLoop msecs firstTime timeout (next :: more)

/-- `sys_timeout`, with the result of `memp_malloc` and of `sys_now` as arguments. A failing
allocation leaves everything as it was. -/
def sysTimeout (element : Option Nat) (now msecs : UInt32) (handler : H) (arg : A)
    (s : State H A) : State H A :=
  match element with
  | none => s
  | some ptr =>
    match s.nextTimeout with
    | [] =>
      { nextTimeout := [{ ptr, time := msecs + 0, h := handler, arg }], timeoutsLastTime := now }
    | first :: rest =>
      let diff := now - s.timeoutsLastTime
      let timeout : SysTimeo H A := { ptr, time := msecs + diff, h := handler, arg }
      if first.time > msecs then
        { s with nextTimeout := timeout :: { first with time := first.time - msecs } :: rest }
      else
        { s with nextTimeout := sysTimeoutLoop msecs first.time timeout (first :: rest) }

/-- The loop of `sys_untimeout`: unlink the first match and give its time to its successor. -/
def sysUntimeoutLoop [DecidableEq H] [DecidableEq A] (handler : H) (arg : A) :
    List (SysTimeo H A) → List (SysTimeo H A)
  | [] => []
  | t :: rest =>
    if t.h = handler ∧ t.arg = arg then
      match rest with
      | [] => []
      | next :: more => { next with time := next.time + t.time } :: more
    else
      t :: sysUntimeoutLoop handler arg rest

def sysUntimeout [DecidableEq H] [DecidableEq A] (handler : H) (arg : A)
    (s : State H A) : State H A :=
  { s with nextTimeout := sysUntimeoutLoop handler arg s.nextTimeout }

/-- One pass of the loop of `sys_check_timeouts`: the expired timeout, the local variable `diff`
and the static variables as its handler finds them. `none` is a pass with nothing expired, which
ends the loop. -/
def sysCheckTimeoutsPass (diff : UInt32) (s : State H A) :
    Option (SysTimeo H A × UInt32 × State H A) :=
  match s.nextTimeout with
  | [] => none
  | tmptimeout :: next =>
    if tmptimeout.time ≤ diff then
      some (tmptimeout, diff - tmptimeout.time,
        { nextTimeout := next, timeoutsLastTime := s.timeoutsLastTime + tmptimeout.time })
    else none

/-! ## Calls over time -/

/-- The static variables in the course of time. -/
structure Timed (H A : Type) where
  state : State H A
  /-- Milliseconds since the start, of which `sys_now()` returns the lower 32 bits. -/
  clock : Nat
  /-- The local variable `diff` of the `sys_check_timeouts` that is running. -/
  diff : Option UInt32
  /-- For each pool element the time of its `sys_timeout` call plus `msecs`. The source does not
  record it. -/
  due : Nat → Nat
  /-- When each expired timeout was due, and when its handler was called. The source does not
  record it. -/
  fired : List (Nat × Nat)

/-- `sys_now()`. -/
def Timed.sysNow (s : Timed H A) : UInt32 := UInt32.ofNat s.clock

/-- What happens to the timeouts. What a handler does is the events between an `expire` and the
next `expire` or `leave`. -/
inductive TimeoutEvent (H A : Type) where
  | elapse (msecs : Nat)
  /-- `sys_timeout`, with the result of `memp_malloc`. -/
  | timeout (element : Option Nat) (msecs : UInt32) (handler : H) (arg : A)
  | untimeout (handler : H) (arg : A)
  | check
  /-- Its loop finds an expired timeout and calls the handler. -/
  | expire
  /-- Its loop finds no expired timeout and it returns. -/
  | leave

/-- The timeouts after an event; `none` if it cannot happen. The pool gives out elements that
are not in use. -/
def timeoutEvent [DecidableEq H] [DecidableEq A] (s : Timed H A) :
    TimeoutEvent H A → Option (Timed H A)
  | .elapse msecs => some { s with clock := s.clock + msecs }
  | .timeout none msecs handler arg =>
    some { s with state := sysTimeout none s.sysNow msecs handler arg s.state }
  | .timeout (some ptr) msecs handler arg =>
    if s.state.nextTimeout.any fun t => t.ptr = ptr then none
    else some { s with
      state := sysTimeout (some ptr) s.sysNow msecs handler arg s.state
      due := fun element => if element = ptr then s.clock + msecs.toNat else s.due element }
  | .untimeout handler arg => some { s with state := sysUntimeout handler arg s.state }
  | .check =>
    match s.diff with
    | some _ => none
    | none =>
      some (if s.state.nextTimeout.isEmpty then s
        else { s with diff := some (s.sysNow - s.state.timeoutsLastTime) })
  | .expire =>
    match s.diff with
    | none => none
    | some diff =>
      match sysCheckTimeoutsPass diff s.state with
      | none => none
      | some (timeout, diff', state') =>
        some { s with
          state := state', diff := some diff'
          fired := s.fired ++ [(s.due timeout.ptr, s.clock)] }
  | .leave =>
    match s.diff with
    | none => none
    | some diff =>
      match sysCheckTimeoutsPass diff s.state with
      | none => some { s with diff := none }
      | some _ => none

/-- One event. -/
def TimeoutStep [DecidableEq H] [DecidableEq A] (s : Timed H A) (event : TimeoutEvent H A)
    (s' : Timed H A) : Prop :=
  timeoutEvent s event = some s'

end Lwip.Timeouts
