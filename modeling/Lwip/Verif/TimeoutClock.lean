import Lwip.Base.Transition
import Lwip.Verif.Timeouts

/-!
# Timeouts over time

No handler is called before it is due, in every run whose calls meet `OnTime`. The list is
read from the real time `reference` whose lower 32 bits `timeouts_last_time` holds: every
pending timeout is due no later than its expiry, and a running `sys_check_timeouts` reaches no
further than the present. The second part fails where `sys_timeout` finds the list empty inside
a late check and moves `timeouts_last_time` under the difference that the check still holds.
-/

namespace Lwip.Timeouts

open Transition List

variable {H A : Type}
variable {due : Nat → Nat} {base clock reference ptr : Nat} {list rest : List (SysTimeo H A)}
  {s : State H A} {diff : Option UInt32} {msecs : UInt32} {handler : H} {arg : A}
  {first : SysTimeo H A}

/-- Every timeout of a list that is read from `base` is due no later than it expires. -/
def DueBy (due : Nat → Nat) : Nat → List (SysTimeo H A) → Prop
  | _, [] => True
  | base, t :: rest => due t.ptr ≤ base + t.time.toNat ∧ DueBy due (base + t.time.toNat) rest

/-! ## Reading the list in real time -/

/-- The second part of a list is read from where the first part ends. -/
theorem dueBy_append {left right : List (SysTimeo H A)} :
    DueBy due base (left ++ right) ↔ DueBy due base left ∧ DueBy due (base + span left) right := by
  induction left generalizing base with
  | nil => simp [DueBy, span]
  | cons t rest ih => simp only [cons_append, DueBy, ih, span_cons, and_assoc, Nat.add_assoc]

/-- Later expiries are no earlier than the due times either. -/
theorem DueBy.later {base' : Nat} (given : DueBy due base list) (order : base ≤ base') :
    DueBy due base' list := by
  induction list generalizing base base' with
  | nil => trivial
  | cons t rest ih =>
    exact ⟨by have := given.1; omega, ih given.2 (by omega)⟩

theorem DueBy.congr {due' : Nat → Nat} (given : DueBy due base list)
    (same : ∀ t ∈ list, due' t.ptr = due t.ptr) : DueBy due' base list := by
  induction list generalizing base with
  | nil => trivial
  | cons t rest ih =>
    refine ⟨?_, ih given.2 fun u member => same u (mem_cons_of_mem t member)⟩
    rw [same t mem_cons_self]
    exact given.1

/-- Milliseconds that `timeouts_last_time` lags behind a time, modulo the word. -/
def lag (now : UInt32) (s : State H A) : Nat := (now - s.timeoutsLastTime).toNat

/-- The lag tells the latest time that `timeouts_last_time` can stand for. -/
theorem lag_reference (past : reference ≤ clock)
    (stands : s.timeoutsLastTime = UInt32.ofNat reference) :
    lag (UInt32.ofNat clock) s = (clock - reference) % 2 ^ 32 := by
  rw [lag, stands, UInt32.toNat_sub, UInt32.toNat_ofNat', UInt32.toNat_ofNat']
  omega

/-- The latest time that `timeouts_last_time` can stand for. -/
theorem reference_of_lag (s : State H A) (past : lag (UInt32.ofNat clock) s ≤ clock) :
    s.timeoutsLastTime = UInt32.ofNat (clock - lag (UInt32.ofNat clock) s) := by
  have bound := s.timeoutsLastTime.toNat_lt
  apply UInt32.toNat.inj
  rw [UInt32.toNat_ofNat']
  unfold lag at past ⊢
  rw [UInt32.toNat_sub, UInt32.toNat_ofNat'] at past ⊢
  omega

/-! ## What the calls are to meet -/

/-- `sys_timeout` stores no time that is too short: the 32-bit sums do not wrap around, and the
lag is not above the pending times, unless by at most the first one, which the code adds. -/
def SysTimeoutOnTime (now msecs : UInt32) (s : State H A) : Prop :=
  match s.nextTimeout with
  | [] => True
  | first :: rest =>
    if msecs < first.time then msecs.toNat + lag now s < 2 ^ 32
    else msecs.toNat + lag now s < first.time.toNat + 2 ^ 32 ∧
      (lag now s ≤ span (first :: rest) ∨
        lag now s ≤ span (first :: rest) + first.time.toNat ∧
          msecs.toNat + first.time.toNat < 2 ^ 32)

/-- A handler's `sys_timeout` is not caught by the check that called the handler: what is left
of the difference does not reach beyond the present, or it reaches neither the first pending
timeout nor the new one. -/
def NotCaught (diff now msecs : UInt32) (s : State H A) : Prop :=
  match s.nextTimeout with
  | [] => diff = 0 ∨ diff < msecs
  | first :: _ => diff.toNat ≤ lag now s ∨
      diff < first.time ∧ diff.toNat < msecs.toNat + lag now s

/-- `sys_untimeout` can give the time of the removed timeout to its successor. -/
def SysUntimeoutFits (handler : H) (arg : A) (s : State H A) : Prop :=
  ∀ left t next right, s.nextTimeout = left ++ t :: next :: right →
    (∀ u ∈ left, ¬(u.h = handler ∧ u.arg = arg)) → t.h = handler → t.arg = arg →
    t.time.toNat + next.time.toNat < 2 ^ 32

/-- The calls after which no handler is called early. -/
def OnTime (s : Timed H A) : TimeoutEvent H A → Prop
  | .timeout (some _) msecs _ _ => SysTimeoutOnTime s.sysNow msecs s.state ∧
      ∀ diff, s.diff = some diff → NotCaught diff s.sysNow msecs s.state
  | .untimeout handler arg => SysUntimeoutFits handler arg s.state
  | _ => True

/-! ## One call -/

theorem eq_of_mem_head? {α : Type} {a b : α} {rest : List α}
    (member : b ∈ (a :: rest).head?) : b = a :=
  (Option.some.inj member).symm

/-- Pending timeouts read from a reference time, with the check that may be running. -/
structure Punctual (due : Nat → Nat) (clock : Nat) (diff : Option UInt32) (s : State H A)
    (reference : Nat) : Prop where
  /-- The reference is not in the future. -/
  past : reference ≤ clock
  /-- `timeouts_last_time` holds its lower bits. -/
  stands : s.timeoutsLastTime = UInt32.ofNat reference
  dueBy : DueBy due reference s.nextTimeout
  /-- A running check does not reach beyond the present, or does not reach the first timeout. -/
  within : ∀ d, diff = some d → reference + d.toNat ≤ clock ∨
    ∀ first ∈ s.nextTimeout.head?, d < first.time

/-- The reference can be taken as late as the present allows if the running check still does
not reach beyond the present. -/
theorem Punctual.latest (given : Punctual due clock diff s reference)
    (within : ∀ d, diff = some d → d.toNat ≤ lag (UInt32.ofNat clock) s ∨
      ∀ first ∈ s.nextTimeout.head?, d < first.time) :
    lag (UInt32.ofNat clock) s ≤ clock ∧
      Punctual due clock diff s (clock - lag (UInt32.ofNat clock) s) := by
  have behind := lag_reference given.past given.stands
  have past := given.past
  have small : lag (UInt32.ofNat clock) s ≤ clock := by omega
  refine ⟨small, Nat.sub_le _ _, reference_of_lag s small, given.dueBy.later (by omega), ?_⟩
  intro d running
  rcases within d running with inside | beyond
  · exact .inl (by omega)
  · exact .inr beyond

theorem dueBy_front {behind : Nat} {now : UInt32} (given : DueBy due base (first :: rest))
    (front : msecs < first.time) (lagging : (now - s.timeoutsLastTime).toNat = behind)
    (fits : msecs.toNat + behind < 2 ^ 32) (new : due ptr ≤ base + behind + msecs.toNat) :
    DueBy due base
      ({ ptr := ptr, time := msecs + (now - s.timeoutsLastTime), h := handler, arg := arg } ::
        { first with time := first.time - msecs } :: rest) := by
  have sum : (msecs + (now - s.timeoutsLastTime)).toNat = msecs.toNat + behind := by
    rw [UInt32.toNat_add]
    omega
  have shortened := UInt32.toNat_sub_of_le _ _ (UInt32.le_of_lt front)
  have old := given.1
  refine ⟨?_, ?_, ?_⟩
  · show due ptr ≤ base + (msecs + (now - s.timeoutsLastTime)).toNat
    omega
  · show due first.ptr ≤ base + (msecs + (now - s.timeoutsLastTime)).toNat +
      (first.time - msecs).toNat
    omega
  · apply given.2.later
    dsimp only
    omega

/-- A new element joins a list behind its first element. -/
theorem dueBy_loop {behind : Nat} {now : UInt32} (given : DueBy due base (first :: rest))
    (back : ¬msecs < first.time) (lagging : (now - s.timeoutsLastTime).toNat = behind)
    (fits : msecs.toNat + behind < first.time.toNat + 2 ^ 32)
    (enough : behind ≤ span (first :: rest) ∨ behind ≤ span (first :: rest) + first.time.toNat ∧
      msecs.toNat + first.time.toNat < 2 ^ 32)
    (new : due ptr ≤ base + behind + msecs.toNat) :
    DueBy due base (sysTimeoutLoop msecs first.time
      { ptr := ptr, time := msecs + (now - s.timeoutsLastTime), h := handler, arg := arg }
      (first :: rest)) := by
  have order := UInt32.le_iff_toNat_le.mp (UInt32.not_lt.mp back)
  have remaining : (msecs + (now - s.timeoutsLastTime) - first.time).toNat =
      msecs.toNat + behind - first.time.toNat := by
    have small := first.time.toNat_lt
    rw [UInt32.toNat_sub, UInt32.toNat_add]
    omega
  by_cases short : (msecs + (now - s.timeoutsLastTime) - first.time).toNat < span rest
  · obtain ⟨left, next, right, split, reached, between, looped⟩ :=
      sysTimeoutLoop_middle msecs first.time first rest
        { ptr := ptr, time := msecs + (now - s.timeoutsLastTime), h := handler, arg := arg } short
    dsimp only at reached between looped
    have total := total_toNat left
    have stored : (msecs + (now - s.timeoutsLastTime) - first.time -
        DeltaList.total (deltas left)).toNat =
          msecs.toNat + behind - first.time.toNat - span left := by
      rw [UInt32.toNat_sub]
      omega
    have shortened := UInt32.toNat_sub_of_le _ _
      (UInt32.le_iff_toNat_le.mpr (Nat.le_of_lt between))
    rw [split, ← cons_append, dueBy_append] at given
    rw [looped, dueBy_append]
    have next' := given.2.1
    refine ⟨given.1, ?_, ?_, ?_⟩
    · rw [stored, span_cons]
      dsimp only
      omega
    · rw [stored, shortened, stored]
      dsimp only
      omega
    · apply given.2.2.later
      rw [shortened, stored]
      omega
  · have long := Nat.le_of_not_lt short
    have looped := sysTimeoutLoop_last msecs first.time first rest
      { ptr := ptr, time := msecs + (now - s.timeoutsLastTime), h := handler, arg := arg } long
    rw [looped, dueBy_append]
    refine ⟨given, ?_, trivial⟩
    have total := total_toNat rest
    have left : (msecs + (now - s.timeoutsLastTime) - first.time -
        DeltaList.total (deltas rest)).toNat =
          msecs.toNat + behind - span (first :: rest) := by
      rw [UInt32.toNat_sub, span_cons]
      omega
    rw [span_cons] at enough
    dsimp only
    split
    · -- the lag is above the pending times: the first stored time is added instead of it
      rename_i above
      rw [gt_iff_lt, UInt32.lt_iff_toNat_lt, left, span_cons] at above
      have sum : (msecs + first.time).toNat = msecs.toNat + first.time.toNat := by
        rw [UInt32.toNat_add]
        omega
      rw [span_cons]
      omega
    · rw [left, span_cons]
      omega

/-- `sys_timeout` on a list with pending timeouts keeps them punctual, and the new one is. -/
theorem sysTimeout_punctual (pending : s.nextTimeout = first :: rest)
    (small : lag (UInt32.ofNat clock) s ≤ clock)
    (given : Punctual due clock diff s (clock - lag (UInt32.ofNat clock) s))
    (new : due ptr ≤ clock + msecs.toNat) (onTime : SysTimeoutOnTime (UInt32.ofNat clock) msecs s)
    (notCaught : ∀ d, diff = some d → NotCaught d (UInt32.ofNat clock) msecs s) :
    Punctual due clock diff (sysTimeout (some ptr) (UInt32.ofNat clock) msecs handler arg s)
      (clock - lag (UInt32.ofNat clock) s) := by
  have listed := given.dueBy
  simp only [SysTimeoutOnTime, pending] at onTime
  rw [pending] at listed
  by_cases front : msecs < first.time
  · have result : sysTimeout (some ptr) (UInt32.ofNat clock) msecs handler arg s =
        { s with nextTimeout :=
          { ptr := ptr, time := msecs + (UInt32.ofNat clock - s.timeoutsLastTime), h := handler
            arg := arg } :: { first with time := first.time - msecs } :: rest } := by
      simp [sysTimeout, pending, front]
    rw [if_pos front] at onTime
    rw [result]
    refine ⟨given.past, given.stands, ?_, ?_⟩
    · exact dueBy_front listed front rfl onTime (by rw [← lag]; omega)
    intro d running
    have free := notCaught d running
    simp only [NotCaught, pending] at free
    rcases free with inside | ⟨_, short⟩
    · exact .inl (by omega)
    · right
      intro head member
      rw [eq_of_mem_head? member, UInt32.lt_iff_toNat_lt, UInt32.toNat_add]
      unfold lag at short onTime
      omega
  · rw [if_neg front] at onTime
    rw [sysTimeout_loop pending front]
    refine ⟨given.past, given.stands, ?_, ?_⟩
    · exact dueBy_loop listed front rfl onTime.1 onTime.2 (by rw [← lag]; omega)
    intro d running
    have free := notCaught d running
    simp only [NotCaught, pending] at free
    rcases free with inside | ⟨before, _⟩
    · exact .inl (by omega)
    right
    intro head member
    have same : head = first := by
      cases rest with
      | nil => simpa [sysTimeoutLoop, eq_comm] using member
      | cons next more =>
        simp only [sysTimeoutLoop] at member
        split at member <;> exact eq_of_mem_head? member
    rw [same]
    exact before

/-- The removal loop takes no time away from a timeout if the time it gives to the successor
fits one word. -/
theorem sysUntimeoutLoop_dueBy [DecidableEq H] [DecidableEq A] (given : DueBy due base list)
    (fits : ∀ left t next right, list = left ++ t :: next :: right →
      (∀ u ∈ left, ¬(u.h = handler ∧ u.arg = arg)) → t.h = handler → t.arg = arg →
      t.time.toNat + next.time.toNat < 2 ^ 32) :
    DueBy due base (sysUntimeoutLoop handler arg list) := by
  induction list generalizing base with
  | nil => trivial
  | cons t rest ih =>
    unfold sysUntimeoutLoop
    split
    · rename_i here
      cases rest with
      | nil => trivial
      | cons next more =>
        have room := fits [] t next more rfl (by simp) here.1 here.2
        have sum : (next.time + t.time).toNat = next.time.toNat + t.time.toNat := by
          rw [UInt32.toNat_add]
          omega
        have old := given.2.1
        refine ⟨?_, ?_⟩
        · show due next.ptr ≤ base + (next.time + t.time).toNat
          omega
        · apply given.2.2.later
          dsimp only
          omega
    · rename_i here
      refine ⟨given.1, ih given.2 ?_⟩
      intro left u next right split before
      apply fits (t :: left) u next right (by rw [split, cons_append])
      intro v member
      rcases mem_cons.mp member with same | deeper
      · rw [same]
        exact here
      · exact before v deeper

/-- Behind a removal the first timeout is no earlier than it was. -/
theorem sysUntimeoutLoop_head [DecidableEq H] [DecidableEq A] {d : UInt32}
    (fits : ∀ left t next right, list = left ++ t :: next :: right →
      (∀ u ∈ left, ¬(u.h = handler ∧ u.arg = arg)) → t.h = handler → t.arg = arg →
      t.time.toNat + next.time.toNat < 2 ^ 32)
    (before : ∀ first ∈ list.head?, d < first.time) :
    ∀ first ∈ (sysUntimeoutLoop handler arg list).head?, d < first.time := by
  intro first member
  cases list with
  | nil => simp [sysUntimeoutLoop] at member
  | cons t rest =>
    have old := before t rfl
    unfold sysUntimeoutLoop at member
    split at member
    · rename_i here
      cases rest with
      | nil => simp at member
      | cons next more =>
        have room := fits [] t next more rfl (by simp) here.1 here.2
        rw [eq_of_mem_head? member, UInt32.lt_iff_toNat_lt, UInt32.toNat_add]
        rw [UInt32.lt_iff_toNat_lt] at old
        omega
    · rw [eq_of_mem_head? member]
      exact old

/-- `sys_untimeout` keeps the timeouts punctual if the time it gives to the successor fits. -/
theorem sysUntimeout_punctual [DecidableEq H] [DecidableEq A]
    (given : Punctual due clock diff s reference) (fits : SysUntimeoutFits handler arg s) :
    Punctual due clock diff (sysUntimeout handler arg s) reference := by
  refine ⟨given.past, given.stands, sysUntimeoutLoop_dueBy given.dueBy fits, ?_⟩
  intro d running
  rcases given.within d running with inside | before
  · exact .inl inside
  · exact .inr (sysUntimeoutLoop_head fits before)

/-- A pass that finds an expired timeout finds one that is due, and leaves the others
punctual. -/
theorem sysCheckTimeoutsPass_punctual {d d' : UInt32} {s' : State H A} {t : SysTimeo H A}
    (given : Punctual due clock (some d) s reference)
    (expired : sysCheckTimeoutsPass d s = some (t, d', s')) :
    due t.ptr ≤ clock ∧ Punctual due clock (some d') s' (reference + t.time.toNat) := by
  unfold sysCheckTimeoutsPass at expired
  split at expired
  · contradiction
  rename_i first next pending
  split at expired
  · rename_i early
    simp only [Option.some.injEq, Prod.mk.injEq] at expired
    obtain ⟨rfl, rfl, rfl⟩ := expired
    have order := UInt32.le_iff_toNat_le.mp early
    have listed := given.dueBy
    rw [pending] at listed
    have inside : reference + d.toNat ≤ clock := by
      rcases given.within d rfl with inside | before
      · exact inside
      · have beyond := before first (by rw [pending]; rfl)
        exact absurd (UInt32.lt_of_lt_of_le beyond early) (UInt32.lt_irrefl d)
    have left := UInt32.toNat_sub_of_le _ _ early
    refine ⟨by have := listed.1; omega, by omega, ?_, listed.2, ?_⟩
    · dsimp only
      rw [given.stands, UInt32.ofNat_add, UInt32.ofNat_toNat]
    · intro d' running
      simp only [Option.some.injEq] at running
      rw [← running]
      exact .inl (by omega)
  · contradiction

/-! ## Runs -/

/-- No pending timeout expires early, and no handler was called early. -/
structure NoneEarly (s : Timed H A) : Prop where
  /-- Pending timeouts can be read from some reference time. -/
  punctual : s.state.nextTimeout ≠ [] → ∃ reference, Punctual s.due s.clock s.diff s.state reference
  fired : ∀ call ∈ s.fired, call.1 ≤ call.2

/-- A `sys_timeout` that meets its condition lets no timeout expire early. -/
theorem timeout_noneEarly {s : Timed H A} (given : NoneEarly s)
    (fresh : ∀ t ∈ s.state.nextTimeout, t.ptr ≠ ptr)
    (onTime : SysTimeoutOnTime s.sysNow msecs s.state)
    (notCaught : ∀ diff, s.diff = some diff → NotCaught diff s.sysNow msecs s.state) :
    NoneEarly { s with
      state := sysTimeout (some ptr) s.sysNow msecs handler arg s.state
      due := fun element => if element = ptr then s.clock + msecs.toNat else s.due element } := by
  refine ⟨fun _ => ?_, given.fired⟩
  dsimp only [Timed.sysNow]
  cases pending : s.state.nextTimeout with
  | nil =>
    have result : sysTimeout (some ptr) (UInt32.ofNat s.clock) msecs handler arg s.state =
        { nextTimeout := [{ ptr := ptr, time := msecs + 0, h := handler, arg := arg }]
          timeoutsLastTime := UInt32.ofNat s.clock } := by
      simp [sysTimeout, pending]
    rw [result]
    refine ⟨s.clock, Nat.le_refl _, rfl, ?_, ?_⟩
    · simp [DueBy]
    intro d running
    have free := notCaught d running
    simp only [NotCaught, pending] at free
    rcases free with zero | short
    · exact .inl (by simp [zero])
    · right
      intro head member
      rw [eq_of_mem_head? member]
      simpa using short
  | cons first rest =>
    obtain ⟨reference, old⟩ := given.punctual (by rw [pending]; exact cons_ne_nil _ _)
    have renamed : Punctual (fun element => if element = ptr then s.clock + msecs.toNat
        else s.due element) s.clock s.diff s.state reference :=
      { old with dueBy := old.dueBy.congr fun t listed => if_neg (fresh t listed) }
    have reaches : ∀ d, s.diff = some d → d.toNat ≤ lag (UInt32.ofNat s.clock) s.state ∨
        ∀ first ∈ s.state.nextTimeout.head?, d < first.time := by
      intro d running
      have free := notCaught d running
      simp only [NotCaught, pending] at free
      rcases free with inside | ⟨before, _⟩
      · exact .inl inside
      · right
        intro head member
        rw [pending] at member
        rw [eq_of_mem_head? member]
        exact before
    obtain ⟨small, latest⟩ := renamed.latest reaches
    exact ⟨_, sysTimeout_punctual pending small latest (by simp) onTime notCaught⟩

/-- Every event that meets its condition lets no timeout expire early. -/
theorem timeoutStep_noneEarly [DecidableEq H] [DecidableEq A] {s s' : Timed H A}
    {event : TimeoutEvent H A} (given : NoneEarly s) (meets : OnTime s event)
    (step : TimeoutStep s event s') : NoneEarly s' := by
  unfold TimeoutStep at step
  cases event with
  | elapse msecs =>
    cases step
    refine ⟨fun pending => ?_, given.fired⟩
    obtain ⟨reference, old⟩ := given.punctual pending
    refine ⟨reference, Nat.le_add_right_of_le old.past, old.stands, old.dueBy, ?_⟩
    intro d running
    rcases old.within d running with inside | before
    · exact .inl (Nat.le_add_right_of_le inside)
    · exact .inr before
  | timeout element msecs handler arg =>
    cases element with
    | none =>
      cases step
      exact given
    | some ptr =>
      simp only [timeoutEvent] at step
      split at step
      · contradiction
      · rename_i free
        cases step
        apply timeout_noneEarly given ?_ meets.1 meets.2
        simpa using free
  | untimeout handler arg =>
    cases step
    refine ⟨fun _ => ?_, given.fired⟩
    by_cases pending : s.state.nextTimeout = []
    · rename_i left
      simp [sysUntimeout, pending, sysUntimeoutLoop] at left
    · obtain ⟨reference, old⟩ := given.punctual pending
      exact ⟨reference, sysUntimeout_punctual old meets⟩
  | check =>
    simp only [timeoutEvent] at step
    split at step
    · contradiction
    rename_i idle
    cases step
    split
    · exact given
    refine ⟨fun pending => ?_, given.fired⟩
    obtain ⟨reference, old⟩ := given.punctual pending
    have behind := lag_reference old.past old.stands
    refine ⟨reference, old.past, old.stands, old.dueBy, ?_⟩
    intro d running
    simp only [Option.some.injEq] at running
    left
    have past := old.past
    unfold lag at behind
    rw [← running, Timed.sysNow]
    dsimp only
    omega
  | expire =>
    simp only [timeoutEvent] at step
    split at step
    · contradiction
    rename_i d running
    split at step
    · contradiction
    rename_i t d' state' expired
    cases step
    have pending : s.state.nextTimeout ≠ [] := by
      intro empty
      simp [sysCheckTimeoutsPass, empty] at expired
    obtain ⟨reference, old⟩ := given.punctual pending
    rw [running] at old
    obtain ⟨due, left⟩ := sysCheckTimeoutsPass_punctual old expired
    refine ⟨fun _ => ⟨_, left⟩, ?_⟩
    intro call member
    rcases mem_append.mp member with earlier | last
    · exact given.fired call earlier
    · rw [mem_singleton.mp last]
      exact due
  | leave =>
    simp only [timeoutEvent] at step
    split at step
    · contradiction
    · split at step
      · cases step
        refine ⟨fun pending => ?_, given.fired⟩
        obtain ⟨reference, old⟩ := given.punctual pending
        exact ⟨reference, old.past, old.stands, old.dueBy, by simp⟩
      · contradiction

/-- The timeouts at the start of the program. -/
def timeoutsStart : Timed H A :=
  { state := { nextTimeout := [], timeoutsLastTime := 0 }, clock := 0, diff := none
    due := fun _ => 0, fired := [] }

/-- In every run whose calls meet `OnTime`, every handler is called no earlier than its
`sys_timeout` call plus its `msecs`. -/
theorem timeouts_never_early [DecidableEq H] [DecidableEq A] {s : Timed H A}
    (run : Run TimeoutStep OnTime timeoutsStart s) : ∀ call ∈ s.fired, call.1 ≤ call.2 := by
  have initial : NoneEarly (timeoutsStart : Timed H A) :=
    ⟨fun pending => absurd rfl pending, by simp [timeoutsStart]⟩
  exact (run.invariant initial fun _ _ _ => timeoutStep_noneEarly).fired

/-- A timeout of one second that its handler registers again, as `cyclic_timer` does, is called
ten milliseconds late and not early if the check is ten milliseconds late. -/
theorem timeouts_never_early_cyclic : ∃ s : Timed Nat Nat,
    Run TimeoutStep OnTime timeoutsStart s ∧ s.fired = [(1000, 1010)] ∧
      ∀ call ∈ s.fired, call.1 ≤ call.2 := by
  have registered : Run TimeoutStep OnTime (timeoutsStart : Timed Nat Nat) _ :=
    Run.refl.tail (.timeout (some 0) 1000 7 0)
      (by simp [OnTime, SysTimeoutOnTime, timeoutsStart]) rfl
  have checking := (registered.tail (.elapse 1010) trivial rfl).tail .check trivial rfl
  have called := checking.tail .expire trivial rfl
  have again := called.tail (.timeout (some 0) 1000 7 0)
    (by refine ⟨trivial, ?_⟩
        rintro _ ⟨⟩
        exact .inr (by decide)) rfl
  exact ⟨_, again, rfl, timeouts_never_early again⟩

/-- The same timeout, checked two seconds late: the list is empty when the handler registers it
again at 3000 ms, and the difference that is left calls it at once, although it is due at
4000 ms. -/
theorem sysCheckTimeouts_calls_early : ∃ s : Timed Nat Nat,
    Run TimeoutStep (fun _ _ => True) timeoutsStart s ∧ ∃ call ∈ s.fired, call.2 < call.1 := by
  have registered : Run TimeoutStep (fun _ _ => True) (timeoutsStart : Timed Nat Nat) _ :=
    Run.refl.tail (.timeout (some 0) 1000 7 0) trivial rfl
  have late := registered.tail (.elapse 3000) trivial rfl
  have checking := late.tail .check trivial rfl
  have called := checking.tail .expire trivial rfl
  have again := called.tail (.timeout (some 0) 1000 7 0) trivial rfl
  have early := again.tail .expire trivial rfl
  exact ⟨_, early, (4000, 3000), by decide, by decide⟩

end Lwip.Timeouts
