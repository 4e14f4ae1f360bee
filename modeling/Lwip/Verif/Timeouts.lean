import Lwip.Base.DeltaList
import Lwip.Core.Timeouts

/-!
# Expiry times of the timeout list

The list is read as absolute expiry times: `timeouts_last_time` plus the prefix sums of the
stored times, in 32-bit time. `sys_untimeout` keeps every other expiry. `sys_timeout` keeps
them, and gives the new timeout its own expiry, exactly under `SysTimeoutExact`: the lag of
`timeouts_last_time` behind `now` is added to the new element but not taken into account by
the insertion in front of the list, and it is discarded when it exceeds all pending times.
-/

namespace Lwip.Timeouts

open List

variable {H A : Type}

/-- What tells one pending timeout from another: its pool element, with callback and argument. -/
def SysTimeo.key (t : SysTimeo H A) : Nat × H × A := (t.ptr, t.h, t.arg)

/-- Keys with stored times, the delta-encoded view of the list. -/
def deltas (list : List (SysTimeo H A)) : List ((Nat × H × A) × UInt32) :=
  list.map fun t => (t.key, t.time)

/-- Pending timeouts with their absolute expiry times, in list order. -/
def expiries (s : State H A) : List ((Nat × H × A) × UInt32) :=
  DeltaList.absolute s.timeoutsLastTime (deltas s.nextTimeout)

/-- The list stands in order of expiry, measured from `timeouts_last_time`. -/
def InOrder (s : State H A) : Prop :=
  (expiries s).Pairwise fun earlier later =>
    (earlier.2 - s.timeoutsLastTime).toNat ≤ (later.2 - s.timeoutsLastTime).toNat

/-- Sum of the stored times without wrap-around. -/
def span (list : List (SysTimeo H A)) : Nat := (list.map fun t => t.time.toNat).sum

/-- One timeout was added with its expiry; every other one has the expiry it had. -/
structure Inserted (s s' : State H A) (key : Nat × H × A) (expiry : UInt32) : Prop where
  /-- The old timeouts with their expiries, and the new one somewhere between them. -/
  kept : ∃ left right, expiries s = left ++ right ∧ expiries s' = left ++ (key, expiry) :: right
  ordered : InOrder s → InOrder s'

/-- One timeout is gone; every other one has the expiry it had. -/
def Removed (s s' : State H A) (handler : H) (arg : A) : Prop :=
  (∃ left t right, s.nextTimeout = left ++ t :: right ∧
    (∀ u ∈ left, ¬(u.h = handler ∧ u.arg = arg)) ∧ t.h = handler ∧ t.arg = arg ∧
    ∃ expiry before after, before.map Prod.fst = left.map SysTimeo.key ∧
      expiries s = before ++ (t.key, expiry) :: after ∧ expiries s' = before ++ after) ∨
  ((∀ u ∈ s.nextTimeout, ¬(u.h = handler ∧ u.arg = arg)) ∧ s' = s)

/-- The inputs on which `sys_timeout` computes the expiry times it should.

With nothing pending it always does. A timeout that goes in front of the list needs a current
`timeouts_last_time`. Any other one is placed by the 32-bit sum of `msecs` and the lag, read
past a wrap-around when it lies below the first stored time; that must not happen to a list in
order, and the lag must not exceed everything pending (or exceed it by exactly the first
stored time, where the replacement made by the code changes nothing). -/
def SysTimeoutExact (now msecs : UInt32) (s : State H A) : Prop :=
  match s.nextTimeout with
  | [] => True
  | first :: rest =>
    let sum := (msecs + (now - s.timeoutsLastTime)).toNat
    let reach := if first.time.toNat ≤ sum then sum else sum + 2 ^ 32
    let pending := span (first :: rest)
    if msecs < first.time then now = s.timeoutsLastTime
    else (reach ≤ pending + msecs.toNat ∨ reach = pending + (msecs + first.time).toNat) ∧
      (pending < 2 ^ 32 → first.time.toNat ≤ sum)

/-! ## Reading the list -/

@[simp] theorem deltas_cons (t : SysTimeo H A) (rest : List (SysTimeo H A)) :
    deltas (t :: rest) = (t.key, t.time) :: deltas rest := rfl

@[simp] theorem deltas_append (left right : List (SysTimeo H A)) :
    deltas (left ++ right) = deltas left ++ deltas right := map_append

@[simp] theorem span_cons (t : SysTimeo H A) (rest : List (SysTimeo H A)) :
    span (t :: rest) = t.time.toNat + span rest := rfl

@[simp] theorem span_append (left right : List (SysTimeo H A)) :
    span (left ++ right) = span left + span right := by
  simp [span]

/-- The 32-bit sum of the stored times is the span modulo the word. -/
theorem total_toNat (list : List (SysTimeo H A)) :
    (DeltaList.total (deltas list)).toNat = span list % 2 ^ 32 := by
  induction list with
  | nil => rfl
  | cons t rest ih =>
    simp only [deltas_cons, DeltaList.total, span_cons, UInt32.toNat_add, ih]
    omega

/-- Values read from `base` stand in order behind an origin, none of them before `base`,
exactly when the distance of the base and the span fit one word together. -/
theorem pairwise_iff_span (origin base : UInt32) (list : List (SysTimeo H A)) :
    ((∀ entry ∈ DeltaList.absolute base (deltas list),
        (base - origin).toNat ≤ (entry.2 - origin).toNat) ∧
      (DeltaList.absolute base (deltas list)).Pairwise fun earlier later =>
        (earlier.2 - origin).toNat ≤ (later.2 - origin).toNat) ↔
      (base - origin).toNat + span list < 2 ^ 32 := by
  induction list generalizing base with
  | nil =>
    have bound := (base - origin).toNat_lt
    simpa [deltas, DeltaList.absolute, span] using bound
  | cons t rest ih =>
    have step := ih (base + t.time)
    have moved : (base + t.time - origin).toNat =
        ((base - origin).toNat + t.time.toNat) % 2 ^ 32 := by
      simp only [UInt32.toNat_sub, UInt32.toNat_add]
      omega
    have small := t.time.toNat_lt
    simp only [deltas_cons, DeltaList.absolute, mem_cons, forall_eq_or_imp,
      pairwise_cons, span_cons]
    constructor
    · rintro ⟨⟨first, _⟩, above, tail⟩
      have fits := step.mp ⟨above, tail⟩
      omega
    · intro fits
      obtain ⟨above, tail⟩ := step.mpr (by omega)
      refine ⟨⟨by omega, fun entry member => ?_⟩, above, tail⟩
      have := above entry member
      omega

/-- The list stands in order of expiry exactly when its stored times fit one word. -/
theorem inOrder_iff_span (s : State H A) : InOrder s ↔ span s.nextTimeout < 2 ^ 32 := by
  have general := pairwise_iff_span s.timeoutsLastTime s.timeoutsLastTime s.nextTimeout
  have origin : (s.timeoutsLastTime - s.timeoutsLastTime).toNat = 0 := by simp
  simp only [origin, Nat.zero_le, implies_true, true_and, Nat.zero_add] at general
  exact general

theorem mem_expiries_key {s : State H A} {key : Nat × H × A} {expiry : UInt32}
    (member : (key, expiry) ∈ expiries s) : ∃ t ∈ s.nextTimeout, t.key = key := by
  have listed : key ∈ (expiries s).map Prod.fst := mem_map_of_mem member
  rw [expiries, DeltaList.absolute_keys, deltas] at listed
  simpa using listed

/-! ## The insertion loop -/

theorem sub_total_cons (x : UInt32) (t : SysTimeo H A) (rest : List (SysTimeo H A)) :
    x - DeltaList.total (deltas (t :: rest)) = x - t.time - DeltaList.total (deltas rest) := by
  simp only [deltas_cons, DeltaList.total]
  abel

/-- A remaining time below the rest of the list ends between two elements: the new element
takes what remains there and the one behind it is shortened by as much. -/
theorem sysTimeoutLoop_middle (msecs firstTime : UInt32) (t : SysTimeo H A)
    (rest : List (SysTimeo H A)) (timeout : SysTimeo H A)
    (short : (timeout.time - t.time).toNat < span rest) :
    ∃ left next right, rest = left ++ next :: right ∧
      span left ≤ (timeout.time - t.time).toNat ∧
      (timeout.time - t.time - DeltaList.total (deltas left)).toNat < next.time.toNat ∧
      sysTimeoutLoop msecs firstTime timeout (t :: rest) =
        t :: left ++
          { timeout with time := timeout.time - t.time - DeltaList.total (deltas left) } ::
          { next with time := next.time -
            (timeout.time - t.time - DeltaList.total (deltas left)) } :: right := by
  induction rest generalizing t timeout with
  | nil => simp [span] at short
  | cons next more ih =>
    by_cases here : next.time > timeout.time - t.time
    · refine ⟨[], next, more, rfl, Nat.zero_le _, ?_, ?_⟩
      · simpa [deltas, DeltaList.total] using UInt32.lt_iff_toNat_lt.mp here
      · simp [sysTimeoutLoop, here, deltas, DeltaList.total]
    have passed : next.time.toNat ≤ (timeout.time - t.time).toNat := by
      simpa using UInt32.le_iff_toNat_le.mp (UInt32.not_lt.mp here)
    have remaining : (timeout.time - t.time - next.time).toNat =
        (timeout.time - t.time).toNat - next.time.toNat :=
      UInt32.toNat_sub_of_le _ _ (UInt32.le_iff_toNat_le.mpr passed)
    obtain ⟨left, after, right, split, reached, fits, looped⟩ :=
      ih next { timeout with time := timeout.time - t.time } (by
        simp only [span_cons] at short
        simp only [remaining]
        omega)
    have along : span (next :: left) ≤ (timeout.time - t.time).toNat := by
      simp only [remaining] at reached
      rw [span_cons]
      omega
    refine ⟨next :: left, after, right, by simp [split], along,
      by rw [sub_total_cons]; exact fits, ?_⟩
    rw [sysTimeoutLoop]
    simp only [here, ↓reduceIte, looped, sub_total_cons]
    simp

/-- A remaining time not below the rest of the list reaches its end, where a value above
`msecs` is replaced. -/
theorem sysTimeoutLoop_last (msecs firstTime : UInt32) (t : SysTimeo H A)
    (rest : List (SysTimeo H A)) (timeout : SysTimeo H A)
    (long : span rest ≤ (timeout.time - t.time).toNat) :
    sysTimeoutLoop msecs firstTime timeout (t :: rest) = t :: rest ++ [{ timeout with
      time := if timeout.time - t.time - DeltaList.total (deltas rest) > msecs
        then msecs + firstTime
        else timeout.time - t.time - DeltaList.total (deltas rest) }] := by
  induction rest generalizing t timeout with
  | nil =>
    simp only [sysTimeoutLoop, deltas, map_nil, DeltaList.total, sub_zero]
    split <;> rfl
  | cons next more ih =>
    simp only [span_cons] at long
    have passed : next.time.toNat ≤ (timeout.time - t.time).toNat := by omega
    have here : ¬next.time > timeout.time - t.time := by
      rw [gt_iff_lt, UInt32.lt_iff_toNat_lt]
      omega
    have remaining : (timeout.time - t.time - next.time).toNat =
        (timeout.time - t.time).toNat - next.time.toNat :=
        UInt32.toNat_sub_of_le _ _ (UInt32.le_iff_toNat_le.mpr passed)
    have looped := ih next { timeout with time := timeout.time - t.time } (by
      simp only [remaining]
      omega)
    rw [sysTimeoutLoop]
    simp only [here, ↓reduceIte, looped, sub_total_cons]
    simp

/-! ## Insertion -/

/-- A result that holds the new key once, between two parts without it, keeps the old
expiries exactly when these parts are the old list and the entry has the wanted expiry. -/
theorem kept_iff_of_split {s s' : State H A} {key : Nat × H × A} {expiry : UInt32}
    {left right : List ((Nat × H × A) × UInt32)} (wanted : UInt32)
    (split : expiries s' = left ++ (key, expiry) :: right)
    (freshLeft : ∀ value, (key, value) ∉ left) (freshRight : ∀ value, (key, value) ∉ right) :
    (∃ l r, expiries s = l ++ r ∧ expiries s' = l ++ (key, wanted) :: r) ↔
      expiries s = left ++ right ∧ expiry = wanted := by
  constructor
  · rintro ⟨l, r, old, new⟩
    rw [split] at new
    obtain ⟨rfl, entry, rfl⟩ := (append_cons_inj_of_notMem (freshLeft _) (freshRight _)).mp new
    exact ⟨old, congrArg Prod.snd entry⟩
  · rintro ⟨old, rfl⟩
    exact ⟨left, right, old, split⟩

variable {s : State H A} {first : SysTimeo H A} {rest : List (SysTimeo H A)} {ptr : Nat}
  {now msecs : UInt32} {handler : H} {arg : A}

/-- A fresh pool element gives a key no expiry read from part of the list has. -/
theorem fresh_absolute (list : List (SysTimeo H A)) (fresh : ∀ t ∈ list, t.ptr ≠ ptr)
    (base value : UInt32) :
    ((ptr, handler, arg), value) ∉ DeltaList.absolute base (deltas list) := by
  intro member
  obtain ⟨t, listed, same⟩ :=
    mem_expiries_key (s := { nextTimeout := list, timeoutsLastTime := base }) member
  exact fresh t listed (congrArg Prod.fst same)

/-- In front of the list the insertion is right exactly when there is no lag. -/
theorem inserted_front_iff (pending : s.nextTimeout = first :: rest)
    (fresh : ∀ t ∈ s.nextTimeout, t.ptr ≠ ptr) (front : msecs < first.time) :
    Inserted s (sysTimeout (some ptr) now msecs handler arg s) (ptr, handler, arg)
      (now + msecs) ↔ now = s.timeoutsLastTime := by
  have listed : (sysTimeout (some ptr) now msecs handler arg s).nextTimeout =
      { ptr := ptr, time := msecs + (now - s.timeoutsLastTime), h := handler, arg := arg } ::
        { first with time := first.time - msecs } :: rest := by
    simp [sysTimeout, pending, front]
  have reference : (sysTimeout (some ptr) now msecs handler arg s).timeoutsLastTime =
      s.timeoutsLastTime := by
    simp [sysTimeout, pending, front]
  have split : expiries (sysTimeout (some ptr) now msecs handler arg s) =
      [] ++ ((ptr, handler, arg), now + msecs) ::
        DeltaList.absolute now (deltas s.nextTimeout) := by
    have head : s.timeoutsLastTime + (msecs + (now - s.timeoutsLastTime)) = now + msecs := by abel
    have tail : now + msecs + (first.time - msecs) = now + first.time := by abel
    simp only [expiries, listed, reference, pending, deltas_cons, DeltaList.absolute, head,
      SysTimeo.key, nil_append, tail]
  have whole := kept_iff_of_split (s := s) (now + msecs) split (by simp)
    (fun value => fresh_absolute _ fresh _ value)
  simp only [nil_append, and_true] at whole
  have spanned : InOrder s → InOrder (sysTimeout (some ptr) now msecs handler arg s) ∨
      now ≠ s.timeoutsLastTime := by
    rw [inOrder_iff_span, inOrder_iff_span, listed, pending]
    intro ordered
    by_cases lag : now = s.timeoutsLastTime
    · left
      have shortened := UInt32.toNat_sub_of_le _ _ (UInt32.le_of_lt front)
      have below := UInt32.lt_iff_toNat_lt.mp front
      simp only [span_cons, lag, sub_self, add_zero, shortened] at ordered ⊢
      omega
    · exact .inr lag
  constructor
  · intro inserted
    have same := whole.mp inserted.kept
    exact (DeltaList.absolute_base_injective (by simp [pending, deltas]) same).symm
  · rintro rfl
    exact ⟨whole.mpr rfl, fun ordered => (spanned ordered).resolve_right (by simp)⟩

/-- The list the loop works on, and the unchanged reference time. -/
theorem sysTimeout_loop (pending : s.nextTimeout = first :: rest) (behind : ¬msecs < first.time) :
    sysTimeout (some ptr) now msecs handler arg s =
      { nextTimeout := sysTimeoutLoop msecs first.time
          { ptr := ptr, time := msecs + (now - s.timeoutsLastTime), h := handler, arg := arg }
          (first :: rest)
        timeoutsLastTime := s.timeoutsLastTime } := by
  simp [sysTimeout, pending, behind]

/-- Between two elements the insertion is always right. -/
theorem inserted_middle (handler : H) (arg : A) (pending : s.nextTimeout = first :: rest)
    (behind : ¬msecs < first.time)
    (short : (msecs + (now - s.timeoutsLastTime) - first.time).toNat < span rest) :
    Inserted s (sysTimeout (some ptr) now msecs handler arg s) (ptr, handler, arg)
      (now + msecs) := by
  obtain ⟨left, next, right, split, _, fits, looped⟩ :=
    sysTimeoutLoop_middle msecs first.time first rest
      { ptr := ptr, time := msecs + (now - s.timeoutsLastTime), h := handler, arg := arg } short
  dsimp only at fits looped
  rw [sysTimeout_loop pending behind, looped]
  constructor
  · refine ⟨DeltaList.absolute s.timeoutsLastTime (deltas (first :: left)),
      DeltaList.absolute (s.timeoutsLastTime + DeltaList.total (deltas (first :: left)))
        (deltas (next :: right)), ?_, ?_⟩
    · rw [expiries, pending, split, ← cons_append, deltas_append, DeltaList.absolute_append]
    · have landed : s.timeoutsLastTime + DeltaList.total (deltas (first :: left)) +
          (msecs + (now - s.timeoutsLastTime) - first.time - DeltaList.total (deltas left)) =
            now + msecs := by
        simp only [deltas_cons, DeltaList.total]
        abel
      simp only [expiries, deltas_append, deltas_cons, SysTimeo.key] at landed ⊢
      rw [DeltaList.absolute_insert, landed]
  · intro ordered
    have shortened := UInt32.toNat_sub_of_le _ _
      (UInt32.le_iff_toNat_le.mpr (Nat.le_of_lt fits))
    rw [inOrder_iff_span] at ordered ⊢
    simp only [pending, split, cons_append, span_cons, span_append, shortened] at ordered ⊢
    omega

/-- Behind the last element the insertion is right exactly when the value stored there is the
remaining time, and the sum of all times still fits one word if it did. -/
theorem inserted_last_iff (handler : H) (arg : A) (pending : s.nextTimeout = first :: rest)
    (fresh : ∀ t ∈ s.nextTimeout, t.ptr ≠ ptr) (behind : ¬msecs < first.time)
    (long : span rest ≤ (msecs + (now - s.timeoutsLastTime) - first.time).toNat) :
    let remaining := msecs + (now - s.timeoutsLastTime) - first.time -
      DeltaList.total (deltas rest)
    Inserted s (sysTimeout (some ptr) now msecs handler arg s) (ptr, handler, arg)
      (now + msecs) ↔
      (remaining ≤ msecs ∨ remaining = msecs + first.time) ∧
        (span s.nextTimeout < 2 ^ 32 → span s.nextTimeout + remaining.toNat < 2 ^ 32) := by
  intro remaining
  have looped := sysTimeoutLoop_last msecs first.time first rest
    { ptr := ptr, time := msecs + (now - s.timeoutsLastTime), h := handler, arg := arg } long
  set stored := if remaining > msecs then msecs + first.time else remaining with storedDef
  have result : sysTimeout (some ptr) now msecs handler arg s =
      { nextTimeout := s.nextTimeout ++
          [{ ptr := ptr, time := stored, h := handler, arg := arg }]
        timeoutsLastTime := s.timeoutsLastTime } := by
    rw [sysTimeout_loop pending behind, looped, pending]
  have split : expiries (sysTimeout (some ptr) now msecs handler arg s) =
      expiries s ++ ((ptr, handler, arg),
        s.timeoutsLastTime + DeltaList.total (deltas s.nextTimeout) + stored) :: [] := by
    simp only [result, expiries, deltas_append, DeltaList.absolute_append]
    rfl
  have whole := kept_iff_of_split (s := s) (now + msecs) split
    (fun value => fresh_absolute _ fresh _ value) (by simp)
  have target : s.timeoutsLastTime + DeltaList.total (deltas s.nextTimeout) + remaining =
      now + msecs := by
    simp only [remaining, pending, deltas_cons, DeltaList.total]
    abel
  have exact : s.timeoutsLastTime + DeltaList.total (deltas s.nextTimeout) + stored =
      now + msecs ↔ remaining ≤ msecs ∨ remaining = msecs + first.time := by
    rw [← target, add_right_inj, storedDef]
    by_cases above : remaining > msecs
    · simp only [above, ↓reduceIte, UInt32.not_le.mpr above, false_or]
      exact eq_comm
    · simp [above, UInt32.not_lt.mp above]
  have spanned : InOrder (sysTimeout (some ptr) now msecs handler arg s) ↔
      span s.nextTimeout + stored.toNat < 2 ^ 32 := by
    rw [inOrder_iff_span, result]
    simp [span]
  simp only [append_nil, true_and] at whole
  constructor
  · intro inserted
    have kept := exact.mp (whole.mp inserted.kept)
    refine ⟨kept, fun ordered => ?_⟩
    have fits := spanned.mp (inserted.ordered ((inOrder_iff_span s).mpr ordered))
    have same : stored = remaining := by
      have landed := exact.mpr kept
      rw [← target, add_right_inj] at landed
      exact landed
    rwa [same] at fits
  · rintro ⟨kept, fits⟩
    have landed := exact.mpr kept
    refine ⟨whole.mpr landed, fun ordered => spanned.mpr ?_⟩
    rw [← target, add_right_inj] at landed
    rw [landed]
    exact fits ((inOrder_iff_span s).mp ordered)

/-- Below the first stored time the 32-bit sum is read one word higher; then it is always
the first stored time and the remaining time. -/
theorem reach_eq (sum firstTime : UInt32) :
    (if firstTime.toNat ≤ sum.toNat then sum.toNat else sum.toNat + 2 ^ 32) =
      firstTime.toNat + (sum - firstTime).toNat := by
  have low := sum.toNat_lt
  have high := firstTime.toNat_lt
  rw [UInt32.toNat_sub]
  split <;> omega

/-- `sys_timeout` keeps all expiries and gives the new timeout its own exactly on the inputs
of `SysTimeoutExact`. -/
theorem sysTimeout_inserted_iff (s : State H A) (ptr : Nat) (now msecs : UInt32) (handler : H)
    (arg : A) (fresh : ∀ t ∈ s.nextTimeout, t.ptr ≠ ptr) :
    Inserted s (sysTimeout (some ptr) now msecs handler arg s) (ptr, handler, arg)
      (now + msecs) ↔ SysTimeoutExact now msecs s := by
  cases pending : s.nextTimeout with
  | nil =>
    simp only [SysTimeoutExact, pending, iff_true]
    constructor
    · exact ⟨[], [], by simp [expiries, pending, deltas, DeltaList.absolute],
        by simp [sysTimeout, expiries, pending, deltas, DeltaList.absolute, SysTimeo.key]⟩
    · simp [sysTimeout, pending, InOrder, expiries, deltas, DeltaList.absolute]
  | cons first rest =>
    simp only [SysTimeoutExact, pending]
    by_cases front : msecs < first.time
    · simp only [front, ↓reduceIte]
      exact inserted_front_iff pending fresh front
    have reached := reach_eq (msecs + (now - s.timeoutsLastTime)) first.time
    simp only [front, ↓reduceIte, reached, span_cons]
    set remaining := (msecs + (now - s.timeoutsLastTime) - first.time).toNat
      with remainingDef
    by_cases short : remaining < span rest
    · refine iff_of_true (inserted_middle handler arg pending front short)
        ⟨Or.inl (by omega), fun fits => ?_⟩
      split at reached <;> omega
    have iff := inserted_last_iff handler arg pending fresh front (Nat.le_of_not_lt short)
    simp only [pending, span_cons, UInt32.le_iff_toNat_le, ← UInt32.toNat_inj] at iff
    have total := total_toNat rest
    have bound : remaining < 2 ^ 32 := UInt32.toNat_lt _
    have left : (msecs + (now - s.timeoutsLastTime) - first.time -
        DeltaList.total (deltas rest)).toNat = remaining - span rest := by
      rw [UInt32.toNat_sub, ← remainingDef]
      omega
    have word := (msecs + (now - s.timeoutsLastTime)).toNat_lt
    rw [iff]
    split at reached <;> omega

/-! ## Removal -/

/-- The removal loop, read from any base: the first match disappears and the other values
stay, or nothing matches and nothing changes. -/
theorem sysUntimeoutLoop_absolute [DecidableEq H] [DecidableEq A] (base : UInt32) (handler : H)
    (arg : A) (list : List (SysTimeo H A)) :
    (∃ left t right, list = left ++ t :: right ∧
      (∀ u ∈ left, ¬(u.h = handler ∧ u.arg = arg)) ∧ t.h = handler ∧ t.arg = arg ∧
      ∃ expiry before after, before.map Prod.fst = left.map SysTimeo.key ∧
        DeltaList.absolute base (deltas list) = before ++ (t.key, expiry) :: after ∧
        DeltaList.absolute base (deltas (sysUntimeoutLoop handler arg list)) =
          before ++ after) ∨
    ((∀ u ∈ list, ¬(u.h = handler ∧ u.arg = arg)) ∧
      sysUntimeoutLoop handler arg list = list) := by
  induction list generalizing base with
  | nil => exact .inr ⟨by simp, rfl⟩
  | cons t rest ih =>
    by_cases here : t.h = handler ∧ t.arg = arg
    · left
      refine ⟨[], t, rest, rfl, by simp, here.1, here.2, base + t.time, [],
        DeltaList.absolute (base + t.time) (deltas rest), rfl, rfl, ?_⟩
      cases rest with
      | nil => simp [sysUntimeoutLoop, here, deltas, DeltaList.absolute]
      | cons next more =>
        have given := DeltaList.absolute_remove base t.key next.key t.time next.time (deltas more)
        simp only [sysUntimeoutLoop, here, and_self, ↓reduceIte, nil_append]
        exact (List.cons.inj given).2.symm
    · have skipped : sysUntimeoutLoop handler arg (t :: rest) =
          t :: sysUntimeoutLoop handler arg rest := by simp [sysUntimeoutLoop, here]
      rcases ih (base + t.time) with found | ⟨none, same⟩
      · obtain ⟨left, u, right, split, before, matched, matchedArg, expiry, early, late, keys,
          old, new⟩ := found
        left
        refine ⟨t :: left, u, right, by simp [split], ?_, matched, matchedArg, expiry,
          (t.key, base + t.time) :: early, late, by simp [keys], ?_, ?_⟩
        · intro v member
          rcases mem_cons.mp member with rfl | deeper
          · exact here
          · exact before v deeper
        · simp [DeltaList.absolute, old]
        · simp [skipped, DeltaList.absolute, new]
      · right
        refine ⟨?_, by rw [skipped, same]⟩
        intro v member
        rcases mem_cons.mp member with rfl | deeper
        · exact here
        · exact none v deeper

/-- `sys_untimeout` removes the first match and keeps every other expiry, for every list. -/
theorem sysUntimeout_removed [DecidableEq H] [DecidableEq A] (s : State H A) (handler : H)
    (arg : A) : Removed s (sysUntimeout handler arg s) handler arg := by
  rcases sysUntimeoutLoop_absolute s.timeoutsLastTime handler arg s.nextTimeout with
    found | ⟨none, same⟩
  · exact .inl found
  · exact .inr ⟨none, by simp [sysUntimeout, same]⟩

/-! ## Expiry times under both operations -/

/-- Both operations on every list: an insertion keeps the pending expiries and gives the new
timeout the expiry `now + msecs`, in order, exactly on `SysTimeoutExact`; a removal always
keeps the others. -/
theorem timeout_expiries_kept_iff [DecidableEq H] [DecidableEq A] (s : State H A) (ptr : Nat)
    (now msecs : UInt32) (handler : H) (arg : A) (fresh : ∀ t ∈ s.nextTimeout, t.ptr ≠ ptr) :
    (Inserted s (sysTimeout (some ptr) now msecs handler arg s) (ptr, handler, arg)
      (now + msecs) ↔ SysTimeoutExact now msecs s) ∧
    ∀ h a, Removed s (sysUntimeout h a s) h a :=
  ⟨sysTimeout_inserted_iff s ptr now msecs handler arg fresh, sysUntimeout_removed s⟩

/-- One pending timeout of one second, registered at time zero. -/
def oneSecondPending : State Nat Nat :=
  { nextTimeout := [{ ptr := 0, time := 1000, h := 7, arg := 0 }], timeoutsLastTime := 0 }

/-- The equivalence at a pending timeout of one second and a later one of two seconds. -/
theorem timeout_expiries_kept_iff_oneSecond :
    (∀ t ∈ oneSecondPending.nextTimeout, t.ptr ≠ 1) ∧
    Inserted oneSecondPending (sysTimeout (some 1) 500 2000 8 0 oneSecondPending) (1, 8, 0)
      (500 + 2000) := by
  have fresh : ∀ t ∈ oneSecondPending.nextTimeout, t.ptr ≠ 1 := by
    simp [oneSecondPending]
  refine ⟨fresh, (timeout_expiries_kept_iff oneSecondPending 1 500 2000 8 0 fresh).1.mpr ?_⟩
  unfold SysTimeoutExact oneSecondPending
  decide

/-- Half a second later, a timeout of 100 ms goes in front of the pending one and delays it
by the half second that `timeouts_last_time` lags behind. -/
theorem sysTimeout_front_delays_pending :
    ¬Inserted oneSecondPending (sysTimeout (some 1) 500 100 8 0 oneSecondPending) (1, 8, 0)
      (500 + 100) := by
  rw [sysTimeout_inserted_iff oneSecondPending 1 500 100 8 0 (by simp [oneSecondPending])]
  unfold SysTimeoutExact oneSecondPending
  decide

end Lwip.Timeouts
