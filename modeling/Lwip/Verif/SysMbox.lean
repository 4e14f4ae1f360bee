import Lwip.Base.Outcome
import Lwip.Base.Ring
import Lwip.Base.Transition
import Lwip.Core.SysArch

/-!
# Mailboxes are queues

Whatever the threads do, the messages that are posted and not yet fetched lie in the ring in
their order, from `tail` on. The semaphore counts them together with the threads that have passed
it and not yet taken their message, so a thread behind the semaphore always finds one. The ring
never holds more than `MAX_QUEUE_ENTRIES - 1` messages: `sys_mbox_trypost` refuses to post one
more, and in `sys_mbox_post` the assertion ends the program.
-/

namespace Lwip

open List

variable {α : Type}

/-- Threads behind the semaphore that have not taken their message. -/
def MboxSystem.signalled (s : MboxSystem α) : Nat := s.threads.countP MboxThread.isSignalled

/-- Messages posted and not fetched. -/
def MboxSystem.pending (s : MboxSystem α) : List (Option α) :=
  Ring.contents s.mbox.qMem s.mbox.tail (s.posted.length - s.fetched.length)

/-- A mailbox that holds a queue of messages. -/
structure SysMbox.Queues (q : SysMbox α) (pending : List (Option α)) : Prop where
  size : q.qMem.length = maxQueueEntries
  tail : q.tail < maxQueueEntries
  head : q.head = (q.tail + pending.length) % maxQueueEntries
  /-- One slot at least is free. -/
  room : pending.length < maxQueueEntries
  contents : Ring.contents q.qMem q.tail pending.length = pending

/-- The invariant of a mailbox and its threads. -/
structure MboxInv (s : MboxSystem α) (pending : List (Option α)) : Prop where
  queues : s.mbox.Queues pending
  /-- They are what has been posted and not fetched. -/
  history : s.posted = s.fetched ++ pending
  /-- Every message is counted by the semaphore or by a thread behind it. -/
  tokens : s.mbox.sem + s.signalled = pending.length

/-! ## One section -/

variable {i : Nat} {q : SysMbox α} {pending : List (Option α)} {before : MboxThread}
  {s : MboxSystem α}

/-- The next index of the source is the next slot. -/
theorem next_slot (valid : i < maxQueueEntries) :
    (if i + 1 ≥ maxQueueEntries then 0 else i + 1) = (i + 1) % maxQueueEntries := by
  unfold maxQueueEntries at *
  split <;> omega

/-- The slot behind the head is the tail exactly if all slots but one are occupied. -/
theorem SysMbox.Queues.full_iff (queues : q.Queues pending) :
    (if q.head + 1 ≥ maxQueueEntries then 0 else q.head + 1) = q.tail ↔
      pending.length = maxQueueEntries - 1 := by
  have tail := queues.tail
  have head := queues.head
  have room := queues.room
  have valid : q.head < maxQueueEntries := by
    rw [head]
    exact Nat.mod_lt _ (by decide)
  rw [next_slot valid]
  unfold maxQueueEntries at *
  omega

theorem SysMbox.Queues.next_head (queues : q.Queues pending) :
    (if q.head + 1 ≥ maxQueueEntries then 0 else q.head + 1) =
      (q.tail + (pending.length + 1)) % maxQueueEntries := by
  have head := queues.head
  have valid : q.head < maxQueueEntries := by
    rw [head]
    exact Nat.mod_lt _ (by decide)
  rw [next_slot valid, head, Nat.mod_add_mod, Nat.add_assoc]

/-- A message that is written into the slot at the head is appended to the queue. -/
theorem SysMbox.Queues.push (queues : q.Queues pending)
    (room : pending.length ≠ maxQueueEntries - 1) (msg : Option α) (sem : Nat) :
    SysMbox.Queues { q with
      sem, qMem := q.qMem.set q.head msg
      head := if q.head + 1 ≥ maxQueueEntries then 0 else q.head + 1 } (pending ++ [msg]) := by
  have size := queues.size
  have bound := queues.room
  constructor
  · rw [length_set, size]
  · exact queues.tail
  · rw [length_append, length_singleton]
    exact queues.next_head
  · rw [length_append, length_singleton]
    omega
  · have written := Ring.contents_push q.qMem q.tail (by omega : pending.length < q.qMem.length) msg
    rw [queues.contents, size, ← queues.head] at written
    rw [length_append]
    exact written

/-- The protected section of a fetch takes the first message off the queue. -/
theorem SysMbox.Queues.take {msg : Option α} {rest : List (Option α)}
    (queues : q.Queues (msg :: rest)) : q.take.1 = msg ∧ q.take.2.Queues rest := by
  have size := queues.size
  have tail := queues.tail
  have room := queues.room
  have head := queues.head
  have valid : q.tail < q.qMem.length := by omega
  rw [length_cons] at room head
  have popped := Ring.contents_pop q.qMem (by omega : rest.length < q.qMem.length) valid
  have contents := queues.contents
  rw [length_cons, popped, List.cons.injEq] at contents
  constructor
  · change q.qMem.getD q.tail none = msg
    rw [getD_eq_getElem?_getD, getElem?_eq_getElem valid, contents.1, Option.getD_some]
  change SysMbox.Queues { q with
    tail := if q.tail + 1 ≥ maxQueueEntries then 0 else q.tail + 1 } rest
  rw [next_slot tail]
  constructor
  · exact size
  · exact Nat.mod_lt _ (by decide)
  · rw [Nat.mod_add_mod, head]
    congr 1
    omega
  · omega
  · rw [← size, Ring.contents_mod, contents.2]

/-- What a protected section with a post can do. -/
theorem SysMbox.Queues.post (queues : q.Queues pending) (sem : q.sem ≤ pending.length)
    (msg : Option α) :
    (pending.length = maxQueueEntries - 1 ∧ sysMboxPost q msg = .error "mbox is full!" ∧
      sysMboxTrypost q msg = .ok (q, .mem)) ∨
    ∃ q', pending.length ≠ maxQueueEntries - 1 ∧ sysMboxPost q msg = .ok q' ∧
      sysMboxTrypost q msg = .ok (q', .ok) ∧ q'.Queues (pending ++ [msg]) ∧
      q'.sem = q.sem + 1 := by
  have bound := queues.room
  by_cases full : pending.length = maxQueueEntries - 1
  · left
    have same := queues.full_iff.2 full
    refine ⟨full, ?_, ?_⟩
    · simp only [sysMboxPost, lwipAssert_neg (not_not.2 same), error_bind]
    · simp only [sysMboxTrypost, same, if_true]
  · right
    have differ : (if q.head + 1 ≥ maxQueueEntries then 0 else q.head + 1) ≠ q.tail :=
      fun same => full (queues.full_iff.1 same)
    refine ⟨_, full, ?_, ?_, queues.push full msg (q.sem + 1), rfl⟩
    · simp only [sysMboxPost, lwipAssert_pos differ, ok_bind,
        lwipAssert_pos (show q.sem < maxQueueEntries by omega)]
    · simp only [sysMboxTrypost, if_neg differ, lwipAssert_pos differ, ok_bind,
        lwipAssert_pos (show q.sem < maxQueueEntries by omega)]

/-! ## One step of a thread -/

/-- Threads behind the semaphore after one thread has moved. -/
theorem countP_isSignalled_set {threads : List MboxThread} (at_ : threads[i]? = some before)
    (after : MboxThread) :
    (threads.set i after).countP MboxThread.isSignalled +
        (if before.isSignalled then 1 else 0) =
      threads.countP MboxThread.isSignalled + (if after.isSignalled then 1 else 0) := by
  obtain ⟨valid, value⟩ := List.getElem?_eq_some_iff.1 at_
  have split := countP_set (p := MboxThread.isSignalled) (a := after) valid
  have positive : threads[i].isSignalled → 0 < threads.countP MboxThread.isSignalled := by
    intro holds
    exact countP_pos_iff.2 ⟨threads[i], getElem_mem valid, holds⟩
  rw [value] at split positive
  rw [split]
  by_cases signalled : before.isSignalled
  · have some := positive signalled
    simp only [signalled, if_true]
    omega
  · simp only [signalled, Bool.false_eq_true, if_false]
    omega

/-- A thread moves without the mailbox: nothing changes for the messages. -/
theorem MboxInv.move (inv : MboxInv s pending) {after : MboxThread}
    (at_ : s.threads[i]? = some before) (same : before.isSignalled = after.isSignalled) :
    MboxInv { s with threads := s.threads.set i after } pending := by
  have counted := countP_isSignalled_set at_ after
  rw [same] at counted
  have tokens := inv.tokens
  constructor
  · exact inv.queues
  · exact inv.history
  · simp only [MboxSystem.signalled] at tokens ⊢
    omega

/-- A thread passes the semaphore. -/
theorem MboxInv.pass (inv : MboxInv s pending) (wait : s.mbox.waitForSem = some q)
    (at_ : s.threads[i]? = some before) (behind : before.isSignalled = false)
    (starttime : Option UInt32) (wants : Bool) :
    MboxInv { s with mbox := q, threads := s.threads.set i (.signalled starttime wants) }
      pending := by
  have counted := countP_isSignalled_set at_ (.signalled starttime wants)
  have tokens := inv.tokens
  have queues := inv.queues
  rw [behind] at counted
  simp only [MboxThread.isSignalled, Bool.false_eq_true, if_false, if_true] at counted
  unfold SysMbox.waitForSem at wait
  split at wait
  · rename_i positive
    cases wait
    constructor
    · exact ⟨queues.size, queues.tail, queues.head, queues.room, queues.contents⟩
    · exact inv.history
    · simp only [MboxSystem.signalled] at tokens ⊢
      omega
  · cases wait

/-- A thread behind the semaphore takes the first message. -/
theorem MboxInv.take (inv : MboxInv s pending) {starttime : Option UInt32} {wants : Bool}
    (at_ : s.threads[i]? = some (.signalled starttime wants)) :
    ∃ rest, pending = s.mbox.take.1 :: rest ∧
      MboxInv { s with mbox := s.mbox.take.2, threads := s.threads.set i .outside
                       fetched := s.fetched ++ [s.mbox.take.1] } rest := by
  have counted := countP_isSignalled_set at_ .outside
  simp only [MboxThread.isSignalled, Bool.false_eq_true, if_false, if_true] at counted
  have tokens := inv.tokens
  simp only [MboxSystem.signalled] at tokens
  cases pending with
  | nil =>
    rw [length_nil] at tokens
    omega
  | cons msg rest =>
    have taken := inv.queues.take
    refine ⟨rest, by rw [taken.1], ?_⟩
    constructor
    · exact taken.2
    · rw [inv.history, taken.1, append_assoc, singleton_append]
    · rw [length_cons] at tokens
      change s.mbox.sem + _ = rest.length
      simp only [MboxSystem.signalled]
      omega

/-- A message has been posted. -/
theorem MboxInv.posted (inv : MboxInv s pending) {msg : Option α}
    (queues : q.Queues (pending ++ [msg])) (sem : q.sem = s.mbox.sem + 1) :
    MboxInv { s with mbox := q, posted := s.posted ++ [msg] } (pending ++ [msg]) := by
  have tokens := inv.tokens
  constructor
  · exact queues
  · rw [inv.history, append_assoc]
  · rw [length_append, length_singleton, ← tokens]
    change q.sem + s.signalled = _
    omega

/-- What one step of a thread can do with a mailbox. An assertion only fails in
`sys_mbox_post`. -/
theorem mboxStep_ensures (inv : MboxInv s pending) {action : MboxAction α}
    {result : Asserting (MboxSystem α × Option (MboxReturn α))}
    (step : mboxStep s i action = some result) :
    Outcome.Ensures
      (fun message => message = "mbox is full!" ∧ (∃ msg, action = .post msg) ∧
        pending.length = maxQueueEntries - 1)
      result
      (fun after => (∃ pending', MboxInv after.1 pending') ∧
        (after.2 = some (.tried .mem) → pending.length = maxQueueEntries - 1) ∧
        (∀ time msg now, action = .take now → after.2 = some (.fetched time (some msg)) →
          ∃ rest, pending = msg :: rest)) := by
  have sem : s.mbox.sem ≤ pending.length := by
    have tokens := inv.tokens
    omega
  unfold mboxStep at step
  split at step
  case h_1 msg at_ =>
    cases step
    rcases inv.queues.post sem msg with full | posted
    · rw [full.2.1]
      exact ⟨rfl, ⟨msg, rfl⟩, full.1⟩
    · obtain ⟨q, -, post, -, queues, count⟩ := posted
      rw [post]
      exact ⟨⟨_, inv.posted queues count⟩, nofun, nofun⟩
  case h_2 msg at_ =>
    cases step
    rcases inv.queues.post sem msg with full | posted
    · rw [full.2.2]
      exact ⟨⟨pending, inv.queues, inv.history, inv.tokens⟩, fun _ => full.1, nofun⟩
    · obtain ⟨q, -, -, post, queues, count⟩ := posted
      rw [post]
      exact ⟨⟨_, inv.posted queues count⟩, nofun, nofun⟩
  case h_3 timeout wants now at_ =>
    cases step
    exact ⟨⟨pending, inv.move at_ rfl⟩, nofun, nofun⟩
  case h_4 wants at_ =>
    split at step
    case h_1 q wait =>
      cases step
      exact ⟨⟨pending, inv.pass wait at_ rfl none wants⟩, nofun, nofun⟩
    case h_2 =>
      cases step
      exact ⟨⟨pending, inv⟩, nofun, nofun⟩
  case h_5 timeout starttime wants at_ =>
    split at step
    case h_1 q wait =>
      cases step
      exact ⟨⟨pending, inv.pass wait at_ rfl (some starttime) wants⟩, nofun, nofun⟩
    case h_2 => cases step
  case h_6 timeout starttime wants at_ =>
    split at step
    · cases step
    · cases step
      exact ⟨⟨pending, inv.move at_ rfl⟩, nofun, nofun⟩
  case h_7 starttime wants now at_ =>
    cases step
    obtain ⟨rest, first, next⟩ := inv.take at_
    refine ⟨⟨rest, next⟩, nofun, ?_⟩
    intro time msg now' _ returned
    cases wants with
    | false => cases returned
    | true =>
      cases returned
      exact ⟨rest, first⟩
  case h_8 => cases step

/-! ## All interleavings -/

theorem mboxInv_start (n : Nat) : MboxInv (mboxStart n : MboxSystem α) [] := by
  constructor
  · constructor
    · exact length_replicate
    · exact Nat.zero_lt_succ 99
    · rfl
    · exact Nat.zero_lt_succ 99
    · exact Ring.contents_zero _ _
  · rfl
  · change 0 + (List.replicate n MboxThread.outside).countP MboxThread.isSignalled = 0
    rw [countP_replicate]
    rfl

theorem mboxInv_run {n : Nat} (run : Transition.Run mboxMoves (fun _ _ => True) (mboxStart n) s) :
    ∃ pending, MboxInv s pending := by
  apply run.invariant
  · exact ⟨[], mboxInv_start n⟩
  · intro middle label final holds _ moves
    obtain ⟨pending, inv⟩ := holds
    obtain ⟨returned, step⟩ := moves
    exact (mboxStep_ensures inv step).1

/-- In every state that calls of any number of threads reach, what has been fetched is the front
of what has been posted, and the other messages lie in the ring in their order; each of them is
counted by the semaphore or by a thread that is about to take one, and a fetch returns the first
of them. `sys_mbox_trypost` returns `ERR_MEM`, and the assertion of `sys_mbox_post` fails, only if
all slots but one are occupied; no other assertion fails. -/
theorem sysMbox_queue {n : Nat} {s : MboxSystem α}
    (run : Transition.Run mboxMoves (fun _ _ => True) (mboxStart n) s) :
    s.posted = s.fetched ++ s.pending ∧
    s.mbox.sem + s.signalled = s.pending.length ∧
    (∀ i now s' time msg,
      mboxStep s i (.take now) = some (.ok (s', some (.fetched time (some msg)))) →
      s.posted[s.fetched.length]? = some msg) ∧
    (∀ i action s', mboxStep s i action = some (.ok (s', some (.tried .mem))) →
      s.pending.length = maxQueueEntries - 1) ∧
    (∀ i action message, mboxStep s i action = some (.error message) →
      message = "mbox is full!" ∧ (∃ msg, action = .post msg) ∧
        s.pending.length = maxQueueEntries - 1) := by
  obtain ⟨pending, inv⟩ := mboxInv_run run
  have ring : s.pending = pending := by
    rw [MboxSystem.pending, inv.history, length_append, Nat.add_sub_cancel_left]
    exact inv.queues.contents
  rw [ring]
  refine ⟨inv.history, inv.tokens, ?_, ?_, ?_⟩
  · intro i now s' time msg step
    obtain ⟨rest, first⟩ := (mboxStep_ensures inv step).2.2 time msg now rfl rfl
    rw [inv.history, first]
    simp
  · intro i action s' step
    exact (mboxStep_ensures inv step).2.1 rfl
  · intro i action message step
    exact mboxStep_ensures inv step

/-- A data set for the theorem: one thread posts two messages, the second one `NULL`, while
another waits and takes the first. -/
theorem sysMbox_queue_twoThreads :
    ∃ s : MboxSystem Nat, Transition.Run mboxMoves (fun _ _ => True) (mboxStart 2) s ∧
      s.fetched = [some 7] ∧ s.pending = [none] ∧ s.posted = s.fetched ++ s.pending := by
  have waits : Transition.Run mboxMoves (fun _ _ => True) (mboxStart 2 : MboxSystem Nat) _ :=
    Transition.Run.single (1, .fetch 0 true 5) trivial ⟨_, rfl⟩
  have posts := (waits.tail (0, .post (some 7)) trivial ⟨_, rfl⟩).tail (0, .trypost none) trivial
    ⟨_, rfl⟩
  have takes := (posts.tail (1, .wake) trivial ⟨_, rfl⟩).tail (1, .take 8) trivial ⟨_, rfl⟩
  exact ⟨_, takes, rfl, rfl, (sysMbox_queue takes).1⟩

end Lwip
