import Lwip.Verif.TcpWrite

/-!
# `tcp_write` without memory

A call of `tcp_write` that runs out of memory, or out of room in the queue, leaves no trace but
the flag `TF_NAGLEMEMERR`: what the phases prepare is committed behind the last failure, and what
the call has allocated is freed. The one change that is made at once is the one to `oversize_left`
in phase 2. It only adds something if the pbuf of this phase ends the data, and then nothing can
fail any more.
-/

namespace Lwip

open Outcome (Ensures)
variable {lastUnsent : TcpSeg} {l : WriteLocals} {pcb' : TcpPcb}

open AllocLog (live live_append_of live_frees)

section Failed

variable {env : TcpEnv} {pcb : TcpPcb} {w : WriteArgs}

/-! ## The last segment -/

/-- Phase 2 only changes the last segment if it takes in all the data. -/
theorem tcpWriteConcat_keeps (fits : lastUnsent.oversizeLeft < 65536) (space : Nat)
    (l : WriteLocals) :
    Ensures AnyError (tcpWriteConcat env pcb w lastUnsent space l).erase fun result =>
      result.2 = lastUnsent ∨ ∃ l', result.1 = some l' ∧ w.len ≤ l'.pos := by
  unfold tcpWriteConcat
  split
  · rename_i more
    dsimp only
    split
    · split
      · exact .ok (Or.inl rfl)
      · rename_i concatP oversize allocated
        rw [Logged.erase_bind, Logged.erase_tell, ok_bind]
        apply Ensures.ok
        by_cases part : space < w.len - l.pos
        · -- the pbuf fills the space that is left, so it has no bytes behind its data
          left
          have none' : oversize = 0 := by
            unfold tcpPbufPrealloc at allocated
            rw [if_pos part] at allocated
            simp only [Nat.lt_irrefl, false_and, if_false, Nat.sub_self] at allocated
            split at allocated
            · cases allocated
              rfl
            · cases allocated
          subst none'
          simp [u16_of_lt fits]
        · right
          refine ⟨_, rfl, ?_⟩
          rw [if_neg part]
          dsimp only
          omega
    · split
      · exact .error trivial
      · split
        · rw [Logged.erase_bind, Logged.erase_lift]
          apply ensures_pass trivial
          exact .ok (Or.inl rfl)
        · split
          · exact .ok (Or.inl rfl)
          · rw [Logged.erase_bind, Logged.erase_tell, ok_bind]
            exact .ok (Or.inl rfl)
  · exact .ok (Or.inl rfl)

/-- Phases 1 and 2 only change the last segment if they take in all the data. -/
theorem tcpWriteTail_keeps (fits : lastUnsent.oversizeLeft < 65536) :
    Ensures AnyError (tcpWriteTail env pcb w lastUnsent).erase fun result =>
      result.2 = lastUnsent ∨ ∃ l', result.1 = some l' ∧ w.len ≤ l'.pos := by
  unfold tcpWriteTail
  simp only [Logged.erase_bind, Logged.erase_lift]
  apply ensures_pass trivial
  apply ensures_pass trivial
  apply ensures_pass trivial
  apply ensures_pass trivial
  exact tcpWriteConcat_keeps fits _ _

/-- Without data left, the loop of phase 3 does not fail. -/
theorem tcpWriteSegments_of_all (all : w.len ≤ l.pos) (fuel : Nat) :
    (tcpWriteSegments env pcb w (fuel + 1) l).erase = .ok (some l) := by
  rw [tcpWriteSegments, if_neg (by omega), Logged.erase_pure]

/-! ## The memory -/

/-- A log from a state in which the first `n` blocks are live to one in which the first `n'`
are. -/
def Allocates (n n' : Nat) (log : List (AllocLog.Event Nat)) : Prop :=
  live log ↑(List.range n) = some (↑(List.range n') : Multiset Nat)

/-- A log behind another. -/
theorem Allocates.append {n middle n' : Nat} {log more : List (AllocLog.Event Nat)}
    (before : Allocates n middle log) (behind : Allocates middle n' more) :
    Allocates n n' (log ++ more) := by
  unfold Allocates
  rw [live_append_of before]
  exact behind

/-- One more block. -/
theorem allocates_alloc (n : Nat) : Allocates n (n + 1) [.alloc n] := by
  unfold Allocates
  rw [List.range_succ, ← Multiset.coe_add, Multiset.add_comm]
  rfl

/-- The blocks from some number on are freed. -/
theorem allocates_free (n count : Nat) :
    Allocates (n + count) n ((List.range' n count).map .free) := by
  unfold Allocates
  have parts : (↑(List.range (n + count)) : Multiset Nat) =
      ↑(List.range' n count) + ↑(List.range n) := by
    rw [List.range_eq_range', ← List.range'_append_1, Nat.zero_add, ← List.range_eq_range',
      ← Multiset.coe_add, Multiset.add_comm]
  rw [parts]
  exact live_frees _ _

/-- The pbufs that were allocated last are freed. -/
theorem Allocating.pbufFree_log (n : Nat) (p : Chain) :
    Logged.Ensures AnyError (Allocating.pbufFree (n + p.length) p) fun _ log =>
      log = (List.range' n p.length).map .free := by
  apply Logged.Ensures.lift_bind (ensures_any _)
  intro _ _
  apply Logged.Ensures.tell
  rw [Nat.add_sub_cancel]

/-- The pbufs of a new segment are live behind their allocation. -/
theorem tcpWritePbuf_live (seglen : Nat) (l : WriteLocals) :
    Logged.Ensures AnyError (tcpWritePbuf env pcb w seglen l) fun result log =>
      Allocates l.allocs (result.elim l.allocs (·.2.2)) log ∧
        ∀ p oversize allocs, result = some (p, oversize, allocs) →
          allocs = l.allocs + p.length := by
  unfold tcpWritePbuf
  split
  · split
    · exact .pure ⟨rfl, by simp⟩
    · apply Logged.Ensures.tell_bind
      apply Logged.Ensures.lift_bind (ensures_any _)
      intro _ _
      refine .pure ⟨allocates_alloc l.allocs, ?_⟩
      rintro p oversize allocs ⟨⟩
      rfl
  · apply Logged.Ensures.lift_bind (ensures_any _)
    intro _ _
    split
    · exact .pure ⟨rfl, by simp⟩
    split
    · apply Logged.Ensures.tell_bind
      refine .pure ⟨?_, by simp⟩
      exact (allocates_alloc l.allocs).append (allocates_free l.allocs 1)
    · apply Logged.Ensures.tell_bind
      apply Logged.Ensures.lift_bind (ensures_any _).eq
      intro p linked
      refine .pure ⟨(allocates_alloc l.allocs).append (allocates_alloc (l.allocs + 1)), ?_⟩
      rintro p' oversize allocs ⟨⟩
      rw [pbufCat, if_neg (by simp), pbufCatLoop, lwipAssert_bind_ok] at linked
      cases linked.2.2
      rfl

/-- The segment is live behind its allocation; without it, its pbufs are freed. -/
theorem tcpCreateSegment_live (used n : Nat) (p : Chain) (flags : TcpFlags) (seqno : UInt32)
    (optsMss : Bool) :
    Logged.Ensures AnyError (tcpCreateSegment env (n + p.length) used p flags seqno optsMss)
      fun created log =>
        Allocates (n + p.length) (created.elim n fun _ => n + p.length + 1) log ∧
          ∀ seg ∈ created, seg.p.length = p.length := by
  unfold tcpCreateSegment
  dsimp only
  split
  · apply (Allocating.pbufFree_log n p).bind
    intro _ log freed
    apply Logged.Ensures.pure
    rw [freed, List.append_nil]
    exact ⟨allocates_free n p.length, by simp⟩
  · apply Logged.Ensures.tell_bind
    apply Logged.Ensures.lift_bind (ensures_any _)
    intro _ _
    apply Logged.Ensures.lift_bind (ensures_any _).eq
    intro front header
    cases front with
    | none =>
      -- the segment is freed behind its pbufs
      apply (Allocating.pbufFree_log n p).bind
      intro _ log freed
      apply Logged.Ensures.tell_bind
      refine .pure ⟨?_, by simp⟩
      have both := (allocates_alloc (n + p.length)).append (allocates_free n (p.length + 1))
      rw [List.range'_1_concat, List.map_append, ← freed] at both
      exact both
    | some p' =>
      refine .pure ⟨allocates_alloc _, ?_⟩
      rintro seg ⟨⟩
      exact length_pbufHeader header.2

/-- A pass of the loop that fails has freed what it has allocated; otherwise `queue` holds it. -/
theorem tcpWriteSegment_live (balanced : l.allocs = l.held) :
    Logged.Ensures AnyError (tcpWriteSegment env pcb w l) fun result log =>
      Allocates l.allocs (result.elim l.allocs (·.allocs)) log ∧
        ∀ l' ∈ result, l'.allocs = l'.held := by
  unfold tcpWriteSegment
  dsimp only
  apply (tcpWritePbuf_live _ l).bind
  intro made log pbufs
  cases made with
  | none =>
    apply Logged.Ensures.pure
    rw [List.append_nil]
    exact ⟨pbufs.1, by simp⟩
  | some made =>
    obtain ⟨p, oversize, allocs⟩ := made
    obtain ⟨before, count⟩ := pbufs
    have number : allocs = l.allocs + p.length := count p oversize allocs rfl
    dsimp only [Option.elim] at before ⊢
    subst number
    split
    · apply (Allocating.pbufFree_log l.allocs p).bind
      intro _ frees freed
      apply Logged.Ensures.pure
      rw [freed, List.append_nil]
      exact ⟨before.append (allocates_free l.allocs p.length), by simp⟩
    · apply (tcpCreateSegment_live _ l.allocs p _ _ _).bind
      intro created more segment
      cases created with
      | none =>
        apply Logged.Ensures.pure
        rw [List.append_nil]
        exact ⟨before.append segment.1, by simp⟩
      | some seg =>
        apply Logged.Ensures.pure
        rw [List.append_nil]
        refine ⟨before.append segment.1, ?_⟩
        rintro l' ⟨⟩
        have clen : seg.p.length = p.length := segment.2 seg rfl
        unfold WriteLocals.held at balanced ⊢
        simp only [List.map_append, List.map_cons, List.map_nil, List.sum_append, List.sum_cons,
          List.sum_nil, clen]
        omega

/-- If phase 3 fails, nothing is left of what was allocated. -/
theorem tcpWriteSegments_live {fuel : Nat} (balanced : l.allocs = l.held) :
    Logged.Ensures AnyError (tcpWriteSegments env pcb w fuel l) fun result log =>
      result = none → Allocates l.allocs 0 log := by
  induction fuel generalizing l with
  | zero => exact .lift (.error trivial)
  | succ fuel ih =>
    unfold tcpWriteSegments
    split
    · apply (tcpWriteSegment_live balanced).bind
      intro passed log pass
      cases passed with
      | none =>
        apply Logged.Ensures.tell_bind
        apply Logged.Ensures.pure
        intro _
        have freed := allocates_free 0 l.allocs
        rw [Nat.zero_add, ← List.range_eq_range'] at freed
        rw [← balanced, List.append_nil]
        exact pass.1.append freed
      | some next =>
        exact (ih (pass.2 next rfl)).mono fun result more failed none' =>
          pass.1.append (failed none')
    · exact .pure fun none' => by cases none'

/-- The pbuf of phase 2 is live behind its allocation. -/
theorem tcpWriteConcat_live (space : Nat)
    (fresh : l.allocs = 0 ∧ l.concatP = [] ∧ l.queue = []) :
    Logged.Ensures AnyError (tcpWriteConcat env pcb w lastUnsent space l) fun result log =>
      Allocates 0 (result.1.elim 0 (·.allocs)) log ∧ ∀ l' ∈ result.1, l'.allocs = l'.held := by
  obtain ⟨first, noConcat, noQueue⟩ := fresh
  have nothing : l.allocs = l.held := by
    rw [WriteLocals.held, first, noConcat, noQueue]
    rfl
  have one : ∀ p : Pbuf, l.allocs + 1 = WriteLocals.held { l with concatP := [p] } := by
    intro p
    rw [WriteLocals.held, first, noQueue]
    rfl
  have alloc : Allocates 0 (l.allocs + 1) [.alloc l.allocs] := by
    rw [first]
    exact allocates_alloc 0
  have same : Allocates 0 l.allocs [] := by
    rw [first]
    rfl
  unfold tcpWriteConcat
  dsimp only
  split
  · split
    · split
      · exact .pure ⟨rfl, by simp⟩
      · apply Logged.Ensures.tell_bind
        refine .pure ⟨alloc, ?_⟩
        rintro l' ⟨⟩
        exact one _
    · split
      · exact .lift (.error trivial)
      · split
        · apply Logged.Ensures.lift_bind (ensures_any _)
          intro _ _
          refine .pure ⟨same, ?_⟩
          rintro l' ⟨⟩
          exact nothing
        · split
          · exact .pure ⟨rfl, by simp⟩
          · apply Logged.Ensures.tell_bind
            refine .pure ⟨alloc, ?_⟩
            rintro l' ⟨⟩
            exact one _
  · refine .pure ⟨same, ?_⟩
    rintro l' ⟨⟩
    exact nothing

/-- Phases 1 and 2 hold what they have allocated. -/
theorem tcpWriteTail_live (lastUnsent : TcpSeg) :
    Logged.Ensures AnyError (tcpWriteTail env pcb w lastUnsent) fun result log =>
      Allocates 0 (result.1.elim 0 (·.allocs)) log ∧ ∀ l ∈ result.1, l.allocs = l.held := by
  unfold tcpWriteTail
  apply Logged.Ensures.lift_bind (ensures_any _)
  intro _ _
  apply Logged.Ensures.lift_bind (ensures_any _)
  intro _ _
  apply Logged.Ensures.lift_bind (ensures_any _)
  intro _ _
  apply Logged.Ensures.lift_bind (ensures_any _)
  intro _ _
  exact tcpWriteConcat_live _ ⟨rfl, rfl, rfl⟩

/-! ## A whole call -/

/-- A call that ends with `ERR_MEM` leaves only the flag behind, and nothing in memory. -/
def Undone (pcb : TcpPcb) (result : Err × TcpPcb) (log : List (AllocLog.Event Nat)) : Prop :=
  result.1 = .mem → result.2 = { pcb with tfNaglememerr := true } ∧ Allocates 0 0 log

/-- Behind the last failure a call does not end with `ERR_MEM`. -/
theorem tcpWriteFinish_done (pcb : TcpPcb) (w : WriteArgs) (l : WriteLocals)
    (unsent : List TcpSeg) :
    Ensures AnyError (tcpWriteFinish pcb w l unsent) fun result => result.1 = .ok :=
  ensures_pass trivial (.ok rfl)

/-- `memerr` with nothing changed and nothing left in memory. -/
theorem tcpWriteMemerr_undone (pcb : TcpPcb) {log : List (AllocLog.Event Nat)}
    (freed : Allocates 0 0 log) :
    Ensures AnyError (tcpWriteMemerr pcb) fun result => Undone pcb result log :=
  ensures_pass trivial (.ok fun _ => ⟨rfl, freed⟩)

/-- `ERR_MEM` with something on the queue. -/
theorem tcpWriteExtend_undone (last : pcb.unsent.getLast? = some lastUnsent)
    (fits : lastUnsent.oversizeLeft < 65536) :
    Logged.Ensures AnyError (tcpWriteExtend env pcb w lastUnsent) (Undone pcb) := by
  have whole : pcb.unsent.dropLast ++ [lastUnsent] = pcb.unsent :=
    List.dropLast_append_getLast? lastUnsent last
  unfold tcpWriteExtend
  apply (tcpWriteTail_live lastUnsent).eq.bind
  rintro ⟨tail, left⟩ log ⟨⟨allocated, balanced⟩, prepared⟩
  have keeps := (tcpWriteTail_keeps fits).of_ok prepared
  dsimp only at allocated balanced keeps ⊢
  cases tail with
  | none =>
    have same : left = lastUnsent := keeps.resolve_right (by
      intro ready
      cases ready.choose_spec.1)
    rw [same, whole]
    apply Logged.Ensures.lift
    rw [List.append_nil]
    exact tcpWriteMemerr_undone pcb allocated
  | some l =>
    apply (tcpWriteSegments_live (balanced l rfl)).eq.bind
    rintro result more ⟨freed, looped⟩
    cases result with
    | none =>
      have same : left = lastUnsent := keeps.resolve_right (by
        intro ready
        obtain ⟨l', same, all⟩ := ready
        cases same
        rw [show tcpWriteFuel = tcpSndQueuelen + 1 + 1 from rfl,
          tcpWriteSegments_of_all all] at looped
        cases looped)
      rw [same, whole]
      apply Logged.Ensures.lift
      rw [List.append_nil]
      exact tcpWriteMemerr_undone pcb (allocated.append (freed rfl))
    | some l' =>
      apply Logged.Ensures.lift_bind (ensures_any _)
      intro filled _
      apply Logged.Ensures.lift_bind (ensures_any _)
      intro linked _
      apply Logged.Ensures.lift
      apply (tcpWriteFinish_done pcb w l' _).mono
      intro result done failed
      rw [done] at failed
      cases failed

/-- `ERR_MEM` with nothing on the queue. -/
theorem tcpWriteNew_undone :
    Logged.Ensures AnyError (tcpWriteNew env pcb w) (Undone pcb) := by
  apply Logged.Ensures.lift_bind (ensures_any _)
  intro _ _
  apply (tcpWriteSegments_live rfl).bind
  intro result log freed
  cases result with
  | none =>
    apply Logged.Ensures.lift
    rw [List.append_nil]
    exact tcpWriteMemerr_undone pcb (freed rfl)
  | some l =>
    apply Logged.Ensures.lift
    apply (tcpWriteFinish_done pcb w l _).mono
    intro result done failed
    rw [done] at failed
    cases failed

theorem tcpWriteChecks_mem {pcb : TcpPcb} {len : Nat}
    (failed : tcpWriteChecks pcb len = .ok (.mem, pcb')) :
    pcb' = { pcb with tfNaglememerr := true } := by
  unfold tcpWriteChecks at failed
  split at failed
  · cases failed
  split at failed
  · cases failed
  · split at failed
    · cases failed
      rfl
    · split at failed
      · cases failed
        rfl
      · split at failed
        · cases (lwipAssert_bind_ok.1 failed).2
        · cases (lwipAssert_bind_ok.1 failed).2

theorem tcpWriteLogged_undone (env : TcpEnv) (w : WriteArgs)
    (fits : ∀ seg ∈ pcb.unsent, seg.oversizeLeft < 65536) :
    Logged.Ensures AnyError (tcpWriteLogged env pcb w) (Undone pcb) := by
  unfold tcpWriteLogged
  split
  · exact .pure fun failed => by cases failed
  apply Logged.Ensures.lift_bind (tcpWriteChecks_spec pcb w.len).eq
  rintro ⟨err, checked⟩ ⟨spec, checks⟩
  dsimp only at spec ⊢
  split
  · apply Logged.Ensures.pure
    intro failed
    dsimp only at failed
    subst failed
    exact ⟨tcpWriteChecks_mem checks, rfl⟩
  · rename_i passed
    have same : checked = pcb := by
      cases spec with
      | inl refused => exact absurd refused.1 passed
      | inr passed => exact congrArg Prod.snd passed.1
    subst same
    cases last : checked.unsent.getLast? with
    | none => exact tcpWriteNew_undone
    | some lastUnsent =>
      exact tcpWriteExtend_undone last (fits lastUnsent (List.mem_of_getLast? last))

end Failed

/-- A call of `tcp_write` that returns `ERR_MEM` has changed nothing in the control block and its
segments but the flag `TF_NAGLEMEMERR`, and has freed every pbuf and every segment that it has
allocated, each once. -/
theorem tcpWrite_atomic (env : TcpEnv) (pcb pcb' : TcpPcb) (w : WriteArgs)
    (fits : ∀ seg ∈ pcb.unsent, seg.oversizeLeft < 65536)
    (failed : tcpWrite env pcb w = .ok (.mem, pcb')) :
    pcb' = { pcb with tfNaglememerr := true } ∧
      ∃ log, (tcpWriteLogged env pcb w).run = .ok ((.mem, pcb'), log) ∧ live log 0 = some 0 := by
  obtain ⟨log, run⟩ := Logged.erase_eq_ok failed
  obtain ⟨unchanged, freed⟩ := (tcpWriteLogged_undone env w fits).of_run run rfl
  exact ⟨unchanged, log, run, freed⟩

/-- A connection with two bytes in its last unsent segment and room for two more. -/
def shortTail : TcpPcb :=
  { tcpAlloc 0 with
    state := .established, mss := 4, sndWndMax := 100, sndQueuelen := 1
    unsent := [{ p := [pbufRam 36 (List.replicate 22 7)], len := 2, tcphdr := { seqno := 0 } }] }

/-- An allocator that gives two blocks to a call. -/
def twoBlocks : TcpEnv :=
  { alloc := fun n => n < 2, route := true, mtu := 1500, busy := fun _ => false
    output := fun _ => .ok, callback := .ok, ticks := 0, inputPcb := false, lwipDebug := true
    mem := List.replicate 9 1 }

/-- A data set for the theorem: two bytes go to a pbuf behind the last segment, four more to the
pbuf of a new segment, for which there is no memory. -/
theorem tcpWrite_atomic_shortTail :
    tcpWrite twoBlocks shortTail { arg := 1, len := 8, copy := true, more := false } =
      .ok (.mem, { shortTail with tfNaglememerr := true }) ∧
    (tcpWriteLogged twoBlocks shortTail { arg := 1, len := 8, copy := true, more := false }).run =
      .ok ((.mem, { shortTail with tfNaglememerr := true }),
        [.alloc 0, .alloc 1, .free 1, .free 0]) ∧
    live [.alloc 0, .alloc 1, .free 1, .free 0] (0 : Multiset Nat) = some 0 := by
  have failed : tcpWrite twoBlocks shortTail { arg := 1, len := 8, copy := true, more := false } =
      .ok (.mem, { shortTail with tfNaglememerr := true }) := by rfl
  have logged :
      (tcpWriteLogged twoBlocks shortTail { arg := 1, len := 8, copy := true, more := false }).run =
        .ok ((.mem, { shortTail with tfNaglememerr := true }),
          [.alloc 0, .alloc 1, .free 1, .free 0]) := by rfl
  obtain ⟨_, log, run, freed⟩ := tcpWrite_atomic twoBlocks shortTail _ _ (by decide) failed
  rw [logged] at run
  cases run
  exact ⟨failed, logged, freed⟩

end Lwip
