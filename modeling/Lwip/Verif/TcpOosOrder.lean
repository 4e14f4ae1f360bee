import Lwip.Verif.TcpAccounts
import Lwip.Verif.TcpWindow

/-!
# The order of the queue out of sequence

Segments out of sequence stay strictly sorted, apart from each other and behind the expected
number, whatever the segments hold and however many numbers the window test lets pass. The one
exception is a `SYN` among queued segments: taken off the queue, it moves the expected number by
one more than its data, over the start of a segment that was queued right behind its data.
-/

namespace Lwip

open Outcome Serial Transition List

variable {before : Option TcpSeg} {pcb' : TcpPcb} {event : TcpEvent}

/-! ## Ordered queues -/

/-- How far behind the expected number a segment starts. -/
def seqOffset (rcvNxt : UInt32) (seg : TcpSeg) : Nat := (seg.tcphdr.seqno - rcvNxt).toNat

/-- What is promised of the queue of segments out of sequence. -/
structure OoseqOrdered (rcvNxt : UInt32) (ooseq : List TcpSeg) : Prop where
  after : ∀ seg ∈ ooseq, seqGt seg.tcphdr.seqno rcvNxt = true
  /-- Seen from the expected number, sequence numbers increase strictly. -/
  sorted : ooseq.Pairwise fun seg later => seqOffset rcvNxt seg < seqOffset rcvNxt later
  /-- No byte has the sequence number of a byte of another segment. -/
  disjoint : ooseq.Pairwise fun seg later => ∀ j < seg.len, ∀ k < later.len,
    seg.tcphdr.seqno + UInt32.ofNat j ≠ later.tcphdr.seqno + UInt32.ofNat k
  length : ∀ seg ∈ ooseq, seg.len = seg.p.totLen
  fin : ∀ front seg back, ooseq = front ++ seg :: back → seg.tcphdr.flags.fin = true → back = []

/-- A segment in the half of the numbers behind the expected one, as long as its pbufs. -/
structure OosSeg (rcvNxt : UInt32) (seg : TcpSeg) : Prop where
  near : seqOffset rcvNxt seg < 2147483648
  length : seg.p.totLen = seg.len
  small : seg.len < 65536

/-- A queue that starts at least `lo` behind the expected number: each segment starts behind the
data of the one in front of it, and only the last one carries a `FIN`. -/
def Arranged (rcvNxt : UInt32) : Nat → List TcpSeg → Prop
  | _, [] => True
  | lo, seg :: next => lo ≤ seqOffset rcvNxt seg ∧ OosSeg rcvNxt seg ∧
      (seg.tcphdr.flags.fin = true → next = []) ∧
      Arranged rcvNxt (seqOffset rcvNxt seg + max seg.len 1) next

section Order

variable {rcvNxt : UInt32} {lo n : Nat} {seg : TcpSeg} {queue next : List TcpSeg}

theorem seqno_seqOffset (rcvNxt : UInt32) (seg : TcpSeg) :
    seg.tcphdr.seqno = place rcvNxt (seqOffset rcvNxt seg) := by
  rw [place, seqOffset, UInt32.ofNat_toNat, UInt32.add_comm, UInt32.sub_add_cancel]

theorem seqOffset_of_place (near : n < 4294967296) (seqno : seg.tcphdr.seqno = place rcvNxt n) :
    seqOffset rcvNxt seg = n := by
  have distance := toNat_place_sub_of_le rcvNxt (Nat.zero_le n) near
  rw [place_zero] at distance
  rw [seqOffset, seqno]
  exact distance

theorem Arranged.from_le {lo' : Nat} (arranged : Arranged rcvNxt lo queue) (earlier : lo' ≤ lo) :
    Arranged rcvNxt lo' queue := by
  cases queue with
  | nil => trivial
  | cons seg next => exact ⟨Nat.le_trans earlier arranged.1, arranged.2⟩

/-- The rest of a queue starts behind its first segment. -/
theorem Arranged.tail (arranged : Arranged rcvNxt lo (seg :: next)) :
    Arranged rcvNxt (seqOffset rcvNxt seg + 1) next :=
  arranged.2.2.2.from_le (Nat.add_le_add_left (Nat.le_max_right _ _) _)

/-- Every segment of a queue. -/
theorem Arranged.mem (arranged : Arranged rcvNxt lo queue) :
    ∀ seg ∈ queue, lo ≤ seqOffset rcvNxt seg ∧ OosSeg rcvNxt seg := by
  induction queue generalizing lo with
  | nil =>
    intro seg member
    cases member
  | cons first next ih =>
    intro seg member
    cases member with
    | head => exact ⟨arranged.1, arranged.2.1⟩
    | tail _ later =>
      have found := ih arranged.2.2.2 seg later
      have order := arranged.1
      exact ⟨by omega, found.2⟩

theorem Arranged.noFin {second : TcpSeg} (arranged : Arranged rcvNxt lo (seg :: second :: next)) :
    seg.tcphdr.flags.fin ≠ true :=
  fun fin => absurd (arranged.2.2.1 fin) (cons_ne_nil _ _)

/-- The queue behind a segment in front. -/
theorem Arranged.behind (arranged : Arranged rcvNxt lo (before.toList ++ queue)) :
    Arranged rcvNxt lo queue := by
  cases before with
  | none => exact arranged
  | some prev =>
    have order := arranged.1
    exact arranged.2.2.2.from_le (by omega)

/-- Later segments start behind the data of earlier ones. -/
theorem Arranged.pairwise (arranged : Arranged rcvNxt lo queue) :
    queue.Pairwise fun seg later =>
      seqOffset rcvNxt seg + max seg.len 1 ≤ seqOffset rcvNxt later := by
  induction queue generalizing lo with
  | nil => exact List.Pairwise.nil
  | cons seg next ih =>
    apply List.Pairwise.cons
    · intro later member
      exact (arranged.2.2.2.mem later member).1
    · exact ih arranged.2.2.2

/-- Only the last segment carries a `FIN`, wherever it is. -/
theorem Arranged.fin_last {front back : List TcpSeg}
    (arranged : Arranged rcvNxt lo (front ++ seg :: back))
    (fin : seg.tcphdr.flags.fin = true) : back = [] := by
  induction front generalizing lo with
  | nil => exact arranged.2.2.1 fin
  | cons first front ih => exact ih arranged.2.2.2

/-- The bytes of segments in order have different numbers. -/
theorem bytes_ne {later : TcpSeg} {j k : Nat} (inFront : j < seg.len) (behind : k < later.len)
    (order : seqOffset rcvNxt seg + max seg.len 1 ≤ seqOffset rcvNxt later)
    (last : OosSeg rcvNxt later) :
    seg.tcphdr.seqno + UInt32.ofNat j ≠ later.tcphdr.seqno + UInt32.ofNat k := by
  have near := last.near
  have small := last.small
  rw [seqno_seqOffset rcvNxt seg, seqno_seqOffset rcvNxt later, place_add, place_add]
  intro same
  have equal := place_inj rcvNxt same (by omega) (by omega)
  omega

/-- An arranged queue behind the expected number is ordered as promised. -/
theorem Arranged.ordered (arranged : Arranged rcvNxt 1 queue) : OoseqOrdered rcvNxt queue where
  after := by
    intro seg member
    have found := arranged.mem seg member
    have near := found.2.near
    have behind := seqGt_place rcvNxt (show 0 ≤ seqOffset rcvNxt seg + 2147483648 by omega)
      (show seqOffset rcvNxt seg < 0 + 2147483648 by omega)
    rw [place_zero, ← seqno_seqOffset] at behind
    exact behind.mpr found.1
  sorted := arranged.pairwise.imp fun order => by omega
  disjoint := by
    have pairs := List.Pairwise.and_mem.mp arranged.pairwise
    exact pairs.imp fun ⟨_, member, order⟩ j inFront k behind =>
      bytes_ne inFront behind order (arranged.mem _ member).2
  length := fun seg member => (arranged.mem seg member).2.length.symm
  fin := by
    intro front seg back split fin
    rw [split] at arranged
    exact arranged.fin_last fin

/-- Seen from a later number that no segment starts in front of, the queue is arranged alike. -/
theorem Arranged.moveOn (arranged : Arranged rcvNxt lo queue) (passed : n ≤ lo) :
    Arranged (place rcvNxt n) (lo - n) queue := by
  induction queue generalizing lo with
  | nil => trivial
  | cons seg next ih =>
    have order := arranged.1
    have near := arranged.2.1.near
    have nearer : seqOffset (place rcvNxt n) seg = seqOffset rcvNxt seg - n := by
      have distance := toNat_place_sub_of_le rcvNxt
        (show n ≤ seqOffset rcvNxt seg by omega) (by omega)
      rw [← seqno_seqOffset] at distance
      exact distance
    have behind := ih arranged.2.2.2 (by omega)
    have shifted : seqOffset rcvNxt seg + max seg.len 1 - n =
        seqOffset (place rcvNxt n) seg + max seg.len 1 := by omega
    rw [shifted] at behind
    exact ⟨by omega, ⟨by omega, arranged.2.1.length, arranged.2.1.small⟩, arranged.2.2.1, behind⟩

end Order

/-- The variables for a segment as `tcp_input` sets them. -/
structure Prepared (i : TcpInput) : Prop where
  header : i.inseg.tcphdr.seqno = i.seqno
  length : i.inseg.p.totLen = i.inseg.len
  small : i.inseg.len < 65536
  tcplen : i.tcplen = u16 (tcpTcplen i.inseg)

theorem prepared_tcpInputOf {p : Chain} (tcphdr : TcpHdr) (opts : List UInt8)
    (small : p.totLen < 65536) : Prepared (tcpInputOf p tcphdr opts) :=
  ⟨rfl, rfl, small, rfl⟩

/-- A length in sequence numbers that is not zero has not overflowed. -/
theorem Prepared.whole {i : TcpInput} (prepared : Prepared i) (positive : 0 < i.tcplen) :
    i.tcplen = tcpTcplen i.inseg := by
  have upper := tcpTcplen_le i.inseg
  have small := prepared.small
  have whole := prepared.tcplen
  unfold u16 at whole
  omega

/-! ## Segments out of sequence -/

section Insert

variable {rcvNxt : UInt32} {lo n rcvWnd : Nat} {seg cseg prev : TcpSeg} {queue next : List TcpSeg}

/-- A shortened segment is as long as its pbufs. -/
theorem tcpSegTrim_length {len : Nat} (length : seg.p.totLen = seg.len) (small : seg.len < 65536)
    (shorter : len ≤ seg.len) :
    Ensures AnyError (tcpSegTrim seg len) fun trimmed =>
      trimmed.tcphdr = seg.tcphdr ∧ trimmed.len = len ∧ trimmed.p.totLen = len := by
  apply (tcpSegTrim_spec seg len).any.mono
  intro trimmed found
  obtain ⟨p, rest, cut, same⟩ := found
  rw [same]
  exact ⟨rfl, rfl, pbufRealloc_totLen (by omega) (by omega) cut⟩

/-- A new segment takes the place of those that it covers. What is left starts behind it, and it
takes over a `FIN` with nothing left. -/
theorem tcpOosCovered_arranged (seqno : cseg.tcphdr.seqno = place rcvNxt n)
    (length : cseg.p.totLen = cseg.len) (small : cseg.len < 65536)
    (arranged : Arranged rcvNxt n queue)
    (longer : ∀ seg ∈ queue, seqOffset rcvNxt seg = n → seg.len ≤ cseg.len) :
    Ensures AnyError (tcpOosCovered (place rcvNxt n) cseg queue) fun result =>
      result.1.tcphdr.seqno = place rcvNxt n ∧ result.1.p.totLen = result.1.len ∧
        result.1.len < 65536 ∧ Arranged rcvNxt (n + 1) result.2 ∧
        (cseg.tcphdr.flags.fin ≠ true → result.1.tcphdr.flags.fin = true → result.2 = []) := by
  induction queue generalizing cseg with
  | nil => exact .ok ⟨seqno, length, small, trivial, fun _ _ => rfl⟩
  | cons first more ih =>
    have order := arranged.1
    have behind : Arranged rcvNxt (n + 1) more := arranged.tail.from_le (by omega)
    have later : ∀ seg ∈ more, seqOffset rcvNxt seg ≠ n := by
      intro seg member
      have after := (behind.mem seg member).1
      omega
    unfold tcpOosCovered
    split
    · apply ensures_skip
      intro _
      split
      · rename_i fin
        rw [arranged.2.2.1 fin]
        exact .ok ⟨seqno, length, small, trivial, fun _ _ => rfl⟩
      · exact ih seqno length small (behind.from_le (Nat.le_succ n))
          fun seg member same => absurd same (later seg member)
    · rename_i uncovered
      refine .ok ⟨seqno, length, small, ⟨?_, arranged.2⟩,
        fun noFin fin => absurd fin noFin⟩
      -- a segment at the same place would be covered
      by_cases same : seqOffset rcvNxt first = n
      · have shorter := longer first mem_cons_self same
        rw [seqno_seqOffset rcvNxt first, same, place_add, place_add,
          seqGeq_place rcvNxt (by omega) (by omega)] at uncovered
        omega
      · omega

/-- A new segment ends in front of the one behind it. -/
theorem tcpOosTrim_arranged (near : n < 2147483648) (length : cseg.p.totLen = cseg.len)
    (small : cseg.len < 65536) (arranged : Arranged rcvNxt (n + 1) next) :
    Ensures AnyError (tcpOosTrim (place rcvNxt n) cseg next) fun trimmed =>
      trimmed.tcphdr = cseg.tcphdr ∧ trimmed.p.totLen = trimmed.len ∧ trimmed.len < 65536 ∧
        Arranged rcvNxt (n + max trimmed.len 1) next := by
  cases next with
  | nil => exact .ok ⟨rfl, length, small, trivial⟩
  | cons first more =>
    have order := arranged.1
    have there := arranged.2.1.near
    unfold tcpOosTrim
    dsimp only
    rw [seqno_seqOffset rcvNxt first, place_add]
    split
    · rename_i overlaps
      rw [seqGt_place rcvNxt (by omega) (by omega)] at overlaps
      rw [toNat_place_sub_of_le rcvNxt (by omega) (by omega), u16_of_lt (by omega)]
      apply (tcpSegTrim_length length small (by omega)).mono
      intro trimmed cut
      exact ⟨cut.1, by omega, by omega, ⟨by omega, arranged.2⟩⟩
    · rename_i apart
      rw [seqGt_place rcvNxt (by omega) (by omega)] at apart
      exact .ok ⟨rfl, length, small, ⟨by omega, arranged.2⟩⟩

/-- `tcp_oos_insert_segment` arranges the queue from the new segment on. -/
theorem tcpOosInsertSegment_arranged (seqno : cseg.tcphdr.seqno = place rcvNxt n)
    (near : n < 2147483648) (length : cseg.p.totLen = cseg.len) (small : cseg.len < 65536)
    (arranged : Arranged rcvNxt n next)
    (longer : ∀ seg ∈ next, seqOffset rcvNxt seg = n → seg.len ≤ cseg.len) :
    Ensures AnyError (tcpOosInsertSegment (place rcvNxt n) cseg next) (Arranged rcvNxt n) := by
  have offset : ∀ seg : TcpSeg, seg.tcphdr.seqno = place rcvNxt n → seqOffset rcvNxt seg = n :=
    fun seg => seqOffset_of_place (by omega)
  unfold tcpOosInsertSegment
  split
  · apply ensures_skip
    intro _
    have here := offset cseg seqno
    exact .ok ⟨by omega, ⟨by omega, length, small⟩, fun _ => rfl, trivial⟩
  rename_i noFin
  apply (tcpOosCovered_arranged seqno length small arranged longer).bind
  intro covering found
  apply (tcpOosTrim_arranged near found.2.1 found.2.2.1 found.2.2.2.1).bind
  intro trimmed cut
  have here := offset trimmed (by rw [cut.1, found.1])
  refine .ok ⟨by omega, ⟨by omega, cut.2.1, cut.2.2.1⟩, ?_, ?_⟩
  · rw [cut.1]
    exact found.2.2.2.2 noFin
  · rw [here]
    exact cut.2.2.2

/-- The segment in front of a new one ends in front of it. -/
theorem tcpTrimPrev_arranged (there : OosSeg rcvNxt prev) (before : seqOffset rcvNxt prev < n)
    (near : n < 2147483648) :
    Ensures AnyError (tcpTrimPrev (place rcvNxt n) prev) fun trimmed =>
      trimmed.tcphdr = prev.tcphdr ∧ trimmed.p.totLen = trimmed.len ∧ trimmed.len < 65536 ∧
        seqOffset rcvNxt prev + max trimmed.len 1 ≤ n := by
  have small := there.small
  unfold tcpTrimPrev
  rw [seqno_seqOffset rcvNxt prev, place_add]
  split
  · rename_i overlaps
    rw [seqGt_place rcvNxt (by omega) (by omega)] at overlaps
    rw [toNat_place_sub_of_le rcvNxt (by omega) (by omega), u16_of_lt (by omega)]
    apply (tcpSegTrim_length there.length there.small (by omega)).mono
    intro trimmed cut
    exact ⟨cut.1, by omega, by omega, by omega⟩
  · rename_i apart
    rw [seqGt_place rcvNxt (by omega) (by omega)] at apart
    exact .ok ⟨rfl, there.length, there.small, by omega⟩

variable {i : TcpInput} {copy : Option TcpSeg} (prepared : Prepared i) (positive : 0 < i.tcplen)
  (seqno : i.seqno = place rcvNxt n) (width : rcvWnd < 65536)
  (accepted : n < rcvWnd ∨ (rcvWnd = 0 ∧ n = 2147483647))
  (copied : copy = none ∨ copy = some i.inseg)

include prepared positive seqno width accepted

/-- An appended segment is trimmed to the window. -/
theorem tcpTrimAppended_arranged :
    Ensures AnyError (tcpTrimAppended rcvNxt rcvWnd i i.inseg) fun appended =>
      appended.tcphdr.seqno = place rcvNxt n ∧ appended.p.totLen = appended.len ∧
        appended.len < 65536 := by
  have whole := prepared.whole positive
  have upper := tcpTcplen_le i.inseg
  have small := prepared.small
  have kept : i.inseg.tcphdr.seqno = place rcvNxt n := by rw [prepared.header, seqno]
  have ends : UInt32.ofNat i.tcplen + i.seqno = place rcvNxt (n + i.tcplen) := by
    rw [seqno, UInt32.add_comm, place_add]
  have edge : rcvNxt + UInt32.ofNat rcvWnd = place rcvNxt rcvWnd := rfl
  unfold tcpTrimAppended
  rw [ends, edge]
  split
  · rename_i overruns
    cases accepted with
    | inl inside =>
      rw [seqGt_place rcvNxt (by omega) (by omega)] at overruns
      rw [seqno, toNat_place_sub_of_le rcvNxt (by omega) (by omega), u16_of_lt (by omega)]
      have shorter : rcvWnd - n ≤ (clearFin i.inseg).len := by
        show rcvWnd - n ≤ i.inseg.len
        omega
      have cut : Ensures AnyError (tcpSegTrim (clearFin i.inseg) (rcvWnd - n)) _ :=
        tcpSegTrim_length prepared.length prepared.small shorter
      apply cut.bind
      intro appended found
      apply ensures_pass trivial
      refine .ok ⟨?_, by omega, by omega⟩
      rw [found.1]
      exact kept
    | inr full =>
      -- the number that an empty window lets pass is not compared as one behind the window
      have distance := toNat_place_sub_of_le rcvNxt (show rcvWnd ≤ n + i.tcplen by omega) (by omega)
      rw [seqGt, decide_eq_true_iff, toS32, if_neg (by omega)] at overruns
      omega
  · exact .ok ⟨kept, prepared.length, prepared.small⟩

include copied

/-- A segment is appended behind the last one of a queue. -/
theorem tcpOosAppend_arranged {last : TcpSeg} (arranged : Arranged rcvNxt lo [last])
    (before : seqOffset rcvNxt last < n) :
    Ensures AnyError (tcpOosAppend rcvNxt rcvWnd copy i last) (Arranged rcvNxt lo) := by
  have order := arranged.1
  have there := arranged.2.1
  unfold tcpOosAppend
  split
  · exact .ok arranged
  rename_i noFin
  cases copied with
  | inl failed =>
    rw [failed]
    exact .ok arranged
  | inr done =>
    rw [done, seqno]
    apply (tcpTrimPrev_arranged there before (by omega)).bind
    intro last' cut
    apply (tcpTrimAppended_arranged prepared positive seqno width accepted).bind
    intro appended found
    have kept : seqOffset rcvNxt last' = seqOffset rcvNxt last := by
      rw [seqOffset, seqOffset, cut.1]
    have here : seqOffset rcvNxt appended = n := seqOffset_of_place (by omega) found.1
    refine .ok ⟨by omega, ⟨by omega, cut.2.1, cut.2.2.1⟩, ?_, by omega,
      ⟨by omega, found.2.1, found.2.2⟩, fun _ => rfl, trivial⟩
    rw [cut.1]
    exact fun fin => absurd fin noFin

/-- A segment out of sequence is put at its place in the queue. -/
theorem tcpOosPlace_arranged (start : lo ≤ n) (earlier : ∀ prev ∈ before, seqOffset rcvNxt prev < n)
    (arranged : Arranged rcvNxt lo (before.toList ++ queue)) :
    Ensures AnyError (tcpOosPlace rcvNxt rcvWnd copy i before queue) (Arranged rcvNxt lo) := by
  have near : n < 2147483648 := by omega
  have kept : i.inseg.tcphdr.seqno = place rcvNxt n := by rw [prepared.header, seqno]
  induction queue generalizing before lo with
  | nil =>
    rw [append_nil] at arranged
    exact .ok arranged
  | cons first more ih =>
    have suffix := arranged.behind
    have there := suffix.2.1.near
    have offset := seqno_seqOffset rcvNxt first
    -- the queue from the new segment on
    have inserts : n < seqOffset rcvNxt first ∨
        (n = seqOffset rcvNxt first ∧ first.len < i.inseg.len) →
        Ensures AnyError (tcpOosInsertSegment i.seqno i.inseg (first :: more))
          (Arranged rcvNxt n) := by
      intro order
      have from_n : Arranged rcvNxt n (first :: more) := ⟨by omega, suffix.2⟩
      rw [seqno]
      apply tcpOosInsertSegment_arranged kept near prepared.length prepared.small from_n
      intro seg member same
      cases member with
      | head => omega
      | tail _ later =>
        have after := (suffix.tail.mem seg later).1
        omega
    -- the queue behind a segment in front of the new one
    have appends : ∀ {lo' : Nat}, Arranged rcvNxt lo' (first :: more) →
        seqOffset rcvNxt first < n → more = [] →
        Ensures AnyError (tcpOosAppend rcvNxt rcvWnd copy i first) (Arranged rcvNxt lo') := by
      intro lo' arranged' order last
      rw [last] at arranged'
      exact tcpOosAppend_arranged prepared positive seqno width accepted copied arranged' order
    have continues : ∀ {lo' : Nat}, Arranged rcvNxt lo' (first :: more) →
        seqOffset rcvNxt first < n →
        Ensures AnyError (tcpOosPlace rcvNxt rcvWnd copy i (some first) more)
          (Arranged rcvNxt lo') := by
      intro lo' arranged' order
      have next : Arranged rcvNxt lo' ((some first).toList ++ more) := arranged'
      have place := arranged'.1
      apply ih (by omega) _ next
      rintro _ ⟨⟩
      exact order
    cases before with
    | none =>
      exact tcpOosPlace_ensures copied seqno offset (by omega) (by simp) arranged inserts
        (fun _ _ placed => placed.from_le start) (by simp) (appends arranged)
        fun beyond _ => continues arranged beyond
    | some prev =>
      have order := earlier prev rfl
      have follows := arranged.2.2.2
      have apart := follows.1
      have tail : ∀ {queue' : List TcpSeg},
          Arranged rcvNxt (seqOffset rcvNxt prev + max prev.len 1) queue' →
          Arranged rcvNxt lo (prev :: queue') :=
        fun behind => ⟨arranged.1, arranged.2.1, fun fin => absurd fin arranged.noFin, behind⟩
      apply tcpOosPlace_ensures copied seqno offset (by omega) _ arranged inserts
      · rintro (equal | none) queue' placed
        · exact tail (placed.from_le (by omega))
        · cases none
      · rintro _ _ ⟨⟩
        rw [seqno]
        apply (tcpTrimPrev_arranged arranged.2.1 order near).mono
        intro prev' cut queue' inserted
        have same : seqOffset rcvNxt prev' = seqOffset rcvNxt prev := by
          rw [seqOffset, seqOffset, cut.1]
        have place := arranged.1
        refine ⟨by omega, ⟨by omega, cut.2.1, cut.2.2.1⟩, ?_, inserted.from_le (by omega)⟩
        rw [cut.1]
        exact fun fin => absurd fin arranged.noFin
      · exact fun beyond last => (appends follows beyond last).mono fun _ => tail
      · exact fun beyond _ => (continues follows beyond).mono fun _ => tail
      · rintro _ ⟨⟩
        exact ⟨_, seqno_seqOffset rcvNxt prev, order, by omega, by omega⟩

end Insert

/-- What is known of a control block after the data of a segment. -/
structure OosReceived (pcb pcb' : TcpPcb) : Prop where
  arranged : Arranged pcb'.rcvNxt 1 pcb'.ooseq
  window : pcb'.rcvWnd ≤ pcb.rcvWnd
  state : StateAfterData pcb.state pcb'.state

theorem OosReceived.of_side {pcb : TcpPcb} (arranged : Arranged pcb.rcvNxt 1 pcb.ooseq)
    (same : receiveSide pcb' = receiveSide pcb) : OosReceived pcb pcb' := by
  simp only [receiveSide, Prod.mk.injEq] at same
  constructor
  · rw [same.1, same.2.2.1]
    exact arranged
  · exact Nat.le_of_eq same.2.1
  · exact .inl same.2.2.2

/-- A segment out of sequence leaves the queue arranged, with or without memory for a copy. -/
theorem tcpReceiveOoseq_arranged (env : TcpEnv) {i : TcpInput} {pcb : TcpPcb}
    (prepared : Prepared i) (positive : 0 < i.tcplen) (width : pcb.rcvWnd < 65536)
    (accepted : seqBetween i.seqno pcb.rcvNxt (pcb.rcvNxt + UInt32.ofNat pcb.rcvWnd - 1) = true)
    (ahead : pcb.rcvNxt ≠ i.seqno) (arranged : Arranged pcb.rcvNxt 1 pcb.ooseq) :
    Ensures AnyError (tcpReceiveOoseq env i pcb) fun result => OosReceived pcb result.2 := by
  have seqno : i.seqno = place pcb.rcvNxt (i.seqno - pcb.rcvNxt).toNat := by
    rw [place, UInt32.ofNat_toNat, UInt32.add_comm, UInt32.sub_add_cancel]
  rw [seqBetween_window_iff _ _ width] at accepted
  have later : 1 ≤ (i.seqno - pcb.rcvNxt).toNat := by
    apply Nat.pos_of_ne_zero
    intro zero
    rw [zero, place_zero] at seqno
    exact ahead seqno.symm
  generalize (i.seqno - pcb.rcvNxt).toNat = n at seqno accepted later
  have sides := (tcpSendEmptyAck_sides env 1 pcb).1
  unfold tcpReceiveOoseq
  generalize (tcpSendEmptyAck env 1 pcb).2 = pcb' at sides
  have kept := OosReceived.of_side arranged sides
  simp only [receiveSide, Prod.mk.injEq] at sides
  have copied : ∀ used, tcpSegCopy env 2 used i.inseg = none ∨
      tcpSegCopy env 2 used i.inseg = some i.inseg := by
    intro used
    unfold tcpSegCopy
    split
    · exact .inr rfl
    · exact .inl rfl
  have copied := copied (tcpSegsUsed pcb')
  dsimp only
  generalize tcpSegCopy env 2 (tcpSegsUsed pcb') i.inseg = copy at copied
  have enqueued : Ensures AnyError (tcpOosEnqueue copy i pcb') (Arranged pcb'.rcvNxt 1) := by
    have behind := kept.arranged
    unfold tcpOosEnqueue
    rw [sides.1, sides.2.1]
    rw [sides.1] at behind
    split
    · cases copied with
      | inl failed =>
        rw [failed]
        exact .ok trivial
      | inr done =>
        rw [done]
        have here : seqOffset pcb.rcvNxt i.inseg = n :=
          seqOffset_of_place (by omega) (by rw [prepared.header, seqno])
        exact .ok ⟨by omega, ⟨by omega, prepared.length, prepared.small⟩, fun _ => rfl, trivial⟩
    · have alone : Arranged pcb.rcvNxt 1 ((none : Option TcpSeg).toList ++ pcb'.ooseq) := behind
      exact tcpOosPlace_arranged prepared positive seqno width accepted copied later
        (fun prev member => absurd member (Option.not_mem_none prev)) alone
  apply enqueued.bind
  intro ooseq placed
  exact .ok ⟨placed, kept.window, kept.state⟩

/-! ## Segments in sequence -/

/-- A queued `SYN` comes in sequence with a segment right behind its data: new data reaches up to
`reach` behind the expected number, queued segments fill what is missing in front of the `SYN`, and
the new data does not cover the segment with the `SYN`. -/
def SynDelivered (rcvNxt : UInt32) (reach : Nat) (ooseq : List TcpSeg) : Prop :=
  ∃ front syn next back, ooseq = front ++ syn :: next :: back ∧ syn.tcphdr.flags.syn = true ∧
    next.tcphdr.seqno = syn.tcphdr.seqno + UInt32.ofNat syn.len ∧
    reach < seqOffset rcvNxt syn + syn.len ∧
    ∀ k, reach ≤ k → k < seqOffset rcvNxt syn →
      ∃ seg ∈ front, seqOffset rcvNxt seg ≤ k ∧ k < seqOffset rcvNxt seg + tcpTcplen seg

section Inseq

variable {rcvNxt : UInt32} {lo rcvWnd : Nat} {inseg : TcpSeg} {queue ooseq : List TcpSeg}

/-- Numbers near to the expected one tell their distances apart. -/
theorem reach_eq {m n : Nat} (near : m < 4294967296) (near' : n < 4294967296)
    (same : rcvNxt + UInt32.ofNat m = rcvNxt + UInt32.ofNat n) : m = n :=
  place_inj rcvNxt same (by omega) (by omega)

/-- The segment in sequence reaches up to its end or to the end of the window. -/
theorem tcpTrimToWnd_reach (seqno : inseg.tcphdr.seqno = rcvNxt) (small : inseg.len < 65536)
    (width : rcvWnd < 65536) :
    Ensures AnyError (tcpTrimToWnd rcvNxt rcvWnd inseg) fun trimmed =>
      tcpTcplen trimmed = min (tcpTcplen inseg) rcvWnd ∧ trimmed.len < 65536 ∧
        (trimmed.tcphdr.flags.fin = false → inseg.tcphdr.flags.fin = true →
          rcvWnd < tcpTcplen inseg) := by
  unfold tcpTrimToWnd
  split
  · rename_i overruns
    have bounded : ∀ z : Int, toU16 z < 65536 := by
      intro z
      unfold toU16
      omega
    apply (tcpSegTrim_spec _ _).any.bind
    intro trimmed found
    obtain ⟨p, rest, _, same⟩ := found
    have header : trimmed.tcphdr.seqno = rcvNxt := by
      rw [same]
      exact seqno
    have length : trimmed.len < 65536 := by
      rw [same]
      split
      · exact bounded _
      · exact width
    apply ensures_assert (fun _ => trivial)
    intro ends
    rw [header] at ends
    have upper := tcpTcplen_le trimmed
    have equal := reach_eq (by omega) (by omega) ends
    exact .ok ⟨by omega, length, fun _ _ => overruns⟩
  · rename_i fits
    refine .ok ⟨by omega, small, fun noFin fin => ?_⟩
    rw [noFin] at fin
    cases fin

/-- The queued segments that are left end behind the segment in sequence, which is as it was unless
none is left. -/
theorem tcpOoseqCovered_arranged (small : inseg.len < 65536)
    (arranged : Arranged rcvNxt lo queue) :
    Ensures AnyError (tcpOoseqCovered rcvNxt inseg queue) fun result =>
      (∃ gone, queue = gone ++ result.2) ∧ Arranged rcvNxt lo result.2 ∧
        result.1.len = inseg.len ∧ (result.2 ≠ [] → result.1 = inseg ∧
          ∀ seg ∈ result.2, tcpTcplen inseg < seqOffset rcvNxt seg + seg.len) := by
  induction queue generalizing lo inseg with
  | nil => exact .ok ⟨⟨[], rfl⟩, trivial, rfl, fun some => absurd rfl some⟩
  | cons first more ih =>
    have behind : Arranged rcvNxt lo more := arranged.tail.from_le (by have := arranged.1; omega)
    unfold tcpOoseqCovered
    split
    · apply ensures_skip
      intro _
      split
      · rename_i takes
        rw [arranged.2.2.1 takes.1]
        exact .ok ⟨⟨[first], rfl⟩, trivial, rfl, fun some => absurd rfl some⟩
      · apply (ih small behind).mono
        intro result found
        obtain ⟨⟨gone, split⟩, rest⟩ := found
        exact ⟨⟨first :: gone, by rw [split, cons_append]⟩, rest⟩
    · rename_i uncovered
      have upper := tcpTcplen_le inseg
      have ends : tcpTcplen inseg < seqOffset rcvNxt first + first.len := by
        by_cases far : seqOffset rcvNxt first + first.len ≤ tcpTcplen inseg + 2147483648
        · have edge : rcvNxt + UInt32.ofNat (tcpTcplen inseg) =
              place rcvNxt (tcpTcplen inseg) := rfl
          rw [edge, seqno_seqOffset rcvNxt first, place_add,
            seqGeq_place rcvNxt far (by omega)] at uncovered
          omega
        · omega
      refine .ok ⟨⟨[], rfl⟩, arranged, rfl, fun _ => ⟨rfl, ?_⟩⟩
      intro seg member
      cases member with
      | head => exact ends
      | tail _ later =>
        have after := (arranged.2.2.2.mem seg later).1
        omega

/-- The segment in sequence ends in front of the first queued one. -/
theorem tcpTrimToOoseq_arranged (small : inseg.len < 65536) (arranged : Arranged rcvNxt lo queue) :
    Ensures AnyError (tcpTrimToOoseq rcvNxt inseg queue) fun trimmed =>
      Arranged rcvNxt (tcpTcplen trimmed) queue ∧ tcpTcplen trimmed ≤ tcpTcplen inseg := by
  cases queue with
  | nil => exact .ok ⟨trivial, Nat.le_refl _⟩
  | cons first more =>
    have near := arranged.2.1.near
    have upper := tcpTcplen_le inseg
    have edge : rcvNxt + UInt32.ofNat (tcpTcplen inseg) = place rcvNxt (tcpTcplen inseg) := rfl
    have compare : seqGt (rcvNxt + UInt32.ofNat (tcpTcplen inseg)) first.tcphdr.seqno = true ↔
        seqOffset rcvNxt first < tcpTcplen inseg := by
      rw [edge, seqno_seqOffset rcvNxt first, seqGt_place rcvNxt (by omega) (by omega)]
    unfold tcpTrimToOoseq
    dsimp only
    rw [if_congr compare rfl rfl]
    split
    · apply (tcpSegTrim_spec _ _).any.bind
      intro trimmed found
      obtain ⟨p, rest, _, same⟩ := found
      have length : trimmed.len < 65536 := by
        rw [same]
        dsimp only
        split
        · unfold toU16
          omega
        · exact u16_lt _
      apply ensures_assert (fun _ => trivial)
      intro ends
      have upper' := tcpTcplen_le trimmed
      rw [seqno_seqOffset rcvNxt first] at ends
      have equal := reach_eq (by omega) (by omega) ends
      exact .ok ⟨⟨by omega, arranged.2⟩, by omega⟩
    · exact .ok ⟨⟨by omega, arranged.2⟩, Nat.le_refl _⟩

/-- What data in sequence leaves of the queue starts behind the data. -/
theorem tcpAdjustOoseq_arranged (small : inseg.len < 65536) (arranged : Arranged rcvNxt lo ooseq) :
    Ensures AnyError (tcpAdjustOoseq rcvNxt inseg ooseq) fun result =>
      Arranged rcvNxt (tcpTcplen result.1) result.2 ∧
        (result.2 ≠ [] → (∃ gone, ooseq = gone ++ result.2) ∧ inseg.tcphdr.flags.fin = false ∧
          tcpTcplen result.1 ≤ tcpTcplen inseg ∧
          ∀ seg ∈ result.2, tcpTcplen inseg < seqOffset rcvNxt seg + seg.len) := by
  unfold tcpAdjustOoseq
  split
  · apply ensures_skip
    intro _
    exact .ok ⟨trivial, fun some => absurd rfl some⟩
  rename_i noFin
  apply (tcpOoseqCovered_arranged small arranged).bind
  intro covering found
  apply (tcpTrimToOoseq_arranged (by rw [found.2.2.1]; exact small) found.2.1).bind
  intro trimmed cut
  refine .ok ⟨cut.1, fun left => ?_⟩
  obtain ⟨unchanged, ahead⟩ := found.2.2.2 left
  rw [unchanged] at cut
  exact ⟨found.1, Bool.not_eq_true _ ▸ noFin, cut.2, ahead⟩

/-- What is left of a queue behind a segment that is taken off starts behind its numbers, unless
another segment starts right behind the data of a `SYN`. -/
theorem Arranged.taken {cseg : TcpSeg} (arranged : Arranged rcvNxt lo (cseg :: queue))
    (apart : ∀ next back, queue = next :: back → cseg.tcphdr.flags.syn = true →
      next.tcphdr.seqno ≠ cseg.tcphdr.seqno + UInt32.ofNat cseg.len) :
    Arranged rcvNxt (seqOffset rcvNxt cseg + tcpTcplen cseg) queue := by
  have behind := arranged.2.2.2
  cases queue with
  | nil => trivial
  | cons next back =>
    have noFin : cseg.tcphdr.flags.fin = false := Bool.not_eq_true _ ▸ arranged.noFin
    have order := behind.1
    refine ⟨?_, behind.2⟩
    by_cases syn : cseg.tcphdr.flags.syn = true
    · have different := apart next back rfl syn
      have gap : seqOffset rcvNxt next ≠ seqOffset rcvNxt cseg + cseg.len := by
        intro same
        rw [seqno_seqOffset rcvNxt next, seqno_seqOffset rcvNxt cseg, place_add, same] at different
        exact different rfl
      have upper := tcpTcplen_le cseg
      omega
    · rw [tcpTcplen_plain (Bool.not_eq_true _ ▸ syn) noFin]
      omega

/-- Segments are taken off the queue until one starts behind the expected number. The induction
carries that `front`, what has left the queue, fills the numbers from `reach` on. -/
theorem tcpDequeue_arranged {reach r : Nat} {front : List TcpSeg} {i : TcpInput} {pcb : TcpPcb}
    (held : ¬SynDelivered rcvNxt reach ooseq) (split : ooseq = front ++ queue)
    (expected : pcb.rcvNxt = place rcvNxt r) (arranged : Arranged rcvNxt r queue)
    (filled : ∀ k, reach ≤ k → k < r →
      ∃ seg ∈ front, seqOffset rcvNxt seg ≤ k ∧ k < seqOffset rcvNxt seg + tcpTcplen seg)
    (ahead : ∀ seg ∈ queue, reach < seqOffset rcvNxt seg + seg.len) :
    Ensures AnyError (tcpDequeue queue i pcb) fun result => OosReceived pcb result.2 := by
  induction queue generalizing r front i pcb with
  | nil => exact .ok ⟨trivial, Nat.le_refl _, Or.inl rfl⟩
  | cons cseg next ih =>
    have order := arranged.1
    have near := arranged.2.1.near
    unfold tcpDequeue
    split
    · rename_i inSequence
      have here : seqOffset rcvNxt cseg = r := by
        rw [expected, seqno_seqOffset rcvNxt cseg] at inSequence
        exact place_inj rcvNxt inSequence (by omega) (by omega)
      have behind : Arranged rcvNxt (r + tcpTcplen cseg) next := by
        rw [← here]
        apply arranged.taken
        intro second back same syn adjoins
        rw [same] at split
        apply held
        exact ⟨front, cseg, second, back, split, syn, adjoins, ahead cseg mem_cons_self,
          by rw [here]; exact filled⟩
      apply (tcpAdvance_spec (fun _ _ => trivial) (Or.inl trivial)).bind
      intro advanced found
      obtain ⟨enough, rcvAnnWnd, same⟩ := found
      apply ensures_skip
      intro recvData
      have expected' : advanced.rcvNxt = place rcvNxt (r + tcpTcplen cseg) := by
        rw [same, ← place_add, ← expected]
      have filled' : ∀ k, reach ≤ k → k < r + tcpTcplen cseg → ∃ seg ∈ front ++ [cseg],
          seqOffset rcvNxt seg ≤ k ∧ k < seqOffset rcvNxt seg + tcpTcplen seg := by
        intro k from_reach below
        by_cases early : k < r
        · obtain ⟨seg, member, spans⟩ := filled k from_reach early
          exact ⟨seg, mem_append_left _ member, spans⟩
        · exact ⟨cseg, mem_append_right _ mem_cons_self, by omega, by omega⟩
      have split' : ooseq = (front ++ [cseg]) ++ next := by
        rw [split, append_assoc]
        rfl
      have rest : ∀ (input : TcpInput) (state : TcpState),
          Ensures AnyError (tcpDequeue next input { advanced with state := state }) fun result =>
            OosReceived { advanced with state := state } result.2 := fun _ _ =>
        ih split' expected' behind filled' fun seg later => ahead seg (mem_cons_of_mem _ later)
      apply (rest _ _).mono
      intro result received
      refine ⟨received.arranged, ?_, ?_⟩
      · have shrunk := received.window
        rw [same] at shrunk
        exact Nat.le_trans shrunk (Nat.sub_le _ _)
      have moved := received.state
      rw [same] at moved
      split at moved
      · rename_i closes
        cases moved with
        | inl unmoved => exact .inr ⟨closes.2, unmoved⟩
        | inr again => cases again.1
      · exact moved
    · rename_i later
      have strict : r + 1 ≤ seqOffset rcvNxt cseg := by
        apply Nat.succ_le_of_lt
        apply Nat.lt_of_le_of_ne order
        intro here
        rw [expected, here, ← seqno_seqOffset] at later
        exact later rfl
      have behind : Arranged rcvNxt (r + 1) (cseg :: next) := ⟨strict, arranged.2⟩
      have moved := behind.moveOn (Nat.le_succ r)
      rw [Nat.add_sub_cancel_left, ← expected] at moved
      exact .ok ⟨moved, Nat.le_refl _, Or.inl rfl⟩

end Inseq

/-- A segment in sequence leaves the queue arranged behind the number that is reached. -/
theorem tcpReceiveInseq_arranged {i : TcpInput} {pcb : TcpPcb} (seqno : i.seqno = pcb.rcvNxt)
    (header : i.inseg.tcphdr.seqno = pcb.rcvNxt) (small : i.inseg.len < 65536)
    (width : pcb.rcvWnd < 65536) (arranged : Arranged pcb.rcvNxt 1 pcb.ooseq)
    (held : (i.inseg.tcphdr.flags.fin = true → pcb.rcvWnd < tcpTcplen i.inseg) →
      ¬SynDelivered pcb.rcvNxt (min (tcpTcplen i.inseg) pcb.rcvWnd) pcb.ooseq) :
    Ensures AnyError (tcpReceiveInseq i pcb) fun result => OosReceived pcb result.2 := by
  unfold tcpReceiveInseq
  apply (tcpTrimToWnd_reach header small width).bind
  intro trimmed reach
  rw [seqno]
  apply (tcpAdjustOoseq_arranged reach.2.1 arranged).bind
  intro adjusted left
  apply (tcpAdvance_spec (fun _ _ => trivial) (Or.inl trivial)).bind
  intro advanced found
  obtain ⟨enough, rcvAnnWnd, same⟩ := found
  have expected : advanced.rcvNxt = place pcb.rcvNxt (tcpTcplen adjusted.1) := by
    rw [same]
    rfl
  have dequeued : ∀ input, Ensures AnyError (tcpDequeue adjusted.2 input advanced) fun result =>
      OosReceived advanced result.2 := by
    intro input
    by_cases empty : adjusted.2 = []
    · rw [empty]
      exact .ok ⟨trivial, Nat.le_refl _, Or.inl rfl⟩
    · obtain ⟨⟨gone, split⟩, noFin, shorter, ahead⟩ := left.2 empty
      rw [reach.1] at shorter ahead
      exact tcpDequeue_arranged (held (reach.2.2 noFin)) split expected left.1
        (fun k from_reach below => by omega) ahead
  apply (dequeued _).bind
  intro result received
  have acks : receiveSide (tcpAck result.2) = receiveSide result.2 := by
    unfold tcpAck
    split <;> rfl
  have acked := OosReceived.of_side received.arranged acks
  have window := Nat.le_trans acked.window received.window
  have state := received.state
  have unmoved : (tcpAck result.2).state = result.2.state := (receiveFields_of_side acks).2
  rw [same] at window state
  refine .ok ⟨acked.arranged, Nat.le_trans window (Nat.sub_le _ _), ?_⟩
  rw [unmoved]
  exact state

/-! ## The data of a segment -/

/-- Whether a segment holds the expected number, as `tcp_receive` tests it. -/
def InSequence (pcb : TcpPcb) (i : TcpInput) : Prop :=
  pcb.rcvNxt = i.seqno ∨
    seqBetween pcb.rcvNxt (i.seqno + 1) (i.seqno + UInt32.ofNat i.tcplen - 1) = true

/-- How far a segment that holds the expected number reaches behind it. -/
def dataReach (pcb : TcpPcb) (i : TcpInput) : Nat :=
  i.tcplen - (pcb.rcvNxt - i.seqno).toNat % 65536

/-- A segment in sequence that does not end the stream leaves no queued segment right behind the
data of a `SYN` that comes in sequence with it. -/
def SynHeld (pcb : TcpPcb) (i : TcpInput) : Prop :=
  0 < i.tcplen → InSequence pcb i →
    (i.inseg.tcphdr.flags.fin = true → pcb.rcvWnd < dataReach pcb i) →
    ¬SynDelivered pcb.rcvNxt (min (dataReach pcb i) pcb.rcvWnd) pcb.ooseq

theorem SynHeld.congr {pcb : TcpPcb} {i : TcpInput} (held : SynHeld pcb i)
    (same : receiveFields pcb' = receiveFields pcb) (recvAcked : Nat) :
    SynHeld pcb' { i with recvAcked := recvAcked } := by
  simp only [receiveFields, Prod.mk.injEq] at same
  unfold SynHeld InSequence dataReach at held ⊢
  rw [same.1, same.2.1, same.2.2]
  exact held

/-- With its left edge trimmed, a segment starts at the expected number. -/
theorem tcpTrimLeft_reach {pcb : TcpPcb} {i : TcpInput} (prepared : Prepared i)
    (positive : 0 < i.tcplen)
    (spans : seqBetween pcb.rcvNxt (i.seqno + 1) (i.seqno + UInt32.ofNat i.tcplen - 1) = true) :
    Ensures AnyError (tcpTrimLeft pcb.rcvNxt i) fun trimmed =>
      trimmed.seqno = pcb.rcvNxt ∧ trimmed.inseg.tcphdr.seqno = pcb.rcvNxt ∧
        trimmed.inseg.tcphdr.flags = i.inseg.tcphdr.flags ∧ trimmed.inseg.len < 65536 ∧
        tcpTcplen trimmed.inseg = dataReach pcb i := by
  have whole := prepared.whole positive
  have fits : i.tcplen < 65536 := by
    rw [prepared.tcplen]
    exact u16_lt _
  rw [seqBetween_left_iff _ _ positive fits] at spans
  unfold tcpTrimLeft
  apply ensures_pass trivial
  apply ensures_pass trivial
  apply ensures_pass trivial
  apply ensures_skip
  intro p
  refine .ok ⟨rfl, rfl, rfl, ?_, ?_⟩
  · dsimp only
    unfold toU16
    omega
  unfold dataReach
  unfold tcpTcplen at whole ⊢
  dsimp only at whole ⊢
  unfold toU16
  split
  · rename_i counted
    rw [if_pos counted] at whole
    omega
  · rename_i plain
    rw [if_neg plain] at whole
    omega

section Data

variable {env : TcpEnv} {i : TcpInput} {pcb : TcpPcb}

/-- A segment behind the trimming of its left edge. -/
theorem tcpReceiveWindow_arranged (width : pcb.rcvWnd < 65536)
    (arranged : Arranged pcb.rcvNxt 1 pcb.ooseq)
    (inseq : i.seqno = pcb.rcvNxt →
      Ensures AnyError (tcpReceiveInseq i pcb) fun result => OosReceived pcb result.2)
    (prepared : i.seqno ≠ pcb.rcvNxt → Prepared i ∧ 0 < i.tcplen) :
    Ensures AnyError (tcpReceiveWindow env i pcb) fun result => OosReceived pcb result.2 := by
  unfold tcpReceiveWindow
  split
  · rename_i accepted
    split
    · rename_i expected
      exact inseq expected.symm
    · rename_i ahead
      have set := prepared (fun same => ahead same.symm)
      exact tcpReceiveOoseq_arranged env set.1 set.2 width accepted ahead arranged
  · exact .ok (OosReceived.of_side arranged (tcpSendEmptyAck_sides env 1 pcb).1)

/-- The data of a segment leaves the queue arranged behind the expected number. -/
theorem tcpReceiveData_arranged (prepared : Prepared i) (width : pcb.rcvWnd < 65536)
    (arranged : Arranged pcb.rcvNxt 1 pcb.ooseq) (held : SynHeld pcb i) :
    Ensures AnyError (tcpReceiveData env i pcb) fun result => OosReceived pcb result.2 := by
  unfold tcpReceiveData
  split
  · rename_i given
    have held := held given.1
    split
    · rename_i spans
      apply (tcpTrimLeft_reach prepared given.1 spans).bind
      intro trimmed cut
      apply tcpReceiveWindow_arranged width arranged
      · intro seqno
        apply tcpReceiveInseq_arranged seqno cut.2.1 cut.2.2.2.1 width arranged
        rw [cut.2.2.1, cut.2.2.2.2]
        exact held (Or.inr spans)
      · intro other
        exact absurd cut.1 other
    · have sides : ∀ late : Bool, receiveSide (if late = true then tcpAckNow pcb else pcb) =
          receiveSide pcb := by
        intro late
        cases late <;> rfl
      have sides := sides (seqLt i.seqno pcb.rcvNxt)
      generalize (if seqLt i.seqno pcb.rcvNxt = true then tcpAckNow pcb else pcb) = pcb' at sides
      have kept := OosReceived.of_side arranged sides
      simp only [receiveSide, Prod.mk.injEq] at sides
      have received : Ensures AnyError (tcpReceiveWindow env i pcb') fun result =>
          OosReceived pcb' result.2 := by
        apply tcpReceiveWindow_arranged (by rw [sides.2.1]; exact width) kept.arranged
        · intro seqno
          rw [sides.1] at seqno
          have reach : dataReach pcb i = tcpTcplen i.inseg := by
            rw [dataReach, seqno, UInt32.sub_self]
            exact prepared.whole given.1
          apply tcpReceiveInseq_arranged (by rw [sides.1, seqno])
            (by rw [prepared.header, seqno, sides.1]) prepared.small
            (by rw [sides.2.1]; exact width) kept.arranged
          rw [sides.1, sides.2.1, sides.2.2.1, ← reach]
          exact held (Or.inl seqno.symm)
        · intro _
          exact ⟨prepared, given.1⟩
      apply received.mono
      intro result after
      exact ⟨after.arranged, Nat.le_trans after.window kept.window, by
        rw [← sides.2.2.2]
        exact after.state⟩
  · apply Ensures.ok
    apply OosReceived.of_side arranged
    split <;> rfl

/-- `tcp_receive` leaves the queue arranged behind the expected number. -/
theorem tcpReceive_arranged (prepared : Prepared i) (width : pcb.rcvWnd < 65536)
    (arranged : Arranged pcb.rcvNxt 1 pcb.ooseq) (held : SynHeld pcb i) :
    Ensures AnyError (tcpReceive env i pcb) fun result => OosReceived pcb result.2 := by
  unfold tcpReceive
  apply ensures_pass trivial
  apply (tcpReceiveAck_receiveSide env i pcb).any.bind
  intro acked found
  obtain ⟨sides, recvAcked, same⟩ := found
  have kept := OosReceived.of_side arranged sides
  obtain ⟨fields, state⟩ := receiveFields_of_side sides
  have prepared' : Prepared acked.1 := by
    rw [same]
    exact ⟨prepared.header, prepared.length, prepared.small, prepared.tcplen⟩
  have held' : SynHeld acked.2 acked.1 := by
    rw [same]
    exact held.congr fields recvAcked
  apply (tcpReceiveData_arranged prepared' (Nat.lt_of_le_of_lt kept.window width)
    kept.arranged held').mono
  intro result after
  exact ⟨after.arranged, Nat.le_trans after.window kept.window, by
    rw [← state]
    exact after.state⟩

end Data

/-! ## Runs of a connection -/

/-- A connection with its queue out of sequence arranged. -/
structure OoseqInv (pcb : TcpPcb) : Prop where
  /-- Nothing is queued before a `SYN` has arrived. -/
  early : pcb.state.code < TcpState.synRcvd.code → pcb.ooseq = []
  bounded : pcb.rcvWnd ≤ tcpWnd
  arranged : Arranged pcb.rcvNxt 1 pcb.ooseq

theorem OoseqInv.of_empty {pcb : TcpPcb} (bounded : pcb.rcvWnd ≤ tcpWnd) (empty : pcb.ooseq = []) :
    OoseqInv pcb where
  early := fun _ => empty
  bounded := bounded
  arranged := by
    rw [empty]
    trivial

/-- A segment whose `tot_len` is a `u16_t`, and with which, if `tcp_receive` gets it, no queued
`SYN` comes in sequence in front of a segment right behind its data. -/
def oosGuard (pcb : TcpPcb) : TcpEvent → Prop
  | .segment _ p tcphdr opts => p.totLen < 65536 ∧ (tcpReachesData pcb (tcpInputOf p tcphdr opts) →
      (tcphdr.flags.syn = true → pcb.state = .synRcvd) → SynHeld pcb (tcpInputOf p tcphdr opts))
  | .accepted _ p tcphdr => p.totLen < 65536 ∧ SynHeld pcb (tcpInputOf p tcphdr [])
  | _ => True

/-- What the data of a segment leaves of the receiver of a connection. -/
def oosPost (pcb : TcpPcb) : HandedRel := fun _ _ fields =>
  (pcb.state.code < TcpState.synRcvd.code → fields.2.2 = []) ∧ fields.2.1 ≤ tcpWnd ∧
    Arranged fields.1 1 fields.2.2

theorem oosPost_purge (pcb : TcpPcb) : Purges (oosPost pcb) :=
  fun _ _ _ _ _ post => ⟨fun _ => rfl, post.2.1, trivial⟩

section Run

variable {pcb : TcpPcb} {env : TcpEnv} {i : TcpInput}

theorem OoseqInv.width (inv : OoseqInv pcb) : pcb.rcvWnd < 65536 :=
  Nat.lt_of_le_of_lt inv.bounded (by decide)

/-- The data of a segment, whatever its acknowledgement did. -/
theorem OoseqInv.dataReceived (inv : OoseqInv pcb) (prepared : Prepared i)
    (synchronized : TcpState.synRcvd.code ≤ pcb.state.code) (held : SynHeld pcb i) :
    DataReceived AnyError (oosPost pcb) env i pcb := by
  intro recvAcked pcb' same _
  have prepared' : Prepared { i with recvAcked := recvAcked } :=
    ⟨prepared.header, prepared.length, prepared.small, prepared.tcplen⟩
  have held' := held.congr same recvAcked
  simp only [receiveFields, Prod.mk.injEq] at same
  have width := inv.width
  have arranged := inv.arranged
  rw [← same.2.1] at width
  rw [← same.1, ← same.2.2] at arranged
  apply (tcpReceiveData_arranged prepared' width arranged held').mono
  intro result received
  have window := received.window
  rw [same.2.1] at window
  exact ⟨⟨fun early => absurd synchronized (Nat.not_le_of_lt early),
    Nat.le_trans window inv.bounded, received.arranged⟩, received.state⟩

theorem OoseqInv.processed (done : Processed (oosPost pcb) pcb.state i pcb') :
    OoseqInv pcb' where
  early := fun early => done.1.1 (Nat.lt_of_le_of_lt done.2.1 early)
  bounded := done.1.2.1
  arranged := done.1.2.2

/-- In state `SYN_SENT` nothing is queued. -/
theorem tcpProcess_synSent (synSent : pcb.state = .synSent) :
    Ensures AnyError (tcpProcess env i pcb) fun processed =>
      processed.pcb.ooseq = pcb.ooseq ∧ processed.pcb.rcvWnd = pcb.rcvWnd := by
  have freed : ∀ pcb : TcpPcb, Ensures AnyError (tcpFreeSyn pcb) fun pcb' =>
      pcb'.ooseq = pcb.ooseq ∧ pcb'.rcvWnd = pcb.rcvWnd := by
    intro pcb
    unfold tcpFreeSyn
    split
    · exact (ensures_any _).bind fun _ _ => .ok ⟨rfl, rfl⟩
    · exact (ensures_any _).bind fun _ _ => .ok ⟨rfl, rfl⟩
    · exact .error trivial
  apply tcpProcess_ensures trivial
  · intro _ _ _ _
    exact ⟨rfl, rfl⟩
  intro _ _
  have parsed := (tcpParseopt_sides i.opts
    { pcb with tmr := if pcb.tfRxclosed then pcb.tmr else env.ticks }).1
  generalize tcpParseopt i.opts
    { pcb with tmr := if pcb.tfRxclosed then pcb.tmr else env.ticks } = pcb' at parsed
  simp only [receiveSide, Prod.mk.injEq] at parsed
  rw [← parsed.2.1, ← parsed.2.2.1]
  have early := parsed.2.2.2.trans synSent
  apply tcpProcessState_ensures
  · intro _
    exact ⟨rfl, rfl⟩
  · intro _ _ _
    unfold tcpProcessSynAck
    apply ensures_pass trivial
    apply (freed _).bind
    intro pcb'' kept
    dsimp only
    split
    · exact .ok kept
    · exact .ok kept
  · intro _ _ _
    apply (tcpRexmitRto_receiveSide env _).any.mono
    intro pcb'' sides
    simp only [receiveSide, Prod.mk.injEq] at sides
    exact ⟨sides.2.2.1, sides.2.1⟩
  · intro received
    cases early.symm.trans received
  · intro received
    cases early.symm.trans received
  · intro receiving
    rw [early] at receiving
    cases receiving

/-- Processing of a segment keeps the queue arranged. -/
theorem OoseqInv.segment {p : Chain} {tcphdr : TcpHdr} {opts : List UInt8}
    {processed : TcpProcessed} (inv : OoseqInv pcb)
      (meets : oosGuard pcb (.segment env p tcphdr opts))
    (computed : tcpProcess env (tcpInputOf p tcphdr opts) pcb = .ok processed) :
    OoseqInv processed.pcb := by
  by_cases synSent : pcb.state = .synSent
  · have kept := (tcpProcess_synSent synSent).of_ok computed
    have empty : pcb.ooseq = [] := inv.early (by rw [synSent]; decide)
    exact OoseqInv.of_empty (by rw [kept.2]; exact inv.bounded) (by rw [kept.1, empty])
  have idle : oosPost pcb [] false (receiveFields pcb) := ⟨inv.early, inv.bounded, inv.arranged⟩
  have data : tcpReachesData pcb (tcpInputOf p tcphdr opts) →
      (tcphdr.flags.syn = true → pcb.state = .synRcvd) →
      DataReceived AnyError (oosPost pcb) env (tcpInputOf p tcphdr opts) pcb := by
    intro reaches late
    have synchronized : TcpState.synRcvd.code ≤ pcb.state.code := by
      cases reaches.2 with
      | inl later => exact Nat.le_trans (by decide) later
      | inr accepted => rw [accepted.1]
    exact inv.dataReceived (prepared_tcpInputOf tcphdr opts meets.1) synchronized
      (meets.2 reaches late)
  have done := tcpProcess_processed (fun _ _ => trivial) (oosPost_purge pcb)
    (fun _ => synSent) ⟨rfl, rfl⟩ idle data
  exact OoseqInv.processed (done.of_ok computed)

/-- A step of an open connection keeps the queue arranged. -/
theorem connStep_ooseqInv {c c' : TcpConn} (inv : OoseqInv c.pcb) (opened : 0 < c.pcb.state.code)
    (meets : oosGuard c.pcb event) (step : ConnStep c event c') : OoseqInv c'.pcb := by
  have enabled : event.enabled c.pcb := by
    obtain ⟨pcb, taken, _⟩ := step
    exact taken.1
  cases connStep_outcome opened step with
  | segment computed => exact inv.segment meets computed
  | @accepted env p tcphdr processed early computed =>
    have synchronized : TcpState.synRcvd.code ≤ c.pcb.state.code := by
      cases enabled with
      | inl given | inr given => rw [given]; decide
    have data : DataReceived AnyError (oosPost c.pcb) env (tcpInputOf p tcphdr []) c.pcb :=
      inv.dataReceived (prepared_tcpInputOf tcphdr [] meets.1) synchronized meets.2
    exact OoseqInv.processed ((tcpProcessAccepted_processed (fun _ _ => trivial) data rfl id
      early).of_ok computed)
  | recved reopened =>
    constructor
    · rw [reopened.state, reopened.ooseq]
      exact inv.early
    · exact reopened.bounded
    · rw [reopened.rcvNxt, reopened.ooseq]
      exact inv.arranged
  | finWindow =>
    refine ⟨inv.early, ?_, inv.arranged⟩
    have bounded := inv.bounded
    unfold tcpFinWindow
    dsimp only
    split
    · omega
    · exact bounded
  | other quiet kept =>
    have bounded := inv.bounded
    rw [← kept.rcvWnd] at bounded
    cases kept.ooseq with
    | inl same =>
      constructor
      · intro early
        rw [same]
        exact inv.early (Nat.lt_of_le_of_lt kept.state early)
      · exact bounded
      · rw [kept.rcvNxt, same]
        exact inv.arranged
    | inr empty => exact OoseqInv.of_empty bounded empty

theorem tcpConnect_ooseqInv {iss : UInt32} {err : Err} (inv : OoseqInv pcb)
    (closed : pcb.state = .closed) (computed : tcpConnect env iss pcb = .ok (err, pcb')) :
    OoseqInv pcb' := by
  have empty : pcb.ooseq = [] := inv.early (by rw [closed]; decide)
  have opens : Ensures AnyError (tcpConnect env iss pcb) fun result =>
      result.2.rcvWnd = tcpWnd ∧ result.2.ooseq = [] := by
    unfold tcpConnect
    rw [if_neg (fun other => other closed)]
    apply (tcpEnqueueFlags_receiveSide env _ _).bind
    rintro ⟨err, queued⟩ same
    simp only [receiveSide, Prod.mk.injEq] at same
    dsimp only
    split
    · apply (tcpOutput_receiveSide env _).any.bind
      intro sent same'
      simp only [receiveSide, Prod.mk.injEq] at same'
      exact .ok ⟨same'.2.1.trans same.2.1, (same'.2.2.1.trans same.2.2.1).trans empty⟩
    · exact .ok ⟨same.2.1, same.2.2.1.trans empty⟩
  have done := opens.of_ok computed
  exact OoseqInv.of_empty (Nat.le_of_eq done.1) done.2

theorem tcpStep_ooseqInv (inv : OoseqInv pcb) (meets : oosGuard pcb event)
    (step : TcpStep pcb event pcb') : OoseqInv pcb' := by
  by_cases closed : pcb.state = .closed
  · have inactive : pcb.active = false := by simp [TcpPcb.active, closed]
    obtain ⟨enabled, done⟩ := step
    cases event with
    | connect env iss =>
      obtain ⟨result, computed, same⟩ := bind_ok.mp done
      cases same
      exact tcpConnect_ooseqInv inv closed computed
    | accepted env p tcphdr =>
      cases enabled with
      | inl given | inr given => rw [closed] at given; cases given
    | rexmit | rexmitFast | keepalive env =>
      exact absurd (inactive.symm.trans enabled.1) Bool.false_ne_true
    | _ => exact absurd (inactive.symm.trans enabled) Bool.false_ne_true
  · have opened : 0 < pcb.state.code := by
      revert closed
      cases pcb.state <;> simp [TcpState.code]
    have connection : ConnStep ⟨pcb, [], 0, false⟩ event
        (TcpConn.after ⟨pcb, [], 0, false⟩ event pcb') := ⟨pcb', step, rfl⟩
    exact connStep_ooseqInv inv opened meets connection

/-- At the creation of a connection nothing is queued. -/
theorem TcpCreated.ooseqInv (created : TcpCreated pcb) : OoseqInv pcb := by
  cases created with
  | inl allocated =>
    obtain ⟨ticks, same⟩ := allocated
    rw [same]
    exact OoseqInv.of_empty (Nat.le_refl _) rfl
  | inr accepted =>
    obtain ⟨env, iss, i, computed⟩ := accepted
    have opens : Ensures AnyError (tcpListenInput env iss i) fun result =>
        result.2.rcvWnd = tcpWnd ∧ result.2.ooseq = [] := by
      unfold tcpListenInput
      have parsed := (tcpParseopt_sides i.opts { tcpAlloc env.ticks with
        state := .synRcvd
        rcvNxt := i.seqno + 1
        rcvAnnRightEdge := i.seqno + 1
        sndWl2 := iss
        sndNxt := iss
        lastack := iss
        sndLbb := iss
        sndWl1 := i.seqno - 1 }).1
      generalize tcpParseopt i.opts _ = npcb at parsed
      simp only [receiveSide, Prod.mk.injEq] at parsed
      apply (tcpEnqueueFlags_receiveSide env _ _).bind
      rintro ⟨err, queued⟩ same
      simp only [receiveSide, Prod.mk.injEq] at same
      have kept : queued.rcvWnd = tcpWnd ∧ queued.ooseq = [] :=
        ⟨same.2.1.trans parsed.2.1, same.2.2.1.trans parsed.2.2.1⟩
      dsimp only
      split
      · exact .ok kept
      · apply (tcpOutput_receiveSide env _).any.bind
        intro sent same'
        simp only [receiveSide, Prod.mk.injEq] at same'
        exact .ok ⟨same'.2.1.trans kept.1, same'.2.2.1.trans kept.2⟩
    have done := opens.of_ok computed
    exact OoseqInv.of_empty (Nat.le_of_eq done.1) done.2

end Run

/-- In every state of a connection, and right behind every call of `tcp_receive`, the queue of
segments out of sequence is strictly sorted behind the expected number, its segments do not overlap
and are as long as their pbufs, and only the last one carries a `FIN`. -/
theorem tcp_ooseq_ordered (start final : TcpPcb) (created : TcpCreated start)
    (run : Run TcpStep oosGuard start final) :
    OoseqOrdered final.rcvNxt final.ooseq ∧
      ∀ env p tcphdr opts result, p.totLen < 65536 → SynHeld final (tcpInputOf p tcphdr opts) →
        tcpReceive env (tcpInputOf p tcphdr opts) final = .ok result →
        OoseqOrdered result.2.rcvNxt result.2.ooseq := by
  have inv : OoseqInv final := run.invariant created.ooseqInv fun _ _ _ inv meets step =>
    tcpStep_ooseqInv inv meets step
  refine ⟨inv.arranged.ordered, ?_⟩
  intro env p tcphdr opts result small held computed
  have prepared := prepared_tcpInputOf tcphdr opts small
  exact ((tcpReceive_arranged prepared inv.width inv.arranged held).of_ok computed).arranged.ordered

/-- No segment is queued right behind the data of a `SYN`. -/
def synApart : List TcpSeg → Bool
  | [] => true
  | [_] => true
  | seg :: next :: back =>
    !(seg.tcphdr.flags.syn && next.tcphdr.seqno = seg.tcphdr.seqno + UInt32.ofNat seg.len) &&
      synApart (next :: back)

/-- With no segment right behind the data of a `SYN`, none comes in sequence there. -/
theorem synHeld_of_apart {pcb : TcpPcb} (apart : synApart pcb.ooseq = true) (i : TcpInput) :
    SynHeld pcb i := by
  have never : ∀ front syn next back, synApart (front ++ syn :: next :: back) = true →
      syn.tcphdr.flags.syn = true →
      next.tcphdr.seqno ≠ syn.tcphdr.seqno + UInt32.ofNat syn.len := by
    intro front syn next back
    induction front with
    | nil =>
      intro given flagged adjoins
      simp [synApart, flagged, adjoins] at given
    | cons first front ih =>
      intro given
      apply ih
      cases front <;> simp [synApart] at given <;> simp [synApart, given.2]
  intro _ _ _ delivered
  obtain ⟨front, syn, next, back, split, flagged, adjoins, _⟩ := delivered
  rw [split] at apart
  exact never front syn next back apart flagged adjoins

/-- A condition on steps that can be evaluated. -/
def oosApartGuard (pcb : TcpPcb) : TcpEvent → Prop
  | .segment _ p _ _ => p.totLen < 65536 ∧ synApart pcb.ooseq = true
  | .accepted _ p _ => p.totLen < 65536 ∧ synApart pcb.ooseq = true
  | _ => True

instance (pcb : TcpPcb) : (event : TcpEvent) → Decidable (oosApartGuard pcb event)
  | .segment _ p _ _ => inferInstanceAs (Decidable (p.totLen < 65536 ∧ synApart pcb.ooseq = true))
  | .accepted _ p _ => inferInstanceAs (Decidable (p.totLen < 65536 ∧ synApart pcb.ooseq = true))
  | .connect _ _ | .write _ _ | .enqueueFlags _ _ | .sendFin _ | .close _ | .output _ | .accept
  | .recved _ _ | .finWindow | .rexmit | .rexmitFast | .rexmitRto _ | .fasttmr _ | .slowtmr _
  | .keepalive _ => .isTrue trivial

/-- It is stronger than the condition on the order of the queue. -/
theorem oosApartGuard.oosGuard {pcb : TcpPcb} (meets : oosApartGuard pcb event) :
    Lwip.oosGuard pcb event := by
  cases event with
  | segment env p tcphdr opts => exact ⟨meets.1, fun _ _ => synHeld_of_apart meets.2 _⟩
  | accepted env p tcphdr => exact ⟨meets.1, synHeld_of_apart meets.2 _⟩
  | _ => trivial

/-- A peer sends five bytes with a `SYN` again ten bytes too early, then three bytes at a number,
then the ten bytes that are missing. -/
def synQueued (seqno : UInt32) : List TcpEvent :=
  [.segment (plainEnv []) [pbufRam 0 [1, 2, 3, 4, 5]]
      { seqno := 511, ackno := 1001, flags := { syn := true, ack := true }, wnd := 4096 } [],
    .segment (plainEnv []) [pbufRam 0 [6, 7, 8]]
      { seqno := seqno, ackno := 1001, flags := { ack := true }, wnd := 4096 } [],
    .segment (plainEnv []) [pbufRam 0 [0, 1, 2, 3, 4, 5, 6, 7, 8, 9]]
      { seqno := 501, ackno := 1001, flags := { ack := true }, wnd := 4096 } []]

/-- The theorem at a connection on which a `SYN` comes in sequence with a gap behind it. -/
theorem tcp_ooseq_ordered_gap :
    ∃ final, Run TcpStep oosGuard synRcvdPcb final ∧ final.rcvNxt = 517 ∧
      final.ooseq.map (·.tcphdr.seqno) = [520] ∧ OoseqOrdered final.rcvNxt final.ooseq ∧
      ∀ env p tcphdr opts result, p.totLen < 65536 → SynHeld final (tcpInputOf p tcphdr opts) →
        tcpReceive env (tcpInputOf p tcphdr opts) final = .ok result →
        OoseqOrdered result.2.rcvNxt result.2.ooseq := by
  have returns : (tcpEventsIf oosApartGuard synRcvdPcb (synQueued 520)).map
      (fun pcb => (pcb.rcvNxt, pcb.ooseq.map (·.tcphdr.seqno))) = some (517, [520]) := by
    decide +kernel
  obtain ⟨final, done, fields⟩ := Option.map_eq_some_iff.mp returns
  have run : Run TcpStep oosGuard synRcvdPcb final :=
    (run_tcpEventsIf done).mono fun _ _ meets => meets.oosGuard
  exact ⟨final, run, congrArg Prod.fst fields, congrArg Prod.snd fields,
    tcp_ooseq_ordered synRcvdPcb final synRcvdPcb_created run⟩

/-- A segment right behind the data of a queued `SYN` is left in front of the expected number. -/
theorem tcp_ooseq_left_behind :
    ∃ start final, TcpCreated start ∧ Run TcpStep (fun _ _ => True) start final ∧
      final.rcvNxt = 517 ∧ final.ooseq.map (·.tcphdr.seqno) = [516] ∧
      ¬OoseqOrdered final.rcvNxt final.ooseq := by
  have returns : (tcpEvents synRcvdPcb (synQueued 516)).map
      (fun pcb => (pcb.rcvNxt, pcb.ooseq.map (·.tcphdr.seqno))) = some (517, [516]) := by
    decide +kernel
  obtain ⟨final, done, fields⟩ := Option.map_eq_some_iff.mp returns
  have expected : final.rcvNxt = 517 := congrArg Prod.fst fields
  have queued : final.ooseq.map (·.tcphdr.seqno) = [516] := congrArg Prod.snd fields
  refine ⟨synRcvdPcb, final, synRcvdPcb_created, run_tcpEvents done, expected, queued, ?_⟩
  intro ordered
  have member : (516 : UInt32) ∈ final.ooseq.map (·.tcphdr.seqno) := by
    rw [queued]
    exact mem_cons_self
  obtain ⟨seg, inQueue, seqno⟩ := mem_map.mp member
  have after := ordered.after seg inQueue
  rw [seqno, expected] at after
  exact absurd after (by decide)

end Lwip
