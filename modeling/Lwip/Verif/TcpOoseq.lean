import Lwip.Verif.Pbuf
import Lwip.Verif.TcpSeq

/-!
# The queue of segments out of sequence

A queue holds segments at increasing places that do not overlap, with a `FIN` at most on the
last one. Insertion and removal keep that, whatever else is demanded of the segments, as long
as the demand survives trimming of the right edge and the copying of a `FIN`. How far a queue
reaches is a parameter: insertion keeps a bound if the new segment meets it, if it is trimmed
by a queued one, or if it is appended, where `tcp_receive` trims it to the window.
-/

namespace Lwip

open Outcome Serial List

variable {seg g : TcpSeg} {lo n m e rcvWnd : Nat} {queue next more : List TcpSeg} {rcvNxt : UInt32}
  {i : TcpInput} {copy : Option TcpSeg}

/-! ## Errors that are not about the window -/

/-- Assertion on the window for a segment in sequence. -/
def overrunInseq : String := "tcp_receive: tcplen > rcv_wnd\n"

/-- Assertion on the window for a dequeued segment. -/
def overrunOoseq : String := "tcp_receive: ooseq tcplen > rcv_wnd\n"

/-- An error other than the two assertions on the window. -/
def WindowKept (message : String) : Prop := message ≠ overrunInseq ∧ message ≠ overrunOoseq

instance (message : String) : Decidable (WindowKept message) := instDecidableAnd

theorem pbufFreeLoop_windowKept (c : Chain) :
    Ensures WindowKept (pbufFreeLoop c) fun _ => True := by
  induction c with
  | nil => exact .ok trivial
  | cons p next ih =>
    unfold pbufFreeLoop
    apply ensures_pass (by decide)
    split
    · exact ih.bind fun _ _ => .ok trivial
    · exact .ok trivial

theorem pbufFree_windowKept (c : Chain) : Ensures WindowKept (pbufFree c) fun _ => True := by
  unfold pbufFree
  apply ensures_pass (by decide)
  exact (pbufFreeLoop_windowKept c).bind fun _ _ => .ok trivial

theorem tcpSegFree_windowKept (seg : TcpSeg) :
    Ensures WindowKept (tcpSegFree seg) fun _ => True := by
  unfold tcpSegFree
  split
  · exact .ok trivial
  · exact (pbufFree_windowKept seg.p).bind fun _ _ => .ok trivial

theorem tcpSegsFree_windowKept (segs : List TcpSeg) :
    Ensures WindowKept (tcpSegsFree segs) fun _ => True := by
  induction segs with
  | nil => exact .ok trivial
  | cons seg next ih =>
    unfold tcpSegsFree
    exact (tcpSegFree_windowKept seg).bind fun _ _ => ih

/-- The walk of `pbuf_realloc` does not reach the assertions on the window. -/
theorem pbufReallocLoop_windowKept (grow : Int) (remLen : Nat) (c : Chain) :
    Ensures WindowKept (pbufReallocLoop grow remLen c) fun _ => True := by
  induction c generalizing remLen with
  | nil => exact .error (by decide)
  | cons q next ih =>
    unfold pbufReallocLoop
    split
    · apply ensures_pass (by decide)
      exact (ih (remLen - q.len)).bind fun _ _ => .ok trivial
    · split
      · exact (pbufFree_windowKept next).bind fun _ _ => .ok trivial
      · exact .ok trivial

theorem pbufRealloc_windowKept (c : Chain) (newLen : Nat) :
    Ensures WindowKept (pbufRealloc c newLen) fun _ => True := by
  unfold pbufRealloc
  apply ensures_pass (by decide)
  split
  · exact .ok trivial
  · exact pbufReallocLoop_windowKept _ _ c

theorem pbufCat_windowKept (h t : Chain) : Ensures WindowKept (pbufCat h t) fun _ => True := by
  have walk : Ensures WindowKept (pbufCatLoop t h) fun _ => True := by
    fun_induction pbufCatLoop t h with
    | case1 => exact .ok trivial
    | case2 p =>
      apply ensures_pass (by decide)
      exact .ok trivial
    | case3 p q next ih => exact ih.bind fun _ _ => .ok trivial
  unfold pbufCat
  split
  · exact .ok trivial
  · exact walk

/-! ## Segments at places -/

/-- A segment at a place, that ends at or before `hi`. -/
structure SegAt (base : UInt32) (hi : Nat) (Good : Nat → TcpSeg → Prop) (n : Nat) (seg : TcpSeg) :
    Prop where
  seqno : seg.tcphdr.seqno = place base n
  noSyn : seg.tcphdr.flags.syn = false
  small : seg.len < 65536
  positive : 0 < tcpTcplen seg
  ends : n + tcpTcplen seg ≤ hi
  good : Good n seg

/-- A queue of segments at increasing places from `lo` on. -/
def Queued (base : UInt32) (hi : Nat) (Good : Nat → TcpSeg → Prop) : Nat → List TcpSeg → Prop
  | _, [] => True
  | lo, seg :: next => ∃ n, lo ≤ n ∧ SegAt base hi Good n seg ∧
      (seg.tcphdr.flags.fin = true → next = []) ∧ Queued base hi Good (n + seg.len) next

/-- A demand on queued segments that survives what `tcp_receive` does to them. -/
structure Trimmable (Good : Nat → TcpSeg → Prop) : Prop where
  /-- Trimming of the right edge. -/
  trim : ∀ {n m : Nat} {seg : TcpSeg} {p rest : Chain}, Good n seg →
    seg.tcphdr.flags.fin = false → m ≤ seg.len → pbufRealloc seg.p m = .ok (p, rest) →
    Good n { seg with p := p, len := m }
  /-- Copying of a `FIN` from a covered segment. -/
  copyFin : ∀ {n m : Nat} {seg covered : TcpSeg}, Good n seg → Good m covered →
    covered.tcphdr.flags.fin = true → m + covered.len ≤ n + seg.len → Good n (setFin seg)
  clearFin : ∀ {n : Nat} {seg : TcpSeg}, Good n seg → Good n (clearFin seg)

theorem tcpTcplen_plain (noSyn : seg.tcphdr.flags.syn = false)
    (noFin : seg.tcphdr.flags.fin = false) : tcpTcplen seg = seg.len := by
  simp [tcpTcplen, noSyn, noFin]

theorem len_le_tcpTcplen (seg : TcpSeg) : seg.len ≤ tcpTcplen seg := Nat.le_add_right _ _

section Queue

variable {base : UInt32} {hi : Nat} {Good : Nat → TcpSeg → Prop}

theorem Queued.from_le {lo' : Nat} (queued : Queued base hi Good lo queue) (earlier : lo' ≤ lo) :
    Queued base hi Good lo' queue := by
  cases queue with
  | nil => trivial
  | cons seg next =>
    obtain ⟨n, order, rest⟩ := queued
    exact ⟨n, Nat.le_trans earlier order, rest⟩

/-- Every queued segment has a place. -/
theorem Queued.mem (queued : Queued base hi Good lo queue) :
    ∀ seg ∈ queue, ∃ n, lo ≤ n ∧ SegAt base hi Good n seg := by
  induction queue generalizing lo with
  | nil =>
    intro seg member
    cases member
  | cons first next ih =>
    obtain ⟨n, order, located, _, rest⟩ := queued
    intro seg member
    rcases mem_cons.mp member with rfl | deeper
    · exact ⟨n, order, located⟩
    · obtain ⟨m, later, there⟩ := ih rest seg deeper
      exact ⟨m, by omega, there⟩

/-- A queue for a weaker demand and a larger bound. -/
theorem Queued.mono {hi' : Nat} {Good' : Nat → TcpSeg → Prop}
    (queued : Queued base hi Good lo queue) (further : hi ≤ hi')
    (weaker : ∀ n seg, Good n seg → Good' n seg) : Queued base hi' Good' lo queue := by
  induction queue generalizing lo with
  | nil => trivial
  | cons first next ih =>
    obtain ⟨n, order, located, last, rest⟩ := queued
    exact ⟨n, order, ⟨located.seqno, located.noSyn, located.small, located.positive,
      Nat.le_trans located.ends further, weaker n first located.good⟩, last, ih rest⟩

theorem Queued.cons (order : lo ≤ n) (located : SegAt base hi Good n seg)
    (last : seg.tcphdr.flags.fin = true → next = [])
      (rest : Queued base hi Good (n + seg.len) next) :
    Queued base hi Good lo (seg :: next) := ⟨n, order, located, last, rest⟩

/-! ## Trimming -/

/-- `pbuf_realloc` on a segment changes its pbufs and its length only. -/
theorem tcpSegTrim_spec (seg : TcpSeg) (m : Nat) :
    Ensures WindowKept (tcpSegTrim seg m) fun seg' =>
      ∃ p rest, pbufRealloc seg.p m = .ok (p, rest) ∧ seg' = { seg with p := p, len := m } := by
  unfold tcpSegTrim
  have cut : Ensures WindowKept (pbufRealloc seg.p m) fun result =>
      pbufRealloc seg.p m = .ok result := by
    apply Ensures.of_forall
    · exact fun result done => done
    · exact fun e done => (pbufRealloc_windowKept seg.p m).of_error done
  apply cut.bind
  rintro ⟨p, rest⟩ done
  exact .ok ⟨p, rest, done, rfl⟩

/-- A segment without `FIN` that is cut down to some data. -/
theorem tcpSegTrim_segAt (trims : Trimmable Good) (seqno : seg.tcphdr.seqno = place base n)
    (noSyn : seg.tcphdr.flags.syn = false) (noFin : seg.tcphdr.flags.fin = false)
    (small : seg.len < 65536) (good : Good n seg) (some : 0 < m) (shorter : m ≤ seg.len)
    (ends : n + m ≤ hi) :
    Ensures WindowKept (tcpSegTrim seg m) fun seg' =>
      SegAt base hi Good n seg' ∧ seg'.tcphdr = seg.tcphdr ∧ seg'.len = m := by
  apply (tcpSegTrim_spec seg m).mono
  rintro _ ⟨p, rest, done, rfl⟩
  have length : tcpTcplen { seg with p := p, len := m } = m := tcpTcplen_plain noSyn noFin
  exact ⟨⟨seqno, noSyn, Nat.lt_of_le_of_lt shorter small, by omega, by omega,
    trims.trim good noFin shorter done⟩, rfl, rfl⟩

/-- The queued segment in front of a new one is cut down to the place of the new one. -/
theorem tcpTrimPrev_spec (trims : Trimmable Good) {prev : TcpSeg}
    (located : SegAt base hi Good m prev) (noFin : prev.tcphdr.flags.fin = false) (order : m < n)
    (near : hi < m + 2147483648) (inside : n < m + 2147483648) :
    Ensures WindowKept (tcpTrimPrev (place base n) prev) fun prev' =>
      SegAt base hi Good m prev' ∧ prev'.tcphdr.flags.fin = false ∧ m + prev'.len ≤ n := by
  have ends := located.ends
  have length := tcpTcplen_plain located.noSyn noFin
  unfold tcpTrimPrev
  rw [located.seqno, place_add]
  split
  · rename_i overlaps
    rw [seqGt_place base (by omega) (by omega)] at overlaps
    have cut : (place base n - place base m).toNat = n - m :=
      toNat_place_sub_of_le base (by omega) (by omega)
    have small := located.small
    rw [cut, u16_of_lt (by omega)]
    have ends' : m + (n - m) ≤ hi := by omega
    apply (tcpSegTrim_segAt trims located.seqno located.noSyn noFin located.small located.good
      (by omega) (by omega) ends').mono
    rintro prev' ⟨located', header, length'⟩
    exact ⟨located', by rw [header]; exact noFin, by omega⟩
  · rename_i apart
    rw [seqGt_place base (by omega) (by omega)] at apart
    exact .ok ⟨located, noFin, by omega⟩

/-! ## Insertion -/

/-- Whether the data of a new segment at a sequence number reaches as far as a queued one. -/
def oosCovers (seqno : UInt32) (len : Nat) (queued : TcpSeg) : Bool :=
  seqGeq (seqno + UInt32.ofNat len) (queued.tcphdr.seqno + UInt32.ofNat queued.len)

/-- The loop of `tcp_oos_insert_segment` removes the covered segments in front. A `FIN` is only
copied when everything was covered. -/
theorem tcpOosCovered_spec (trims : Trimmable Good) {cseg : TcpSeg} (good : Good n cseg)
    (near : hi + 65536 < n + 2147483648) (small : cseg.len < 65536)
    (queued : Queued base hi Good n next) :
    Ensures WindowKept (tcpOosCovered (place base n) cseg next) fun result =>
      Queued base hi Good n result.2 ∧ Good n result.1 ∧
        (result.1 = cseg ∨ (result.1 = setFin cseg ∧ result.2 = [] ∧
          ∃ g ∈ next, g.tcphdr.flags.fin = true)) ∧
        (result.2 = [] → ∀ g ∈ next, oosCovers (place base n) cseg.len g = true) ∧
        (∀ g ∈ result.2.head?, g ∈ next ∧ oosCovers (place base n) cseg.len g = false) := by
  induction next with
  | nil => exact .ok ⟨trivial, good, Or.inl rfl, by simp, by simp⟩
  | cons first more ih =>
    obtain ⟨m, order, located, last, rest⟩ := queued
    have ends := located.ends
    have within := len_le_tcpTcplen first
    unfold tcpOosCovered
    split
    · rename_i covered
      apply (tcpSegFree_windowKept first).bind
      intro _ _
      have reaches : m + first.len ≤ n + cseg.len := by
        rw [located.seqno, place_add, place_add, seqGeq_place base (by omega) (by omega)] at covered
        exact covered
      by_cases fin : first.tcphdr.flags.fin = true
      · -- the segment with the `FIN` is the last one
        have alone := last fin
        subst alone
        rw [if_pos fin]
        refine .ok ⟨trivial, trims.copyFin good located.good fin reaches,
          Or.inr ⟨rfl, rfl, first, by simp, fin⟩, ?_, by simp⟩
        intro _ g member
        rw [mem_singleton.mp member]
        exact covered
      · rw [if_neg fin]
        apply (ih (rest.from_le (by omega))).mono
        rintro ⟨cseg', rest'⟩ ⟨kept, good', finCopied, all, head⟩
        refine ⟨kept, good', ?_, ?_, ?_⟩
        · rcases finCopied with same | ⟨copied, empty, g, member, hasFin⟩
          · exact .inl same
          · exact .inr ⟨copied, empty, g, mem_cons_of_mem first member, hasFin⟩
        · intro empty g member
          rcases mem_cons.mp member with rfl | deeper
          · exact covered
          · exact all empty g deeper
        · intro g member
          exact ⟨mem_cons_of_mem first (head g member).1, (head g member).2⟩
    · rename_i uncovered
      refine .ok ⟨⟨m, order, located, last, rest⟩, good, Or.inl rfl, by simp, ?_⟩
      intro g member
      simp only [head?_cons, Option.mem_some_iff] at member
      subst member
      exact ⟨mem_cons_self, Bool.not_eq_true _ ▸ uncovered⟩

/-- A new segment has room: it ends in time, also with a `FIN` that it takes over, or a queued
segment reaches further and cuts it. -/
def HasRoom (hi n : Nat) (seqno : UInt32) (cseg : TcpSeg) (next : List TcpSeg) : Prop :=
  (n + tcpTcplen cseg ≤ hi ∧
      ((∃ g ∈ next, g.tcphdr.flags.fin = true) → n + cseg.len + 1 ≤ hi)) ∨
    (cseg.tcphdr.flags.fin = false ∧ ∃ g ∈ next, oosCovers seqno cseg.len g = false)

theorem SegAt.setFin (seqno : seg.tcphdr.seqno = place base n)
    (noSyn : seg.tcphdr.flags.syn = false) (small : seg.len < 65536) (ends : n + seg.len + 1 ≤ hi)
    (good : Good n (setFin seg)) : SegAt base hi Good n (Lwip.setFin seg) := by
  have length : tcpTcplen (Lwip.setFin seg) = seg.len + 1 := rfl
  exact ⟨seqno, noSyn, small, by omega, by omega, good⟩

/-- `tcp_oos_insert_segment` puts the new segment in front of the rest of a queue. -/
theorem tcpOosInsertSegment_spec (trims : Trimmable Good) {cseg : TcpSeg} (order : lo ≤ n)
    (seqno : cseg.tcphdr.seqno = place base n) (noSyn : cseg.tcphdr.flags.syn = false)
    (small : cseg.len < 65536) (positive : 0 < tcpTcplen cseg) (good : Good n cseg)
    (near : hi + 65536 < n + 2147483648) (queued : Queued base hi Good n next)
    (longer : ∀ g ∈ next, g.tcphdr.seqno = place base n → g.len < cseg.len)
    (room : HasRoom hi n (place base n) cseg next) :
    Ensures WindowKept (tcpOosInsertSegment (place base n) cseg next)
      (Queued base hi Good lo) := by
  unfold tcpOosInsertSegment
  by_cases fin : cseg.tcphdr.flags.fin = true
  · rw [if_pos fin]
    apply (tcpSegsFree_windowKept next).bind
    intro _ _
    have ends : n + tcpTcplen cseg ≤ hi := by
      rcases room with fits | cut
      · exact fits.1
      · simp [fin] at cut
    exact .ok ⟨n, order, ⟨seqno, noSyn, small, positive, ends, good⟩, by simp, trivial⟩
  · rw [if_neg fin]
    apply (tcpOosCovered_spec trims good near small queued).bind
    rintro ⟨cseg', rest⟩ ⟨kept, good', finCopied, all, head⟩
    have plain := tcpTcplen_plain noSyn (Bool.not_eq_true _ ▸ fin)
    cases rest with
    | nil =>
      have fits : n + tcpTcplen cseg ≤ hi ∧
          ((∃ g ∈ next, g.tcphdr.flags.fin = true) → n + cseg.len + 1 ≤ hi) := by
        rcases room with fits | ⟨_, g, member, uncovered⟩
        · exact fits
        · rw [all rfl g member] at uncovered
          cases uncovered
      rcases finCopied with rfl | ⟨rfl, _, g, member, hasFin⟩
      · exact .ok ⟨n, order, ⟨seqno, noSyn, small, positive, fits.1, good⟩, by simp, trivial⟩
      · exact .ok ⟨n, order, SegAt.setFin seqno noSyn small
          (fits.2 ⟨g, member, hasFin⟩) good', by simp, trivial⟩
    | cons g more =>
      have same : cseg' = cseg := by
        rcases finCopied with same | ⟨_, empty, _⟩
        · exact same
        · cases empty
      subst same
      obtain ⟨member, uncovered⟩ := head g rfl
      obtain ⟨m, later, located, last, behind⟩ := kept
      have ends := located.ends
      have within := len_le_tcpTcplen g
      have further : n + cseg'.len < m + g.len := by
        rw [← Bool.not_eq_true, oosCovers, located.seqno, place_add, place_add,
          seqGeq_place base (by omega) (by omega)] at uncovered
        omega
      have strict : n < m := by
        rcases Nat.eq_or_lt_of_le later with equal | strict
        · have shorter := longer g member (by rw [located.seqno, equal])
          omega
        · exact strict
      simp only [tcpOosTrim]
      by_cases overlaps : seqGt (place base n + UInt32.ofNat cseg'.len) g.tcphdr.seqno = true
      · have cut : (g.tcphdr.seqno - place base n).toNat = m - n := by
          rw [located.seqno]
          exact toNat_place_sub_of_le base (by omega) (by omega)
        rw [if_pos overlaps, cut]
        rw [located.seqno, place_add, seqGt_place base (by omega) (by omega)] at overlaps
        rw [u16_of_lt (by omega)]
        have room' : n + (m - n) ≤ hi := by omega
        apply (tcpSegTrim_segAt trims seqno noSyn (Bool.not_eq_true _ ▸ fin) small good
          (by omega) (by omega) room').bind
        rintro trimmed ⟨located', header, length⟩
        refine .ok (Queued.cons order located' ?_ ⟨m, by omega, located, last, behind⟩)
        rw [header]
        exact fun hasFin => absurd hasFin fin
      · rw [if_neg overlaps]
        rw [located.seqno, place_add, seqGt_place base (by omega) (by omega)] at overlaps
        exact .ok ⟨n, order, ⟨seqno, noSyn, small, positive, by omega, good⟩,
          fun hasFin => absurd hasFin fin, ⟨m, by omega, located, last, behind⟩⟩

/-- An incoming segment at a place. -/
structure Incoming (base : UInt32) (Good : Nat → TcpSeg → Prop) (n : Nat) (i : TcpInput) :
    Prop where
  seqno : i.seqno = place base n
  header : i.inseg.tcphdr.seqno = place base n
  noSyn : i.inseg.tcphdr.flags.syn = false
  small : i.inseg.len < 65536
  positive : 0 < tcpTcplen i.inseg
  tcplen : i.tcplen = tcpTcplen i.inseg
  good : Good n i.inseg

/-- An appended segment is trimmed to the window. -/
theorem tcpTrimAppended_spec (trims : Trimmable Good) (incoming : Incoming base Good n i)
    (edge : rcvNxt + UInt32.ofNat rcvWnd = place base e) (inside : n < e) (within : e ≤ hi)
    (near : hi + 65536 < n + 2147483648) :
    Ensures WindowKept (tcpTrimAppended rcvNxt rcvWnd i i.inseg) (SegAt base hi Good n) := by
  have small := incoming.small
  have start : UInt32.ofNat i.tcplen + i.seqno = place base (n + i.tcplen) := by
    rw [incoming.seqno, UInt32.add_comm, place_add]
  have upper : tcpTcplen i.inseg ≤ i.inseg.len + 1 := by
    unfold tcpTcplen
    split <;> omega
  unfold tcpTrimAppended
  rw [start, edge, incoming.tcplen]
  split
  · rename_i overruns
    rw [seqGt_place base (by omega) (by omega)] at overruns
    have cut : (place base e - i.seqno).toNat = e - n := by
      rw [incoming.seqno]
      exact toNat_place_sub_of_le base (by omega) (by omega)
    rw [cut, u16_of_lt (by omega)]
    have fits : n + (e - n) ≤ hi := by omega
    have shorter : e - n ≤ (clearFin i.inseg).len := by
      show e - n ≤ i.inseg.len
      omega
    have header : (clearFin i.inseg).tcphdr.seqno = place base n := incoming.header
    apply (tcpSegTrim_segAt trims header incoming.noSyn rfl incoming.small
      (trims.clearFin incoming.good) (by omega) shorter fits).bind
    rintro trimmed ⟨located, _, _⟩
    apply ensures_pass (by decide)
    exact .ok located
  · rename_i fits
    rw [seqGt_place base (by omega) (by omega)] at fits
    exact .ok ⟨incoming.header, incoming.noSyn, incoming.small, incoming.positive,
      by omega, incoming.good⟩

/-- A segment is appended behind the last one of a queue. -/
theorem tcpOosAppend_spec (trims : Trimmable Good) {last : TcpSeg}
    (incoming : Incoming base Good n i) (copied : copy = none ∨ copy = some i.inseg)
    (order : lo ≤ m) (located : SegAt base hi Good m last) (before : m < n)
    (edge : rcvNxt + UInt32.ofNat rcvWnd = place base e) (inside : n < e) (within : e ≤ hi)
    (near : hi + 65536 < m + 2147483648) :
    Ensures WindowKept (tcpOosAppend rcvNxt rcvWnd copy i last) (Queued base hi Good lo) := by
  have unchanged : Queued base hi Good lo [last] := ⟨m, order, located, by simp, trivial⟩
  unfold tcpOosAppend
  split
  · exact .ok unchanged
  rename_i noFin
  rcases copied with rfl | rfl
  · exact .ok unchanged
  dsimp only
  rw [incoming.seqno]
  apply (tcpTrimPrev_spec trims located (Bool.not_eq_true _ ▸ noFin) before (by omega)
    (by omega)).bind
  rintro last' ⟨located', noFin', apart⟩
  apply (tcpTrimAppended_spec trims incoming edge inside within (by omega)).bind
  intro appended there
  refine .ok (Queued.cons order located' (by simp [noFin']) ?_)
  exact ⟨n, apart, there, by simp, trivial⟩

/-- A segment out of sequence has room in a queue: it is appended, it is dropped because a
queued one is as long, a queued one cuts it, or it ends in time. -/
def OosFits (hi n : Nat) (i : TcpInput) (queue : List TcpSeg) : Prop :=
  (∃ last ∈ queue.getLast?, seqGt i.seqno last.tcphdr.seqno = true) ∨
    (∃ g ∈ queue, g.tcphdr.seqno = i.seqno ∧ i.inseg.len ≤ g.len) ∨
    (i.inseg.tcphdr.flags.fin = false ∧ ∃ g ∈ queue,
      seqLt i.seqno g.tcphdr.seqno = true ∧ oosCovers i.seqno i.inseg.len g = false) ∨
    (n + tcpTcplen i.inseg ≤ hi ∧
      ((∃ g ∈ queue, g.tcphdr.flags.fin = true) → n + i.inseg.len + 1 ≤ hi))

/-- In front of the first segment at or behind its place, a segment that fits has room. -/
theorem OosFits.hasRoom (fits : OosFits hi n i (g :: more)) (seqno : i.seqno = place base n)
    (queued : Queued base hi Good m (g :: more)) (order : n ≤ m)
    (near : hi + 65536 < n + 2147483648)
    (longer : ∀ x ∈ g :: more, x.tcphdr.seqno = place base n → x.len < i.inseg.len) :
    HasRoom hi n (place base n) i.inseg (g :: more) := by
  have places := queued.mem
  rcases fits with ⟨last, member, greater⟩ | ⟨x, member, same, shorter⟩ |
    ⟨noFin, x, member, _, uncovered⟩ | ends
  · obtain ⟨k, later, located⟩ := places last (mem_of_getLast? member)
    have ends := located.ends
    rw [seqno, located.seqno, seqGt_place base (by omega) (by omega)] at greater
    omega
  · have strict := longer x member (by rw [same, seqno])
    omega
  · rw [seqno] at uncovered
    exact .inr ⟨noFin, x, member, uncovered⟩
  · exact .inl ends

/-- A segment that fits into a queue still fits behind a first segment with a lower sequence
number, unless it is appended to that one. -/
theorem OosFits.tail {n m : Nat} {i : TcpInput} {g : TcpSeg} {more : List TcpSeg}
    (fits : OosFits hi n i (g :: more)) (seqno : i.seqno = place base n)
    (located : SegAt base hi Good m g) (before : m < n) (near : n < m + 2147483648)
    (nonempty : more ≠ []) : OosFits hi n i more := by
  have lower : seqLt i.seqno g.tcphdr.seqno = false := by
    rw [← Bool.not_eq_true, seqno, located.seqno, seqLt_place base (by omega) (by omega)]
    omega
  rcases fits with ⟨last, member, greater⟩ | ⟨x, member, same, shorter⟩ |
    ⟨noFin, x, member, higher, uncovered⟩ | ⟨ends, withFin⟩
  · refine .inl ⟨last, ?_, greater⟩
    rwa [getLast?_cons_of_ne_nil nonempty] at member
  · refine .inr (.inl ⟨x, ?_, same, shorter⟩)
    rcases mem_cons.mp member with rfl | deeper
    · rw [seqno, located.seqno] at same
      have := place_inj base same (by omega) (by omega)
      omega
    · exact deeper
  · refine .inr (.inr (.inl ⟨noFin, x, ?_, higher, uncovered⟩))
    rcases mem_cons.mp member with rfl | deeper
    · rw [lower] at higher
      cases higher
    · exact deeper
  · refine .inr (.inr (.inr ⟨ends, ?_⟩))
    rintro ⟨x, member, fin⟩
    exact withFin ⟨x, mem_cons_of_mem g member, fin⟩

theorem SegAt.len_pos (located : SegAt base hi Good n seg) (noFin : seg.tcphdr.flags.fin = false) :
    0 < seg.len := by
  have positive := located.positive
  rwa [tcpTcplen_plain located.noSyn noFin] at positive

/-- In a queue at or behind the place of a longer segment, only the first can stand at that
place. -/
theorem Queued.longer {k len : Nat} (located : SegAt base hi Good k g)
    (last : g.tcphdr.flags.fin = true → more = []) (rest : Queued base hi Good (k + g.len) more)
    (near : hi < n + 2147483648) (order : n < k ∨ (n = k ∧ g.len < len)) :
    ∀ x ∈ g :: more, x.tcphdr.seqno = place base n → x.len < len := by
  have absent : ∀ x m, SegAt base hi Good m x → n < m → x.tcphdr.seqno ≠ place base n := by
    intro x m there later same
    have ends := there.ends
    rw [there.seqno] at same
    have := place_inj base same (by omega) (by omega)
    omega
  intro x member same
  rcases mem_cons.mp member with rfl | deeper
  · rcases order with strict | ⟨_, shorter⟩
    · exact absurd same (absent x k located strict)
    · exact shorter
  obtain ⟨m, later, there⟩ := rest.mem x deeper
  have noFin : g.tcphdr.flags.fin = false := by
    rw [← Bool.not_eq_true]
    intro fin
    rw [last fin] at deeper
    cases deeper
  have data := located.len_pos noFin
  exact absurd same (absent x m there (by omega))

/-- Insertion in front of the first queued segment at or behind the place of the new one. -/
theorem tcpOosInsert_here (trims : Trimmable Good) {k : Nat} (incoming : Incoming base Good n i)
    (order : lo ≤ n) (located : SegAt base hi Good k g)
    (last : g.tcphdr.flags.fin = true → more = []) (rest : Queued base hi Good (k + g.len) more)
    (behind : n < k ∨ (n = k ∧ g.len < i.inseg.len)) (fits : OosFits hi n i (g :: more))
    (near : hi + 65536 < n + 2147483648) :
    Ensures WindowKept (tcpOosInsertSegment i.seqno i.inseg (g :: more))
      (Queued base hi Good lo) := by
  have queued : Queued base hi Good k (g :: more) := ⟨k, Nat.le_refl k, located, last, rest⟩
  have longer := Queued.longer located last rest (by omega) behind
  have room := fits.hasRoom incoming.seqno queued (by omega) near longer
  rw [incoming.seqno]
  exact tcpOosInsertSegment_spec trims order incoming.header incoming.noSyn incoming.small
    incoming.positive incoming.good near (queued.from_le (by omega)) longer room

/-- What the search for the place of a new segment ensures, behind a comparison of places. -/
theorem tcpOosPlace_ensures {tolerated : String → Prop} {placed post : List TcpSeg → Prop}
    {before : Option TcpSeg} {k : Nat} (copied : copy = none ∨ copy = some i.inseg)
    (seqno : i.seqno = place base n) (there : g.tcphdr.seqno = place base k)
    (near : n < k + 2147483648 ∧ k < n + 2147483648)
    (earlier : ∀ prev ∈ before, ∃ m, prev.tcphdr.seqno = place base m ∧ m < n ∧ m < k ∧
      n < m + 2147483648)
    (kept : post (before.toList ++ g :: more))
    (inserts : n < k ∨ (n = k ∧ g.len < i.inseg.len) →
      Ensures tolerated (tcpOosInsertSegment i.seqno i.inseg (g :: more)) placed)
    (joins : n = k ∨ before = none → ∀ queue, placed queue → post (before.toList ++ queue))
    (trims : n < k → ∀ prev ∈ before, Ensures tolerated (tcpTrimPrev i.seqno prev) fun prev' =>
      ∀ queue, placed queue → post (prev' :: queue))
    (appends : k < n → more = [] → Ensures tolerated (tcpOosAppend rcvNxt rcvWnd copy i g)
      fun queue => post (before.toList ++ queue))
    (continues : k < n → more ≠ [] →
      Ensures tolerated (tcpOosPlace rcvNxt rcvWnd copy i (some g) more)
        fun queue => post (before.toList ++ queue)) :
    Ensures tolerated (tcpOosPlace rcvNxt rcvWnd copy i before (g :: more)) post := by
  have same : i.seqno = g.tcphdr.seqno ↔ n = k := by
    rw [seqno, there]
    exact ⟨fun equal => place_inj base equal (by omega) (by omega), fun equal => by rw [equal]⟩
  have greater : k < n → seqGt i.seqno g.tcphdr.seqno = true := by
    rw [seqno, there, seqGt_place base (by omega) (by omega)]
    exact id
  unfold tcpOosPlace
  rw [if_congr same rfl rfl]
  split
  · rename_i equal
    split
    · rename_i longer
      rcases copied with rfl | rfl
      · exact .ok kept
      · apply (inserts (.inr ⟨equal, longer⟩)).bind
        exact fun queue done => .ok (joins (.inl equal) queue done)
    · exact .ok kept
  cases before with
  | none =>
    have first : (none = (none : Option TcpSeg) ∧ seqLt i.seqno g.tcphdr.seqno = true) ↔
        n < k := by
      rw [seqno, there, seqLt_place base (by omega) (by omega)]
      exact and_iff_right rfl
    rw [if_congr first rfl rfl]
    split
    · rename_i inFront
      rcases copied with rfl | rfl
      · exact .ok kept
      · exact (inserts (.inl inFront)).mono (joins (.inr rfl))
    · have beyond : k < n := by omega
      dsimp only
      split
      · rename_i last
        exact appends beyond last.1
      · rename_i further
        exact continues beyond fun last => further ⟨last, greater beyond⟩
  | some prev =>
    obtain ⟨m, here, order, apart, close⟩ := earlier prev rfl
    have between : seqBetween i.seqno (prev.tcphdr.seqno + 1) (g.tcphdr.seqno - 1) = true ↔
        n < k := by
      rw [seqBetween, Bool.and_eq_true, seqno, here, there, place_add_one,
        place_sub_one base (by omega), seqGeq_place base (by omega) (by omega),
        seqLeq_place base (by omega) (by omega)]
      omega
    rw [if_neg fun both => absurd both.1 (Option.some_ne_none prev)]
    dsimp only
    rw [if_congr between rfl rfl]
    split
    · rename_i inFront
      rcases copied with rfl | rfl
      · exact .ok kept
      · apply (trims inFront prev rfl).bind
        intro prev' joined
        apply (inserts (.inl inFront)).bind
        exact fun queue done => .ok (joined queue done)
    · have beyond : k < n := by omega
      split
      · rename_i last
        exact (appends beyond last.1).bind fun queue done => .ok done
      · rename_i further
        apply (continues beyond fun last => further ⟨last, greater beyond⟩).bind
        exact fun queue done => .ok done

/-- The search for the place of a new segment, behind a queued one with a lower number. -/
theorem tcpOosPlace_behind (trims : Trimmable Good) (incoming : Incoming base Good n i)
    (copied : copy = none ∨ copy = some i.inseg)
    (edge : rcvNxt + UInt32.ofNat rcvWnd = place base e) (inside : n < e) (within : e ≤ hi) :
    ∀ {next : List TcpSeg} {lo m : Nat} {prev : TcpSeg}, lo ≤ m → SegAt base hi Good m prev →
      m < n → (prev.tcphdr.flags.fin = true → next = []) →
      Queued base hi Good (m + prev.len) next → (next ≠ [] → OosFits hi n i next) →
      hi + 65536 < m + 2147483648 →
      Ensures WindowKept (tcpOosPlace rcvNxt rcvWnd copy i (some prev) next)
        (Queued base hi Good lo) := by
  intro next
  induction next with
  | nil =>
    intro lo m prev order located _ _ _ _ _
    exact .ok ⟨m, order, located, by simp, trivial⟩
  | cons g more ih =>
    intro lo m prev order located before last queued fits near
    have noFin : prev.tcphdr.flags.fin = false := by
      rw [← Bool.not_eq_true]
      intro fin
      cases last fin
    have data := located.len_pos noFin
    have front : ∀ {queue}, Queued base hi Good (m + prev.len) queue →
        Queued base hi Good lo (prev :: queue) :=
      fun queued => ⟨m, order, located, by simp [noFin], queued⟩
    have kept := front queued
    obtain ⟨k, later, there, lastG, rest⟩ := queued
    have ends := there.ends
    have fits := fits (by simp)
    apply tcpOosPlace_ensures copied incoming.seqno there.seqno (by omega) _ kept
      fun place => tcpOosInsert_here trims incoming (Nat.le_refl n) there lastG rest place fits
        (by omega)
    · rintro (equal | none) queue placed
      · exact front (placed.from_le (by omega))
      · cases none
    · rintro _ _ ⟨⟩
      rw [incoming.seqno]
      apply (tcpTrimPrev_spec trims located noFin before (by omega) (by omega)).mono
      rintro prev' ⟨located', noFin', apart⟩ queue placed
      exact ⟨m, order, located', by simp [noFin'], placed.from_le apart⟩
    · intro beyond _
      exact (tcpOosAppend_spec trims incoming copied later there beyond edge inside within
        (by omega)).mono fun _ => front
    · intro beyond nonempty
      exact (ih later there beyond lastG rest
        (fun _ => fits.tail incoming.seqno there beyond (by omega) nonempty)
        (by omega)).mono fun _ => front
    · rintro _ ⟨⟩
      exact ⟨m, located.seqno, before, by omega, by omega⟩

/-- The search for the place of a new segment in a whole queue. -/
theorem tcpOosPlace_spec (trims : Trimmable Good) (incoming : Incoming base Good n i)
    (copied : copy = none ∨ copy = some i.inseg)
    (edge : rcvNxt + UInt32.ofNat rcvWnd = place base e) (order : lo ≤ n) (inside : n < e)
    (within : e ≤ hi) (near : hi + 65536 < lo + 2147483648) (queued : Queued base hi Good lo queue)
    (fits : queue ≠ [] → OosFits hi n i queue) :
    Ensures WindowKept (tcpOosPlace rcvNxt rcvWnd copy i none queue)
      (Queued base hi Good lo) := by
  cases queue with
  | nil => exact .ok trivial
  | cons g more =>
    have kept := queued
    obtain ⟨k, later, there, lastG, rest⟩ := queued
    have ends := there.ends
    have fits := fits (by simp)
    apply tcpOosPlace_ensures copied incoming.seqno there.seqno (by omega) (by simp) kept
      (fun place => tcpOosInsert_here trims incoming order there lastG rest place fits (by omega))
      (fun _ _ placed => placed) (by simp)
    · intro beyond _
      exact tcpOosAppend_spec trims incoming copied later there beyond edge inside within
        (by omega)
    · intro beyond nonempty
      exact tcpOosPlace_behind trims incoming copied edge inside within later there beyond
        lastG rest (fun _ => fits.tail incoming.seqno there beyond (by omega) nonempty) (by omega)

end Queue

end Lwip
