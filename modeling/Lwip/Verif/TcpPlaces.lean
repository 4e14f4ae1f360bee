import Mathlib.Data.List.TakeWhile
import Lwip.Base.Spans
import Lwip.Verif.TcpAccounts

/-!
# Places of the queued segments

The segments of a connection occupy places of one unbounded sequence of bytes. A layout gives the
segments on the queues and the sequence numbers of a control block their places. Segments that are
not acknowledged adjoin up to `snd_lbb`, so all places in use are near to each other and the
comparisons of sequence numbers decide the order of places. A retransmission can leave segments on
`unsent` behind that are acknowledged, but not far behind.
-/

namespace Lwip

open Insertion Serial Spans List

variable {x : Placed} {queue : List Placed} {k : SegKey} {init : List SegKey} {ackno : UInt32}

/-! ## Segments with their places -/

/-- A segment with the place of its sequence number. -/
structure Placed where
  pos : Nat
  key : SegKey

/-- The place behind the data, or behind the flag of a segment without data. -/
def Placed.behind (x : Placed) : Nat := x.pos + max 1 x.key.len

/-- The place behind the segment. -/
def Placed.ends (x : Placed) : Nat := x.pos + x.key.tcplen

theorem Placed.ends_bounds (x : Placed) (counts : 0 < x.key.tcplen) :
    x.pos < x.behind ∧ x.behind ≤ x.ends ∧ x.ends ≤ x.behind + 1 := by
  unfold Placed.behind Placed.ends
  unfold SegKey.tcplen at counts ⊢
  split <;> simp_all <;> omega

theorem exists_placed {keys : List SegKey} (same : keys.map forget = queue.map (·.key))
    (member : k ∈ keys) : ∃ x ∈ queue, x.key = forget k := by
  apply mem_map.mp
  rw [← same]
  exact mem_map_of_mem member

theorem exists_key {keys : List SegKey} (same : keys.map forget = queue.map (·.key))
    (member : x ∈ queue) : ∃ k ∈ keys, forget k = x.key := by
  apply mem_map.mp
  rw [same]
  exact mem_map_of_mem member

theorem exists_placed_cons {keys : List SegKey}
    (same : (k :: keys).map forget = queue.map (·.key)) :
    ∃ x rest, queue = x :: rest ∧ forget k = x.key ∧ keys.map forget = rest.map (·.key) := by
  obtain ⟨x, rest, whole, key, others⟩ := map_eq_cons_iff.mp same.symm
  exact ⟨x, rest, whole, key.symm, others.symm⟩

/-- The comparison of places. -/
abbrev Placed.Below (x y : Placed) : Prop := x.pos < y.pos

/-- Segments sent stay in the order of their places. -/
theorem sorted_insertBehind (sorted : queue.Pairwise fun y z => y.pos ≤ z.pos) :
    (insertBehind Placed.Below x queue).Pairwise fun y z => y.pos ≤ z.pos := by
  unfold insertBehind
  cases last : queue.getLast? with
  | none => exact pairwise_singleton _ x
  | some y =>
    dsimp only
    split
    · exact pairwise_insertSorted sorted (fun _ _ => Nat.le_of_lt) (fun _ _ => Nat.le_of_not_lt)
        (fun _ _ higher => Nat.le_trans (Nat.le_of_not_lt higher))
    rename_i higher
    obtain ⟨front, eq⟩ := getLast?_eq_some_iff.mp last
    rw [eq] at sorted ⊢
    apply pairwise_append.mpr
    refine ⟨sorted, pairwise_singleton _ x, ?_⟩
    intro z member w only
    rw [mem_singleton.mp only]
    have atEnd : z.pos ≤ y.pos := by
      cases mem_append.mp member with
      | inl inner => exact (pairwise_append.mp sorted).2.2 z inner y mem_cons_self
      | inr outer => rw [mem_singleton.mp outer]
    omega

/-! ## Layouts -/

/-- The places of a connection. -/
structure Layout where
  base : UInt32
  lastack : Nat
  sndNxt : Nat
  sndLbb : Nat
  low : Nat
  unacked : List Placed
  unsent : List Placed
  stale : List Placed
  live : List Placed

/-- The segments on both queues. -/
def Layout.segs (l : Layout) : List Placed := l.unacked ++ l.unsent

/-- A layout fits a control block. -/
structure Laid (l : Layout) (c : TcpCore) : Prop where
  unacked : c.unacked.map forget = l.unacked.map (·.key)
  unsent : c.unsent.map forget = l.unsent.map (·.key)
  seqno : ∀ x ∈ l.segs, x.key.seqno = place l.base x.pos
  lastack : c.lastack = place l.base l.lastack
  sndNxt : c.sndNxt = place l.base l.sndNxt
  sndLbb : c.sndLbb = place l.base l.sndLbb
  window : c.sndWnd < 65536
  parts : l.segs.Perm (l.stale ++ l.live)
  adjoining : Adjoining Placed.pos Placed.behind l.low l.live l.sndLbb
  below : ∀ x ∈ l.stale, x.behind ≤ l.low
  /-- Everything from `lastack` on is on a queue. -/
  low : l.low ≤ l.lastack
  /-- Only what has been sent is acknowledged. -/
  acked : l.lastack ≤ l.sndNxt
  /-- Only what has been queued is sent. -/
  high : l.sndNxt ≤ l.sndLbb + 1
  fresh : ∀ x ∈ l.live.tail, l.lastack < x.ends
  /-- Only a `FIN` on data is acknowledged behind `snd_lbb`. -/
  room : l.live ≠ [] → l.lastack ≤ l.sndLbb
  nothing : l.live = [] → l.stale = []
  sorted : l.unacked.Pairwise fun x y => x.pos ≤ y.pos
  /-- Segments sent end before `snd_nxt` and are not far behind. -/
  sent : ∀ x ∈ l.unacked, l.lastack ≤ x.pos + 2049 ∧ x.ends ≤ l.sndNxt
  /-- Segments to be sent are not far behind. -/
  queued : ∀ x ∈ l.unsent, l.sndNxt ≤ x.pos + 4114
  /-- Segments to be sent again are those that may come before lower ones. -/
  ordered : l.unsent.Pairwise fun x y => x.ends ≤ l.sndNxt ∨ x.pos < y.pos
  opening : c.state = .synSent → l.stale = [] ∧ l.low = l.lastack ∧ l.lastack < l.sndNxt

section Bounds

variable {l : Layout} {c : TcpCore} (laid : Laid l c) (accounts : Accounts c)

include laid

/-- The segments of a layout are those of the control block. -/
theorem Laid.keys : c.segs.map forget = l.segs.map (·.key) := by
  rw [TcpCore.segs, Layout.segs, map_append, map_append, laid.unacked, laid.unsent]

theorem Laid.behind_le (member : x ∈ l.segs) : x.behind ≤ l.sndLbb := by
  cases mem_append.mp (laid.parts.subset member) with
  | inl stale => exact Nat.le_trans (laid.below x stale) laid.adjoining.le
  | inr live => exact (laid.adjoining.mem live).2.2

include accounts

/-- Segments occupy places and fit the send buffer. -/
theorem Laid.counts (member : x ∈ l.segs) : 0 < x.key.tcplen ∧ x.key.len ≤ 2048 := by
  obtain ⟨k, found, same⟩ := exists_key laid.keys member
  rw [← same]
  refine ⟨(accounts.balanced.each k found).1, ?_⟩
  have buffer := accounts.balanced.buffer
  obtain ⟨front, back, eq⟩ := append_of_mem found
  rw [eq, lens_append, show lens (k :: back) = k.len + lens back from rfl] at buffer
  unfold tcpSndBuf at buffer
  show k.len ≤ 2048
  omega

theorem Laid.ends_bounds (member : x ∈ l.segs) :
    x.pos < x.behind ∧ x.behind ≤ x.ends ∧ x.ends ≤ x.behind + 1 ∧ x.ends ≤ x.pos + 2049 := by
  obtain ⟨positive, short⟩ := laid.counts accounts member
  obtain ⟨first, second, third⟩ := x.ends_bounds positive
  have data : x.behind = x.pos + max 1 x.key.len := rfl
  exact ⟨first, second, third, by omega⟩

/-- The segments that adjoin do not reach far. -/
theorem Laid.span : l.sndLbb ≤ l.low + 2064 := by
  have total := laid.adjoining.sum
  have part : (l.live.map fun x => x.behind - x.pos).sum ≤
      (l.segs.map fun x => x.behind - x.pos).sum := by
    rw [(laid.parts.map _).sum_nat, map_append, sum_append_nat]
    exact Nat.le_add_left _ _
  have each : ∀ queue : List Placed, (queue.map fun x => x.behind - x.pos).sum ≤
      lens (queue.map (·.key)) + queue.length := by
    intro queue
    induction queue with
    | nil => exact Nat.le_refl 0
    | cons x more ih =>
      have data : x.behind = x.pos + max 1 x.key.len := rfl
      simp only [map_cons, sum_cons, length_cons, lens] at ih ⊢
      omega
  have all := each l.segs
  have buffer := accounts.balanced.buffer
  have count := accounts.balanced.count
  have length := congrArg List.length laid.keys
  rw [length_map, length_map] at length
  rw [← laid.keys, lens_map_forget] at all
  unfold tcpSndBuf at buffer
  unfold mempNumTcpSeg at count
  omega

/-- Everything queued is near to `lastack`. -/
theorem Laid.near (member : x ∈ l.segs) :
    l.lastack ≤ x.pos + 4114 ∧ x.ends ≤ l.sndLbb + 1 ∧ x.pos < l.sndLbb := by
  have behind := laid.behind_le member
  have bounds := laid.ends_bounds accounts member
  have acked := laid.acked
  refine ⟨?_, by omega, by omega⟩
  cases mem_append.mp member with
  | inl sent =>
    have near := (laid.sent x sent).1
    omega
  | inr queued =>
    have near := laid.queued x queued
    omega

theorem Laid.sndLbb_le : l.sndLbb ≤ l.lastack + 2064 ∧ l.sndNxt ≤ l.lastack + 2065 := by
  have span := laid.span accounts
  have low := laid.low
  have high := laid.high
  omega

theorem Laid.seqLt_iff {y : Placed} (left : x ∈ l.segs) (right : y ∈ l.segs) :
    seqLt x.key.seqno y.key.seqno = true ↔ x.pos < y.pos := by
  have nearLeft := laid.near accounts left
  have nearRight := laid.near accounts right
  have bound := laid.sndLbb_le accounts
  rw [laid.seqno x left, laid.seqno y right]
  exact seqLt_place l.base (by omega) (by omega)

omit accounts in
theorem Laid.ends_eq (member : x ∈ l.segs) : x.key.ends = place l.base x.ends := by
  rw [SegKey.ends, laid.seqno x member, place_add]
  rfl

end Bounds

/-! ## Queues of segments and queues of places -/

theorem dropWhile_congr {α : Type} {p q : α → Bool} {xs : List α} (same : ∀ x ∈ xs, p x = q x) :
    xs.dropWhile p = xs.dropWhile q := by
  induction xs with
  | nil => rfl
  | cons x xs ih =>
    rw [dropWhile_cons, dropWhile_cons, same x mem_cons_self,
      ih fun y member => same y (mem_cons_of_mem x member)]

/-! ## Moves -/

/-- The first segment to be sent is sent. -/
def Layout.send (l : Layout) (x : Placed) (rest : List Placed) : Layout :=
  { l with unacked := insertBehind Placed.Below x l.unacked, unsent := rest
           sndNxt := max l.sndNxt x.ends }

/-- The window is probed with the first byte of a segment. -/
def Layout.probe (l : Layout) (x : Placed) : Layout :=
  { l with sndNxt := max l.sndNxt (x.pos + 1) }

/-- The first segment sent is queued again. -/
def Layout.requeue (l : Layout) (x : Placed) (rest : List Placed) : Layout :=
  { l with unacked := rest, unsent := insertSorted Placed.Below x l.unsent }

/-- All segments sent are queued again. -/
def Layout.splice (l : Layout) : Layout :=
  { l with unacked := [], unsent := l.unacked ++ l.unsent }

/-- New segments are queued. -/
def Layout.append (l : Layout) (queue : List Placed) (sndLbb : Nat) : Layout :=
  { l with unsent := l.unsent ++ queue, live := l.live ++ queue, sndLbb := sndLbb }

/-- Everything up to a place is acknowledged, which leaves some of the segments. -/
def Layout.prune (l : Layout) (a : Nat) (unacked unsent : List Placed) : Layout :=
  let live := l.live.dropWhile fun x => x.ends ≤ a
  let low := (live.head?.map (·.pos)).getD l.sndLbb
  { l with
    lastack := a, low := low, unacked := unacked, unsent := unsent
    stale := (unacked ++ unsent).filter fun x => x.behind ≤ low, live := live }

section Moves

variable {l : Layout} {c c' : TcpCore}

/-- A move that changes nothing of the sender. -/
theorem Laid.frame (laid : Laid l c) (unacked : c'.unacked.map forget = c.unacked.map forget)
    (unsent : c'.unsent.map forget = c.unsent.map forget) (lastack : c'.lastack = c.lastack)
    (sndNxt : c'.sndNxt = c.sndNxt) (sndLbb : c'.sndLbb = c.sndLbb) (window : c'.sndWnd < 65536)
    (state : c'.state = .synSent → c.state = .synSent) : Laid l c' :=
  { laid with
    unacked := unacked.trans laid.unacked
    unsent := unsent.trans laid.unsent
    lastack := lastack.trans laid.lastack
    sndNxt := sndNxt.trans laid.sndNxt
    sndLbb := sndLbb.trans laid.sndLbb
    window := window
    opening := fun opening => laid.opening (state opening) }

theorem raised_place {base : UInt32} {m n : Nat} (behind : n ≤ m + 2147483648)
    (ahead : m < n + 2147483648) : raised (place base m) (place base n) = place base (max m n) := by
  unfold raised
  by_cases order : m < n
  · rw [if_pos ((seqLt_place base behind ahead).mpr order), Nat.max_eq_right (Nat.le_of_lt order)]
  · rw [if_neg fun given => order ((seqLt_place base behind ahead).mp given),
      Nat.max_eq_left (Nat.le_of_not_lt order)]

section

variable (laid : Laid l c) (accounts : Accounts c)

include laid accounts

/-- A segment that is sent in the window is not far behind. -/
theorem Laid.inWindow (member : x ∈ l.segs)
    (inWindow : (x.key.seqno - c.lastack + UInt32.ofNat x.key.len).toNat ≤ c.sndWnd) :
    l.lastack ≤ x.pos + 2049 := by
  have near := laid.near accounts member
  have short := (laid.counts accounts member).2
  have window := laid.window
  by_contra far
  have difference : x.key.seqno - c.lastack + UInt32.ofNat x.key.len =
      place l.base (x.pos + x.key.len) - place l.base l.lastack := by
    rw [laid.seqno x member, laid.lastack, ← place_add, UInt32.sub_eq_add_neg,
      UInt32.sub_eq_add_neg,
      UInt32.add_assoc, UInt32.add_assoc, UInt32.add_comm (-_)]
  rw [difference, toNat_place_sub_of_lt l.base (by omega) (by omega)] at inWindow
  omega

/-- `snd_nxt` is raised to a place that is not far behind the segments to be sent. -/
theorem Laid.raise {n : Nat} (inside : n ≤ l.sndLbb + 1) (ahead : l.lastack ≤ n + 4114)
    (near : ∀ y ∈ l.unsent, n ≤ y.pos + 4114) :
    Laid { l with sndNxt := max l.sndNxt n }
      { c with sndNxt := raised c.sndNxt (place l.base n) } := by
  have limits := laid.sndLbb_le accounts
  have acked := laid.acked
  have further : ∀ {m : Nat}, m ≤ l.sndNxt → m ≤ max l.sndNxt n :=
    fun low => Nat.le_trans low (Nat.le_max_left _ _)
  exact { laid with
    sndNxt := by
      rw [laid.sndNxt]
      exact raised_place (by omega) (by omega)
    acked := further acked
    high := Nat.max_le.mpr ⟨laid.high, inside⟩
    sent := fun y sent => ⟨(laid.sent y sent).1, further (laid.sent y sent).2⟩
    queued := fun y queued => Nat.max_le.mpr ⟨laid.queued y queued, near y queued⟩
    ordered := laid.ordered.imp fun order => order.imp_left further
    opening := by
      intro opening
      obtain ⟨none', start, some'⟩ := laid.opening opening
      exact ⟨none', start, further some'⟩ }

/-- The first segment to be sent does not end far ahead of the others. -/
theorem Laid.first_near {rest : List Placed} (queue : l.unsent = x :: rest) :
    ∀ y ∈ l.unsent, x.ends ≤ y.pos + 4114 := by
  intro y queued
  have far := laid.queued y queued
  have ordered := laid.ordered
  rw [queue] at queued ordered
  have bounds := laid.ends_bounds accounts (x := x) (by simp [Layout.segs, queue])
  cases queued with
  | head => omega
  | tail _ later =>
    cases (pairwise_cons.mp ordered).1 y later with
    | inl again => omega
    | inr higher => omega

/-- A segment has been sent. -/
theorem Laid.send {next : List SegKey} (first : c.unsent = k :: next)
    (inWindow : (k.seqno - c.lastack + UInt32.ofNat k.len).toNat ≤ c.sndWnd) :
    ∃ x rest, l.unsent = x :: rest ∧ Laid (l.send x rest) (sendCore c k next) := by
  have unsent := laid.unsent
  rw [first] at unsent
  obtain ⟨x, rest, queue, key, others⟩ := exists_placed_cons unsent
  have member : x ∈ l.segs := by
    rw [Layout.segs, queue]
    exact mem_append_right _ mem_cons_self
  have moved : (insertBehind Placed.Below x l.unacked ++ rest).Perm l.segs := by
    rw [Layout.segs, queue]
    exact (perm_insertBehind.append_right rest).trans perm_middle.symm
  have near := laid.near accounts member
  have bounds := laid.ends_bounds accounts member
  have raises := laid.raise accounts near.2.1 (by omega) (laid.first_near accounts queue)
  have ordered := raises.ordered
  rw [queue] at ordered
  refine ⟨x, rest, queue, ?_⟩
  have tcplen : 0 < k.tcplen := by
    have counts := (laid.counts accounts member).1
    rw [← key] at counts
    exact counts
  exact { raises with
    unacked := by
      simp only [sendCore, if_pos tcplen, Layout.send]
      rw [map_insertBehind SegKey.Below forget (fun _ _ => Iff.rfl) fun _ _ => Iff.rfl,
        laid.unacked, show forget { k with left := 0 } = x.key from key]
      symm
      apply map_insertBehind
      · exact fun y sent => (laid.seqLt_iff accounts (mem_append_left _ sent) member).symm
      · exact fun y sent => (laid.seqLt_iff accounts member (mem_append_left _ sent)).symm
    unsent := others
    seqno := fun y found => laid.seqno y (moved.subset found)
    sndNxt := by
      have ends : k.ends = place l.base x.ends := by
        rw [← laid.ends_eq member, ← key]
        rfl
      simp only [sendCore]
      rw [ends]
      exact raises.sndNxt
    parts := moved.trans laid.parts
    sorted := sorted_insertBehind laid.sorted
    sent := by
      intro y found
      cases mem_cons.mp (perm_insertBehind.subset found) with
      | inl new =>
        rw [new]
        refine ⟨laid.inWindow accounts member ?_, Nat.le_max_right _ _⟩
        rw [← key]
        exact inWindow
      | inr old => exact raises.sent y old
    queued := fun y found => raises.queued y (by rw [queue]; exact mem_cons_of_mem x found)
    ordered := (pairwise_cons.mp ordered).2 }

theorem Laid.probe (first : (c.unacked ++ c.unsent).head? = some k) :
    ∃ x, Laid (l.probe x) { c with sndNxt := raised c.sndNxt (k.seqno + 1) } := by
  have head : (l.segs.map (·.key)).head? = some (forget k) := by
    rw [← laid.keys, TcpCore.segs, head?_map, first]
    rfl
  rw [head?_map] at head
  obtain ⟨x, found, key⟩ := Option.map_eq_some_iff.mp head
  have member : x ∈ l.segs := mem_of_head? found
  have near := laid.near accounts member
  have bounds := laid.ends_bounds accounts member
  have seqno : k.seqno + 1 = place l.base (x.pos + 1) := by
    rw [← place_add_one, ← laid.seqno x member, key]
    rfl
  have behind : ∀ y ∈ l.unsent, x.pos + 1 ≤ y.pos + 4114 := by
    intro y queued
    -- the segment probed with has been sent, or is the first of those to be sent
    cases queue : l.unacked with
    | cons u more =>
      rw [Layout.segs, queue] at found
      have same : u = x := Option.some.inj found
      have facts := laid.sent x (by rw [queue, same]; exact mem_cons_self)
      have far := laid.queued y queued
      omega
    | nil =>
      rw [Layout.segs, queue, nil_append] at found
      obtain ⟨more, whole⟩ := head?_eq_some_iff.mp found
      have far := laid.first_near accounts whole y queued
      omega
  have raises := laid.raise accounts (by omega) (by omega) behind
  rw [← seqno] at raises
  exact ⟨x, raises.frame rfl rfl rfl rfl rfl laid.window id⟩

theorem Laid.sent_near (sent : x ∈ l.unacked) : l.sndNxt ≤ x.pos + 4114 := by
  have near := (laid.sent x sent).1
  have limits := laid.sndLbb_le accounts
  omega

/-- The first segment sent is queued again. -/
theorem Laid.requeue {next : List SegKey} (first : c.unacked = k :: next)
    (state : c.state ≠ .synSent) (oversize : Nat) :
    ∃ x rest, l.unacked = x :: rest ∧ Laid (l.requeue x rest) { c with
      unacked := next, unsent := insertSorted SegKey.Below k c.unsent
      unsentOversize := oversize } := by
  have unacked := laid.unacked
  rw [first] at unacked
  obtain ⟨x, rest, queue, key, others⟩ := exists_placed_cons unacked
  have sent : x ∈ l.unacked := by
    rw [queue]
    exact mem_cons_self
  have member : x ∈ l.segs := mem_append_left _ sent
  have moved : (rest ++ insertSorted Placed.Below x l.unsent).Perm l.segs := by
    rw [Layout.segs, queue]
    exact (perm_insertSorted.append_left rest).trans perm_middle
  have facts := laid.sent x sent
  refine ⟨x, rest, queue, ?_⟩
  exact { laid with
    unacked := others
    unsent := by
      dsimp only [Layout.requeue]
      rw [map_insertSorted SegKey.Below forget fun _ _ => Iff.rfl, laid.unsent, key]
      symm
      apply map_insertSorted
      exact fun y queued => (laid.seqLt_iff accounts (mem_append_right _ queued) member).symm
    seqno := fun y found => laid.seqno y (moved.subset found)
    parts := moved.trans laid.parts
    sorted := by
      have sorted := laid.sorted
      rw [queue] at sorted
      exact (pairwise_cons.mp sorted).2
    sent := fun y found => laid.sent y (by rw [queue]; exact mem_cons_of_mem x found)
    queued := by
      intro y found
      cases mem_cons.mp (perm_insertSorted.subset found) with
      | inl new =>
        rw [new]
        exact laid.sent_near accounts sent
      | inr old => exact laid.queued y old
    ordered := by
      exact pairwise_insertSorted laid.ordered (fun _ _ => .inr) (fun _ _ _ => .inl facts.2)
        (fun _ _ _ _ => .inl facts.2)
    opening := fun opening => absurd opening state }

theorem Laid.splice {oversize : Nat} :
    Laid l.splice { c with
      unsent := c.unacked ++ c.unsent, unacked := [], unsentOversize := oversize } :=
  { laid with
    unacked := rfl
    unsent := by
      dsimp only [Layout.splice]
      rw [map_append, map_append, laid.unacked, laid.unsent]
    sorted := List.Pairwise.nil
    sent := fun _ member => absurd member not_mem_nil
    queued := by
      intro x member
      cases mem_append.mp member with
      | inl sent => exact laid.sent_near accounts sent
      | inr queued => exact laid.queued x queued
    ordered := by
      apply pairwise_append.mpr
      refine ⟨?_, laid.ordered, fun x sent _ _ => .inl (laid.sent x sent).2⟩
      exact laid.sorted.imp_of_mem fun sent _ _ => .inl (laid.sent _ sent).2 }

end

theorem Placed.pos_lt_behind (x : Placed) : x.pos < x.behind := by
  unfold Placed.behind
  omega

/-- New segments are queued. -/
theorem Laid.append {sndLbb oversize sndBuf sndQueuelen : Nat} {keys : List SegKey} {lbb : UInt32}
    (laid : Laid l c) (adjoining : Adjoining Placed.pos Placed.behind l.sndLbb queue sndLbb)
    (seqno : ∀ x ∈ queue, x.key.seqno = place l.base x.pos) (counts : ∀ x ∈ queue, 0 < x.key.tcplen)
    (isKeys : keys.map forget = queue.map (·.key)) (isLbb : lbb = place l.base sndLbb) :
    Laid (l.append queue sndLbb) { c with
      unsent := c.unsent ++ keys, unsentOversize := oversize
      sndLbb := lbb, sndBuf := sndBuf, sndQueuelen := sndQueuelen } := by
  have acked := laid.acked
  have high := laid.high
  have longer := adjoining.le
  have later : ∀ x ∈ queue, l.sndLbb ≤ x.pos ∧ x.pos < x.ends := by
    intro x member
    have bounds := x.ends_bounds (counts x member)
    exact ⟨(adjoining.mem member).1, by omega⟩
  exact { laid with
    unsent := by
      dsimp only [Layout.append]
      rw [map_append, laid.unsent, isKeys, map_append]
    seqno := by
      intro x member
      rw [Layout.segs, Layout.append, ← append_assoc] at member
      cases mem_append.mp member with
      | inl old => exact laid.seqno x old
      | inr new => exact seqno x new
    sndLbb := isLbb
    parts := by
      dsimp only [Layout.segs, Layout.append]
      rw [← append_assoc, ← append_assoc]
      exact laid.parts.append_right queue
    adjoining := adjoining_append.mpr ⟨l.sndLbb, laid.adjoining, adjoining⟩
    high := Nat.le_trans high (Nat.add_le_add_right longer 1)
    fresh := by
      intro x member
      dsimp only [Layout.append] at member ⊢
      cases live : l.live with
      | nil =>
        rw [live, nil_append] at member
        cases queue with
        | nil => cases member
        | cons y more =>
          have behind := (adjoining.2.2.mem member).1
          have first : y.pos = l.sndLbb := adjoining.1
          have start := y.pos_lt_behind
          have bounds := later x (mem_cons_of_mem y member)
          omega
      | cons y more =>
        rw [live, cons_append, tail_cons] at member
        have room := laid.room (by rw [live]; exact cons_ne_nil y more)
        cases mem_append.mp member with
        | inl old => exact laid.fresh x (by rw [live]; exact old)
        | inr new =>
          have bounds := later x new
          omega
    room := by
      intro some'
      dsimp only [Layout.append] at some' ⊢
      by_cases none' : l.live = []
      · rw [none', nil_append] at some'
        obtain ⟨x, member⟩ := exists_mem_of_ne_nil queue some'
        have bounds := adjoining.mem member
        have start := x.pos_lt_behind
        omega
      · exact Nat.le_trans (laid.room none') longer
    nothing := fun none' => laid.nothing (append_eq_nil_iff.mp none').1
    queued := by
      intro x member
      dsimp only [Layout.append] at member ⊢
      cases mem_append.mp member with
      | inl old => exact laid.queued x old
      | inr new =>
        have bounds := later x new
        omega
    ordered := by
      apply pairwise_append.mpr
      refine ⟨laid.ordered, ?_, ?_⟩
      · exact adjoining.apart.imp fun {x _} order =>
          Or.inr (Nat.lt_of_lt_of_le x.pos_lt_behind order)
      · intro x old y new
        have behind := laid.behind_le (mem_append_right l.unacked old)
        exact .inr (Nat.lt_of_lt_of_le x.pos_lt_behind (Nat.le_trans behind (later y new).1)) }

/-! ### The last segment -/

/-- The last segment to be sent is the highest segment of the connection. -/
def TcpCore.LastHighest (c : TcpCore) : Prop :=
  ∀ init last, c.unsent = init ++ [last] →
    ∀ k ∈ c.unacked ++ init, seqLt k.seqno last.seqno = true

theorem forall_relast {front : List Placed} {v v' : Placed} {P : Placed → Prop}
    (all : ∀ x ∈ front ++ [v], P x) (same : P v → P v') : ∀ x ∈ front ++ [v'], P x := by
  intro x member
  cases mem_append.mp member with
  | inl old => exact all x (mem_append_left _ old)
  | inr new =>
    rw [mem_singleton.mp new]
    exact same (all v (mem_append_right _ mem_cons_self))

/-- The order of a queue whose last element is replaced. -/
theorem pairwise_relast {front : List Placed} {v v' : Placed} {R : Placed → Placed → Prop}
    (sorted : (front ++ [v]).Pairwise R) (same : ∀ x, R x v → R x v') :
    (front ++ [v']).Pairwise R := by
  obtain ⟨inner, _, across⟩ := pairwise_append.mp sorted
  apply pairwise_append.mpr
  refine ⟨inner, pairwise_singleton _ _, ?_⟩
  intro x old y new
  rw [mem_singleton.mp new]
  exact same x (across x old v mem_cons_self)

/-- The place of the last segment to be sent. -/
theorem Laid.last {last : SegKey} (laid : Laid l c) (unsent : c.unsent = init ++ [last]) :
    ∃ front v, l.unsent = front ++ [v] ∧ v.key = forget last ∧
      init.map forget = front.map (·.key) := by
  have keys := laid.unsent
  rw [unsent, map_append, map_cons, map_nil] at keys
  obtain ⟨front, back, whole, first, second⟩ := map_eq_append_iff.mp keys.symm
  obtain ⟨v, single, key⟩ := map_eq_singleton_iff.mp second
  exact ⟨front, v, by rw [whole, single], key, first.symm⟩

/-- The highest segment is the last one that adjoins. -/
theorem Laid.live_last {front : List Placed} {v : Placed} (laid : Laid l c)
    (unsent : l.unsent = front ++ [v]) (highest : ∀ x ∈ l.unacked ++ front, x.pos < v.pos) :
    ∃ live, l.live = live ++ [v] ∧ (l.unacked ++ front).Perm (l.stale ++ live) := by
  have whole : l.segs = l.unacked ++ front ++ [v] := by
    rw [Layout.segs, unsent, append_assoc]
  have member : v ∈ l.stale ++ l.live := by
    apply laid.parts.subset
    rw [whole]
    exact mem_append_right _ mem_cons_self
  have some' : l.live ≠ [] := by
    intro none'
    rw [laid.nothing none', none'] at member
    cases member
  obtain ⟨live, z, split'⟩ := (eq_nil_or_concat l.live).resolve_left some'
  rw [concat_eq_append] at split'
  have adjoining := laid.adjoining
  have apart := adjoining.apart
  rw [split'] at apart
  have inLive : z ∈ l.live := by
    rw [split']
    exact mem_append_right _ mem_cons_self
  have first := (adjoining.mem inLive).1
  have start := v.pos_lt_behind
  have same : z = v := by
    have found : z ∈ l.segs := laid.parts.symm.subset (mem_append_right _ inLive)
    rw [whole] at found
    cases mem_append.mp found with
    | inr isLast => exact mem_singleton.mp isLast
    | inl other =>
      have lower := highest z other
      exfalso
      cases mem_append.mp member with
      | inl stale =>
        have below := laid.below v stale
        omega
      | inr deeper =>
        rw [split'] at deeper
        cases mem_append.mp deeper with
        | inl inner =>
          have order := (pairwise_append.mp apart).2.2 v inner z mem_cons_self
          omega
        | inr outer =>
          rw [mem_singleton.mp outer] at lower
          omega
  rw [same] at split'
  refine ⟨live, split', ?_⟩
  have parts := laid.parts
  rw [whole, split', ← append_assoc] at parts
  exact (perm_append_right_iff [v]).mp parts

/-- Bytes are added to a segment. -/
def Placed.extend (x : Placed) (extra pbufs : Nat) : Placed :=
  { x with key := { x.key with len := x.key.len + extra, clen := x.key.clen + pbufs } }

theorem Placed.extend_ends (x : Placed) (extra pbufs : Nat) :
    (x.extend extra pbufs).ends = x.ends + extra := by
  unfold Placed.ends Placed.extend SegKey.tcplen
  dsimp only
  omega

/-- The last segment is extended. -/
theorem Laid.extend {last : SegKey} {extra : Nat} (laid : Laid l c) (accounts : Accounts c)
    (unsent : c.unsent = init ++ [last]) (highest : c.LastHighest) (data : 0 < extra → 0 < last.len)
    (pbufs left : Nat) :
    ∃ front v live, l.unsent = front ++ [v] ∧ l.live = live ++ [v] ∧
      (v.extend extra pbufs).behind = v.behind + extra ∧
      Laid { l with
        unsent := front ++ [v.extend extra pbufs], live := live ++ [v.extend extra pbufs]
        sndLbb := l.sndLbb + extra }
      { c with
        unsent := init ++ [{ last with
          len := last.len + extra, clen := last.clen + pbufs, left := left }]
        sndLbb := c.sndLbb + UInt32.ofNat extra } := by
  obtain ⟨front, v, queue, key, others⟩ := laid.last unsent
  have whole : l.segs = l.unacked ++ front ++ [v] := by
    rw [Layout.segs, queue, append_assoc]
  have lower : ∀ x ∈ l.unacked ++ front, x.pos < v.pos := by
    intro x member
    apply (laid.seqLt_iff accounts (x := x) (y := v) (by rw [whole]; exact mem_append_left _ member)
      (by rw [whole]; exact mem_append_right _ mem_cons_self)).mp
    have keys : (c.unacked ++ init).map forget = (l.unacked ++ front).map (·.key) := by
      rw [map_append, laid.unacked, others, ← map_append]
    obtain ⟨k, found, same⟩ := exists_key keys member
    have order := highest init last unsent k found
    rw [← same, key]
    exact order
  obtain ⟨live, split', parts⟩ := laid.live_last queue lower
  have behind : (v.extend extra pbufs).behind = v.behind + extra := by
    have len : v.key.len = last.len := by
      rw [key]
      rfl
    unfold Placed.behind Placed.extend
    dsimp only
    omega
  have ends : v.ends ≤ (v.extend extra pbufs).ends := by
    rw [v.extend_ends]
    exact Nat.le_add_right _ _
  refine ⟨front, v, live, queue, split', behind, ?_⟩
  have seqno := laid.seqno
  have adjoining := laid.adjoining
  have fresh := laid.fresh
  have queued := laid.queued
  have ordered := laid.ordered
  rw [whole] at seqno
  rw [split'] at adjoining fresh
  rw [queue] at queued ordered
  obtain ⟨mid, inner, first, order, stop⟩ := adjoining_append.mp adjoining
  exact { laid with
    unsent := by
      rw [map_append, map_append, others, map_cons, map_nil, map_cons, map_nil, Placed.extend, key]
      rfl
    seqno := by
      rw [Layout.segs, ← append_assoc]
      exact forall_relast seqno id
    sndLbb := by rw [laid.sndLbb, place_add]
    parts := by
      rw [Layout.segs, ← append_assoc, ← append_assoc]
      exact parts.append_right _
    adjoining := by
      refine adjoining_append.mpr ⟨mid, inner, first, ?_, ?_⟩
      · rw [behind]
        exact Nat.le_trans order (Nat.le_add_right _ _)
      · rw [behind]
        exact congrArg (· + extra) stop
    high := by
      have high := laid.high
      dsimp only
      omega
    fresh := by
      cases live with
      | nil => exact fun _ member => absurd member not_mem_nil
      | cons y more =>
        exact @forall_relast more v _ _ fresh fun old => Nat.lt_of_lt_of_le old ends
    room := fun _ => Nat.le_trans (laid.room (by rw [split']; simp)) (Nat.le_add_right _ _)
    nothing := fun none' => absurd none' (by simp)
    queued := forall_relast queued id
    ordered := pairwise_relast ordered fun _ => id }

/-- Segments of new data with their places. -/
def placeFrom (n : Nat) : List SegKey → List Placed
  | [] => []
  | k :: more => ⟨n, forget k⟩ :: placeFrom (n + k.len) more

theorem keys_placeFrom (n : Nat) (queue : List SegKey) :
    (placeFrom n queue).map (·.key) = queue.map forget := by
  induction queue generalizing n with
  | nil => rfl
  | cons k more ih => rw [placeFrom, map_cons, map_cons, ih]

theorem FreshFrom.placeFrom {base : UInt32} {n : Nat} {queue : List SegKey}
    (fresh : FreshFrom (place base n) queue) :
    Adjoining Placed.pos Placed.behind n (placeFrom n queue) (n + lens queue) ∧
      ∀ x ∈ Lwip.placeFrom n queue, x.key.seqno = place base x.pos ∧ 0 < x.key.tcplen ∧
        x.key.fin = false ∧ x.ends = x.behind := by
  induction queue generalizing n with
  | nil =>
    exact ⟨rfl, fun _ member => absurd member not_mem_nil⟩
  | cons k more ih =>
    obtain ⟨seqno, fin, syn, some', _, rest⟩ := fresh
    rw [place_add] at rest
    obtain ⟨adjoining, each⟩ := ih rest
    have behind : (⟨n, forget k⟩ : Placed).behind = n + k.len := by
      unfold Placed.behind forget
      dsimp only
      omega
    constructor
    · refine ⟨rfl, ?_, ?_⟩
      · rw [behind]
        exact Nat.le_add_right n k.len
      · rw [behind, show n + lens (k :: more) = n + k.len + lens more from
          (Nat.add_assoc n k.len (lens more)).symm]
        exact adjoining
    · intro x member
      cases mem_cons.mp member with
      | inl first =>
        have ends : (⟨n, forget k⟩ : Placed).ends = n + k.len := by
          simp [Placed.ends, SegKey.tcplen, forget, fin, syn]
        rw [first]
        exact ⟨seqno, Nat.lt_of_lt_of_le some' (Nat.le_add_right _ _), fin, ends.trans behind.symm⟩
      | inr deeper => exact each x deeper

/-- A layout before and behind the extension of its last segment. -/
def Layout.Extended (l l' : Layout) : Prop :=
  l' = l ∨ ∃ front v live extra pbufs, l.unsent = front ++ [v] ∧ l.live = live ++ [v] ∧
    (v.extend extra pbufs).behind = v.behind + extra ∧ l' = { l with
      unsent := front ++ [v.extend extra pbufs], live := live ++ [v.extend extra pbufs]
      sndLbb := l.sndLbb + extra }

/-- Data is queued: the last segment is extended, and new segments are queued behind it. -/
theorem Laid.write {len extra pbufs oversize : Nat} {tail queue : List SegKey}
    (laid : Laid l c) (accounts : Accounts c) (highest : c.LastHighest)
    (queued : DataQueued c len extra pbufs oversize tail queue) :
    ∃ l₁ c₁ new, l.Extended l₁ ∧ Laid l₁ c₁ ∧
      Adjoining Placed.pos Placed.behind l₁.sndLbb new (l₁.sndLbb + lens queue) ∧
      (∀ x ∈ new, x.key.fin = false ∧ x.ends = x.behind) ∧
      Laid (l₁.append new (l₁.sndLbb + lens queue))
        (writeCore c len pbufs oversize tail queue) := by
  have first : ∃ l₁, l.Extended l₁ ∧ l₁.base = l.base ∧
      Laid l₁ { c with unsent := tail, sndLbb := c.sndLbb + UInt32.ofNat extra } := by
    cases queued.extended with
    | inl nothing =>
      obtain ⟨empty, noBytes, _, same⟩ := nothing
      refine ⟨l, Or.inl rfl, rfl, laid.frame rfl ?_ rfl rfl ?_ laid.window id⟩
      · rw [same, empty]
      · rw [noBytes]
        exact UInt32.add_zero _
    | inr something =>
      obtain ⟨init, last, left, before, after⟩ := something
      have data : 0 < extra → 0 < last.len := by
        intro some'
        obtain ⟨last', found, positive⟩ := accounts.reusable (queued.reused some')
        rw [before, getLast?_append, getLast?_singleton] at found
        have same : last = last' := Option.some.inj found
        rw [same]
        exact positive
      obtain ⟨front, v, live, isUnsent, isLive, behind, placed⟩ :=
        laid.extend accounts before highest data pbufs left
      rw [after]
      exact ⟨_, Or.inr ⟨front, v, live, extra, pbufs, isUnsent, isLive, behind, rfl⟩, rfl, placed⟩
  obtain ⟨l₁, extends', base, placed⟩ := first
  have start : FreshFrom (place l₁.base l₁.sndLbb) queue := by
    rw [← placed.sndLbb]
    exact queued.fresh
  obtain ⟨adjoining, each⟩ := start.placeFrom
  refine ⟨l₁, _, _, extends', placed, adjoining, fun x member => (each x member).2.2, ?_⟩
  apply placed.append adjoining (fun x member => (each x member).1)
    (fun x member => (each x member).2.1)
  · rw [keys_placeFrom]
  · rw [← place_add, ← placed.sndLbb]
    rw [← queued.all, UInt32.ofNat_add, UInt32.add_assoc]

/-- A `FIN` is added to a segment. -/
def Placed.finish (x : Placed) : Placed := { x with key := { x.key with fin := true } }

theorem Placed.finish_bounds (x : Placed) (plain : x.key.fin = false ∧ x.key.syn = false) :
    x.finish.behind = x.behind ∧ x.finish.ends = x.ends + 1 := by
  refine ⟨rfl, ?_⟩
  simp [Placed.finish, Placed.ends, SegKey.tcplen, plain.1, plain.2, Nat.add_assoc]

theorem perm_replace {α : Type} {xs front back : List α} {x y : α}
    (same : (xs ++ [x]).Perm (front ++ x :: back)) : (xs ++ [y]).Perm (front ++ y :: back) := by
  have left : ∀ z : α, (xs ++ [z]).Perm (z :: xs) := fun z => perm_append_singleton z xs
  have right : ∀ z : α, (front ++ z :: back).Perm (z :: (front ++ back)) := fun _ =>
    perm_middle
  have rest : xs.Perm (front ++ back) := (((left x).symm.trans same).trans (right x)).cons_inv
  exact ((left y).trans (rest.cons y)).trans (right y).symm

theorem Laid.fin {last : SegKey} (laid : Laid l c) (unsent : c.unsent = init ++ [last])
    (plain : last.fin = false ∧ last.syn = false) :
    ∃ front v stale live, l.unsent = front ++ [v] ∧ (v.key.fin = false ∧ v.key.syn = false) ∧
      (l.stale = [] → stale = []) ∧ (∀ x ∈ live, x ∈ l.live ∨ (x = v.finish ∧ v ∈ l.live)) ∧
      Laid { l with unsent := front ++ [v.finish], stale := stale, live := live }
        { c with unsent := init ++ [{ last with fin := true }] } := by
  obtain ⟨front, v, queue, key, others⟩ := laid.last unsent
  have noFlags : v.key.fin = false ∧ v.key.syn = false := by
    rw [key]
    exact plain
  obtain ⟨behind, ends⟩ := v.finish_bounds noFlags
  have whole : l.segs = l.unacked ++ front ++ [v] := by
    rw [Layout.segs, queue, append_assoc]
  have member : v ∈ l.segs := by
    rw [whole]
    exact mem_append_right _ mem_cons_self
  have split' : ∃ stale live, (l.unacked ++ front ++ [v.finish]).Perm (stale ++ live) ∧
      (l.stale = [] → stale = []) ∧ (∀ x ∈ live, x ∈ l.live ∨ (x = v.finish ∧ v ∈ l.live)) ∧
      Adjoining Placed.pos Placed.behind l.low live l.sndLbb ∧ (∀ x ∈ stale, x.behind ≤ l.low) ∧
      (∀ x ∈ live.tail, l.lastack < x.ends) ∧ (live ≠ [] → l.live ≠ []) ∧
      (live = [] → stale = []) := by
    have parts := laid.parts
    rw [whole] at parts
    cases mem_append.mp (laid.parts.subset member) with
    | inl inStale =>
      obtain ⟨before, after, eq⟩ := append_of_mem inStale
      have below := laid.below
      rw [eq] at parts below
      rw [append_assoc before, cons_append] at parts
      refine ⟨before ++ v.finish :: after, l.live, ?_, ?_, fun x found => .inl found,
        laid.adjoining, ?_, laid.fresh, id, ?_⟩
      · rw [append_assoc before, cons_append]
        exact perm_replace parts
      · intro none'
        rw [eq] at none'
        simp at none'
      · intro x found
        have old : x = v.finish ∨ x ∈ before ++ v :: after := by
          simp only [mem_append, mem_cons] at found ⊢
          tauto
        cases old with
        | inl same =>
          rw [same, behind]
          exact below v (by simp)
        | inr other => exact below x other
      · intro none'
        have gone := laid.nothing none'
        rw [eq] at gone
        simp at gone
    | inr inLive =>
      obtain ⟨before, after, eq⟩ := append_of_mem inLive
      have adjoining := laid.adjoining
      have fresh := laid.fresh
      rw [eq] at parts adjoining fresh
      obtain ⟨mid, inner, first, order, rest⟩ := adjoining_append.mp adjoining
      rw [← append_assoc] at parts
      refine ⟨l.stale, before ++ v.finish :: after, ?_, id, ?_, ?_, laid.below, ?_, ?_, ?_⟩
      · rw [← append_assoc]
        exact perm_replace parts
      · intro x found
        rw [eq]
        have old : (x = v.finish ∧ v ∈ before ++ v :: after) ∨ x ∈ before ++ v :: after := by
          simp only [mem_append, mem_cons] at found ⊢
          tauto
        exact old.symm
      · refine adjoining_append.mpr ⟨mid, inner, first, ?_, ?_⟩
        · rw [behind]
          exact order
        · rw [behind]
          exact rest
      · intro x found
        cases before with
        | nil => exact fresh x found
        | cons y more =>
          cases mem_append.mp (show x ∈ more ++ v.finish :: after from found) with
          | inl old => exact fresh x (mem_append_left _ old)
          | inr later =>
            cases mem_cons.mp later with
            | inl same =>
              have old := fresh v (mem_append_right _ mem_cons_self)
              rw [same, ends]
              exact Nat.lt_succ_of_lt old
            | inr old => exact fresh x (mem_append_right _ (mem_cons_of_mem v old))
      · exact fun _ => ne_nil_of_mem inLive
      · exact fun none' => absurd none' (by simp)
  obtain ⟨stale, live, parts, noStale, each, adjoining, below, fresh, some', nothing⟩ := split'
  refine ⟨front, v, stale, live, queue, noFlags, noStale, each, ?_⟩
  exact { laid with
    unsent := by
      rw [map_append, map_append, others, map_cons, map_nil, map_cons, map_nil, Placed.finish, key]
      rfl
    seqno := by
      have seqno := laid.seqno
      rw [whole] at seqno
      rw [Layout.segs, ← append_assoc]
      exact forall_relast seqno id
    parts := by
      dsimp only [Layout.segs]
      rw [← append_assoc]
      exact parts
    adjoining := adjoining
    below := below
    fresh := fresh
    room := fun given => laid.room (some' given)
    nothing := nothing
    queued := by
      have queued := laid.queued
      rw [queue] at queued
      exact forall_relast queued id
    ordered := by
      have ordered := laid.ordered
      rw [queue] at ordered
      exact pairwise_relast ordered fun _ => id
    opening := by
      intro opening
      obtain ⟨none', start, sent⟩ := laid.opening opening
      exact ⟨noStale none', start, sent⟩ }

/-! ### Acknowledgements -/

/-- What is left of segments that end one behind the other is not acknowledged. -/
theorem lt_ends_of_mem_dropWhile {a : Nat} (sorted : queue.Pairwise fun x y => x.ends ≤ y.ends) :
    ∀ x ∈ queue.dropWhile fun x => x.ends ≤ a, a < x.ends := by
  induction queue with
  | nil => exact fun _ member => absurd member not_mem_nil
  | cons y more ih =>
    obtain ⟨first, rest⟩ := pairwise_cons.mp sorted
    by_cases acked : y.ends ≤ a
    · rw [dropWhile_cons_of_pos (by simpa using acked)]
      exact ih rest
    · rw [dropWhile_cons_of_neg (by simpa using acked)]
      refine forall_mem_cons.mpr ⟨Nat.lt_of_not_le acked, fun x deeper => ?_⟩
      exact Nat.lt_of_lt_of_le (Nat.lt_of_not_le acked) (first x deeper)

theorem mem_dropWhile_of_lt_ends {a : Nat} (member : x ∈ queue) (later : a < x.ends) :
    x ∈ queue.dropWhile fun x => x.ends ≤ a := by
  rw [← takeWhile_append_dropWhile (p := fun x : Placed => decide (x.ends ≤ a))
    (l := queue)] at member
  refine (mem_append.mp member).resolve_left fun dropped => ?_
  have acked := mem_takeWhile_imp dropped
  exact Nat.not_le.mpr later (of_decide_eq_true acked)

/-- The segments that adjoin behind those that are acknowledged. -/
theorem Laid.live_dropWhile (laid : Laid l c) (accounts : Accounts c) (a : Nat) :
    (∀ x ∈ l.live.dropWhile fun x => x.ends ≤ a, a < x.ends) ∧
      (∀ x ∈ l.live.takeWhile fun x => x.ends ≤ a, x.ends ≤ a) := by
  constructor
  · apply lt_ends_of_mem_dropWhile
    apply laid.adjoining.apart.imp_of_mem
    intro x y left right order
    have first := laid.ends_bounds accounts (laid.parts.symm.subset (mem_append_right _ left))
    have second := laid.ends_bounds accounts (laid.parts.symm.subset (mem_append_right _ right))
    omega
  · intro x member
    have holds := mem_takeWhile_imp member
    simpa using holds

/-- An acknowledgement leaves the segments behind it, and possibly others. -/
theorem Laid.prune {gone gone' unacked unsent : List Placed} {a : Nat} (laid : Laid l c)
    (accounts : Accounts c) (sentParts : l.unacked = gone ++ unacked)
    (queuedParts : l.unsent = gone' ++ unsent) (acked : ∀ x ∈ gone ++ gone', x.ends ≤ a)
    (onward : l.lastack ≤ a) (inside : a ≤ l.sndNxt) (near : ∀ x ∈ unacked, a ≤ x.pos + 2049)
    (left : unacked ++ unsent = [] ∨ (l.live.dropWhile fun x => x.ends ≤ a) ≠ [])
    (isUnacked : (ackCore c ackno).unacked.map forget = unacked.map (·.key))
    (isUnsent : (ackCore c ackno).unsent.map forget = unsent.map (·.key))
    (lastack : (ackCore c ackno).lastack = place l.base a) (state : c.state ≠ .synSent) :
    Laid (l.prune a unacked unsent) (ackCore c ackno) := by
  obtain ⟨later, earlier⟩ := laid.live_dropWhile accounts a
  have inSegs : ∀ x ∈ unacked ++ unsent, x ∈ l.segs := by
    intro x member
    rw [Layout.segs, sentParts, queuedParts]
    simp only [mem_append] at member ⊢
    tauto
  have liveInSegs : ∀ x ∈ l.live, x ∈ l.segs := fun x member =>
    laid.parts.symm.subset (mem_append_right _ member)
  -- the place where the segments that adjoin begin behind the acknowledgement
  have split' : l.live.takeWhile (fun x => x.ends ≤ a) ++ l.live.dropWhile (fun x => x.ends ≤ a) =
      l.live := takeWhile_append_dropWhile
  have adjoining := laid.adjoining
  rw [← split'] at adjoining
  obtain ⟨mid, inner, outer⟩ := adjoining_append.mp adjoining
  have isLow : ((l.live.dropWhile fun x => x.ends ≤ a).head?.map (·.pos)).getD l.sndLbb = mid := by
    cases rest : l.live.dropWhile fun x => x.ends ≤ a with
    | nil =>
      rw [rest] at outer
      exact (show mid = l.sndLbb from outer).symm
    | cons y more =>
      rw [rest] at outer
      exact outer.1
  have midLe : mid ≤ a := by
    by_cases none' : l.live.takeWhile (fun x => x.ends ≤ a) = []
    · rw [none'] at inner
      have same : l.low = mid := inner
      have low := laid.low
      omega
    · obtain ⟨x, member, stop⟩ := inner.reached none'
      have isAcked := earlier x member
      have bounds := laid.ends_bounds accounts
        (liveInSegs x ((List.takeWhile_sublist _).subset member))
      omega
  have lowLe : l.low ≤ mid := inner.le
  -- a segment is before that place unless it adjoins behind the acknowledgement
  have before : ∀ x ∈ l.segs, x ∉ (l.live.dropWhile fun x => x.ends ≤ a) → x.behind ≤ mid := by
    intro x member other
    cases mem_append.mp (laid.parts.subset member) with
    | inl stale => exact Nat.le_trans (laid.below x stale) lowLe
    | inr live =>
      rw [← split'] at live
      cases mem_append.mp live with
      | inl dropped => exact (inner.mem dropped).2.2
      | inr kept => exact absurd kept other
  have behind : ∀ x ∈ l.live.dropWhile (fun x => x.ends ≤ a), mid < x.behind := by
    intro x member
    have bounds := (outer.mem member).1
    exact Nat.lt_of_le_of_lt bounds x.pos_lt_behind
  have kept : ((unacked ++ unsent).filter fun x => !decide (x.behind ≤ mid)).Perm
      (l.live.dropWhile fun x => x.ends ≤ a) := by
    have none' : ∀ queue : List Placed, (∀ x ∈ queue, x.behind ≤ mid) →
        queue.filter (fun x => !decide (x.behind ≤ mid)) = [] := by
      intro queue all
      apply filter_eq_nil_iff.mpr
      intro x member
      simpa using all x member
    have removed : ∀ x ∈ gone ++ gone', x.behind ≤ mid := by
      intro x member
      apply before
      · rw [Layout.segs, sentParts, queuedParts]
        simp only [mem_append] at member ⊢
        tauto
      · intro live
        exact absurd (later x live) (Nat.not_lt.mpr (acked x member))
    have whole := laid.parts.filter fun x => !decide (x.behind ≤ mid)
    rw [Layout.segs, sentParts, queuedParts, ← split'] at whole
    simp only [filter_append] at whole
    rw [none' gone fun x member => removed x (mem_append_left _ member),
      none' gone' fun x member => removed x (mem_append_right _ member),
      none' l.stale fun x member => Nat.le_trans (laid.below x member) lowLe,
      none' (l.live.takeWhile _) fun x member => (inner.mem member).2.2] at whole
    have all : (l.live.dropWhile fun x => x.ends ≤ a).filter (fun x => !decide (x.behind ≤ mid)) =
        l.live.dropWhile fun x => x.ends ≤ a := by
      apply filter_eq_self.mpr
      intro x member
      simpa using behind x member
    rw [all] at whole
    rw [filter_append]
    exact whole
  have low : (l.prune a unacked unsent).low = mid := isLow
  constructor
  · exact isUnacked
  · exact isUnsent
  · exact fun x member => laid.seqno x (inSegs x member)
  · exact lastack
  · exact laid.sndNxt
  · exact laid.sndLbb
  · exact laid.window
  · have parted := filter_append_perm (fun x : Placed => decide (x.behind ≤ mid))
      (unacked ++ unsent)
    dsimp only [Layout.segs, Layout.prune]
    rw [isLow]
    exact parted.symm.trans (kept.append_left _)
  · rw [low]
    exact outer
  · intro x member
    have holds := (mem_filter.mp member).2
    exact of_decide_eq_true holds
  · rw [low]
    exact midLe
  · exact inside
  · exact laid.high
  · exact fun x member => later x (mem_of_mem_tail member)
  · intro some'
    obtain ⟨x, member⟩ := exists_mem_of_ne_nil _ some'
    have notAcked := later x member
    have bound := (laid.near accounts (liveInSegs x ((dropWhile_suffix _).subset member))).2.1
    dsimp only [Layout.prune]
    omega
  · intro none'
    cases left with
    | inl empty =>
      dsimp only [Layout.prune]
      rw [empty]
      rfl
    | inr some' => exact absurd none' some'
  · have sorted := laid.sorted
    rw [sentParts] at sorted
    exact (pairwise_append.mp sorted).2.1
  · intro x member
    refine ⟨near x member, (laid.sent x ?_).2⟩
    rw [sentParts]
    exact mem_append_right _ member
  · intro x member
    apply laid.queued x
    rw [queuedParts]
    exact mem_append_right _ member
  · have ordered := laid.ordered
    rw [queuedParts] at ordered
    exact (pairwise_append.mp ordered).2.1
  · exact fun opening => absurd opening state

/-- The place of an acknowledgement of new data. -/
theorem Laid.freshAck_place (laid : Laid l c) (accounts : Accounts c)
    (fresh : freshAck c ackno = true) :
    ∃ a, ackno = place l.base a ∧ l.lastack < a ∧ a ≤ l.sndNxt := by
  have limits := laid.sndLbb_le accounts
  have acked := laid.acked
  obtain ⟨n, bound, eq⟩ := exists_place (place l.base l.lastack) ackno
  have isPlace : ackno = place l.base (l.lastack + n) := by
    rw [eq, ← place_add]
    rfl
  unfold freshAck seqBetween at fresh
  simp only [Bool.and_eq_true, Bool.not_eq_true'] at fresh
  obtain ⟨newer, _, sent⟩ := fresh
  have positive : 0 < n ∧ n < 2147483648 := by
    rw [laid.lastack, isPlace, seqLeq, decide_eq_false_iff_not, toS32_nonpos_iff,
      toNat_place_sub_of_le l.base (Nat.le_add_right _ _) (by omega)] at newer
    omega
  rw [isPlace, laid.sndNxt, seqLeq_place l.base (by omega) (by omega)] at sent
  exact ⟨l.lastack + n, isPlace, by omega, sent⟩

/-- Whether a segment is acknowledged by new data. -/
theorem Laid.acked_iff {a : Nat} (laid : Laid l c) (accounts : Accounts c) (newer : l.lastack < a)
    (sent : a ≤ l.sndNxt) (member : x ∈ l.segs) :
    ackedBy (place l.base a) x.key = decide (x.ends ≤ a) ∧
      unsentAckedBy (place l.base a) c.sndNxt x.key = decide (x.ends ≤ a) := by
  have limits := laid.sndLbb_le accounts
  have near := laid.near accounts member
  have bounds := laid.ends_bounds accounts member
  have below := seqLeq_place l.base (m := x.ends) (n := a) (by omega) (by omega)
  have above := seqGeq_place l.base (m := a) (n := x.ends) (by omega) (by omega)
  have inside := (seqLeq_place l.base (m := a) (n := l.sndNxt) (by omega) (by omega)).mpr sent
  constructor
  · rw [ackedBy, laid.ends_eq member, Bool.eq_iff_iff, decide_eq_true_iff]
    exact below
  · rw [unsentAckedBy, seqBetween, laid.ends_eq member, laid.sndNxt, inside, Bool.and_true,
      Bool.eq_iff_iff, decide_eq_true_iff]
    exact above

/-- A prefix of segments is dropped by their places. -/
theorem keys_dropWhile {p : SegKey → Bool} {q : Placed → Bool} {keys : List SegKey}
    (same : keys.map forget = queue.map (·.key)) (forgets : ∀ k, p (forget k) = p k)
    (agree : ∀ x ∈ queue, p x.key = q x) :
    (keys.dropWhile p).map forget = (queue.dropWhile q).map (·.key) := by
  have left : (keys.dropWhile p).map forget = (keys.map forget).dropWhile p := by
    rw [dropWhile_map]
    exact congrArg (List.map forget) (dropWhile_congr fun k _ => (forgets k).symm)
  have right : (queue.map (·.key)).dropWhile p = (queue.dropWhile q).map (·.key) := by
    rw [dropWhile_map]
    exact congrArg (List.map _) (dropWhile_congr fun x member => agree x member)
  rw [left, same, right]

section

variable (laid : Laid l c) (accounts : Accounts c)

include laid accounts

theorem Laid.ackFresh (fresh : freshAck c ackno = true) (state : c.state ≠ .synSent) :
    ∃ a, ackno = place l.base a ∧ l.lastack < a ∧ a ≤ l.sndNxt ∧
      Laid (l.prune a (l.unacked.dropWhile fun x => x.ends ≤ a)
        (l.unsent.dropWhile fun x => x.ends ≤ a)) (ackCore c ackno) := by
  obtain ⟨a, isPlace, newer, sent⟩ := laid.freshAck_place accounts fresh
  refine ⟨a, isPlace, newer, sent, ?_⟩
  have acked : ∀ x ∈ l.segs, ackedBy ackno x.key = decide (x.ends ≤ a) ∧
      unsentAckedBy ackno c.sndNxt x.key = decide (x.ends ≤ a) := by
    intro x member
    rw [isPlace]
    exact laid.acked_iff accounts newer sent member
  have low := laid.low
  -- a segment that is left at the front of a queue is not acknowledged
  have notAcked : ∀ queue : List Placed, (∀ x ∈ queue, x ∈ l.segs) →
      ∀ y more, queue.dropWhile (fun x => x.ends ≤ a) = y :: more →
        a < y.ends ∧ (l.live.dropWhile fun x => x.ends ≤ a) ≠ [] := by
    intro queue inSegs y more rest
    have first := head?_dropWhile_not (fun x : Placed => decide (x.ends ≤ a)) queue
    rw [rest] at first
    have later : a < y.ends := by simpa using first
    refine ⟨later, ?_⟩
    have member : y ∈ l.segs :=
      inSegs y ((dropWhile_suffix _).subset (by rw [rest]; exact mem_cons_self))
    have bounds := laid.ends_bounds accounts member
    cases mem_append.mp (laid.parts.subset member) with
    | inl stale =>
      have below := laid.below y stale
      omega
    | inr live => exact ne_nil_of_mem (mem_dropWhile_of_lt_ends live later)
  have taken : ∀ queue : List Placed, ∀ x ∈ queue.takeWhile (fun x => x.ends ≤ a),
      x.ends ≤ a := by
    intro queue x member
    have holds := mem_takeWhile_imp member
    exact of_decide_eq_true holds
  apply laid.prune accounts (takeWhile_append_dropWhile).symm
    (takeWhile_append_dropWhile).symm
  · intro x member
    exact (mem_append.mp member).elim (taken _ x) (taken _ x)
  · exact Nat.le_of_lt newer
  · exact sent
  · intro x member
    cases rest : l.unacked.dropWhile fun x => x.ends ≤ a with
    | nil =>
      rw [rest] at member
      cases member
    | cons y more =>
      have later := (notAcked l.unacked (fun x => mem_append_left _) y more rest).1
      have suffix : l.unacked.dropWhile (fun x => x.ends ≤ a) <:+ l.unacked := dropWhile_suffix _
      have sorted := laid.sorted.sublist suffix.sublist
      have short := laid.ends_bounds accounts (mem_append_left _ (suffix.subset (by
        rw [rest]
        exact mem_cons_self)) : y ∈ l.segs)
      rw [rest] at member sorted
      cases member with
      | head => omega
      | tail _ deeper =>
        have order := (pairwise_cons.mp sorted).1 x deeper
        omega
  · cases sentRest : l.unacked.dropWhile fun x => x.ends ≤ a with
    | cons y more =>
      exact .inr (notAcked l.unacked (fun x => mem_append_left _) y more sentRest).2
    | nil =>
      cases queuedRest : l.unsent.dropWhile fun x => x.ends ≤ a with
      | nil => exact .inl rfl
      | cons y more =>
        exact .inr (notAcked l.unsent (fun x => mem_append_right _) y more queuedRest).2
  · simp only [ackCore, if_pos fresh]
    exact keys_dropWhile laid.unacked (fun _ => rfl)
      fun x member => (acked x (mem_append_left _ member)).1
  · simp only [ackCore]
    exact keys_dropWhile laid.unsent (fun _ => rfl)
      fun x member => (acked x (mem_append_right _ member)).2
  · simp only [ackCore, if_pos fresh]
    exact isPlace
  · exact state

/-- No segment that ends behind `snd_nxt` passes for an acknowledged one. -/
def TcpCore.InHalf (c : TcpCore) (ackno : UInt32) : Prop :=
  ∀ k ∈ c.unsent, unsentAckedBy ackno c.sndNxt k = true → seqLt c.sndNxt k.ends = false

/-- An acknowledgement of nothing new removes only segments that are acknowledged. -/
theorem Laid.old_acked (old : freshAck c ackno = false) (inHalf : c.InHalf ackno)
    (member : x ∈ l.unsent) (passes : unsentAckedBy ackno c.sndNxt x.key = true) :
    x.ends ≤ l.lastack := by
  have inSegs : x ∈ l.segs := mem_append_right _ member
  have limits := laid.sndLbb_le accounts
  have acked := laid.acked
  have near := laid.near accounts inSegs
  have bounds := laid.ends_bounds accounts inSegs
  have ends := laid.ends_eq inSegs
  obtain ⟨k, found, same⟩ := exists_key laid.unsent member
  have sentEnd : x.ends ≤ l.sndNxt := by
    have low := inHalf k found (by rw [← same] at passes; exact passes)
    rw [show k.ends = x.key.ends by rw [← same]; rfl, ends, laid.sndNxt, ← Bool.not_eq_true,
      seqLt_place l.base (by omega) (by omega)] at low
    omega
  obtain ⟨d, bound, eq⟩ := exists_place (place l.base x.ends) ackno
  have isPlace : ackno = place l.base (x.ends + d) := by
    rw [eq, ← place_add]
    rfl
  rw [unsentAckedBy, seqBetween, Bool.and_eq_true, ends] at passes
  obtain ⟨above, below⟩ := passes
  have half : d < 2147483648 := by
    rw [isPlace, seqGeq, decide_eq_true_iff, ge_iff_le, toS32_nonneg_iff,
      toNat_place_sub_of_le l.base (Nat.le_add_right _ _) (by omega)] at above
    omega
  rw [isPlace, laid.sndNxt, seqLeq_place l.base (by omega) (by omega)] at below
  by_contra later
  have newer : ¬seqLeq ackno c.lastack = true := by
    rw [isPlace, laid.lastack, seqLeq_place l.base (by omega) (by omega)]
    omega
  have between : seqBetween ackno (c.lastack + 1) c.sndNxt = true := by
    rw [seqBetween, Bool.and_eq_true, isPlace, laid.lastack, laid.sndNxt, place_add_one,
      seqGeq_place l.base (by omega) (by omega), seqLeq_place l.base (by omega) (by omega)]
    omega
  rw [freshAck, between, Bool.and_true, Bool.not_eq_false'] at old
  exact newer old

/-- Acknowledged segments at the front of `unsent` are not all that adjoins, unless nothing else is
queued. -/
def Layout.KeepsLive (l : Layout) : Prop :=
  ∀ gone unsent, gone ≠ [] → l.unsent = gone ++ unsent → (∀ x ∈ gone, x.ends ≤ l.lastack) →
    l.unacked ++ unsent = [] ∨ (l.live.dropWhile fun x => x.ends ≤ l.lastack) ≠ []

/-- Nothing new is acknowledged: segments that are left behind may go. -/
theorem Laid.ackOld (old : freshAck c ackno = false) (inHalf : c.InHalf ackno)
    (state : c.state ≠ .synSent) (left : l.KeepsLive) :
    Laid l (ackCore c ackno) ∨
      ∃ gone unsent, gone ≠ [] ∧ l.unsent = gone ++ unsent ∧ (∀ x ∈ gone, x.ends ≤ l.lastack) ∧
        Laid (l.prune l.lastack l.unacked unsent) (ackCore c ackno) := by
  have isUnsent : ((ackCore c ackno).unsent).map forget =
      (l.unsent.dropWhile fun x => unsentAckedBy ackno c.sndNxt x.key).map (·.key) :=
    keys_dropWhile laid.unsent (fun _ => rfl) fun _ _ => rfl
  have isUnacked : (ackCore c ackno).unacked = c.unacked := by
    simp only [ackCore, old]
    rfl
  have isLastack : (ackCore c ackno).lastack = c.lastack := by
    simp only [ackCore, old]
    rfl
  have parts : l.unsent = l.unsent.takeWhile (fun x => unsentAckedBy ackno c.sndNxt x.key) ++
      l.unsent.dropWhile fun x => unsentAckedBy ackno c.sndNxt x.key :=
    takeWhile_append_dropWhile.symm
  by_cases none' : l.unsent.takeWhile (fun x => unsentAckedBy ackno c.sndNxt x.key) = []
  · rw [none', nil_append] at parts
    rw [← parts] at isUnsent
    left
    exact laid.frame (by rw [isUnacked]) (isUnsent.trans laid.unsent.symm) isLastack rfl rfl
      laid.window id
  right
  have acked : ∀ x ∈ l.unsent.takeWhile (fun x => unsentAckedBy ackno c.sndNxt x.key),
      x.ends ≤ l.lastack := by
    intro x member
    have passes := mem_takeWhile_imp member
    exact laid.old_acked accounts old inHalf ((List.takeWhile_sublist _).subset member) passes
  refine ⟨_, _, none', parts, acked, ?_⟩
  apply laid.prune accounts (nil_append _).symm parts
  · exact acked
  · exact Nat.le_refl _
  · exact laid.acked
  · exact fun x member => (laid.sent x member).1
  · exact left _ _ none' parts acked
  · rw [isUnacked]
    exact laid.unacked
  · exact isUnsent
  · rw [isLastack]
    exact laid.lastack
  · exact state

/-! ### The handshake -/

/-- The `SYN` of a connection that is being opened is the first segment. -/
theorem Laid.syn (opening : c.state = .synSent) {y : Placed} {rest : List Placed}
    (first : l.segs = y :: rest) :
    y.behind = y.pos + 1 ∧ (∀ x ∈ rest, y.pos < x.pos) ∧
      ∃ live, l.live = y :: live ∧ rest.Perm live := by
  obtain ⟨syn, others, m, opened⟩ := accounts.opening opening
  have small := opened.near accounts.balanced
  have keys := laid.keys
  rw [opened.segs, first, map_cons, List.cons.injEq] at keys
  obtain ⟨isSyn, isOthers⟩ := keys
  have inSegs : ∀ x, x ∈ y :: rest → x ∈ l.segs := by
    intro x member
    rw [first]
    exact member
  have yIn := inSegs y mem_cons_self
  have near := laid.near accounts yIn
  have limits := laid.sndLbb_le accounts
  have behind : y.behind = y.pos + 1 := by
    unfold Placed.behind
    rw [← isSyn, opened.empty]
    rfl
  have order : ∀ x ∈ rest, y.pos < x.pos := by
    intro x member
    have isKey : x.key ∈ others := by
      rw [isOthers]
      exact mem_map_of_mem member
    obtain ⟨n, positive, inside, seqno⟩ := opened.behind x.key isKey
    have xIn := inSegs x (mem_cons_of_mem y member)
    have nearX := laid.near accounts xIn
    have same : place l.base x.pos = place l.base (y.pos + n) := by
      rw [← laid.seqno x xIn, seqno, isSyn, laid.seqno y yIn, ← place_add]
      rfl
    have eq := place_inj l.base same (by omega) (by omega)
    omega
  refine ⟨behind, order, ?_⟩
  have parts := laid.parts
  rw [first, (laid.opening opening).1, nil_append] at parts
  cases live : l.live with
  | nil =>
    rw [live] at parts
    exact absurd parts.length_eq (by simp)
  | cons z more =>
    rw [live] at parts
    have adjoining := laid.adjoining
    rw [live] at adjoining
    have yLive : y ∈ z :: more := parts.subset mem_cons_self
    have zIn : z ∈ y :: rest := parts.symm.subset mem_cons_self
    have lowest := (adjoining.mem yLive).1
    have start : z.pos = l.low := adjoining.1
    have same : z = y := by
      cases mem_cons.mp zIn with
      | inl same => exact same
      | inr later =>
        have higher := order z later
        omega
    rw [same] at parts
    exact ⟨more, by rw [same], parts.cons_inv⟩

theorem Laid.synAck {wnd : Nat} {keys keys' : List SegKey} (opening : c.state = .synSent)
    (removed : (∃ syn, c.unacked = syn :: keys ∧ keys' = c.unsent) ∨
      (c.unacked = [] ∧ keys = [] ∧ ∃ syn, c.unsent = syn :: keys'))
    (window : wnd < 65536) (rcvNxt edge : UInt32) (sndQueuelen : Nat) :
    ∃ y unacked unsent live, unsent <:+ l.unsent ∧ l.live = y :: live ∧ Laid { l with
        lastack := l.lastack + 1, low := l.lastack + 1, unacked := unacked, unsent := unsent
        stale := [], live := live }
      { c with
        state := .established, rcvNxt := rcvNxt, rcvAnnRightEdge := edge
        lastack := c.lastack + 1, sndWnd := wnd, sndQueuelen := sndQueuelen
        unacked := keys, unsent := keys' } := by
  have split' : ∃ y unacked' unsent', l.segs = y :: (unacked' ++ unsent') ∧
      unacked' <:+ l.unacked ∧ unsent' <:+ l.unsent ∧
      keys.map forget = unacked'.map (·.key) ∧ keys'.map forget = unsent'.map (·.key) := by
    have sent := laid.unacked
    have queued := laid.unsent
    cases removed with
    | inl given =>
      obtain ⟨syn, isFirst, same⟩ := given
      rw [isFirst] at sent
      obtain ⟨y, more, queue, _, others⟩ := exists_placed_cons sent
      rw [Layout.segs, queue]
      refine ⟨y, more, l.unsent, rfl, suffix_cons y more, suffix_refl _, others, ?_⟩
      rw [same]
      exact queued
    | inr given =>
      obtain ⟨none', isNone, syn, isFirst⟩ := given
      rw [none'] at sent
      have empty : l.unacked = [] := map_eq_nil_iff.mp sent.symm
      rw [isFirst] at queued
      obtain ⟨y, more, queue, _, others⟩ := exists_placed_cons queued
      rw [Layout.segs, queue, empty, isNone]
      exact ⟨y, [], more, rfl, nil_suffix, suffix_cons y more, rfl, others⟩
  obtain ⟨y, unacked', unsent', first, sentSuffix, queuedSuffix, sentKeys, queuedKeys⟩ := split'
  obtain ⟨behind, order, live, isLive, perm⟩ := laid.syn accounts opening first
  obtain ⟨noStale, isLow, some'⟩ := laid.opening opening
  have adjoining := laid.adjoining
  rw [isLive] at adjoining
  have start : y.pos = l.lastack := adjoining.1.trans isLow
  have rest := adjoining.2.2
  rw [behind, start] at rest
  refine ⟨y, unacked', unsent', live, queuedSuffix, isLive, ?_⟩
  have inSegs : ∀ x ∈ unacked' ++ unsent', x ∈ l.segs := by
    intro x member
    rw [first]
    exact mem_cons_of_mem y member
  constructor
  · exact sentKeys
  · exact queuedKeys
  · exact fun x member => laid.seqno x (inSegs x member)
  · dsimp only
    rw [laid.lastack, place_add_one]
  · exact laid.sndNxt
  · exact laid.sndLbb
  · exact window
  · exact perm
  · exact rest
  · exact fun x member => absurd member not_mem_nil
  · exact Nat.le_refl _
  · exact some'
  · exact laid.high
  · intro x member
    have inLive : x ∈ live := mem_of_mem_tail member
    have place' := (rest.mem inLive).1
    have bounds := laid.ends_bounds accounts (inSegs x (perm.symm.subset inLive))
    dsimp only
    omega
  · intro nonempty
    obtain ⟨x, member⟩ := exists_mem_of_ne_nil _ nonempty
    have bounds := rest.mem member
    dsimp only
    omega
  · exact fun _ => rfl
  · exact laid.sorted.sublist sentSuffix.sublist
  · intro x member
    have higher := order x (mem_append_left _ member)
    exact ⟨by dsimp only; omega, (laid.sent x (sentSuffix.subset member)).2⟩
  · exact fun x member => laid.queued x (queuedSuffix.subset member)
  · exact laid.ordered.sublist queuedSuffix.sublist
  · exact fun never => nomatch never

end

/-- The layout of a connection without segments. -/
def Layout.empty (base : UInt32) (sndNxt : Nat) : Layout :=
  { base := base, lastack := 0, sndNxt := sndNxt, sndLbb := 0, low := 0, unacked := [], unsent := []
    stale := [], live := [] }

theorem laid_empty (base : UInt32) (sndNxt : Nat) (unacked : c.unacked = [])
    (unsent : c.unsent = [])
    (lastack : c.lastack = base) (isNext : c.sndNxt = place base sndNxt) (next : sndNxt ≤ 1)
    (sndLbb : c.sndLbb = base) (window : c.sndWnd < 65536) (state : c.state ≠ .synSent) :
    Laid (Layout.empty base sndNxt) c where
  unacked := by
    rw [unacked]
    rfl
  unsent := by
    rw [unsent]
    rfl
  seqno := fun _ member => absurd member List.not_mem_nil
  lastack := lastack.trans (place_zero base).symm
  sndNxt := isNext
  sndLbb := sndLbb.trans (place_zero base).symm
  window := window
  parts := List.Perm.refl _
  adjoining := rfl
  below := fun _ member => absurd member List.not_mem_nil
  low := Nat.le_refl 0
  acked := Nat.zero_le _
  high := next
  fresh := fun _ member => absurd member List.not_mem_nil
  room := fun some' => absurd rfl some'
  nothing := fun _ => rfl
  sorted := List.Pairwise.nil
  sent := fun _ member => absurd member List.not_mem_nil
  queued := fun _ member => absurd member List.not_mem_nil
  ordered := List.Pairwise.nil
  opening := fun opening => absurd opening state

/-- A segment of flags behind all others. -/
def Layout.flagsPlaced (l : Layout) (c : TcpCore) (flags : TcpFlags) : Placed :=
  ⟨l.sndLbb, flagsKey c.sndLbb flags⟩

theorem Layout.adjoining_flagsPlaced (l : Layout) (c : TcpCore) (flags : TcpFlags) :
    Adjoining Placed.pos Placed.behind l.sndLbb [l.flagsPlaced c flags] (l.sndLbb + 1) :=
  ⟨rfl, Nat.le_add_right _ _, rfl⟩

/-- Flags are queued. -/
theorem Laid.flags (laid : Laid l c) (flags : TcpFlags)
    (either : (flags.fin || flags.syn) = true) :
    Laid (l.append [l.flagsPlaced c flags] (l.sndLbb + 1)) (flagsCore c flags) := by
  apply laid.append (l.adjoining_flagsPlaced c flags)
  · intro x member
    rw [mem_singleton.mp member]
    exact laid.sndLbb
  · intro x member
    rw [mem_singleton.mp member]
    simp [Layout.flagsPlaced, SegKey.tcplen, flagsKey, either]
  · rfl
  · rw [laid.sndLbb, place_add_one]

/-- The layout of a connection that is being opened. -/
def Layout.connect (iss : UInt32) : Layout :=
  { base := iss - 1, lastack := 0, sndNxt := 1, sndLbb := 1, low := 0, unacked := []
    unsent := [⟨0, flagsKey (iss - 1) { syn := true }⟩], stale := []
    live := [⟨0, flagsKey (iss - 1) { syn := true }⟩] }

theorem laid_connectFails (accounts : Accounts c) (iss : UInt32) (closed : c.state = .closed) :
    Laid (Layout.empty (iss - 1) 1) (connectCore c iss) := by
  have empty := accounts.closed closed
  have next : (connectCore c iss).sndNxt = place (iss - 1) 1 := by
    rw [← place_add_one, place_zero, UInt32.sub_add_cancel]
    rfl
  exact laid_empty (iss - 1) 1 empty.1 empty.2 rfl next (Nat.le_refl 1) rfl
    (Nat.lt_succ_of_le tcpWnd_small) fun opening => nomatch closed.symm.trans opening

theorem laid_connect (accounts : Accounts c) (iss : UInt32) (closed : c.state = .closed) :
    Laid (Layout.connect iss)
      { flagsCore (connectCore c iss) { syn := true } with state := .synSent } :=
  { (laid_connectFails accounts iss closed).flags { syn := true } rfl with
    opening := fun _ => ⟨rfl, rfl, Nat.one_pos⟩ }

/-! ### All moves -/

/-- What the moves of a connection do to its layout. -/
inductive Moved (l : Layout) (c : TcpCore) : TcpAct → Layout → Prop
  | same (act : TcpAct) : Moved l c act l
  | send (x : Placed) (rest : List Placed) (queue : l.unsent = x :: rest) :
      Moved l c .send (l.send x rest)
  | probe (x : Placed) : Moved l c .probe (l.probe x)
  | requeue (x : Placed) (rest : List Placed) (queue : l.unacked = x :: rest) :
      Moved l c .requeue (l.requeue x rest)
  | splice : Moved l c .splice l.splice
  | ackFresh (ackno : UInt32) (a : Nat) :
      Moved l c (.ack ackno) (l.prune a (l.unacked.dropWhile fun x => x.ends ≤ a)
        (l.unsent.dropWhile fun x => x.ends ≤ a))
  | ackOld (ackno : UInt32) (gone unsent : List Placed) (some' : gone ≠ [])
      (parts : l.unsent = gone ++ unsent) (acked : ∀ x ∈ gone, x.ends ≤ l.lastack) :
      Moved l c (.ack ackno) (l.prune l.lastack l.unacked unsent)
  | write (l₁ : Layout) (c₁ : TcpCore) (queue : List Placed) (sndLbb : Nat)
      (extends' : l.Extended l₁) (laid : Laid l₁ c₁)
      (adjoining : Adjoining Placed.pos Placed.behind l₁.sndLbb queue sndLbb)
      (ends : ∀ x ∈ queue, x.ends = x.behind) : Moved l c .write (l₁.append queue sndLbb)
  | flags (flags : TcpFlags) (either : (flags.fin || flags.syn) = true) :
      Moved l c .flags (l.append [l.flagsPlaced c flags] (l.sndLbb + 1))
  | fin (front : List Placed) (v : Placed) (stale live : List Placed)
      (queue : l.unsent = front ++ [v]) (plain : v.key.fin = false ∧ v.key.syn = false)
      (noStale : l.stale = [] → stale = [])
      (members : ∀ x ∈ live, x ∈ l.live ∨ (x = v.finish ∧ v ∈ l.live)) :
      Moved l c .fin { l with unsent := front ++ [v.finish], stale := stale, live := live }
  | synAck (wnd : Nat) (y : Placed) (unacked unsent live : List Placed)
      (suffix : unsent <:+ l.unsent) (isLive : l.live = y :: live) :
      Moved l c (.synAck wnd) { l with
        lastack := l.lastack + 1, low := l.lastack + 1, unacked := unacked, unsent := unsent
        stale := [], live := live }
  | connectFails (iss : UInt32) : Moved l c .connect (Layout.empty (iss - 1) 1)
  | connect (iss : UInt32) : Moved l c .connect (Layout.connect iss)

/-- The moves that keep the segments in their places. -/
def laidAdmits (c : TcpCore) : TcpAct → Prop
  | .write => c.LastHighest
  | .ack ackno => c.InHalf ackno
  | .peerWindow wnd | .synAck wnd => wnd < 65536
  | _ => True

/-- Every move that is admitted moves the layout. -/
theorem Laid.move {act : TcpAct} (laid : Laid l c) (accounts : Accounts c) (keeps : l.KeepsLive)
    (meets : laidAdmits c act) (kept : act ≠ .purge) (move : TcpMove c act c') :
    ∃ l', Moved l c act l' ∧ Laid l' c' := by
  have window := laid.window
  cases move with
  | enter state before behind =>
    exact ⟨l, .same _, laid.frame rfl rfl rfl rfl rfl window fun given =>
      absurd given behind.not_synSent⟩
  | peerWindow wnd => exact ⟨l, .same _, laid.frame rfl rfl rfl rfl rfl meets id⟩
  | touch unsent same => exact ⟨l, .same _, laid.frame rfl same rfl rfl rfl window id⟩
  | send k next first inWindow =>
    obtain ⟨x, rest, queue, after⟩ := laid.send accounts first inWindow
    exact ⟨_, .send x rest queue, after⟩
  | probe k first =>
    obtain ⟨x, after⟩ := laid.probe accounts first
    exact ⟨_, .probe x, after⟩
  | requeue k next first state =>
    obtain ⟨x, rest, queue, after⟩ := laid.requeue accounts first state _
    exact ⟨_, .requeue x rest queue, after⟩
  | splice oversize last _ _ => exact ⟨_, .splice, laid.splice accounts⟩
  | ack ackno _ opened =>
    cases fresh : freshAck c ackno with
    | true =>
      obtain ⟨a, _, _, _, after⟩ := laid.ackFresh accounts fresh opened.not_synSent
      exact ⟨_, .ackFresh ackno a, after⟩
    | false =>
      rcases laid.ackOld accounts fresh meets opened.not_synSent keeps with
        same | ⟨gone, unsent, some', parts, acked, after⟩
      · exact ⟨l, .same _, same⟩
      · exact ⟨_, .ackOld ackno gone unsent some' parts acked, after⟩
  | write len extra pbufs oversize tail queue queued =>
    obtain ⟨l₁, c₁, new, extends', placed, adjoining, ends, after⟩ :=
      laid.write accounts meets queued
    exact ⟨_, .write l₁ c₁ new _ extends' placed adjoining fun x member => (ends x member).2, after⟩
  | flags flags either _ _ _ =>
    exact ⟨_, .flags flags either, laid.flags flags either⟩
  | fin init last unsent plain =>
    obtain ⟨front, v, stale, live, queue, noFlags, noStale, members, after⟩ :=
      laid.fin unsent plain
    exact ⟨_, .fin front v stale live queue noFlags noStale members, after⟩
  | synAck rcvNxt wnd unacked unsent opening _ removed =>
    obtain ⟨y, unacked', unsent', live, suffix, isLive, after⟩ :=
      laid.synAck accounts opening removed meets rcvNxt rcvNxt _
    exact ⟨_, .synAck wnd y unacked' unsent' live suffix isLive, after⟩
  | connectFails iss closed =>
    exact ⟨_, .connectFails iss, laid_connectFails accounts iss closed⟩
  | connect iss closed => exact ⟨_, .connect iss, laid_connect accounts iss closed⟩
  | purge _ => exact absurd rfl kept
  | _ => exact ⟨l, .same _, laid.frame rfl rfl rfl rfl rfl window id⟩

end Moves

end Lwip
