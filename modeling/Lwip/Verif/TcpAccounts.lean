import Lwip.Verif.TcpConn
import Lwip.Verif.TcpEvents

/-!
# Accounting of the send buffer

`snd_buf` and the data on the two send queues make up `TCP_SND_BUF`, and `snd_queuelen` counts the
pbufs on the queues, in every state of a connection whose queues are kept. The counters are only
right together with facts about the segments: each occupies sequence numbers and has a pbuf, their
number is limited by the pool, and the segment that the answer to a `SYN` removes is that `SYN`.
-/

namespace Lwip

open Insertion Transition Serial List

variable {k syn : SegKey} {queue rest unsent next tail : List SegKey}
  {start pcb pcb' final : TcpPcb} {c' : TcpCore} {state : TcpState}
  {m oversize extra pbufs len : Nat} {act : TcpAct} {admitted : TcpCore → TcpAct → Prop}
  {event : TcpEvent}

/-! ## Counters and the segments that they count -/

/-- A segment without what `oversize_left` says of it. -/
def forget (k : SegKey) : SegKey := { k with left := 0 }

/-- The segments on both queues. -/
def TcpCore.segs (c : TcpCore) : List SegKey := c.unacked ++ c.unsent

/-- The counters are right for segments. -/
structure Balanced (sndBuf sndQueuelen : Nat) (keys : List SegKey) : Prop where
  buffer : sndBuf + lens keys = tcpSndBuf
  queuelen : sndQueuelen = clens keys
  each : ∀ k ∈ keys, 0 < k.tcplen ∧ 0 < k.clen
  /-- The pool limits the number of segments. -/
  count : keys.length ≤ mempNumTcpSeg
  /-- Only segments without data go beyond the limit on pbufs. -/
  pbufs : clens keys ≤ tcpSndQueuelen + keys.length

theorem clens_append (keys more : List SegKey) : clens (keys ++ more) = clens keys + clens
    more := by
  simp [clens]

theorem lens_singleton (k : SegKey) : lens [k] = k.len := by
  simp [lens]

theorem clens_singleton (k : SegKey) : clens [k] = k.clen := by
  simp [clens]

theorem lens_map_forget (keys : List SegKey) : lens (keys.map forget) = lens keys := by
  simp [lens, forget, Function.comp_def]

theorem clens_map_forget (keys : List SegKey) : clens (keys.map forget) = clens keys := by
  simp [clens, forget, Function.comp_def]

/-- Lengths do not depend on the order and on `oversize_left`. -/
theorem lens_congr {keys keys' : List SegKey} (same : (keys'.map forget).Perm (keys.map forget)) :
    lens keys' = lens keys := by
  rw [← lens_map_forget keys', ← lens_map_forget keys]
  exact (same.map _).sum_nat

/-- Numbers of pbufs do not depend on the order and on `oversize_left`. -/
theorem clens_congr {keys keys' : List SegKey} (same : (keys'.map forget).Perm (keys.map forget)) :
    clens keys' = clens keys := by
  rw [← clens_map_forget keys', ← clens_map_forget keys]
  exact (same.map _).sum_nat

section Balanced

variable {sndBuf sndQueuelen : Nat} {keys keys' : List SegKey}

/-- The order and `oversize_left` do not matter. -/
theorem Balanced.congr (balanced : Balanced sndBuf sndQueuelen keys)
    (same : (keys'.map forget).Perm (keys.map forget)) : Balanced sndBuf sndQueuelen keys' := by
  have length : keys'.length = keys.length := by simpa using same.length_eq
  constructor
  · rw [lens_congr same]
    exact balanced.buffer
  · rw [clens_congr same]
    exact balanced.queuelen
  · intro k member
    have found := same.subset (mem_map_of_mem member)
    obtain ⟨k', member', eq⟩ := mem_map.mp found
    have facts := balanced.each k' member'
    have tcplen : (forget k').tcplen = (forget k).tcplen := congrArg SegKey.tcplen eq
    have clen : (forget k').clen = (forget k).clen := congrArg SegKey.clen eq
    rw [show k'.tcplen = k.tcplen from tcplen, show k'.clen = k.clen from clen] at facts
    exact facts
  · rw [length]
    exact balanced.count
  · rw [clens_congr same, length]
    exact balanced.pbufs

theorem clen_le_clens (member : k ∈ keys) : k.clen ≤ clens keys := by
  obtain ⟨before, behind, parts⟩ := append_of_mem member
  rw [parts, clens_append]
  exact Nat.le_trans (Nat.le_add_right k.clen (clens behind)) (Nat.le_add_left _ _)

theorem pbufClens_eq_clens (small : ∀ k ∈ keys, k.clen < 65536) : pbufClens keys = clens keys := by
  unfold pbufClens clens
  rw [map_congr_left fun k member => u16_of_lt (small k member)]

/-- Every segment occupies at least one pbuf. -/
theorem length_le_clens (each : ∀ k ∈ keys, 0 < k.clen) : keys.length ≤ clens keys := by
  induction keys with
  | nil => exact Nat.zero_le _
  | cons k more ih =>
    have first := each k mem_cons_self
    have rest := ih fun k' member => each k' (mem_cons_of_mem k member)
    have sum : clens (k :: more) = k.clen + clens more := rfl
    rw [length_cons, sum]
    omega

/-- Removed segments give back their bytes and pbufs. -/
theorem Balanced.remove {gone : List SegKey}
    (balanced : Balanced sndBuf sndQueuelen (gone ++ keys)) :
    u16 (sndBuf + lens gone) = sndBuf + lens gone ∧ pbufClens gone = clens gone ∧
      Balanced (sndBuf + lens gone) (sndQueuelen - clens gone) keys := by
  have buffer := balanced.buffer
  have queuelen := balanced.queuelen
  have count := balanced.count
  have pbufs := balanced.pbufs
  have most := length_le_clens fun k member => (balanced.each k (mem_append_left keys member)).2
  unfold tcpSndBuf at buffer
  unfold mempNumTcpSeg at count
  unfold tcpSndQueuelen at pbufs
  rw [lens_append] at buffer
  rw [clens_append] at queuelen pbufs
  rw [length_append] at count pbufs
  refine ⟨u16_of_lt (by omega), ?_, ?_⟩
  · apply pbufClens_eq_clens
    intro k member
    have bound := clen_le_clens member
    omega
  constructor
  · unfold tcpSndBuf
    omega
  · omega
  · exact fun k member => balanced.each k (mem_append_right gone member)
  · unfold mempNumTcpSeg
    omega
  · unfold tcpSndQueuelen
    omega

/-- A new segment without data. -/
theorem Balanced.flags (balanced : Balanced sndBuf sndQueuelen keys) (empty : k.len = 0)
    (one : k.clen = 1) (counts : 0 < k.tcplen) (room : keys.length < mempNumTcpSeg) :
    Balanced sndBuf (u16 (sndQueuelen + 1)) (keys ++ [k]) := by
  have buffer := balanced.buffer
  have queuelen := balanced.queuelen
  have pbufs := balanced.pbufs
  have lensOne : lens [k] = 0 := (lens_singleton k).trans empty
  have clensOne : clens [k] = 1 := (clens_singleton k).trans one
  unfold mempNumTcpSeg at room
  unfold tcpSndQueuelen at pbufs
  constructor
  · rw [lens_append, lensOne]
    exact buffer
  · rw [clens_append, clensOne, u16_of_lt (by omega), queuelen]
  · intro k' member
    cases mem_append.mp member with
    | inl old => exact balanced.each k' old
    | inr new =>
      rw [mem_singleton.mp new, one]
      exact ⟨counts, Nat.one_pos⟩
  · rw [length_append]
    unfold mempNumTcpSeg
    exact room
  · rw [clens_append, clensOne, length_append]
    unfold tcpSndQueuelen
    simp only [length_cons, length_nil]
    omega

end Balanced

/-! ## Queues -/

theorem FreshFrom.placed {base : UInt32} {n : Nat} (fresh : FreshFrom (place base n) queue) :
    ∀ k ∈ queue, ∃ m, n ≤ m ∧ m + k.len ≤ n + lens queue ∧ k.seqno = place base m := by
  induction queue generalizing n with
  | nil => simp
  | cons first more ih =>
    obtain ⟨seqno, _, _, _, _, rest⟩ := fresh
    have sum : lens (first :: more) = first.len + lens more := rfl
    intro k member
    cases member with
    | head => exact ⟨n, Nat.le_refl n, by omega, seqno⟩
    | tail _ there =>
      rw [place_add] at rest
      obtain ⟨m, low, high, eq⟩ := ih rest k there
      exact ⟨m, by omega, by omega, eq⟩

theorem FreshFrom.each {start : UInt32} (fresh : FreshFrom start queue) :
    ∀ k ∈ queue, 0 < k.len ∧ 0 < k.clen ∧ k.fin = false ∧ k.syn = false := by
  induction queue generalizing start with
  | nil => simp
  | cons first more ih =>
    obtain ⟨_, fin, syn, len, clen, rest⟩ := fresh
    intro k member
    cases member with
    | head => exact ⟨len, clen, fin, syn⟩
    | tail _ there => exact ih rest k there

/-! ## The invariant -/

/-- A connection that waits for the answer to its `SYN`: the `SYN` is the first segment, and all
others have sequence numbers behind it. -/
structure Opening (c : TcpCore) (syn : SegKey) (rest : List SegKey) (m : Nat) : Prop where
  segs : c.segs.map forget = syn :: rest
  empty : syn.len = 0
  one : syn.clen = 1
  flag : syn.syn = true
  behind : ∀ k ∈ rest, ∃ n, 0 < n ∧ n < m ∧ k.seqno = place syn.seqno n
  sndLbb : c.sndLbb = place syn.seqno m
  positive : 0 < m
  bound : m ≤ 1 + lens rest + rest.length

/-- The counters of a connection are right. -/
structure Accounts (c : TcpCore) : Prop where
  balanced : Balanced c.sndBuf c.sndQueuelen c.segs
  /-- `oversize_left` of transmitted segments is reset. -/
  left : ∀ k ∈ c.unacked, k.left = 0
  /-- There is only room behind data. -/
  oversize : 0 < c.unsentOversize → ∃ last, c.unsent.getLast? = some last ∧ 0 < last.len
  closed : c.state = .closed → c.unacked = [] ∧ c.unsent = []
  opening : c.state = .synSent → ∃ syn rest m, Opening c syn rest m

section Moves

variable {c : TcpCore}

/-- A move that leaves the queues and counters of the sender as they are. -/
theorem Accounts.frame (accounts : Accounts c) (state : c'.state = c.state)
    (unacked : c'.unacked = c.unacked) (unsent : c'.unsent = c.unsent)
    (sndBuf : c'.sndBuf = c.sndBuf) (sndQueuelen : c'.sndQueuelen = c.sndQueuelen)
    (sndLbb : c'.sndLbb = c.sndLbb)
    (oversize : c'.unsentOversize = c.unsentOversize ∨ c'.unsentOversize = 0) : Accounts c' := by
  have segs : c'.segs = c.segs := by
    unfold TcpCore.segs
    rw [unacked, unsent]
  constructor
  · rw [sndBuf, sndQueuelen, segs]
    exact accounts.balanced
  · rw [unacked]
    exact accounts.left
  · intro positive
    rw [unsent]
    cases oversize with
    | inl same =>
      rw [same] at positive
      exact accounts.oversize positive
    | inr zero => omega
  · rw [state, unacked, unsent]
    exact accounts.closed
  · intro opening
    rw [state] at opening
    obtain ⟨syn, rest, m, opened⟩ := accounts.opening opening
    exact ⟨syn, rest, m, { opened with
      segs := by rw [segs]; exact opened.segs, sndLbb := sndLbb.trans opened.sndLbb }⟩

/-- A connection behind the handshake has nothing to show for its opening. -/
theorem accounts_of_open (late : c'.state.Open)
    (balanced : Balanced c'.sndBuf c'.sndQueuelen c'.segs) (left : ∀ k ∈ c'.unacked, k.left = 0)
    (oversize : 0 < c'.unsentOversize → ∃ last, c'.unsent.getLast? = some last ∧ 0 < last.len) :
    Accounts c' := by
  have early : ∀ state, c'.state = state → TcpState.synRcvd.code ≤ state.code := by
    intro state given
    rw [← given]
    exact late.1
  exact ⟨balanced, left, oversize, fun given => absurd (early _ given) (by decide),
    fun given => absurd (early _ given) (by decide)⟩

theorem Accounts.enter (accounts : Accounts c) (behind : state.Open) :
    Accounts { c with state := state } :=
  accounts_of_open behind accounts.balanced accounts.left accounts.oversize

/-- The distance of segments from the `SYN` is small. -/
theorem Opening.near (opened : Opening c syn rest m)
    (balanced : Balanced c.sndBuf c.sndQueuelen c.segs) : m < 65536 := by
  have bound := opened.bound
  have buffer := balanced.buffer
  have count := balanced.count
  have length : c.segs.length = rest.length + 1 := by
    have eq := congrArg List.length opened.segs
    simpa using eq
  have same : lens c.segs = lens (syn :: rest) := by
    apply lens_congr
    rw [← opened.segs, map_map]
    exact List.Perm.refl _
  have sum : lens (syn :: rest) = syn.len + lens rest := rfl
  unfold tcpSndBuf at buffer
  unfold mempNumTcpSeg at count
  omega

/-- The same segments in another order behind the `SYN`. -/
theorem Opening.perm {rest' : List SegKey} (opened : Opening c syn rest m)
    (segs : c'.segs.map forget = syn :: rest') (same : rest'.Perm rest)
    (sndLbb : c'.sndLbb = c.sndLbb) : Opening c' syn rest' m := by
  have sum : lens rest' = lens rest := (same.map _).sum_nat
  have length := same.length_eq
  have bound := opened.bound
  exact ⟨segs, opened.empty, opened.one, opened.flag,
    fun k member => opened.behind k (same.subset member), sndLbb.trans opened.sndLbb,
    opened.positive, by omega⟩

/-- There is data at the end of a queue if there is data at the end of the same queue. -/
theorem last_of_forget {queue' : List SegKey} (same : queue'.map forget = queue.map forget)
    (data : ∃ last, queue.getLast? = some last ∧ 0 < last.len) :
    ∃ last, queue'.getLast? = some last ∧ 0 < last.len := by
  obtain ⟨last, found, positive⟩ := data
  have ends : queue'.getLast?.map forget = some (forget last) := by
    rw [← getLast?_map, same, getLast?_map, found]
    rfl
  obtain ⟨last', found', eq⟩ := Option.map_eq_some_iff.mp ends
  have len : (forget last').len = (forget last).len := congrArg SegKey.len eq
  exact ⟨last', found', by rw [show last'.len = last.len from len]; exact positive⟩

theorem Accounts.touch (accounts : Accounts c) (same : SameKeys c.unsent unsent) :
    Accounts { c with unsent := unsent } := by
  have forgotten : unsent.map forget = c.unsent.map forget := same
  have segs : (c.unacked ++ unsent).map forget = c.segs.map forget := by
    rw [TcpCore.segs, map_append, map_append, forgotten]
  constructor
  · apply accounts.balanced.congr
    exact List.Perm.of_eq segs
  · exact accounts.left
  · exact fun positive => last_of_forget forgotten (accounts.oversize positive)
  · intro closed
    have empty := accounts.closed closed
    rw [empty.2] at forgotten
    exact ⟨empty.1, map_eq_nil_iff.mp forgotten⟩
  · intro opening
    obtain ⟨syn, rest, m, opened⟩ := accounts.opening opening
    exact ⟨syn, rest, m, opened.perm (segs.trans opened.segs) (List.Perm.refl _) rfl⟩

/-- A transmission moves a segment from one queue to the other. -/
theorem sendCore_segs (first : c.unsent = k :: next) (counts : 0 < k.tcplen) :
    ((sendCore c k next).segs.map forget).Perm (c.segs.map forget) := by
  have queue : (sendCore c k next).segs =
      insertBehind SegKey.Below { k with left := 0 } c.unacked ++ next := by
    simp only [TcpCore.segs, sendCore, if_pos counts]
  rw [queue]
  apply ((perm_insertBehind.append_right next).map forget).trans
  rw [TcpCore.segs, first]
  have middle : (c.unacked ++ k :: next).Perm (k :: (c.unacked ++ next)) := perm_middle
  exact (middle.map forget).symm

/-- A transmission keeps the `SYN` at the front. -/
theorem Opening.send (opened : Opening c syn rest m) (first : c.unsent = k :: next)
    (counts : 0 < k.tcplen) (near : m < 65536) :
    ∃ rest', Opening (sendCore c k next) syn rest' m := by
  have segs := opened.segs
  have queue : (sendCore c k next).segs =
      insertBehind SegKey.Below { k with left := 0 } c.unacked ++ next := by
    simp only [TcpCore.segs, sendCore, if_pos counts]
  cases unacked : c.unacked with
  | nil =>
    rw [TcpCore.segs, unacked, first] at segs
    rw [unacked] at queue
    refine ⟨rest, opened.perm ?_ (List.Perm.refl _) rfl⟩
    rw [queue]
    exact segs
  | cons u more =>
    rw [TcpCore.segs, unacked, first, cons_append, map_cons, List.cons.injEq] at segs
    have member : forget k ∈ rest := by
      rw [← segs.2, map_append]
      exact mem_append_right _ mem_cons_self
    obtain ⟨n, positive, inside, seqno⟩ := opened.behind (forget k) member
    have front : u.seqno = place syn.seqno 0 := by
      rw [place_zero, ← segs.1]
      rfl
    have behind : SegKey.Below u (forget k) := by
      rw [SegKey.Below, front, seqno]
      exact (seqLt_place syn.seqno (by omega) (by omega)).mpr positive
    obtain ⟨inserted, eq, same⟩ := insertBehind_cons behind
    refine ⟨(inserted ++ next).map forget, opened.perm ?_ ?_ rfl⟩
    · rw [queue, unacked, show ({ k with left := 0 } : SegKey) = forget k from rfl, eq, ← segs.1]
      rfl
    · rw [← segs.2]
      have middle : (more ++ k :: next).Perm (k :: (more ++ next)) := perm_middle
      exact ((same.append_right next).map forget).trans (middle.map forget).symm

/-- A segment has been sent. -/
theorem Accounts.send (accounts : Accounts c) (first : c.unsent = k :: next) :
    Accounts (sendCore c k next) := by
  have member : k ∈ c.segs := by
    rw [TcpCore.segs, first]
    exact mem_append_right _ mem_cons_self
  have counts := (accounts.balanced.each k member).1
  have same := sendCore_segs first counts
  constructor
  · exact accounts.balanced.congr same
  · simp only [sendCore, if_pos counts]
    intro k' inserted
    cases mem_cons.mp (perm_insertBehind.subset inserted) with
    | inl new => rw [new]
    | inr old => exact accounts.left k' old
  · intro positive
    simp only [sendCore] at positive ⊢
    cases next with
    | nil => simp at positive
    | cons k' more =>
      rw [if_neg (cons_ne_nil k' more)] at positive
      have last := accounts.oversize positive
      rw [first, getLast?_cons_cons] at last
      exact last
  · intro closed
    have empty := (accounts.closed closed).2
    rw [first] at empty
    cases empty
  · intro opening
    obtain ⟨syn, rest, m, opened⟩ := accounts.opening opening
    obtain ⟨rest', after⟩ := opened.send first counts (opened.near accounts.balanced)
    exact ⟨syn, rest', m, after⟩

/-- The first segment sent is queued again. -/
theorem Accounts.requeue (accounts : Accounts c) (first : c.unacked = k :: next)
    (state : c.state ≠ .synSent)
    (reset : oversize = if c.unsent.all fun cur => seqLt cur.seqno k.seqno then 0 else
      c.unsentOversize) :
    Accounts { c with
      unacked := next, unsent := insertSorted SegKey.Below k c.unsent
      unsentOversize := oversize } := by
  have same : (next ++ insertSorted SegKey.Below k c.unsent).Perm c.segs := by
    rw [TcpCore.segs, first]
    exact (perm_insertSorted.append_left next).trans perm_middle
  constructor
  · exact accounts.balanced.congr (same.map forget)
  · intro k' member
    apply accounts.left
    rw [first]
    exact mem_cons_of_mem k member
  · intro positive
    rw [reset] at positive
    by_cases all : (c.unsent.all fun cur => seqLt cur.seqno k.seqno) = true
    · rw [if_pos all] at positive
      exact absurd positive (Nat.lt_irrefl 0)
    · rw [if_neg all] at positive
      rw [getLast?_insertSorted (by simpa using all)]
      exact accounts.oversize positive
  · intro closed
    have empty := (accounts.closed closed).1
    rw [first] at empty
    cases empty
  · exact fun opening => absurd opening state

theorem Accounts.splice {last : SegKey} (accounts : Accounts c)
    (some' : c.unacked.getLast? = some last)
    (tail : oversize = c.unsentOversize ∨ (c.unsent = [] ∧ oversize = last.left)) :
    Accounts { c with
      unsent := c.unacked ++ c.unsent, unacked := [], unsentOversize := oversize } := by
  have left := accounts.left last (mem_of_getLast? some')
  constructor
  · exact accounts.balanced
  · exact fun k member => absurd member not_mem_nil
  · intro positive
    dsimp only at positive ⊢
    cases tail with
    | inl same =>
      rw [same] at positive
      obtain ⟨end', found, data⟩ := accounts.oversize positive
      refine ⟨end', ?_, data⟩
      rw [getLast?_append, found]
      rfl
    | inr empty => omega
  · intro closed
    rw [(accounts.closed closed).1] at some'
    cases some'
  · intro opening
    obtain ⟨syn, rest, m, opened⟩ := accounts.opening opening
    exact ⟨syn, rest, m, opened.perm opened.segs (List.Perm.refl _) rfl⟩

/-- What an acknowledgement leaves and what it removes make up the queues. -/
theorem ackCore_segs (c : TcpCore) (ackno : UInt32) :
    (removedBy c ackno ++ (ackCore c ackno).segs).Perm c.segs := by
  have unacked : (if freshAck c ackno then c.unacked.takeWhile (ackedBy ackno) else []) ++
      (ackCore c ackno).unacked = c.unacked := by
    unfold ackCore
    split
    · exact takeWhile_append_dropWhile
    · rfl
  have unsent : c.unsent.takeWhile (unsentAckedBy ackno c.sndNxt) ++ (ackCore c ackno).unsent =
      c.unsent := takeWhile_append_dropWhile
  have interchange : ∀ front middle back last : List SegKey,
      ((front ++ middle) ++ (back ++ last)).Perm ((front ++ back) ++ (middle ++ last)) := by
    intro front middle back last
    rw [append_assoc, append_assoc, ← append_assoc middle, ← append_assoc back]
    exact (perm_append_comm.append_right last).append_left front
  have joined := interchange (if freshAck c ackno then c.unacked.takeWhile (ackedBy ackno) else [])
    (c.unsent.takeWhile (unsentAckedBy ackno c.sndNxt)) (ackCore c ackno).unacked
    (ackCore c ackno).unsent
  rw [unacked, unsent] at joined
  exact joined

theorem Accounts.ack (accounts : Accounts c) (ackno : UInt32) (state : c.state ≠ .synSent) :
    Accounts (ackCore c ackno) := by
  have parts := accounts.balanced.congr ((ackCore_segs c ackno).map forget)
  obtain ⟨credit, pbufs, removed⟩ := parts.remove
  constructor
  · rw [← credit, ← pbufs] at removed
    exact removed
  · intro k member
    apply accounts.left
    unfold ackCore at member
    split at member
    · exact (dropWhile_suffix _).subset member
    · exact member
  · intro positive
    simp only [ackCore] at positive ⊢
    split at positive
    · exact absurd positive (Nat.lt_irrefl 0)
    rename_i kept
    obtain ⟨last, found, data⟩ := accounts.oversize positive
    have some' : c.unsent ≠ [] := by
      intro empty
      rw [empty] at found
      cases found
    have left : c.unsent.dropWhile (unsentAckedBy ackno c.sndNxt) ≠ [] := fun none' =>
      kept ⟨some', none'⟩
    have suffix : c.unsent.dropWhile (unsentAckedBy ackno c.sndNxt) <:+ c.unsent :=
      dropWhile_suffix _
    obtain ⟨front, split'⟩ := suffix
    refine ⟨last, ?_, data⟩
    rw [← split', getLast?_append_of_ne_nil _ left] at found
    exact found
  · intro closed
    have empty := accounts.closed closed
    simp [ackCore, empty.1, empty.2]
  · exact fun opening => absurd opening state

/-! ### Data and flags -/

/-- The counters of a queue whose last segment has been extended. -/
theorem Extended.counts (extended : Extended unsent extra pbufs tail) :
    lens tail = lens unsent + extra ∧ clens tail = clens unsent + pbufs ∧
      tail.length = unsent.length := by
  cases extended with
  | inl nothing =>
    obtain ⟨empty, noBytes, noPbufs, same⟩ := nothing
    rw [empty, noBytes, noPbufs, same]
    exact ⟨rfl, rfl, rfl⟩
  | inr something =>
    obtain ⟨init, last, left, before, after⟩ := something
    rw [before, after]
    simp only [lens_append, clens_append, lens_singleton, clens_singleton, length_append]
    exact ⟨by omega, by omega, rfl⟩

/-- The segments of a queue whose last segment has been extended. -/
theorem Extended.each (extended : Extended unsent extra pbufs tail) :
    ∀ k ∈ tail, ∃ k' ∈ unsent, k.seqno = k'.seqno ∧ k'.tcplen ≤ k.tcplen ∧ k'.clen ≤ k.clen := by
  intro k member
  cases extended with
  | inl nothing =>
    rw [nothing.2.2.2] at member
    cases member
  | inr something =>
    obtain ⟨init, last, left, before, after⟩ := something
    rw [after] at member
    rw [before]
    cases mem_append.mp member with
    | inl inner =>
      exact ⟨k, mem_append_left _ inner, rfl, Nat.le_refl _, Nat.le_refl _⟩
    | inr outer =>
      rw [mem_singleton.mp outer]
      refine ⟨last, mem_append_right _ mem_cons_self, rfl, ?_, Nat.le_add_right _ _⟩
      exact Nat.add_le_add_right (Nat.le_add_right _ _) _

/-- Data is queued. -/
theorem Balanced.write (balanced : Balanced c.sndBuf c.sndQueuelen c.segs)
    (queued : DataQueued c len extra pbufs oversize tail queue) :
    Balanced (c.sndBuf - len) (c.sndQueuelen + pbufs + clens queue)
      (writeCore c len pbufs oversize tail queue).segs := by
  obtain ⟨_, room, short, extended, few, _, fresh, all, filled, queuelen, count, _⟩ := queued
  obtain ⟨lensTail, clensTail, length⟩ := extended.counts
  unfold TcpCore.segs at balanced ⊢
  dsimp only [writeCore]
  have buffer := balanced.buffer
  have counted := balanced.queuelen
  have number := balanced.count
  have most := balanced.pbufs
  rw [lens_append] at buffer
  rw [clens_append] at counted most
  rw [length_append] at number most
  constructor
  · rw [lens_append, lens_append]
    omega
  · rw [clens_append, clens_append]
    omega
  · intro k member
    cases mem_append.mp member with
    | inl sent => exact balanced.each k (mem_append_left _ sent)
    | inr new =>
      cases mem_append.mp new with
      | inl old =>
        obtain ⟨k', member', _, tcplen, clen⟩ := extended.each k old
        have facts := balanced.each k' (mem_append_right _ member')
        exact ⟨Nat.lt_of_lt_of_le facts.1 tcplen, Nat.lt_of_lt_of_le facts.2 clen⟩
      | inr last =>
        have facts := fresh.each k last
        exact ⟨Nat.lt_of_lt_of_le facts.1 (Nat.le_add_right _ _), facts.2.1⟩
  · rw [length_append, length_append, length]
    cases count with
    | inl none' =>
      rw [none', length_nil]
      exact number
    | inr some' => omega
  · rw [clens_append, clens_append, length_append, length_append, length]
    cases queuelen with
    | inl bounded => omega
    | inr none' =>
      rw [none', length_nil, show clens [] = 0 from rfl]
      omega

/-- Segments are queued behind the `SYN`. -/
theorem Opening.append {n : Nat} (opened : Opening c syn rest m) (queue : List SegKey)
    (segs : c'.segs.map forget = c.segs.map forget ++ queue.map forget)
    (sndLbb : c'.sndLbb = place c.sndLbb n)
    (placed : ∀ k ∈ queue, ∃ p, p < n ∧ k.seqno = place c.sndLbb p)
    (long : n ≤ lens queue + queue.length) : Opening c' syn (rest ++ queue.map forget) (m + n) := by
  have positive := opened.positive
  have bound := opened.bound
  have further : ∀ p, place c.sndLbb p = place syn.seqno (m + p) := by
    intro p
    rw [opened.sndLbb]
    exact place_add ..
  refine ⟨by rw [segs, opened.segs, cons_append], opened.empty, opened.one, opened.flag, ?_,
    sndLbb.trans (further n), by omega, ?_⟩
  · intro k member
    cases mem_append.mp member with
    | inl old =>
      obtain ⟨p, positive, inside, seqno⟩ := opened.behind k old
      exact ⟨p, positive, by omega, seqno⟩
    | inr new =>
      obtain ⟨k', member', eq⟩ := mem_map.mp new
      obtain ⟨p, inside, seqno⟩ := placed k' member'
      rw [← eq]
      exact ⟨m + p, by omega, by omega, seqno.trans (further p)⟩
  · rw [lens_append, lens_map_forget, length_append, length_map]
    omega

/-- The last segment is replaced by one that is longer, unless it is the `SYN`. -/
theorem Opening.relast {init : List SegKey} {last last' : SegKey} (opened : Opening c syn rest m)
    (extra : Nat)
    (unsent : c.unsent = init ++ [last]) (unacked : c'.unacked = c.unacked)
    (after : c'.unsent = init ++ [last']) (sndLbb : c'.sndLbb = place c.sndLbb extra)
    (seqno : last'.seqno = last.seqno) (len : last'.len = last.len + extra)
    (first : last.syn = true → last.len = 0 → extra = 0 ∧ forget last' = forget last) :
    ∃ rest', Opening c' syn rest' (m + extra) := by
  have segs := opened.segs
  have positive := opened.positive
  rw [TcpCore.segs, unsent, ← append_assoc, map_append] at segs
  have isSegs : c'.segs.map forget = (c.unacked ++ init).map forget ++ [forget last'] := by
    rw [TcpCore.segs, unacked, after, ← append_assoc, map_append]
    rfl
  cases front : (c.unacked ++ init).map forget with
  | nil =>
    rw [front] at segs isSegs
    have only : forget last = syn ∧ [] = rest := List.cons.inj segs
    have flag := opened.flag
    have empty := opened.empty
    rw [← only.1] at flag empty
    obtain ⟨nothing, same⟩ := first flag empty
    rw [nothing, place_zero] at sndLbb
    rw [nothing]
    refine ⟨rest, opened.perm ?_ (List.Perm.refl _) sndLbb⟩
    rw [isSegs, same, only.1, ← only.2]
    rfl
  | cons first' inner =>
    rw [front] at segs isSegs
    have parts : first' = syn ∧ inner ++ [forget last] = rest := List.cons.inj segs
    have behind : ∀ k ∈ rest, ∃ n, 0 < n ∧ n < m + extra ∧ k.seqno = place syn.seqno n := by
      intro k member
      obtain ⟨n, positive, inside, seqno⟩ := opened.behind k member
      exact ⟨n, positive, by omega, seqno⟩
    have bound := opened.bound
    rw [← parts.2] at behind bound
    refine ⟨inner ++ [forget last'], ?_, opened.empty, opened.one, opened.flag, ?_, ?_, by omega,
      ?_⟩
    · rw [isSegs, parts.1]
      rfl
    · intro k member
      cases mem_append.mp member with
      | inl inside => exact behind k (mem_append_left _ inside)
      | inr outer =>
        rw [mem_singleton.mp outer, show (forget last').seqno = (forget last).seqno from seqno]
        exact behind (forget last) (mem_append_right _ mem_cons_self)
    · rw [sndLbb, opened.sndLbb]
      exact place_add ..
    · rw [lens_append, lens_singleton, length_append] at bound ⊢
      simp only [forget, length_cons, length_nil] at bound ⊢
      omega

/-- Data is queued behind the `SYN`. -/
theorem Opening.write (opened : Opening c syn rest m)
    (queued : DataQueued c len extra pbufs oversize tail queue)
    (reused : 0 < extra → ∃ last, c.unsent.getLast? = some last ∧ 0 < last.len) :
    ∃ rest' m', Opening (writeCore c len pbufs oversize tail queue) syn rest' m' := by
  have extended : ∃ rest', Opening { c with unsent := tail, sndLbb := place c.sndLbb extra } syn
      rest' (m + extra) := by
    cases queued.extended with
    | inl nothing =>
      obtain ⟨empty, noBytes, _, same⟩ := nothing
      rw [noBytes, same, ← empty, place_zero]
      exact ⟨rest, opened⟩
    | inr something =>
      obtain ⟨init, last, left, before, after⟩ := something
      refine opened.relast extra before rfl after rfl rfl rfl fun _ empty => ?_
      have noBytes : extra = 0 := by
        apply Nat.eq_zero_of_not_pos
        intro some'
        obtain ⟨end', found, data⟩ := reused some'
        rw [before, getLast?_append, getLast?_singleton] at found
        have isLast : last = end' := Option.some.inj found
        rw [← isLast, empty] at data
        exact absurd data (Nat.lt_irrefl 0)
      have filled := queued.filled
      have noPbufs : pbufs = 0 := by omega
      rw [noBytes, noPbufs]
      exact ⟨rfl, rfl⟩
  obtain ⟨rest', after⟩ := extended
  have fresh : FreshFrom (place (place c.sndLbb extra) 0) queue := by
    rw [place_zero]
    exact queued.fresh
  refine ⟨_, _, after.append queue (n := lens queue) ?_ ?_ ?_ (Nat.le_add_right _ _)⟩
  · simp only [TcpCore.segs, writeCore, map_append, append_assoc]
  · rw [writeCore, ← queued.all]
    exact (place_add ..).symm
  · intro k member
    obtain ⟨p, _, high, seqno⟩ := fresh.placed k member
    have positive := (fresh.each k member).1
    exact ⟨p, by omega, seqno⟩

/-- The last unsent segment has data when there is room behind it. -/
theorem Accounts.reusable (accounts : Accounts c) (reusable : c.Reusable) :
    ∃ last, c.unsent.getLast? = some last ∧ 0 < last.len :=
  reusable.elim accounts.oversize id

/-- Data is queued. -/
theorem Accounts.write (accounts : Accounts c)
    (queued : DataQueued c len extra pbufs oversize tail queue) :
    Accounts (writeCore c len pbufs oversize tail queue) := by
  constructor
  · exact accounts.balanced.write queued
  · exact accounts.left
  · intro positive
    cases last : queue.getLast? with
    | some k =>
      refine ⟨k, ?_, (queued.fresh.each k (mem_of_getLast? last)).1⟩
      rw [writeCore, getLast?_append, last]
      rfl
    | none =>
      have none' := getLast?_eq_none_iff.mp last
      obtain ⟨end', found, some'⟩ := accounts.reusable (queued.oversized positive none')
      rw [writeCore, none', append_nil]
      cases queued.extended with
      | inl nothing =>
        rw [nothing.1] at found
        cases found
      | inr something =>
        obtain ⟨init, last', left, before, after⟩ := something
        rw [before, getLast?_append, getLast?_singleton] at found
        have isLast : last' = end' := Option.some.inj found
        rw [after, getLast?_append, getLast?_singleton]
        refine ⟨_, rfl, ?_⟩
        rw [isLast]
        exact Nat.lt_of_lt_of_le some' (Nat.le_add_right _ _)
  · intro closed
    have writable := queued.writable
    rw [show c.state = .closed from closed] at writable
    simp [TcpState.Writable] at writable
  · intro opening
    obtain ⟨syn, rest, m, opened⟩ := accounts.opening opening
    obtain ⟨rest', m', after⟩ := opened.write queued fun some' =>
      accounts.reusable (queued.reused some')
    exact ⟨syn, rest', m', after⟩

theorem Accounts.flags {flags : TcpFlags} (accounts : Accounts c)
    (either : (flags.fin || flags.syn) = true)
    (count : c.unacked.length + c.unsent.length < mempNumTcpSeg) (opened : c.state ≠ .closed) :
    Accounts (flagsCore c flags) := by
  have counts : 0 < (flagsKey c.sndLbb flags).tcplen := by
    simp [SegKey.tcplen, flagsKey, either]
  constructor
  · have queued := accounts.balanced.flags (k := flagsKey c.sndLbb flags) rfl rfl counts
      (by rw [TcpCore.segs, length_append]; exact count)
    rw [TcpCore.segs, append_assoc] at queued
    exact queued
  · exact accounts.left
  · exact fun positive => absurd positive (Nat.lt_irrefl 0)
  · exact fun closed => absurd closed opened
  · intro opening
    obtain ⟨syn, rest, m, before⟩ := accounts.opening opening
    refine ⟨syn, _, m + 1, before.append [flagsKey c.sndLbb flags] (n := 1) ?_ rfl ?_
      (Nat.le_refl 1)⟩
    · simp only [TcpCore.segs, flagsCore, map_append, append_assoc]
    · intro k member
      rw [mem_singleton.mp member]
      exact ⟨0, Nat.one_pos, (place_zero _).symm⟩

theorem Accounts.fin {init : List SegKey} {last : SegKey} (accounts : Accounts c)
    (unsent : c.unsent = init ++ [last]) (plain : last.fin = false ∧ last.syn = false) :
    Accounts { c with unsent := init ++ [{ last with fin := true }] } := by
  have balanced := accounts.balanced
  rw [TcpCore.segs, unsent] at balanced
  constructor
  · have buffer := balanced.buffer
    have queuelen := balanced.queuelen
    have pbufs := balanced.pbufs
    have count := balanced.count
    simp only [lens_append, lens_singleton] at buffer
    simp only [clens_append, clens_singleton] at queuelen pbufs
    simp only [length_append] at pbufs count
    constructor
    · simp only [TcpCore.segs, lens_append, lens_singleton]
      exact buffer
    · simp only [TcpCore.segs, clens_append, clens_singleton]
      exact queuelen
    · intro k member
      simp only [TcpCore.segs, mem_append, mem_singleton] at member
      rcases member with sent | inner | outer
      · exact balanced.each k (mem_append_left _ sent)
      · exact balanced.each k (mem_append_right _ (mem_append_left _ inner))
      · rw [outer]
        refine ⟨Nat.lt_of_lt_of_le Nat.one_pos (Nat.le_add_left _ _), ?_⟩
        exact (balanced.each last (by simp)).2
    · simp only [TcpCore.segs, length_append]
      exact count
    · simp only [TcpCore.segs, clens_append, clens_singleton, length_append]
      exact pbufs
  · exact accounts.left
  · intro positive
    obtain ⟨end', found, data⟩ := accounts.oversize positive
    rw [unsent, getLast?_append, getLast?_singleton] at found
    have isLast : last = end' := Option.some.inj found
    rw [getLast?_append, getLast?_singleton]
    exact ⟨_, rfl, by rw [isLast]; exact data⟩
  · intro closed
    have empty := (accounts.closed closed).2
    rw [unsent] at empty
    simp at empty
  · intro opening
    obtain ⟨syn, rest, m, before⟩ := accounts.opening opening
    have reopened : ∃ rest', Opening { c with unsent := init ++ [{ last with fin := true }] } syn
        rest' (m + 0) :=
      before.relast 0 unsent rfl rfl (place_zero _).symm rfl rfl
        fun isSyn => absurd (plain.2.symm.trans isSyn) Bool.false_ne_true
    obtain ⟨rest', after⟩ := reopened
    exact ⟨syn, rest', m, after⟩

/-! ### The handshake -/

theorem Accounts.synAck {rcvNxt : UInt32} {wnd : Nat} {unacked : List SegKey}
    (accounts : Accounts c) (opening : c.state = .synSent)
    (removed : (∃ syn, c.unacked = syn :: unacked ∧ unsent = c.unsent) ∨
      (c.unacked = [] ∧ unacked = [] ∧ ∃ syn, c.unsent = syn :: unsent)) :
    Accounts { c with
      state := .established, rcvNxt := rcvNxt, rcvAnnRightEdge := rcvNxt
      lastack := c.lastack + 1, sndWnd := wnd, sndQueuelen := c.sndQueuelen - 1
      unacked := unacked, unsent := unsent } := by
  obtain ⟨syn, rest, m, opened⟩ := accounts.opening opening
  have first : ∃ k, c.segs = k :: (unacked ++ unsent) := by
    cases removed with
    | inl sent =>
      obtain ⟨k, before, same⟩ := sent
      exact ⟨k, by rw [TcpCore.segs, before, same]; rfl⟩
    | inr queued =>
      obtain ⟨none', none'', k, before⟩ := queued
      exact ⟨k, by rw [TcpCore.segs, none', before, none'']; rfl⟩
  obtain ⟨k, segs⟩ := first
  have isSyn : forget k = syn := by
    have eq := opened.segs
    rw [segs] at eq
    exact (List.cons.inj eq).1
  have empty : k.len = 0 := by
    have len := opened.empty
    rw [← isSyn] at len
    exact len
  have one : k.clen = 1 := by
    have clen := opened.one
    rw [← isSyn] at clen
    exact clen
  have balanced := accounts.balanced
  rw [segs, ← singleton_append] at balanced
  obtain ⟨_, _, freed⟩ := balanced.remove
  rw [lens_singleton, clens_singleton, empty, one] at freed
  apply accounts_of_open open_established freed
  · intro k' member
    apply accounts.left
    cases removed with
    | inl sent =>
      obtain ⟨_, before, _⟩ := sent
      rw [before]
      exact mem_cons_of_mem _ member
    | inr queued =>
      rw [show unacked = [] from queued.2.1] at member
      cases member
  · intro positive
    obtain ⟨last, found, data⟩ := accounts.oversize positive
    cases removed with
    | inl sent =>
      obtain ⟨_, _, same⟩ := sent
      rw [same]
      exact ⟨last, found, data⟩
    | inr queued =>
      obtain ⟨none', none'', k', before⟩ := queued
      have same : k' = k := by
        rw [TcpCore.segs, none', before, none''] at segs
        exact (List.cons.inj segs).1
      rw [before] at found
      cases unsent with
      | nil =>
        have isLast : k' = last := Option.some.inj found
        rw [← isLast, same, empty] at data
        exact absurd data (Nat.lt_irrefl 0)
      | cons next more =>
        rw [getLast?_cons_cons] at found
        exact ⟨last, found, data⟩

theorem Accounts.connectFails (accounts : Accounts c) (iss : UInt32) (closed : c.state = .closed) :
    Accounts (connectCore c iss) := by
  constructor
  · exact accounts.balanced
  · exact accounts.left
  · exact accounts.oversize
  · exact accounts.closed
  · intro opening
    rw [show c.state = .synSent from opening] at closed
    cases closed

theorem Accounts.connect (accounts : Accounts c) (iss : UInt32) (closed : c.state = .closed) :
    Accounts { flagsCore (connectCore c iss) { syn := true } with state := .synSent } := by
  have empty := accounts.closed closed
  have balanced := accounts.balanced
  rw [TcpCore.segs, empty.1, empty.2] at balanced
  have segs : c.unacked ++ (c.unsent ++ [flagsKey (iss - 1) { syn := true }]) =
      [flagsKey (iss - 1) { syn := true }] := by
    rw [empty.1, empty.2]
    rfl
  constructor
  · have queued := balanced.flags (k := flagsKey (iss - 1) { syn := true }) rfl rfl Nat.one_pos
      (by decide)
    rw [append_nil, nil_append, ← segs] at queued
    exact queued
  · exact accounts.left
  · exact fun positive => absurd positive (Nat.lt_irrefl 0)
  · exact fun never => nomatch never
  · intro _
    refine ⟨flagsKey (iss - 1) { syn := true }, [], 1, ?_, rfl, rfl, rfl, ?_, ?_, Nat.one_pos,
      Nat.le_refl 1⟩
    · simp only [TcpCore.segs, flagsCore, connectCore]
      rw [segs]
      rfl
    · exact fun k member => absurd member not_mem_nil
    · rfl

/-! ### Runs -/

/-- A connection in `TIME_WAIT` stays there. -/
theorem TcpMove.timeWait (move : TcpMove c act c') (waiting : c.state = .timeWait) :
    c'.state = .timeWait := by
  cases move with
  | enter state before _ => exact absurd waiting before.2
  | synAck rcvNxt wnd unacked unsent opening _ _ =>
    rw [waiting] at opening
    cases opening
  | connect iss closed =>
    rw [waiting] at closed
    cases closed
  | purge _ => rfl
  | _ => exact waiting

/-- Every move keeps the counters right, or drops the queues. -/
theorem TcpMove.accounts (move : TcpMove c act c') (accounts : Accounts c) :
    c'.state = .timeWait ∨ Accounts c' := by
  cases move with
  | enter state _ behind => exact .inr (accounts.enter behind)
  | touch unsent same => exact .inr (accounts.touch same)
  | settle empty => exact .inr (accounts.frame rfl rfl rfl rfl rfl rfl (Or.inr rfl))
  | send k next first _ => exact .inr (accounts.send first)
  | requeue k next first state => exact .inr (accounts.requeue first state rfl)
  | splice oversize last some' tail => exact .inr (accounts.splice some' tail)
  | ack ackno _ state => exact .inr (accounts.ack ackno state.not_synSent)
  | write len extra pbufs oversize tail queue queued => exact .inr (accounts.write queued)
  | flags flags either _ count opened => exact .inr (accounts.flags either count opened.1)
  | fin init last unsent plain => exact .inr (accounts.fin unsent plain)
  | synAck rcvNxt wnd unacked unsent opening _ removed =>
    exact .inr (accounts.synAck opening removed)
  | connectFails iss closed => exact .inr (accounts.connectFails iss closed)
  | connect iss closed => exact .inr (accounts.connect iss closed)
  | purge _ => exact .inl rfl
  | _ => exact .inr (accounts.frame rfl rfl rfl rfl rfl rfl (Or.inl rfl))

theorem Moves.accounts (moves : Moves admitted c c') (accounts : c.state = .timeWait ∨ Accounts c) :
    c'.state = .timeWait ∨ Accounts c' := by
  apply moves.invariant accounts
  intro s act s' before _ move
  cases before with
  | inl waiting => exact .inl (move.timeWait waiting)
  | inr accounts => exact move.accounts accounts

/-- Nothing is queued in `TIME_WAIT`. -/
theorem TcpMove.dropped (move : TcpMove c act c') (waiting : c.state = .timeWait)
    (unacked : c.unacked = []) (unsent : c.unsent = []) :
    c'.state = .timeWait ∧ c'.unacked = [] ∧ c'.unsent = [] ∧ c'.lastack = c.lastack ∧
      c'.sndNxt = c.sndNxt ∧ c'.sndBuf = c.sndBuf := by
  have kept := move.timeWait waiting
  cases move with
  | touch queue same =>
    rw [unsent] at same
    exact ⟨kept, unacked, map_eq_nil_iff.mp same, rfl, rfl, rfl⟩
  | send k next first _ =>
    rw [unsent] at first
    cases first
  | requeue k next first _ =>
    rw [unacked] at first
    cases first
  | splice oversize last some' _ =>
    rw [unacked] at some'
    cases some'
  | probe k first =>
    rw [unacked, unsent] at first
    cases first
  | ack ackno _ opened => exact absurd waiting opened.2
  | write len extra pbufs oversize tail queue queued =>
    have writable := queued.writable
    rw [waiting] at writable
    exact absurd writable (by decide)
  | flags flags _ _ _ opened => exact absurd waiting opened.2
  | fin init last queue _ =>
    rw [unsent] at queue
    simp at queue
  | synAck rcvNxt wnd _ _ opening _ _ =>
    rw [waiting] at opening
    cases opening
  | connectFails iss closed | connect iss closed =>
    rw [waiting] at closed
    cases closed
  | purge _ => exact ⟨rfl, rfl, rfl, rfl, rfl, rfl⟩
  | _ => exact ⟨kept, unacked, unsent, rfl, rfl, rfl⟩

/-- A property of the queues holds until they are dropped, and `lastack`, `snd_nxt` and `snd_buf`
stay what they were then. -/
def Kept (holds : TcpCore → Prop) (c : TcpCore) : Prop :=
  (c.state = .timeWait ∧ c.unacked = [] ∧ c.unsent = [] ∧
      ∃ c', Accounts c' ∧ holds c' ∧ c.lastack = c'.lastack ∧ c.sndNxt = c'.sndNxt ∧
        c.sndBuf = c'.sndBuf) ∨
    (c.state ≠ .timeWait ∧ Accounts c ∧ holds c)

theorem TcpMove.not_timeWait (move : TcpMove c act c') (before : c.state ≠ .timeWait)
    (other : act ≠ .purge) : c'.state ≠ .timeWait := by
  cases move with
  | enter state _ behind => exact behind.2
  | synAck rcvNxt wnd _ _ _ _ _ => exact (show TcpState.established ≠ .timeWait by decide)
  | connect iss _ => exact (show TcpState.synSent ≠ .timeWait by decide)
  | purge _ => exact absurd rfl other
  | _ => exact before

/-- Moves keep a property of the queues that each of them keeps. -/
theorem Moves.kept {holds : TcpCore → Prop}
    (each : ∀ c act c', Accounts c → holds c → admitted c act → act ≠ .purge → TcpMove c act c' →
      holds c')
    (moves : Moves admitted c c') (before : Kept holds c) : Kept holds c' := by
  apply moves.invariant before
  intro s act s' kept meets move
  rcases kept with ⟨waiting, unacked, unsent, last, counts, given, acked, next, buffer⟩ |
    ⟨state, accounts, given⟩
  · have dropped := move.dropped waiting unacked unsent
    exact .inl ⟨dropped.1, dropped.2.1, dropped.2.2.1, last, counts, given,
      dropped.2.2.2.1.trans acked, dropped.2.2.2.2.1.trans next, dropped.2.2.2.2.2.trans buffer⟩
  by_cases purges : act = .purge
  · rw [purges] at move
    cases move with
    | purge _ => exact .inl ⟨rfl, rfl, rfl, s, accounts, given, rfl, rfl, rfl⟩
  · have later := move.not_timeWait state purges
    exact .inr ⟨later, (move.accounts accounts).resolve_left later,
      each s act s' accounts given meets purges move⟩

end Moves

/-- Queues with the right counters are ready for `tcp_write`. -/
theorem Accounts.writeReady (accounts : Accounts (core pcb)) : WriteReady pcb := by
  have buffer : pcb.sndBuf + lens (core pcb).segs = tcpSndBuf := accounts.balanced.buffer
  unfold tcpSndBuf at buffer
  constructor
  · exact fun k member => (accounts.balanced.each k (mem_append_right _ member)).2
  · omega
  · intro k member
    obtain ⟨before, behind, parts⟩ := append_of_mem member
    rw [TcpCore.segs, parts, lens_append, lens_append,
      show lens (k :: behind) = k.len + lens behind from rfl] at buffer
    omega

/-- Nothing happens to a connection in `TIME_WAIT`. -/
theorem tcpStep_timeWait (step : TcpStep pcb event pcb') (waiting : pcb.state = .timeWait) :
    pcb' = pcb := by
  have inactive : pcb.active = false := by simp [TcpPcb.active, waiting]
  obtain ⟨enabled, done⟩ := step
  cases event with
  | connect env iss =>
    have refused : tcpConnect env iss pcb = .ok (.isconn, pcb) := by
      unfold tcpConnect
      rw [if_pos (by rw [waiting]; decide)]
    rw [tcpEvent, refused] at done
    cases done
    rfl
  | accepted env p tcphdr =>
    cases enabled with
    | inl given | inr given =>
      rw [waiting] at given
      cases given
  | rexmit | rexmitFast | keepalive env => exact absurd enabled.1 (by simp [inactive])
  | _ => exact absurd enabled (by simp [TcpEvent.enabled, inactive])

theorem tcpStep_moves (plain : AdmitsPlain admitted) (step : TcpStep pcb event pcb')
    (accounts : (core pcb).state = .timeWait ∨ Accounts (core pcb))
    (admits : Admits admitted pcb event) : Moves admitted (core pcb) (core pcb') := by
  cases accounts with
  | inl waiting =>
    rw [tcpStep_timeWait step waiting]
    exact Run.refl
  | inr accounts =>
    exact (tcpEvent_moves plain accounts.writeReady step.1 admits).of_ok step.2 pcb' rfl

/-- An event keeps a property of the queues that the moves admitted for it keep. -/
theorem tcpStep_kept {holds : TcpCore → Prop} (plain : AdmitsPlain admitted)
    (each : ∀ c act c', Accounts c → holds c → admitted c act → act ≠ .purge → TcpMove c act c' →
      holds c')
    (step : TcpStep pcb event pcb') (before : Kept holds (core pcb))
    (admits : Admits admitted pcb event) : Kept holds (core pcb') := by
  have accounts : (core pcb).state = .timeWait ∨ Accounts (core pcb) :=
    before.imp (fun dropped => dropped.1) (fun kept => kept.2.1)
  exact (tcpStep_moves plain step accounts admits).kept each before

/-- What has to be admitted when everything is admitted but what the receiver does. -/
theorem admits_of_others (others : ∀ c act, act ≠ .advance → act ≠ .window → admitted c act)
    (advance : event.header.isSome = true → ∀ c, admitted c .advance)
    (reopen : event.reopens = true → ∀ c, admitted c .window) : Admits admitted pcb event where
  write := fun _ _ _ => others _ _ (by simp) (by simp)
  splice := fun _ _ => others _ _ (by simp) (by simp)
  ack := fun _ _ _ _ _ _ => others _ _ (by simp) (by simp)
  window := fun _ _ _ => ⟨others _ _ (by simp) (by simp), others _ _ (by simp) (by simp)⟩
  advance := advance
  reopen := reopen
  purge := fun _ => others _ _ (by simp) (by simp)
  flags := fun _ => others _ _ (by simp) (by simp)

theorem admits_all (pcb : TcpPcb) (event : TcpEvent) : Admits (fun _ _ => True) pcb event :=
  admits_of_others (fun _ _ _ _ => trivial) (fun _ _ => trivial) (fun _ _ => trivial)

theorem balanced_nil : Balanced tcpSndBuf 0 [] where
  buffer := rfl
  queuelen := rfl
  each := fun _ member => absurd member List.not_mem_nil
  count := Nat.zero_le _
  pbufs := Nat.zero_le _

/-- The counters of a control block that `tcp_alloc` returns. -/
theorem tcpAlloc_accounts (ticks : UInt32) : Accounts (core (tcpAlloc ticks)) where
  balanced := balanced_nil
  left := fun _ member => absurd member List.not_mem_nil
  oversize := fun positive => absurd positive (Nat.lt_irrefl 0)
  closed := fun _ => ⟨rfl, rfl⟩
  opening := fun never => nomatch never

/-- The counters of a control block that `tcp_listen_input` sets up. -/
theorem listenCore_accounts (iss : UInt32) (i : TcpInput) : Accounts (listenCore iss i) := by
  apply accounts_of_open
  · exact (show TcpState.synRcvd.Open from ⟨by decide, by decide⟩)
  · exact balanced_nil
  · exact fun k member => absurd member not_mem_nil
  · exact fun positive => absurd positive (Nat.lt_irrefl 0)

/-- The counters of a new control block are right. -/
theorem TcpCreated.accounts (created : TcpCreated pcb) :
    (core pcb).state = .timeWait ∨ Accounts (core pcb) := by
  cases created with
  | inl allocated =>
    obtain ⟨ticks, same⟩ := allocated
    rw [same]
    exact .inr (tcpAlloc_accounts ticks)
  | inr accepted =>
    obtain ⟨env, iss, i, done⟩ := accepted
    have moves : Moves (fun _ _ => True) (listenCore iss i) (core pcb) :=
      tcpListenInput_moves (fun _ _ _ => trivial) trivial done
    exact moves.accounts (Or.inr (listenCore_accounts iss i))

/-- The counters are right in every state of a connection, unless its queues have been dropped. -/
theorem tcpRun_accounts {guard : TcpPcb → TcpEvent → Prop} (created : TcpCreated start)
    (run : Run TcpStep guard start final) :
    (core final).state = .timeWait ∨ Accounts (core final) := by
  apply run.invariant created.accounts
  intro pcb event pcb' before _ step
  exact (tcpStep_moves (fun _ _ _ => trivial) step before (admits_all pcb event)).accounts before

/-- `snd_buf` and the data on the queues make up `TCP_SND_BUF`, and `snd_queuelen` is the number of
pbufs on the queues, in every state of a connection that has not gone to `TIME_WAIT`. -/
theorem tcp_send_buffer_accounted (start final : TcpPcb) (created : TcpCreated start)
    (run : Run TcpStep (fun _ _ => True) start final) (kept : final.state ≠ .timeWait) :
    final.sndBuf + ((final.unacked ++ final.unsent).map (·.len)).sum = tcpSndBuf ∧
      final.sndQueuelen = ((final.unacked ++ final.unsent).map fun seg => pbufClen seg.p).sum := by
  cases tcpRun_accounts created run with
  | inl waiting => exact absurd waiting kept
  | inr accounts =>
    have balanced := accounts.balanced
    have segs : (core final).segs = (final.unacked ++ final.unsent).map segKey :=
      (map_append ..).symm
    rw [segs] at balanced
    constructor
    · have buffer := balanced.buffer
      rw [lens_map_segKey] at buffer
      exact buffer
    have pbufs := balanced.pbufs
    have count := balanced.count
    unfold mempNumTcpSeg at count
    unfold tcpSndQueuelen at pbufs
    have small : ∀ k ∈ (final.unacked ++ final.unsent).map segKey, k.clen < 65536 := by
      intro k member
      have bound := clen_le_clens member
      omega
    have queuelen := balanced.queuelen
    rw [← pbufClens_eq_clens small, pbufClens, map_map] at queuelen
    exact queuelen

/-- The control block after a list of events, if all of them succeed. -/
def tcpEvents : TcpPcb → List TcpEvent → Option TcpPcb
  | pcb, [] => some pcb
  | pcb, event :: more =>
    if event.enabled pcb ∧ tcpSucceeds pcb event then tcpEvents (tcpNext pcb event) more else none

theorem run_tcpEvents {events : List TcpEvent} (done : tcpEvents start events = some final) :
    Run TcpStep (fun _ _ => True) start final :=
  Run.of_labels (fun _ => rfl) (fun _ _ _ => rfl)
    (fun _ _ can => ⟨trivial, tcpStep_next can.1 can.2⟩) done

/-- The control block after a list of events, if all of them meet a condition and succeed. -/
def tcpEventsIf (guard : TcpPcb → TcpEvent → Prop) [∀ pcb event, Decidable (guard pcb event)] :
    TcpPcb → List TcpEvent → Option TcpPcb
  | pcb, [] => some pcb
  | pcb, event :: more =>
    if guard pcb event ∧ event.enabled pcb ∧ tcpSucceeds pcb event then
      tcpEventsIf guard (tcpNext pcb event) more
    else none

/-- Events that meet a condition and succeed are a run. -/
theorem run_tcpEventsIf {guard : TcpPcb → TcpEvent → Prop}
    [∀ pcb event, Decidable (guard pcb event)] {events : List TcpEvent}
    (done : tcpEventsIf guard start events = some final) : Run TcpStep guard start final :=
  Run.of_labels (fun _ => rfl) (fun _ _ _ => rfl)
    (fun _ _ can => ⟨can.1, tcpStep_next can.2.1 can.2.2⟩) done

/-- The `SYN` of a peer. -/
def synInput : TcpInput :=
  tcpInputOf [pbufRam 0 []] { seqno := 500, flags := { syn := true }, wnd := 4096 } []

/-- The control block for the `SYN` of a peer. -/
def synRcvdPcb : TcpPcb :=
  match tcpListenInput (plainEnv []) 1000 synInput with
  | .ok (_, pcb) => pcb
  | .error _ => tcpAlloc 0

/-- The answer to the `SYN` of a peer creates a connection. -/
theorem synRcvdPcb_created : TcpCreated synRcvdPcb := by
  have answered : (match tcpListenInput (plainEnv []) 1000 synInput with
      | .ok (err, _) => decide (err = .ok)
      | .error _ => false) = true := by
    decide +kernel
  refine .inr ⟨plainEnv [], 1000, synInput, ?_⟩
  unfold synRcvdPcb
  generalize tcpListenInput (plainEnv []) 1000 synInput = result at answered
  match result, answered with
  | .ok (err, pcb), isOk => rw [of_decide_eq_true isOk]

/-- A connection is opened, and three bytes are sent on it. -/
def threeBytesSent : List TcpEvent :=
  [.connect (plainEnv []) 1000,
    .segment (plainEnv []) [pbufRam 0 []]
      { seqno := 500, ackno := 1000, flags := { syn := true, ack := true }, wnd := 4096 } [],
    .write (plainEnv [0, 1, 2, 3]) { arg := 1, len := 3, copy := true, more := false },
    .output (plainEnv [])]

/-- The theorem at a connection with three bytes on their way. -/
theorem tcp_send_buffer_accounted_threeBytes :
    ∃ final, Run TcpStep (fun _ _ => True) (tcpAlloc 0) final ∧ final.state = .established ∧
      final.sndBuf = 2045 ∧
      final.sndBuf + ((final.unacked ++ final.unsent).map (·.len)).sum = tcpSndBuf ∧
      final.sndQueuelen =
        ((final.unacked ++ final.unsent).map fun seg => pbufClen seg.p).sum := by
  have returns : (tcpEvents (tcpAlloc 0) threeBytesSent).map
      (fun pcb => (pcb.state, pcb.sndBuf)) = some (.established, 2045) := by
    decide +kernel
  obtain ⟨final, done, fields⟩ := Option.map_eq_some_iff.mp returns
  have state : final.state = .established := congrArg Prod.fst fields
  have buffer : final.sndBuf = 2045 := congrArg Prod.snd fields
  have run := run_tcpEvents done
  exact ⟨final, run, state, buffer, tcp_send_buffer_accounted (tcpAlloc 0) final
    (Or.inl ⟨0, rfl⟩) run (by rw [state]; decide)⟩

end Lwip
