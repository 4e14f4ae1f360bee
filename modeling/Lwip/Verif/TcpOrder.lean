import Mathlib.Data.List.Pairwise
import Lwip.Verif.TcpPlaces

/-!
# The order of the send queues

`tcp_rexmit` moves a segment that has been sent back to `unsent`, and `tcp_output` may leave it
there. Both send queues are in the order of their sequence numbers as long as data is written and
`tcp_rexmit_rto` is called only when no such segment is left while others are on `unacked`. In that
case no segment is left behind, and the segments of both queues together adjoin.
-/

namespace Lwip

open Insertion Transition Serial Spans List

variable {pcb : TcpPcb}

/-- No segment that has been sent is left on `unsent`, unless all of them are. -/
def TcpCore.Settled (c : TcpCore) : Prop :=
  c.unacked = [] ∨ ∀ k ∈ c.unsent, seqLt k.seqno c.sndNxt = false

/-- The queues are in order. -/
structure InOrder (l : Layout) (c : TcpCore) : Prop where
  laid : Laid l c
  whole : l.stale = []
  unsent : l.unsent.Pairwise fun x y => x.pos < y.pos

section Moves

variable {l : Layout} {c c' : TcpCore}

section

variable (order : InOrder l c)

include order

theorem InOrder.perm : l.segs.Perm l.live := by
  have parts := order.laid.parts
  rw [order.whole] at parts
  exact parts

/-- Segments do not overlap. -/
theorem InOrder.apart : l.segs.Pairwise fun x y => x.behind ≤ y.pos ∨ y.behind ≤ x.pos :=
  (order.perm.pairwise_iff fun either => either.symm).mpr (order.laid.adjoining.apart.imp Or.inl)

theorem InOrder.distinct : l.segs.Pairwise fun x y => x.pos ≠ y.pos := by
  apply order.apart.imp
  intro x y apart same
  have first := x.pos_lt_behind
  have second := y.pos_lt_behind
  omega

/-- Segments sent are in order. -/
theorem InOrder.unacked : l.unacked.Pairwise fun x y => x.pos < y.pos := by
  have distinct := (pairwise_append.mp order.distinct).1
  exact (order.laid.sorted.and distinct).imp fun both => Nat.lt_of_le_of_ne both.1 both.2

/-- Of two segments the higher one ends later. -/
theorem InOrder.ends_le (accounts : Accounts c) {x y : Placed} (left : x ∈ l.segs)
    (right : y ∈ l.segs) (lower : x.pos < y.pos) : x.ends ≤ y.ends := by
  have first := order.laid.ends_bounds accounts left
  have second := order.laid.ends_bounds accounts right
  have apart : x.behind ≤ y.pos ∨ y.behind ≤ x.pos := by
    have symmetric : Std.Symm fun x y : Placed => x.behind ≤ y.pos ∨ y.behind ≤ x.pos :=
      ⟨fun _ _ either => either.symm⟩
    apply order.apart.forall left right
    intro same
    rw [same] at lower
    exact Nat.lt_irrefl _ lower
  omega

/-- A segment that is queued again is in order. -/
theorem InOrder.requeue {x : Placed} {rest : List Placed} (queue : l.unacked = x :: rest) :
    (insertSorted Placed.Below x l.unsent).Pairwise fun x y => x.pos < y.pos := by
  have distinct : ∀ y ∈ l.unsent, x.pos ≠ y.pos := by
    intro y member
    exact (pairwise_append.mp order.distinct).2.2 x (by rw [queue]; exact mem_cons_self) y
      member
  exact pairwise_insertSorted order.unsent (fun _ _ => id)
    (fun y member above => Nat.lt_of_le_of_ne (Nat.le_of_not_lt above) (distinct y member))
    (fun _ _ above => Nat.lt_of_le_of_lt (Nat.le_of_not_lt above))

/-- Without a segment to be sent again, every segment sent is below every segment to be sent. -/
theorem InOrder.below (accounts : Accounts c) (settled : c.Settled) {x y : Placed}
    (sent : x ∈ l.unacked) (queued : y ∈ l.unsent) : x.pos < y.pos := by
  have ySegs : y ∈ l.segs := mem_append_right _ queued
  obtain ⟨k, member, same⟩ := exists_key order.laid.unacked sent
  obtain ⟨k', member', same'⟩ := exists_key order.laid.unsent queued
  rcases settled with none' | new
  · rw [none'] at member
    cases member
  have notBefore : ¬seqLt (place l.base y.pos) (place l.base l.sndNxt) = true := by
    rw [← order.laid.seqno y ySegs, ← order.laid.sndNxt, ← same', Bool.not_eq_true]
    exact new k' member'
  have bounds := order.laid.ends_bounds accounts (mem_append_left _ sent)
  have before := (order.laid.sent x sent).2
  have near := order.laid.queued y queued
  have far := order.laid.near accounts ySegs
  have high := order.laid.sndLbb_le accounts
  have acked := order.laid.acked
  rw [seqLt_place l.base (by omega) (by omega)] at notBefore
  omega

/-- Behind an acknowledgement that leaves only segments that are not acknowledged, no segment is
left behind. -/
theorem InOrder.pruned {unacked unsent : List Placed} {a : Nat}
    (inSegs : ∀ x ∈ unacked ++ unsent, x ∈ l.segs) (later : ∀ x ∈ unacked ++ unsent, a < x.ends)
    (suffix : unsent <:+ l.unsent) (laid : Laid (l.prune a unacked unsent) c') :
    InOrder (l.prune a unacked unsent) c' := by
  refine ⟨laid, ?_, order.unsent.sublist suffix.sublist⟩
  apply filter_eq_nil_iff.mpr
  intro x member
  have live : x ∈ l.live := order.perm.subset (inSegs x member)
  have above := (laid.adjoining.mem (mem_dropWhile_of_lt_ends live (later x member))).1
  rw [decide_eq_true_iff]
  exact Nat.not_le.mpr (Nat.lt_of_le_of_lt above x.pos_lt_behind)

/-- What is left of a queue in order is not acknowledged. -/
theorem InOrder.dropWhile (accounts : Accounts c) {queue : List Placed} {a : Nat}
    (inSegs : ∀ x ∈ queue, x ∈ l.segs) (sorted : queue.Pairwise fun x y => x.pos < y.pos) :
    ∀ x ∈ queue.dropWhile (fun x => x.ends ≤ a), a < x.ends :=
  lt_ends_of_mem_dropWhile (sorted.imp_of_mem fun left right lower =>
    order.ends_le accounts (inSegs _ left) (inSegs _ right) lower)

/-- Behind an acknowledgement of new data, no segment is left behind. -/
theorem InOrder.ackFresh (accounts : Accounts c) {a : Nat}
    (laid : Laid (l.prune a (l.unacked.dropWhile fun x => x.ends ≤ a)
      (l.unsent.dropWhile fun x => x.ends ≤ a)) c') :
    InOrder (l.prune a (l.unacked.dropWhile fun x => x.ends ≤ a)
      (l.unsent.dropWhile fun x => x.ends ≤ a)) c' := by
  have sentSuffix : l.unacked.dropWhile (fun x => x.ends ≤ a) <:+ l.unacked := dropWhile_suffix _
  have queuedSuffix : l.unsent.dropWhile (fun x => x.ends ≤ a) <:+ l.unsent := dropWhile_suffix _
  refine order.pruned ?_ ?_ queuedSuffix laid
  · intro x member
    exact mem_append.mpr ((mem_append.mp member).imp (sentSuffix.subset ·) (queuedSuffix.subset ·))
  · intro x member
    cases mem_append.mp member with
    | inl sent => exact order.dropWhile accounts (fun y => mem_append_left _) order.unacked x sent
    | inr queued =>
      exact order.dropWhile accounts (fun y => mem_append_right _) order.unsent x queued

section

variable {gone unsent : List Placed} (some' : gone ≠ []) (parts : l.unsent = gone ++ unsent)
  (acked : ∀ x ∈ gone, x.ends ≤ l.lastack)

omit order in
include parts in
theorem mem_segs_of_parts {x : Placed} (member : x ∈ l.unacked ++ unsent) : x ∈ l.segs := by
  rw [Layout.segs, parts]
  simp only [mem_append] at member ⊢
  tauto

include some' parts acked

/-- Only the first of the segments that adjoin can be acknowledged without new data. -/
theorem InOrder.only_one : ∀ x ∈ l.unacked ++ unsent, l.lastack < x.ends := by
  intro x member
  obtain ⟨g, first⟩ := exists_mem_of_ne_nil gone some'
  have isAcked := acked g first
  have gSegs : g ∈ l.segs := by
    rw [Layout.segs, parts]
    exact mem_append_right _ (mem_append_left _ first)
  have xSegs := mem_segs_of_parts parts member
  have distinct := order.distinct
  rw [Layout.segs, parts] at distinct
  have different : x.pos ≠ g.pos := by
    obtain ⟨_, queued, across⟩ := pairwise_append.mp distinct
    cases mem_append.mp member with
    | inl sent => exact across x sent g (mem_append_left _ first)
    | inr later => exact ((pairwise_append.mp queued).2.2 g first x later).symm
  by_contra alsoAcked
  cases live : l.live with
  | nil =>
    have none' := order.perm.subset gSegs
    rw [live] at none'
    cases none'
  | cons z more =>
    have isFirst : ∀ y ∈ l.segs, y.ends ≤ l.lastack → y = z := by
      intro y ySegs yAcked
      have inLive := order.perm.subset ySegs
      rw [live] at inLive
      cases mem_cons.mp inLive with
      | inl same => exact same
      | inr later =>
        have fresh := order.laid.fresh y (by rw [live]; exact later)
        omega
    apply different
    rw [isFirst x xSegs (by omega), isFirst g gSegs isAcked]

end

theorem InOrder.keepsLive : l.KeepsLive := by
  intro gone unsent some' parts acked
  by_cases none' : l.unacked ++ unsent = []
  · exact .inl none'
  right
  obtain ⟨x, member⟩ := exists_mem_of_ne_nil _ none'
  have later := order.only_one some' parts acked x member
  have live := order.perm.subset (mem_segs_of_parts parts member)
  exact ne_nil_of_mem (mem_dropWhile_of_lt_ends live later)

end

/-- New segments are queued behind all others. -/
theorem InOrder.append {queue : List Placed} {sndLbb : Nat} (order : InOrder l c)
    (adjoining : Adjoining Placed.pos Placed.behind l.sndLbb queue sndLbb)
    (laid : Laid (l.append queue sndLbb) c') : InOrder (l.append queue sndLbb) c' := by
  refine ⟨laid, order.whole, ?_⟩
  apply pairwise_append.mpr
  refine ⟨order.unsent, ?_, ?_⟩
  · exact adjoining.apart.imp fun {x _} apart => Nat.lt_of_lt_of_le x.pos_lt_behind apart
  · intro x old y new
    have behind := order.laid.behind_le (mem_append_right l.unacked old)
    have start := (adjoining.mem new).1
    exact Nat.lt_of_lt_of_le x.pos_lt_behind (Nat.le_trans behind start)

/-- The last segment of a queue in order is the highest one if no segment is to be sent again. -/
theorem InOrder.lastHighest (order : InOrder l c) (accounts : Accounts c) (settled : c.Settled) :
    c.LastHighest := by
  intro init last unsent k member
  obtain ⟨front, v, queue, key, others⟩ := order.laid.last unsent
  have vUnsent : v ∈ l.unsent := by
    rw [queue]
    exact mem_append_right _ mem_cons_self
  have compare : ∀ x ∈ l.segs, x.pos < v.pos → ∀ k, forget k = x.key →
      seqLt k.seqno last.seqno = true := by
    intro x inSegs lower k isKey
    have less := (order.laid.seqLt_iff accounts inSegs (mem_append_right _ vUnsent)).mpr lower
    rw [key, ← isKey] at less
    exact less
  cases mem_append.mp member with
  | inl sent =>
    obtain ⟨x, found, same⟩ := exists_placed order.laid.unacked sent
    exact compare x (mem_append_left _ found) (order.below accounts settled found vUnsent) k
      same.symm
  | inr inInit =>
    obtain ⟨x, found, same⟩ := exists_placed others inInit
    have sorted := order.unsent
    rw [queue] at sorted
    apply compare x _ ((pairwise_append.mp sorted).2.2 x found v mem_cons_self) k same.symm
    rw [Layout.segs, queue]
    exact mem_append_right _ (mem_append_left _ found)

/-- The last segment is extended. -/
theorem InOrder.extended {l₁ : Layout} {c₁ : TcpCore} (order : InOrder l c)
    (extends' : l.Extended l₁) (laid : Laid l₁ c₁) : InOrder l₁ c₁ := by
  rcases extends' with same | ⟨front, v, live, extra, pbufs, isUnsent, _, _, same⟩
  · rw [same] at laid ⊢
    exact ⟨laid, order.whole, order.unsent⟩
  · have sorted := order.unsent
    rw [isUnsent] at sorted
    rw [same] at laid ⊢
    exact ⟨laid, order.whole, pairwise_relast sorted fun _ => id⟩

/-- The moves that keep the queues in order. -/
def orderAdmits (c : TcpCore) : TcpAct → Prop
  | .write | .splice => c.Settled
  | .ack ackno => c.InHalf ackno
  | .peerWindow wnd | .synAck wnd => wnd < 65536
  | _ => True

/-- Every move that is admitted keeps the queues in order. -/
theorem inOrder_move (c : TcpCore) (act : TcpAct) (c' : TcpCore) (accounts : Accounts c)
    (before : ∃ l, InOrder l c) (meets : orderAdmits c act) (kept : act ≠ .purge)
    (move : TcpMove c act c') : ∃ l, InOrder l c' := by
  obtain ⟨l, order⟩ := before
  have admitted : laidAdmits c act := by
    cases act with
    | write => exact order.lastHighest accounts meets
    | splice => trivial
    | _ => exact meets
  obtain ⟨l', moved, laid⟩ := order.laid.move accounts order.keepsLive admitted kept move
  have sorted := order.unsent
  refine ⟨l', ?_⟩
  cases moved with
  | send x rest queue =>
    rw [queue] at sorted
    exact ⟨laid, order.whole, (pairwise_cons.mp sorted).2⟩
  | requeue x rest queue => exact ⟨laid, order.whole, order.requeue queue⟩
  | splice =>
    refine ⟨laid, order.whole, pairwise_append.mpr ⟨order.unacked, sorted, ?_⟩⟩
    exact fun x sent y queued => order.below accounts meets sent queued
  | ackFresh ackno a => exact order.ackFresh accounts laid
  | ackOld ackno gone unsent some' parts acked =>
    exact order.pruned (fun x => mem_segs_of_parts parts) (order.only_one some' parts acked)
      (parts ▸ suffix_append gone unsent) laid
  | write l₁ c₁ queue sndLbb extends' placed adjoining _ =>
    exact (order.extended extends' placed).append adjoining laid
  | flags flags _ => exact order.append (l.adjoining_flagsPlaced c flags) laid
  | fin front v stale live queue _ noStale _ =>
    rw [queue] at sorted
    exact ⟨laid, noStale order.whole, pairwise_relast sorted fun _ => id⟩
  | synAck wnd y unacked unsent live suffix _ => exact ⟨laid, rfl, sorted.sublist suffix.sublist⟩
  | connectFails iss => exact ⟨laid, rfl, List.Pairwise.nil⟩
  | connect iss => exact ⟨laid, rfl, pairwise_singleton _ _⟩
  | _ => exact ⟨laid, order.whole, sorted⟩

end Moves

/-! ## Runs -/

/-- The segments of a queue are strictly increasing in sequence number. -/
def segsIncreasing (queue : List TcpSeg) : Prop :=
  queue.Pairwise fun seg later => seqLt seg.tcphdr.seqno later.tcphdr.seqno = true

instance (queue : List TcpSeg) : Decidable (segsIncreasing queue) := by
  unfold segsIncreasing
  infer_instance

/-- The last element of `unsent` is the highest-numbered segment of a connection. -/
def lastHighest (pcb : TcpPcb) : Prop :=
  ∀ init last, pcb.unsent = init ++ [last] →
    ∀ seg ∈ pcb.unacked ++ init, seqLt seg.tcphdr.seqno last.tcphdr.seqno = true

/-- A segment that ends behind `snd_nxt` does not pass the test for acknowledged segments. -/
def ackInHalf (pcb : TcpPcb) (ackno : UInt32) : Prop :=
  ∀ seg ∈ pcb.unacked ++ pcb.unsent,
    seqBetween ackno (seg.tcphdr.seqno + UInt32.ofNat (tcpTcplen seg)) pcb.sndNxt = true →
      seqLt pcb.sndNxt (seg.tcphdr.seqno + UInt32.ofNat (tcpTcplen seg)) = false

instance (pcb : TcpPcb) (ackno : UInt32) : Decidable (ackInHalf pcb ackno) := by
  unfold ackInHalf
  infer_instance

/-- The header of an event has a window of 16 bits, and its acknowledgement number is not half of
the sequence space ahead. -/
def headerInHalf (pcb : TcpPcb) (event : TcpEvent) : Prop :=
  ∀ tcphdr ∈ event.header, tcphdr.wnd < 65536 ∧
    (tcphdr.flags.ack = true → pcb.state ≠ .synSent → ackInHalf pcb tcphdr.ackno)

instance (pcb : TcpPcb) (event : TcpEvent) : Decidable (headerInHalf pcb event) := by
  unfold headerInHalf
  infer_instance

/-- Whether an event queues data. -/
def TcpEvent.writes : TcpEvent → Bool
  | .write _ _ => true
  | _ => false

/-- The condition for the order of the queues: data is written and a timeout occurs only when all
segments sent are on `unsent` or none of them is, so that no segment waits there that `tcp_rexmit`
has put before others on `unacked`. -/
def tcpOrderGuard (pcb : TcpPcb) (event : TcpEvent) : Prop :=
  (event.writes = true ∨ event.splices pcb = true →
      pcb.unacked = [] ∨ ∀ seg ∈ pcb.unsent, seqLt seg.tcphdr.seqno pcb.sndNxt = false) ∧
    headerInHalf pcb event

instance (pcb : TcpPcb) (event : TcpEvent) : Decidable (tcpOrderGuard pcb event) := by
  unfold tcpOrderGuard
  infer_instance

/-- A control block at the creation of its connection: `tcp_alloc`, or `tcp_listen_input` for a
segment whose window is one of 16 bits. -/
def TcpBegun (pcb : TcpPcb) : Prop :=
  (∃ ticks, pcb = tcpAlloc ticks) ∨
    ∃ env iss i, i.wnd < 65536 ∧ tcpListenInput env iss i = .ok (.ok, pcb)

/-- The condition on acknowledgements for every order of the queues. -/
theorem headerInHalf.core {event : TcpEvent} (meets : headerInHalf pcb event) {tcphdr : TcpHdr}
    (header : event.header = some tcphdr) (isAck : tcphdr.flags.ack = true)
    (state : pcb.state ≠ .synSent) {c : TcpCore} (ready : AckReady (Lwip.core pcb) c) :
    c.InHalf tcphdr.ackno := by
  have inHalf := (meets tcphdr header).2 isAck state
  intro k member passes
  have inSegs : k ∈ (Lwip.core pcb).unacked ++ (Lwip.core pcb).unsent :=
    ready.segs.subset (mem_append_right _ member)
  have isSeg : k ∈ (pcb.unacked ++ pcb.unsent).map segKey := by
    rw [map_append]
    exact inSegs
  obtain ⟨seg, found, same⟩ := mem_map.mp isSeg
  rw [← same] at passes ⊢
  rw [ready.sndNxt] at passes ⊢
  exact inHalf seg found passes

/-- No segment is to be sent again. -/
theorem settled_core (settled : pcb.unacked = [] ∨
    ∀ seg ∈ pcb.unsent, seqLt seg.tcphdr.seqno pcb.sndNxt = false) : (core pcb).Settled := by
  rcases settled with none' | new
  · exact .inl (by rw [core, none']; rfl)
  · refine .inr fun k queued => ?_
    obtain ⟨seg, found, same⟩ := mem_map.mp queued
    rw [← same]
    exact new seg found

/-- The condition admits the moves of an event. -/
theorem tcpOrderGuard.admits {event : TcpEvent} (meets : tcpOrderGuard pcb event) :
    Admits orderAdmits pcb event where
  write := fun env args isWrite => settled_core (meets.1 (.inl (by rw [isWrite]; rfl)))
  splice := fun splices _ => settled_core (meets.1 (.inr splices))
  ack := fun state _ header isAck _ ready => meets.2.core header isAck state ready
  window := fun tcphdr header _ => ⟨(meets.2 tcphdr header).1, (meets.2 tcphdr header).1⟩
  advance := fun _ _ => trivial
  reopen := fun _ _ => trivial
  purge := fun _ => trivial
  flags := fun _ => trivial

/-- The moves that are always admitted keep the queues in order. -/
theorem orderAdmits_plain : AdmitsPlain orderAdmits := by
  intro c act always
  cases act with
  | write | splice | ack | peerWindow | synAck => cases always
  | _ => trivial

/-- A new control block has a property of the queues that holds without segments. -/
theorem TcpBegun.kept {admitted : TcpCore → TcpAct → Prop} {holds : TcpCore → Prop}
    (begun : TcpBegun pcb) (plain : AdmitsPlain admitted)
    (queues : ∀ iss i, admitted (listenCore iss i) .flags)
    (each : ∀ c act c', Accounts c → holds c → admitted c act → act ≠ .purge → TcpMove c act c' →
      holds c')
    (empty : ∀ base c, Laid (Layout.empty base 0) c → holds c) : Kept holds (core pcb) := by
  rcases begun with ⟨ticks, same⟩ | ⟨env, iss, i, small, done⟩
  · rw [same]
    refine .inr ⟨show TcpState.closed ≠ .timeWait by decide, tcpAlloc_accounts ticks, empty 0 _ ?_⟩
    exact laid_empty _ 0 rfl rfl rfl rfl (Nat.zero_le 1) rfl (show 0 < 65536 by decide)
      (show TcpState.closed ≠ .synSent by decide)
  · apply (tcpListenInput_moves plain (queues iss i) done).kept each
    refine .inr ⟨show TcpState.synRcvd ≠ .timeWait by decide, listenCore_accounts iss i,
      empty iss _ ?_⟩
    exact laid_empty _ 0 rfl rfl rfl (place_zero iss).symm (Nat.zero_le 1) rfl small
      (show TcpState.synRcvd ≠ .synSent by decide)

/-- The queues of a connection are in order in every state that it reaches under the condition. -/
theorem tcpRun_inOrder {start final : TcpPcb} (begun : TcpBegun start)
    (run : Run TcpStep tcpOrderGuard start final) :
    Kept (fun c => ∃ l, InOrder l c) (core final) := by
  apply run.invariant (begun.kept orderAdmits_plain (fun _ _ => trivial) inOrder_move
    fun _ _ laid => ⟨_, laid, rfl, List.Pairwise.nil⟩)
  intro pcb event pcb' before meets step
  exact tcpStep_kept orderAdmits_plain inOrder_move step before meets.admits

/-- A queue whose places are in order is strictly increasing. -/
theorem segsIncreasing_of_sorted {l : Layout} (laid : Laid l (core pcb))
    (accounts : Accounts (core pcb)) {queue : List TcpSeg} {placed : List Placed}
    (keys : (queue.map segKey).map forget = placed.map (·.key)) (inSegs : ∀ x ∈ placed, x ∈ l.segs)
    (sorted : placed.Pairwise fun x y => x.pos < y.pos) : segsIncreasing queue := by
  have increasing : (placed.map (·.key)).Pairwise fun k k' => seqLt k.seqno k'.seqno = true := by
    apply pairwise_map.mpr
    apply sorted.imp_of_mem
    intro x y left right lower
    exact (laid.seqLt_iff accounts (inSegs x left) (inSegs y right)).mpr lower
  rw [← keys, map_map, pairwise_map] at increasing
  exact increasing

/-- `unacked` and `unsent` are strictly increasing in sequence number, and `tcp_write` finds the
highest-numbered segment at the end of `unsent`, in every state of a run whose events meet the
condition. -/
theorem tcp_queues_in_order (start final : TcpPcb) (begun : TcpBegun start)
    (run : Run TcpStep tcpOrderGuard start final) :
    segsIncreasing final.unacked ∧ segsIncreasing final.unsent ∧
      ∀ env args, tcpOrderGuard final (.write env args) → lastHighest final := by
  rcases tcpRun_inOrder begun run with ⟨_, unacked, unsent, _⟩ | ⟨_, accounts, l, order⟩
  · have noneSent : final.unacked = [] := map_eq_nil_iff.mp unacked
    have noneQueued : final.unsent = [] := map_eq_nil_iff.mp unsent
    refine ⟨?_, ?_, ?_⟩
    · rw [noneSent]
      exact List.Pairwise.nil
    · rw [noneQueued]
      exact List.Pairwise.nil
    · intro env args _ init last queue
      rw [noneQueued] at queue
      simp at queue
  · refine ⟨?_, ?_, ?_⟩
    · exact segsIncreasing_of_sorted order.laid accounts order.laid.unacked
        (fun x => mem_append_left _) order.unacked
    · exact segsIncreasing_of_sorted order.laid accounts order.laid.unsent
        (fun x => mem_append_right _) order.unsent
    · intro env args meets init last queue seg member
      have highest := order.lastHighest accounts (settled_core (meets.1 (.inl rfl)))
      have keys : (core final).unsent = init.map segKey ++ [segKey last] := by
        rw [core, queue, map_append]
        rfl
      apply highest (init.map segKey) (segKey last) keys (segKey seg)
      rw [core, ← map_append]
      exact mem_map_of_mem member

/-- A connection is opened with segments of one byte, and three bytes are sent on it. -/
def threeSegmentsSent : List TcpEvent :=
  [.connect (plainEnv []) 1000,
    .segment (plainEnv []) [pbufRam 0 []]
      { seqno := 500, ackno := 1000, flags := { syn := true, ack := true }, wnd := 4096 }
      [2, 4, 0, 1],
    .write (plainEnv [0, 1, 2, 3]) { arg := 1, len := 3, copy := true, more := false },
    .output (plainEnv [])]

/-- Acknowledgements without new data, the last of which queues the first segment again. -/
def fastRetransmit : List TcpEvent :=
  List.replicate 4 (.segment (plainEnv []) [pbufRam 0 []]
    { seqno := 501, ackno := 1000, flags := { ack := true }, wnd := 4096 } [])

/-- Two more bytes are written once the first segment has been sent again. -/
def twoBytesWritten : List TcpEvent :=
  threeSegmentsSent ++ fastRetransmit ++ [.output (plainEnv []),
    .write (plainEnv [0, 4]) { arg := 1, len := 1, copy := true, more := false },
    .write (plainEnv [0, 5]) { arg := 1, len := 1, copy := true, more := false }]

/-- The theorem at a connection with five segments. -/
theorem tcp_queues_in_order_twoBytesWritten :
    ∃ final, Run TcpStep tcpOrderGuard (tcpAlloc 0) final ∧
      final.unacked.map (·.tcphdr.seqno) = [1000, 1001, 1002] ∧
      final.unsent.map (·.tcphdr.seqno) = [1003, 1004] ∧
      segsIncreasing final.unacked ∧ segsIncreasing final.unsent ∧
      ∀ env args, tcpOrderGuard final (.write env args) → lastHighest final := by
  have returns : (tcpEventsIf tcpOrderGuard (tcpAlloc 0) twoBytesWritten).map
      (fun pcb => (pcb.unacked.map (·.tcphdr.seqno), pcb.unsent.map (·.tcphdr.seqno))) =
        some ([1000, 1001, 1002], [1003, 1004]) := by
    decide +kernel
  obtain ⟨final, done, fields⟩ := Option.map_eq_some_iff.mp returns
  have run := run_tcpEventsIf done
  exact ⟨final, run, congrArg Prod.fst fields, congrArg Prod.snd fields,
    tcp_queues_in_order (tcpAlloc 0) final (Or.inl ⟨0, rfl⟩) run⟩

/-- The driver refuses every segment. -/
def refusingEnv : TcpEnv := { plainEnv [] with output := fun _ => .mem }

/-- The first segment is queued again, but cannot be sent. -/
def rexmitRefused : List TcpEvent := threeSegmentsSent ++ fastRetransmit ++ [.output refusingEnv]

/-- With the first segment on `unsent` behind the others on `unacked`, `tcp_write` does not find the
highest-numbered segment at the end of `unsent`, and a timeout puts the queues out of order. -/
theorem tcp_queues_disordered_by_timeout :
    (∃ final, Run TcpStep (fun _ _ => True) (tcpAlloc 0) final ∧ final.state = .established ∧
        final.unsent ≠ [] ∧ ¬lastHighest final) ∧
      ∃ final, Run TcpStep (fun _ _ => True) (tcpAlloc 0) final ∧
        ¬segsIncreasing final.unsent := by
  constructor
  · have returns : (tcpEvents (tcpAlloc 0) rexmitRefused).map (fun pcb =>
        (pcb.state, pcb.unacked.map (·.tcphdr.seqno), pcb.unsent.map (·.tcphdr.seqno))) =
          some (.established, [1001, 1002], [1000]) := by
      decide +kernel
    obtain ⟨final, done, fields⟩ := Option.map_eq_some_iff.mp returns
    simp only [Prod.mk.injEq] at fields
    obtain ⟨state, sent, queued⟩ := fields
    obtain ⟨last, single, isFirst⟩ := map_eq_singleton_iff.mp queued
    refine ⟨final, run_tcpEvents done, state, by rw [single]; simp, ?_⟩
    intro highest
    cases unacked : final.unacked with
    | nil =>
      rw [unacked] at sent
      cases sent
    | cons seg more =>
      rw [unacked, map_cons, List.cons.injEq] at sent
      have lower := highest [] last single seg (by rw [unacked]; simp)
      rw [sent.1, isFirst] at lower
      exact absurd lower (by decide)
  · have returns : (tcpEvents (tcpAlloc 0)
        (rexmitRefused ++ List.replicate 5 (.slowtmr refusingEnv))).map
          (fun pcb => decide (segsIncreasing pcb.unsent)) = some false := by
      decide +kernel
    obtain ⟨final, done, disordered⟩ := Option.map_eq_some_iff.mp returns
    exact ⟨final, run_tcpEvents done, of_decide_eq_false disordered⟩

end Lwip
