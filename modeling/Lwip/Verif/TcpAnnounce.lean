import Lwip.Verif.TcpAccounts

/-!
# The announced window never shrinks

Every header that is handed over announces the window `rcv_ann_wnd` behind `rcv_nxt`. The right edge
of that window is kept in `rcv_ann_right_edge`, and `tcp_update_rcv_ann_wnd` chooses a window that
reaches it, or none if data beyond it has been received. Right edges are counted in sequence numbers
received, so that they compare over the whole life of a connection and not only within `2 ^ 31`.
-/

namespace Lwip

open Transition Serial List

variable {wnd : Nat} {act : TcpAct} {event : TcpEvent}

/-! ## Edges as places -/

/-- `rcv_nxt` is the place `n` and the announced edge the place `a` of the peer's sequence. -/
structure EdgeAt (base : UInt32) (n a : Nat) (c : TcpCore) : Prop where
  rcvNxt : c.rcvNxt = place base n
  edge : c.rcvAnnRightEdge = place base a
  /-- The window to announce reaches the announced edge. -/
  covered : a ≤ n + c.rcvAnnWnd
  /-- The announced edge is not too far behind: the assertion in `tcp_update_rcv_ann_wnd` fails
  before the comparisons of sequence numbers are wrong. -/
  near : n < a + 2147487696
  small : c.rcvAnnWnd ≤ 65535
  bounded : c.rcvWnd ≤ tcpWnd

/-- `tcp_update_rcv_ann_wnd` chooses a window that reaches the announced edge. -/
theorem WndUpdated.covered {base : UInt32} {n a rcvWnd : Nat}
    (updated : WndUpdated (place base n) rcvWnd (place base a) wnd) (bounded : rcvWnd ≤ tcpWnd)
    (before : a ≤ n + 65535) (near : n < a + 2147495792) :
    a ≤ n + wnd ∧ n < a + 2147487696 ∧ wnd ≤ 65535 := by
  unfold tcpWnd at bounded
  rcases updated with ⟨m, half, larger, same⟩ | ⟨beyond, none'⟩ | ⟨_, small, rest⟩
  · rw [place_add, place_add, seqGeq, decide_eq_true_iff, ge_iff_le, toS32_nonneg_iff] at larger
    have bound : m ≤ 4048 := half
    rcases Nat.lt_or_ge (n + rcvWnd) (a + m) with order | order
    · rw [toNat_place_sub_of_lt base order (by omega)] at larger
      omega
    · rw [toNat_place_sub_of_le base order (by omega)] at larger
      omega
  · rw [seqGt, decide_eq_true_iff] at beyond
    have positive : 0 ≤ toS32 (place base n - place base a) := by omega
    rw [toS32_nonneg_iff] at positive
    rcases Nat.lt_or_ge n a with order | order
    · rw [toNat_place_sub_of_lt base order (by omega)] at positive
      omega
    · rw [toNat_place_sub_of_le base order (by omega)] at positive
      omega
  · rcases Nat.lt_or_ge a n with order | order
    · rw [toNat_place_sub_of_lt base order (by omega)] at small
      omega
    · rw [toNat_place_sub_of_le base order (by omega)] at small rest
      omega

/-! ## Moves -/

/-- What moves of a connection see of the receiver. -/
def receiving (c : TcpCore) : UInt32 × Nat × Nat × UInt32 × List (TcpHdr × Err) :=
  (c.rcvNxt, c.rcvWnd, c.rcvAnnWnd, c.rcvAnnRightEdge, c.sent)

/-- A header announces the window behind a place between `n` and `n'`; its right edge is `p`. -/
def AnnouncedAt (base : UInt32) (n n' : Nat) (entry : TcpHdr × Err) (p : Nat) : Prop :=
  ∃ m, n ≤ m ∧ m ≤ n' ∧ entry.1.ackno = place base m ∧ p = m + entry.1.wnd

/-- What has been received and announced since the control block `c₀`. -/
structure Announced (admitted : TcpCore → TcpAct → Prop) (base : UInt32) (n a : Nat) (c₀ : TcpCore)
    (n' a' : Nat) (edges : List Nat) (c : TcpCore) : Prop where
  edge : EdgeAt base n' a' c
  next : n ≤ n'
  right : a ≤ a'
  sent : ∃ new, c.sent = c₀.sent ++ new ∧ List.Forall₂ (AnnouncedAt base n n') new edges
  sorted : edges.Pairwise (· ≤ ·)
  inside : ∀ p ∈ edges, a ≤ p ∧ p ≤ a'
  /-- Without a larger window, no more than the window is received. -/
  taken : (∀ c, ¬admitted c .window) → n' + c.rcvWnd ≤ n + c₀.rcvWnd
  /-- Without data, nothing is received. -/
  still : (∀ c, ¬admitted c .advance) → n' = n

section Moves

variable {admitted : TcpCore → TcpAct → Prop} {base : UInt32} {n a n' a' : Nat} {c₀ c c' : TcpCore}
  {edges : List Nat}

theorem Announced.refl (edge : EdgeAt base n a c) : Announced admitted base n a c n a [] c where
  edge := edge
  next := Nat.le_refl n
  right := Nat.le_refl a
  sent := ⟨[], (List.append_nil _).symm, .nil⟩
  sorted := .nil
  inside := fun _ member => absurd member List.not_mem_nil
  taken := fun _ => Nat.le_refl _
  still := fun _ => rfl

section

variable (announced : Announced admitted base n a c₀ n' a' edges c)

include announced

/-- A move that leaves the receiver alone. -/
theorem Announced.frame (same : receiving c' = receiving c) :
    Announced admitted base n a c₀ n' a' edges c' := by
  simp only [receiving, Prod.mk.injEq] at same
  obtain ⟨rcvNxt, rcvWnd, rcvAnnWnd, edge, sent⟩ := same
  have places := announced.edge
  constructor
  · constructor
    · rw [rcvNxt]
      exact places.rcvNxt
    · rw [edge]
      exact places.edge
    · rw [rcvAnnWnd]
      exact places.covered
    · exact places.near
    · rw [rcvAnnWnd]
      exact places.small
    · rw [rcvWnd]
      exact places.bounded
  · exact announced.next
  · exact announced.right
  · rw [sent]
    exact announced.sent
  · exact announced.sorted
  · exact announced.inside
  · rw [rcvWnd]
    exact announced.taken
  · exact announced.still

theorem Announced.announce (entries : List (TcpHdr × Err))
    (headers : ∀ entry ∈ entries, entry.1.ackno = c.rcvNxt ∧ entry.1.wnd = c.rcvAnnWnd) :
    Announced admitted base n a c₀ n' (n' + c.rcvAnnWnd)
      (edges ++ entries.map fun _ => n' + c.rcvAnnWnd) { c with
        rcvAnnRightEdge := c.rcvNxt + UInt32.ofNat c.rcvAnnWnd, sent := c.sent ++ entries } := by
  have places := announced.edge
  have covered := places.covered
  have right := announced.right
  have edgeOf : ∀ p ∈ entries.map fun _ => n' + c.rcvAnnWnd, p = n' + c.rcvAnnWnd := by
    intro p member
    obtain ⟨_, _, eq⟩ := mem_map.mp member
    exact eq.symm
  constructor
  · constructor
    · exact places.rcvNxt
    · show c.rcvNxt + UInt32.ofNat c.rcvAnnWnd = place base (n' + c.rcvAnnWnd)
      rw [places.rcvNxt, place_add]
    · exact Nat.le_refl _
    · exact Nat.lt_of_le_of_lt (Nat.le_add_right _ _) (Nat.lt_add_of_pos_right (by decide))
    · exact places.small
    · exact places.bounded
  · exact announced.next
  · omega
  · obtain ⟨new, before, placed⟩ := announced.sent
    refine ⟨new ++ entries, by rw [before, append_assoc], ?_⟩
    apply rel_append placed
    rw [forall₂_map_right_iff, forall₂_same]
    intro entry member
    obtain ⟨ackno, wnd⟩ := headers entry member
    exact ⟨n', announced.next, Nat.le_refl _, by rw [ackno, places.rcvNxt], by rw [wnd]⟩
  · rw [pairwise_append]
    refine ⟨announced.sorted, ?_, ?_⟩
    · exact pairwise_map.mpr (pairwise_of_forall fun _ _ => Nat.le_refl _)
    · intro p member q member'
      rw [edgeOf q member']
      exact Nat.le_trans (announced.inside p member).2 covered
  · intro p member
    cases mem_append.mp member with
    | inl old =>
      have inside := announced.inside p old
      omega
    | inr new =>
      rw [edgeOf p new]
      omega
  · exact announced.taken
  · exact announced.still

theorem Announced.advance {k : Nat} (meets : admitted c .advance) (enough : k ≤ c.rcvWnd)
    (updated : WndUpdated (c.rcvNxt + UInt32.ofNat k) (c.rcvWnd - k) c.rcvAnnRightEdge wnd) :
    Announced admitted base n a c₀ (n' + k) a' edges { c with
      rcvNxt := c.rcvNxt + UInt32.ofNat k, rcvWnd := c.rcvWnd - k, rcvAnnWnd := wnd } := by
  have places := announced.edge
  have covered := places.covered
  have near := places.near
  have small := places.small
  have bounded := places.bounded
  have next := announced.next
  unfold tcpWnd at bounded
  rw [places.rcvNxt, places.edge, place_add] at updated
  have chosen := updated.covered (by unfold tcpWnd; omega) (by omega) (by omega)
  constructor
  · constructor
    · show c.rcvNxt + UInt32.ofNat k = place base (n' + k)
      rw [places.rcvNxt, place_add]
    · exact places.edge
    · exact chosen.1
    · exact chosen.2.1
    · exact chosen.2.2
    · show c.rcvWnd - k ≤ 8096
      omega
  · omega
  · exact announced.right
  · obtain ⟨new, before, placed⟩ := announced.sent
    refine ⟨new, before, placed.imp ?_⟩
    intro entry p at'
    obtain ⟨m, low, high, rest⟩ := at'
    exact ⟨m, low, by omega, rest⟩
  · exact announced.sorted
  · exact announced.inside
  · intro closed
    have total := announced.taken closed
    show n' + k + (c.rcvWnd - k) ≤ n + c₀.rcvWnd
    omega
  · exact fun never => absurd meets (never c)

theorem Announced.reopen {rcvWnd : Nat} (meets : admitted c .window) (bounded : rcvWnd ≤ tcpWnd)
    (updated : wnd = c.rcvAnnWnd ∨ WndUpdated c.rcvNxt rcvWnd c.rcvAnnRightEdge wnd) :
    Announced admitted base n a c₀ n' a' edges { c with rcvWnd := rcvWnd, rcvAnnWnd := wnd } := by
  have places := announced.edge
  have covered := places.covered
  have near := places.near
  have small := places.small
  have chosen : a' ≤ n' + wnd ∧ wnd ≤ 65535 := by
    cases updated with
    | inl same => omega
    | inr chosen =>
      rw [places.rcvNxt, places.edge] at chosen
      have reaches := chosen.covered bounded (by omega) (by omega)
      exact ⟨reaches.1, reaches.2.2⟩
  constructor
  · exact ⟨places.rcvNxt, places.edge, chosen.1, near, chosen.2, bounded⟩
  · exact announced.next
  · exact announced.right
  · exact announced.sent
  · exact announced.sorted
  · exact announced.inside
  · exact fun never => absurd meets (never c)
  · exact announced.still

end

/-- A connection stays behind the handshake. -/
theorem TcpMove.behind (move : TcpMove c act c') (before : TcpState.synRcvd.code ≤ c.state.code) :
    TcpState.synRcvd.code ≤ c'.state.code := by
  cases move with
  | enter state _ behind => exact behind.1
  | synAck rcvNxt wnd unacked unsent opening _ _ => exact open_established.1
  | connect iss closed => exact absurd before (by rw [closed]; decide)
  | purge _ =>
    exact (show TcpState.synRcvd.code ≤ TcpState.timeWait.code by decide)
  | _ => exact before

/-- Whether a move is part of the handshake. -/
def TcpAct.handshake : TcpAct → Bool
  | .connect | .synAck _ => true
  | _ => false

/-- A connection behind the handshake makes no such move. -/
theorem TcpMove.not_handshake (move : TcpMove c act c')
    (behind : TcpState.synRcvd.code ≤ c.state.code) : act.handshake = false := by
  cases move with
  | synAck rcvNxt wnd unacked unsent opening _ _ => exact absurd behind (by rw [opening]; decide)
  | connect iss closed | connectFails iss closed => exact absurd behind (by rw [closed]; decide)
  | _ => rfl

/-- Every move behind the handshake keeps the announced edge. -/
theorem Announced.move (announced : Announced admitted base n a c₀ n' a' edges c)
    (meets : admitted c act) (move : TcpMove c act c') (late : act.handshake = false) :
    ∃ n'' a'' edges', Announced admitted base n a c₀ n'' a'' edges' c' := by
  cases move with
  | announce entries headers => exact ⟨_, _, _, announced.announce entries headers⟩
  | advance k wnd enough updated => exact ⟨_, _, _, announced.advance meets enough updated⟩
  | reopen rcvWnd wnd bounded updated =>
    exact ⟨_, _, _, announced.reopen meets bounded (Or.inr updated)⟩
  | finWindow =>
    have bounded := announced.edge.bounded
    have larger : (if c.rcvWnd ≠ tcpWnd then c.rcvWnd + 1 else c.rcvWnd) ≤ tcpWnd := by
      split <;> omega
    exact ⟨_, _, _, announced.reopen meets larger (Or.inl rfl)⟩
  | synAck | connect | connectFails => cases late
  | _ => exact ⟨_, _, _, announced.frame rfl⟩

/-- Moves behind the handshake keep the announced edge. -/
theorem Moves.announced (moves : Moves admitted c c') (edge : EdgeAt base n a c)
    (behind : TcpState.synRcvd.code ≤ c.state.code) :
    TcpState.synRcvd.code ≤ c'.state.code ∧
      ∃ n' a' edges, Announced admitted base n a c n' a' edges c' := by
  have initial : TcpState.synRcvd.code ≤ c.state.code ∧
      ∃ n' a' edges, Announced admitted base n a c n' a' edges c :=
    ⟨behind, n, a, [], Announced.refl edge⟩
  apply moves.invariant initial
  intro s act s' before meets move
  obtain ⟨late, n', a', edges, announced⟩ := before
  exact ⟨move.behind late, announced.move meets move (move.not_handshake late)⟩

/-- The announced edge is kept from the creation of a connection on; the handshake sets it anew. -/
theorem TcpMove.edge (move : TcpMove c act c') (before : ∃ base n a, EdgeAt base n a c) :
    ∃ base n a, EdgeAt base n a c' := by
  obtain ⟨base, n, a, edge⟩ := before
  have bounded := edge.bounded
  have small := edge.small
  by_cases handshake : act.handshake = true
  · cases move with
    | synAck rcvNxt wnd unacked unsent opening _ _ =>
      exact ⟨rcvNxt, 0, 0, (place_zero rcvNxt).symm, (place_zero rcvNxt).symm, Nat.zero_le _,
        by decide, small, bounded⟩
    | connect iss closed | connectFails iss closed =>
      exact ⟨0, 0, 0, rfl, rfl, Nat.zero_le _, by decide, tcpWnd_small, Nat.le_refl tcpWnd⟩
    | _ => cases handshake
  · have begun : Announced (fun _ _ => True) base n a c n a [] c := Announced.refl edge
    obtain ⟨n', a', _, announced⟩ := begun.move trivial move (by simpa using handshake)
    exact ⟨base, n', a', announced.edge⟩

end Moves

/-- The announced edge of a connection in every state it reaches. -/
theorem tcpRun_edge {guard : TcpPcb → TcpEvent → Prop} {start final : TcpPcb}
    (created : TcpCreated start) (run : Run TcpStep guard start final) :
    ∃ base n a, EdgeAt base n a (core final) := by
  have along : ∀ {c c' : TcpCore}, Moves (fun _ _ => True) c c' → (∃ base n a, EdgeAt base n a c) →
      ∃ base n a, EdgeAt base n a c' := by
    intro c c' moves before
    exact moves.invariant before fun _ _ _ before _ move => move.edge before
  have initial : ∃ base n a, EdgeAt base n a (core start) := by
    cases created with
    | inl allocated =>
      obtain ⟨ticks, same⟩ := allocated
      rw [same]
      exact ⟨0, 0, 0, rfl, rfl, Nat.zero_le _, by decide, tcpWnd_small, Nat.le_refl tcpWnd⟩
    | inr accepted =>
      obtain ⟨env, iss, i, done⟩ := accepted
      apply along (tcpListenInput_moves (fun _ _ _ => trivial) trivial done)
      exact ⟨i.seqno + 1, 0, 0, (place_zero _).symm, (place_zero _).symm, Nat.zero_le _, by decide,
        tcpWnd_small, Nat.le_refl tcpWnd⟩
  have both : ((core final).state = .timeWait ∨ Accounts (core final)) ∧
      ∃ base n a, EdgeAt base n a (core final) := by
    induction run with
    | refl => exact ⟨created.accounts, initial⟩
    | tail _ event _ step ih =>
      have moves := tcpStep_moves (fun _ _ _ => trivial) step ih.1 (admits_all _ event)
      exact ⟨moves.accounts ih.1, along moves ih.2⟩
  exact both.2

/-! ## Runs -/

/-- A connection, the sequence numbers it has received, and the right edges it has announced,
counted from the sequence number expected at its start. -/
structure TcpAnnouncer where
  pcb : TcpPcb
  received : Nat
  edges : List Nat

/-- The right edge that a header announces, when `received` sequence numbers have been received up
to `rcvNxt`. -/
def announcedEdge (received : Nat) (rcvNxt : UInt32) (entry : TcpHdr × Err) : Nat :=
  received + (entry.1.ackno - rcvNxt).toNat + entry.1.wnd

/-- One event of a connection, with what it receives and announces. -/
def AnnounceStep (s : TcpAnnouncer) (event : TcpEvent) (s' : TcpAnnouncer) : Prop :=
  TcpStep s.pcb event s'.pcb ∧
    s'.received = s.received + (s'.pcb.rcvNxt - s.pcb.rcvNxt).toNat ∧
    s'.edges = s.edges ++
      (s'.pcb.sent.drop s.pcb.sent.length).map (announcedEdge s.received s.pcb.rcvNxt)

theorem tcpStep_announced {pcb pcb' : TcpPcb} {base : UInt32} {n a : Nat}
    (step : TcpStep pcb event pcb') (accounts : (core pcb).state = .timeWait ∨ Accounts (core pcb))
    (edge : EdgeAt base n a (core pcb)) (behind : TcpState.synRcvd.code ≤ pcb.state.code) :
    TcpState.synRcvd.code ≤ pcb'.state.code ∧ ∃ n' a' edges admitted,
      Announced admitted base n a (core pcb) n' a' edges (core pcb') ∧ n' ≤ n + tcpWnd := by
  have bounded : pcb.rcvWnd ≤ tcpWnd := edge.bounded
  by_cases header : event.header.isSome = true
  · have plain : AdmitsPlain fun _ act => act ≠ .window := by
      intro c act always window
      rw [window] at always
      cases always
    have admits : Admits (fun _ act => act ≠ .window) pcb event := by
      apply admits_of_others (fun _ _ _ other => other)
      · exact fun _ _ => by simp
      · intro reopens
        cases event with
        | recved | finWindow => cases header
        | _ => cases reopens
    obtain ⟨late, n', a', edges, announced⟩ :=
      (tcpStep_moves plain step accounts admits).announced edge behind
    have taken : n' + pcb'.rcvWnd ≤ n + pcb.rcvWnd := announced.taken fun _ never => never rfl
    exact ⟨late, n', a', edges, _, announced, by omega⟩
  · have plain : AdmitsPlain fun _ act => act ≠ .advance := by
      intro c act always advance
      rw [advance] at always
      cases always
    have admits : Admits (fun _ act => act ≠ .advance) pcb event := by
      apply admits_of_others (fun _ _ other _ => other)
      · exact fun isSome => absurd isSome header
      · exact fun _ _ => by simp
    obtain ⟨late, n', a', edges, announced⟩ :=
      (tcpStep_moves plain step accounts admits).announced edge behind
    have still : n' = n := announced.still fun _ never => never rfl
    exact ⟨late, n', a', edges, _, announced, by omega⟩

/-- The edges announced since the control block `start`, whose next sequence number is the place
`n₀`. -/
structure AnnounceInv (start : TcpPcb) (base : UInt32) (n₀ : Nat) (s : TcpAnnouncer) : Prop where
  /-- The counters are right, or the queues have been dropped. -/
  accounts : (core s.pcb).state = .timeWait ∨ Accounts (core s.pcb)
  /-- The handshake is over. -/
  behind : TcpState.synRcvd.code ≤ s.pcb.state.code
  places : ∃ a, EdgeAt base (n₀ + s.received) a (core s.pcb) ∧ ∀ p ∈ s.edges, n₀ + p ≤ a
  sorted : s.edges.Pairwise (· ≤ ·)
  /-- The edges are those of the headers. -/
  sent : ∃ new, s.pcb.sent = start.sent ++ new ∧
    s.edges.map (place start.rcvNxt) = new.map fun entry => entry.1.ackno + UInt32.ofNat entry.1.wnd

/-- The edges of headers, in terms of the places that they announce. -/
theorem announcedEdge_places {base : UInt32} {n₀ received n' : Nat} {rcvNxt : UInt32}
    {new : List (TcpHdr × Err)} {places : List Nat} (expected : rcvNxt = place base (n₀ + received))
    (near : n' < n₀ + received + 4294967296)
    (announced : List.Forall₂ (AnnouncedAt base (n₀ + received) n') new places) :
    (new.map (announcedEdge received rcvNxt)).map (n₀ + ·) = places ∧
      places.map (place base) = new.map fun entry => entry.1.ackno + UInt32.ofNat entry.1.wnd := by
  induction announced with
  | nil => exact ⟨rfl, rfl⟩
  | cons here _ ih =>
    obtain ⟨m, low, high, ackno, edge⟩ := here
    have distance := toNat_place_sub_of_le base low (by omega)
    simp only [map_cons]
    constructor
    · rw [ih.1, announcedEdge, ackno, expected, distance, edge]
      congr 1
      omega
    · rw [ih.2, ackno, edge, place_add]

theorem AnnounceStep.inv {start : TcpPcb} {base : UInt32} {n₀ : Nat} {s s' : TcpAnnouncer}
    (step : AnnounceStep s event s') (begin' : start.rcvNxt = place base n₀)
    (inv : AnnounceInv start base n₀ s) : AnnounceInv start base n₀ s' := by
  obtain ⟨happens, received, edges⟩ := step
  obtain ⟨a, edge, below⟩ := inv.places
  obtain ⟨late, n', a', places, _, announced, near⟩ :=
    tcpStep_announced happens inv.accounts edge inv.behind
  obtain ⟨new, grown, headers⟩ := announced.sent
  have after := announced.edge
  have forward := announced.next
  have expected : s.pcb.rcvNxt = place base (n₀ + s.received) := edge.rcvNxt
  unfold tcpWnd at near
  have number : n₀ + s'.received = n' := by
    rw [received, show s'.pcb.rcvNxt = place base n' from after.rcvNxt, expected,
      toNat_place_sub_of_le base forward (by omega)]
    omega
  have added : s'.pcb.sent.drop s.pcb.sent.length = new := by
    rw [show s'.pcb.sent = s.pcb.sent ++ new from grown, drop_left]
  obtain ⟨shifted, numbers⟩ := announcedEdge_places expected (by omega) headers
  rw [added] at edges
  have member : ∀ p ∈ new.map (announcedEdge s.received s.pcb.rcvNxt), n₀ + p ∈ places := by
    intro p found
    rw [← shifted]
    exact mem_map_of_mem found
  constructor
  · have moves := tcpStep_moves (fun _ _ _ => trivial) happens inv.accounts
      (admits_all s.pcb event)
    exact moves.accounts inv.accounts
  · exact late
  · refine ⟨a', by rw [number]; exact after, ?_⟩
    intro p found
    rw [edges] at found
    cases mem_append.mp found with
    | inl old => exact Nat.le_trans (below p old) announced.right
    | inr new' => exact (announced.inside _ (member p new')).2
  · rw [edges, pairwise_append]
    refine ⟨inv.sorted, ?_, ?_⟩
    · have sorted := announced.sorted
      rw [← shifted, pairwise_map] at sorted
      exact sorted.imp fun order => Nat.le_of_add_le_add_left order
    · intro p old q new'
      have low := below p old
      have high := (announced.inside _ (member q new')).1
      omega
  · obtain ⟨before, sent, same⟩ := inv.sent
    refine ⟨before ++ new, ?_, ?_⟩
    · rw [show s'.pcb.sent = s.pcb.sent ++ new from grown, sent, append_assoc]
    · have shift : ∀ p, place start.rcvNxt p = place base (n₀ + p) := by
        intro p
        rw [begin', ← place_add]
        rfl
      rw [edges, map_append, map_append, same, ← numbers, ← shifted]
      simp only [map_map, Function.comp_def, shift]

/-- The right edge of the announced window never moves left. Edges are counted in sequence numbers
received since the start; they are the right edges of the headers handed over since then, and two
edges that follow each other less than `2 ^ 31` apart compare as sequence numbers do. -/
theorem tcp_window_never_shrinks (fresh start : TcpPcb) (s : TcpAnnouncer)
    (created : TcpCreated fresh) (opening : Run TcpStep (fun _ _ => True) fresh start)
    (established : start.state = .established)
    (run : Run AnnounceStep (fun _ _ => True) ⟨start, 0, []⟩ s) :
    s.edges.Pairwise (· ≤ ·) ∧
      s.edges.map (place start.rcvNxt) = (s.pcb.sent.drop start.sent.length).map
        (fun entry => entry.1.ackno + UInt32.ofNat entry.1.wnd) ∧
      s.edges.IsChain fun before after => after < before + 2147483648 →
        seqGeq (place start.rcvNxt after) (place start.rcvNxt before) = true := by
  obtain ⟨base, n₀, a, edge⟩ := tcpRun_edge created opening
  have initial : AnnounceInv start base n₀ ⟨start, 0, []⟩ := by
    constructor
    · exact tcpRun_accounts created opening
    · rw [established]
      decide
    · exact ⟨a, edge, fun p member => absurd member not_mem_nil⟩
    · exact List.Pairwise.nil
    · exact ⟨[], (append_nil _).symm, rfl⟩
  have inv : AnnounceInv start base n₀ s :=
    run.invariant initial fun _ _ _ inv _ step => step.inv edge.rcvNxt inv
  obtain ⟨new, sent, same⟩ := inv.sent
  refine ⟨inv.sorted, ?_, ?_⟩
  · rw [sent, drop_left, same]
  · apply inv.sorted.isChain.imp
    intro before after order near
    exact (seqGeq_place start.rcvNxt (by omega) near).mpr order

/-- The connection after an event that succeeds. -/
def TcpAnnouncer.after (s : TcpAnnouncer) (event : TcpEvent) : TcpAnnouncer :=
  { pcb := tcpNext s.pcb event
    received := s.received + ((tcpNext s.pcb event).rcvNxt - s.pcb.rcvNxt).toNat
    edges := s.edges ++ ((tcpNext s.pcb event).sent.drop s.pcb.sent.length).map
      (announcedEdge s.received s.pcb.rcvNxt) }

theorem announceStep_after {s : TcpAnnouncer} (enabled : event.enabled s.pcb)
    (succeeds : tcpSucceeds s.pcb event = true) : AnnounceStep s event (s.after event) :=
  ⟨tcpStep_next enabled succeeds, rfl, rfl⟩

/-- A connection that has just been established. -/
def establishedPcb : TcpPcb :=
  (tcpEvents (tcpAlloc 0) (threeBytesSent.take 2)).getD (tcpAlloc 0)

/-- The connection answers the `SYN`, receives two bytes and acknowledges them. -/
def twoBytesAcked : TcpAnnouncer :=
  (((⟨establishedPcb, 0, []⟩ : TcpAnnouncer).after (.output (plainEnv []))).after
    (dataEvent 501 [1, 2] false)).after (.keepalive (plainEnv []))

/-- The theorem at two headers that announce the same right edge, the window being the smaller by
what was received. -/
theorem tcp_window_never_shrinks_twoBytes :
    Run AnnounceStep (fun _ _ => True) ⟨establishedPcb, 0, []⟩ twoBytesAcked ∧
      twoBytesAcked.edges = [8096, 8096] ∧ twoBytesAcked.edges.Pairwise (· ≤ ·) := by
  have opening : tcpEvents (tcpAlloc 0) (threeBytesSent.take 2) = some establishedPcb := by
    have returns : (tcpEvents (tcpAlloc 0) (threeBytesSent.take 2)).isSome = true := by
      decide +kernel
    unfold establishedPcb
    cases given : tcpEvents (tcpAlloc 0) (threeBytesSent.take 2) with
    | none =>
      rw [given] at returns
      cases returns
    | some pcb => rfl
  have run : Run AnnounceStep (fun _ _ => True) ⟨establishedPcb, 0, []⟩ twoBytesAcked :=
    ((Run.refl.tail _ trivial (announceStep_after (by decide +kernel) (by decide +kernel))).tail _
      trivial (announceStep_after (by decide +kernel) (by decide +kernel))).tail _ trivial
      (announceStep_after (by decide +kernel) (by decide +kernel))
  exact ⟨run, by decide +kernel, (tcp_window_never_shrinks (tcpAlloc 0) establishedPcb twoBytesAcked
    (Or.inl ⟨0, rfl⟩) (run_tcpEvents opening) (by decide +kernel) run).1⟩

end Lwip
