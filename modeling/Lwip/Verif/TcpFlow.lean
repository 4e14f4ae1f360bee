import Lwip.Verif.TcpOrder

/-!
# Data on its way

What holds of the places of a connection whose queues need not be in order: everything from
`lastack` on is on a queue, whether the connection is opened, sends, or is closed.
-/

namespace Lwip

open Serial Spans List

/-- Everything that is not acknowledged is on its way. -/
structure Flowing (l : Layout) (c : TcpCore) : Prop where
  laid : Laid l c
  /-- No segment that adjoins the others is acknowledged. -/
  live : ∀ x ∈ l.live, l.lastack < x.ends

/-- The moves that keep everything on its way. -/
def flowAdmits (c : TcpCore) : TcpAct → Prop
  | .write => c.LastHighest ∧ seqLeq c.sndNxt c.sndLbb = true
  | .flags => seqLeq c.sndNxt c.sndLbb = true
  | .ack ackno => c.InHalf ackno
  | .peerWindow wnd | .synAck wnd => wnd < 65536
  | _ => True

section Moves

variable {l : Layout} {c c' : TcpCore}

/-- The first of the segments that adjoin is not acknowledged. -/
theorem Flowing.keepsLive (flowing : Flowing l c) : l.KeepsLive := by
  intro gone unsent some' parts _
  right
  have nonempty : l.live ≠ [] := by
    intro none'
    have perm := flowing.laid.parts
    rw [none', flowing.laid.nothing none', Layout.segs, parts] at perm
    have empty := append_eq_nil_iff.mp perm.eq_nil
    exact some' (append_eq_nil_iff.mp empty.2).1
  obtain ⟨x, more, eq⟩ := exists_cons_of_ne_nil nonempty
  have notAcked := flowing.live x (by rw [eq]; exact mem_cons_self)
  rw [eq, dropWhile_cons, if_neg (by simpa using notAcked)]
  exact cons_ne_nil x more

theorem Laid.sndNxt_le (laid : Laid l c) (accounts : Accounts c)
    (before : seqLeq c.sndNxt c.sndLbb = true) : l.sndNxt ≤ l.sndLbb := by
  have bound := laid.sndLbb_le accounts
  have acked := laid.acked
  have high := laid.high
  rw [laid.sndNxt, laid.sndLbb] at before
  exact (seqLeq_place l.base (by omega) (by omega)).mp before

/-- Data is queued. -/
theorem Flowing.live_write {l₁ : Layout} {queue : List Placed} {sndLbb : Nat}
    (flowing : Flowing l c) (next : l.sndNxt ≤ l.sndLbb) (extends' : l.Extended l₁)
    (adjoining : Adjoining Placed.pos Placed.behind l₁.sndLbb queue sndLbb)
    (ends : ∀ x ∈ queue, x.ends = x.behind) :
    ∀ x ∈ (l₁.append queue sndLbb).live, l₁.lastack < x.ends := by
  have acked := flowing.laid.acked
  have grown : l₁.lastack = l.lastack ∧ l.sndLbb ≤ l₁.sndLbb := by
    rcases extends' with same | ⟨_, _, _, extra', _, _, _, _, same⟩
    · rw [same]
      exact ⟨rfl, Nat.le_refl _⟩
    · rw [same]
      exact ⟨rfl, Nat.le_add_right _ _⟩
  intro x member
  rw [grown.1]
  cases mem_append.mp member with
  | inl old =>
    rcases extends' with same | ⟨front, v, live, extra', pbufs', _, isLive, _, same⟩
    · rw [same] at old
      exact flowing.live x old
    rw [same] at old
    cases mem_append.mp old with
    | inl earlier =>
      apply flowing.live
      rw [isLive]
      exact mem_append_left _ earlier
    | inr isLast =>
      have notAcked := flowing.live v (isLive ▸ mem_append_right _ mem_cons_self)
      rw [mem_singleton.mp isLast, v.extend_ends]
      exact Nat.lt_add_right extra' notAcked
  | inr isNew =>
    have inside := adjoining.mem isNew
    have behind := x.pos_lt_behind
    rw [ends x isNew]
    omega

theorem Flowing.live_flags (flowing : Flowing l c) (flags : TcpFlags)
    (either : (flags.fin || flags.syn) = true) (next : l.sndNxt ≤ l.sndLbb) :
    ∀ x ∈ l.live ++ [l.flagsPlaced c flags], l.lastack < x.ends := by
  intro x member
  have acked := flowing.laid.acked
  cases mem_append.mp member with
  | inl old => exact flowing.live x old
  | inr isNew =>
    rw [mem_singleton.mp isNew]
    simp only [Layout.flagsPlaced, Placed.ends, SegKey.tcplen, flagsKey, either, if_true]
    omega

/-- A `FIN` on a segment does not acknowledge it. -/
theorem Flowing.live_fin {v : Placed} {live : List Placed} (flowing : Flowing l c)
    (plain : v.key.fin = false ∧ v.key.syn = false)
    (members : ∀ x ∈ live, x ∈ l.live ∨ (x = v.finish ∧ v ∈ l.live)) :
    ∀ x ∈ live, l.lastack < x.ends := by
  intro x member
  rcases members x member with old | ⟨same, old⟩
  · exact flowing.live x old
  · have notAcked := flowing.live v old
    rw [same, (v.finish_bounds plain).2]
    exact Nat.lt_succ_of_lt notAcked

/-- The segments behind the `SYN` are not acknowledged with it. -/
theorem Flowing.live_synAck {y : Placed} {unacked unsent live : List Placed} (flowing : Flowing l c)
    (accounts : Accounts c) (isLive : l.live = y :: live)
    (laid : Laid { l with
      lastack := l.lastack + 1, low := l.lastack + 1, unacked := unacked, unsent := unsent
      stale := [], live := live } c') : ∀ x ∈ live, l.lastack + 1 < x.ends := by
  intro x member
  have inside : x ∈ l.segs := by
    apply flowing.laid.parts.symm.subset
    rw [isLive]
    exact mem_append_right _ (mem_cons_of_mem y member)
  have bounds := flowing.laid.ends_bounds accounts inside
  have first : l.lastack + 1 ≤ x.pos := (laid.adjoining.mem member).1
  omega

/-- Every move that is admitted keeps everything on its way. -/
theorem flowing_move (c : TcpCore) (act : TcpAct) (c' : TcpCore) (accounts : Accounts c)
    (before : ∃ l, Flowing l c) (meets : flowAdmits c act) (kept : act ≠ .purge)
    (move : TcpMove c act c') : ∃ l, Flowing l c' := by
  obtain ⟨l, flowing⟩ := before
  have admitted : laidAdmits c act := by
    cases act with
    | write => exact meets.1
    | flags => trivial
    | _ => exact meets
  obtain ⟨l', moved, laid⟩ := flowing.laid.move accounts flowing.keepsLive admitted kept move
  refine ⟨l', laid, ?_⟩
  cases moved with
  | ackFresh ackno a => exact (flowing.laid.live_dropWhile accounts a).1
  | ackOld ackno gone unsent _ _ _ => exact (flowing.laid.live_dropWhile accounts l.lastack).1
  | write l₁ c₁ queue sndLbb extends' _ adjoining ends =>
    exact flowing.live_write (flowing.laid.sndNxt_le accounts meets.2) extends' adjoining ends
  | flags flags either =>
    exact flowing.live_flags flags either (flowing.laid.sndNxt_le accounts meets)
  | fin front v stale live _ plain _ members => exact flowing.live_fin plain members
  | synAck wnd y unacked unsent live _ isLive => exact flowing.live_synAck accounts isLive laid
  | connectFails iss => exact fun _ member => absurd member not_mem_nil
  | connect iss =>
    intro x member
    rw [mem_singleton.mp member]
    exact Nat.one_pos
  | _ => exact flowing.live

end Moves

end Lwip
