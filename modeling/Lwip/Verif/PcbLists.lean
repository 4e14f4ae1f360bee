import Lwip.Core.PcbLists

/-!
# Free ports and victims

The search for a local port tries every port of the range once before it gives up. The search for a
connection to abort lowers the priority that it looks for with each candidate, so that what it finds
is the oldest connection of the priorities up to its own, and depends on the order of the list.
-/

namespace Lwip

/-! ## Local ports -/

/-- A port of the local range. -/
def LocalPort (port : Nat) : Prop := localPortRangeStart ≤ port ∧ port ≤ localPortRangeEnd

/-- The place of the counter in the range behind a number of steps. -/
theorem nextPort_iterate {port : Nat} (inside : LocalPort port) (k : Nat) :
    nextPort^[k] port = localPortRangeStart + (port - localPortRangeStart + k) % 16384 := by
  unfold LocalPort localPortRangeStart localPortRangeEnd at *
  induction k with
  | zero =>
    rw [Function.iterate_zero_apply]
    omega
  | succ k ih =>
    rw [Function.iterate_succ_apply', ih]
    unfold nextPort u16 localPortRangeStart localPortRangeEnd
    split <;> omega

/-- The counter stays in the range. -/
theorem LocalPort.next {port : Nat} (inside : LocalPort port) : LocalPort (nextPort port) := by
  rw [← Function.iterate_one nextPort, nextPort_iterate inside]
  unfold LocalPort localPortRangeStart localPortRangeEnd
  omega

theorem nextPort_covers {port p : Nat} (inside : LocalPort port) (range : LocalPort p) :
    ∃ k < 16384, nextPort^[k + 1] port = p := by
  refine ⟨(p + 16383 - port) % 16384, Nat.mod_lt _ (by decide), ?_⟩
  rw [nextPort_iterate inside]
  unfold LocalPort localPortRangeStart localPortRangeEnd at *
  omega

theorem any_ports_iff {lists : List (List Nat)} {port : Nat} :
    (lists.any fun pcbs => pcbs.any fun localPort => localPort = port) = true ↔
      port ∈ lists.flatten := by
  simp

/-- The search returns a port that is free, or the ports that it tries are all in use. -/
theorem newPort_spec {lists : List (List Nat)} {n port : Nat} (inside : LocalPort port) :
    LocalPort (newPort lists n port).2 ∧
      ((LocalPort (newPort lists n port).1 ∧ (newPort lists n port).1 ∉ lists.flatten) ∨
        (newPort lists n port).1 = 0 ∧ ∀ k < 16384 - n, nextPort^[k + 1] port ∈ lists.flatten) := by
  fun_induction newPort lists n port with
  | case1 n port port' used last =>
    refine ⟨inside.next, .inr ⟨rfl, fun k few => ?_⟩⟩
    have only : k = 0 := by
      unfold localPortRangeStart localPortRangeEnd at last
      omega
    rw [only]
    exact any_ports_iff.1 used
  | case2 n port port' used more ih =>
    obtain ⟨counter, found⟩ := ih inside.next
    refine ⟨counter, found.imp_right fun nothing => ⟨nothing.1, fun k few => ?_⟩⟩
    cases k with
    | zero => exact any_ports_iff.1 used
    | succ k =>
      rw [Function.iterate_succ_apply]
      exact nothing.2 k (by omega)
  | case3 n port port' free =>
    exact ⟨inside.next, .inl ⟨inside.next, fun used => free (any_ports_iff.2 used)⟩⟩

/-- The return value of a search for a port that no control block uses. -/
structure FindsPort (used : List Nat) (port : Nat) : Prop where
  free : port ≠ 0 → LocalPort port ∧ port ∉ used
  exhausted : port = 0 ↔ ∀ p, LocalPort p → p ∈ used

theorem newPort_finds {lists : List (List Nat)} {port : Nat} (inside : LocalPort port) :
    FindsPort lists.flatten (newPort lists 0 port).1 := by
  rcases (@newPort_spec lists 0 port inside).2 with ⟨range, free⟩ | ⟨zero, used⟩
  · have some' : (newPort lists 0 port).1 ≠ 0 := by
      unfold LocalPort localPortRangeStart at range
      omega
    exact ⟨fun _ => ⟨range, free⟩, fun zero => absurd zero some',
      fun all => absurd (all _ range) free⟩
  · refine ⟨fun some' => absurd zero some', fun _ p range => ?_, fun _ => zero⟩
    obtain ⟨k, few, same⟩ := nextPort_covers inside range
    rw [← same]
    exact used k few

/-- `tcp_new_port` and `udp_new_port` return a port of the range that is free on every list, and
zero exactly if there is none; the counters stay in the range. -/
theorem newPort_free (listenPcbs boundPcbs activePcbs twPcbs udpPcbs : List Nat)
    (tcpPort udpPort : Nat) (tcp : LocalPort tcpPort) (udp : LocalPort udpPort) :
    FindsPort (listenPcbs ++ boundPcbs ++ activePcbs ++ twPcbs)
        (tcpNewPort listenPcbs boundPcbs activePcbs twPcbs tcpPort).1 ∧
      LocalPort (tcpNewPort listenPcbs boundPcbs activePcbs twPcbs tcpPort).2 ∧
      FindsPort udpPcbs (udpNewPort udpPcbs udpPort).1 ∧
      LocalPort (udpNewPort udpPcbs udpPort).2 := by
  refine ⟨?_, (newPort_spec tcp).1, ?_, (newPort_spec udp).1⟩
  · have finds := @newPort_finds [listenPcbs, boundPcbs, activePcbs, twPcbs] tcpPort tcp
    simp only [List.flatten_cons, List.flatten_nil, List.append_nil] at finds
    rw [List.append_assoc, List.append_assoc]
    exact finds
  · have finds := @newPort_finds [udpPcbs] udpPort udp
    rwa [List.flatten_cons, List.flatten_nil, List.append_nil] at finds

/-- The theorem at the end of the range, with the first port of the range in use. -/
theorem newPort_free_wrapped :
    FindsPort ([] ++ [0xc000] ++ [] ++ []) (tcpNewPort [] [0xc000] [] [] 0xffff).1 ∧
      FindsPort [0xc000] (udpNewPort [0xc000] 0xffff).1 :=
  have both := newPort_free [] [0xc000] [] [] [0xc000] 0xffff 0xffff ⟨by decide, by decide⟩
    ⟨by decide, by decide⟩
  ⟨both.1, both.2.2.1⟩

/-! ## Priorities -/

section Victims

variable {ticks : UInt32} {prio : Nat} {activePcbs : List PrioPcb}

/-- The loop ends with the oldest control block of the priorities up to its own. -/
theorem tcpKillPrio_loop {l l' : KillLocals}
    (done : activePcbs.foldl (tcpKillPrioPass ticks) l = l') :
    l'.mprio ≤ l.mprio ∧ l.inactivity ≤ l'.inactivity ∧
      (∀ x ∈ activePcbs, x.prio ≤ l'.mprio → x.inactivity ticks ≤ l'.inactivity) ∧
      ((l' = l ∧ ∀ x ∈ activePcbs, x.prio ≤ l.mprio → x.inactivity ticks < l.inactivity) ∨
        ∃ k ∈ activePcbs, l' = ⟨k.prio, k.inactivity ticks, some k⟩) := by
  induction activePcbs generalizing l with
  | nil => simp_all
  | cons y rest ih =>
    rw [List.foldl_cons, tcpKillPrioPass] at done
    split at done
    · rename_i taken
      obtain ⟨lower, older, oldest, found⟩ := ih done
      dsimp only at lower older found
      refine ⟨by omega, by omega, List.forall_mem_cons.2 ⟨fun _ => older, oldest⟩, .inr ?_⟩
      rcases found with ⟨last, _⟩ | ⟨k, behind, last⟩
      · exact ⟨y, List.mem_cons_self, last⟩
      · exact ⟨k, List.mem_cons_of_mem y behind, last⟩
    · rename_i passed
      obtain ⟨lower, older, oldest, found⟩ := ih done
      refine ⟨lower, older, List.forall_mem_cons.2 ⟨fun _ => by omega, oldest⟩, ?_⟩
      rcases found with ⟨same, younger⟩ | ⟨k, behind, last⟩
      · exact .inl ⟨same, List.forall_mem_cons.2 ⟨fun _ => by omega, younger⟩⟩
      · exact .inr ⟨k, List.mem_cons_of_mem y behind, last⟩

/-- What `tcp_kill_prio` aborts: the oldest connection of the priorities up to its own, which is not
above that of the first one in the list that may be aborted. -/
theorem tcpKillPrio_spec :
    (tcpKillPrio ticks prio activePcbs = none ∧
        ∀ x ∈ activePcbs, min tcpPrioMax prio < x.prio) ∨
      ∃ k ∈ activePcbs, tcpKillPrio ticks prio activePcbs = some k ∧
        k.prio ≤ min tcpPrioMax prio ∧
        (∀ x ∈ activePcbs, x.prio ≤ k.prio → x.inactivity ticks ≤ k.inactivity ticks) ∧
        ∀ y ∈ activePcbs.head?, y.prio ≤ min tcpPrioMax prio → k.prio ≤ y.prio := by
  unfold tcpKillPrio
  generalize done : activePcbs.foldl _ _ = l'
  obtain ⟨lower, _, oldest, ⟨rfl, younger⟩ | ⟨k, listed, rfl⟩⟩ := tcpKillPrio_loop done
  · refine .inl ⟨rfl, fun x member => Nat.not_le.1 fun low => ?_⟩
    exact Nat.not_lt_zero _ (younger x member low)
  · refine .inr ⟨k, listed, rfl, lower, oldest, fun y first low => ?_⟩
    obtain ⟨rest, rfl⟩ := List.head?_eq_some_iff.1 first
    rw [List.foldl_cons, tcpKillPrioPass, if_pos ⟨low, Nat.zero_le _⟩] at done
    exact (tcpKillPrio_loop done).1

/-- An oldest connection among those that may be aborted, if there is one. -/
def KillsOldest (ticks : UInt32) (prio : Nat) (activePcbs : List PrioPcb) : Option PrioPcb → Prop
  | none => ∀ x ∈ activePcbs, prio < x.prio
  | some k => k ∈ activePcbs ∧ k.prio ≤ prio ∧
      ∀ x ∈ activePcbs, x.prio ≤ prio → x.inactivity ticks ≤ k.inactivity ticks

/-- `tcp_kill_prio` aborts an oldest connection in every order of the list exactly if one of them
has the lowest priority of those that may be aborted, and a priority up to `TCP_PRIO_MAX`. -/
theorem tcpKillPrio_oldest_iff (ticks : UInt32) (prio : Nat) (activePcbs : List PrioPcb) :
    (∀ order, order.Perm activePcbs →
        KillsOldest ticks prio activePcbs (tcpKillPrio ticks prio order)) ↔
      ∀ y ∈ activePcbs, y.prio ≤ prio → ∃ x ∈ activePcbs, x.prio ≤ tcpPrioMax ∧ x.prio ≤ y.prio ∧
        ∀ z ∈ activePcbs, z.prio ≤ prio → z.inactivity ticks ≤ x.inactivity ticks := by
  constructor
  · intro all y member low
    have kills := all _ (List.perm_cons_erase member).symm
    rcases @tcpKillPrio_spec ticks prio (y :: activePcbs.erase y) with
      ⟨none, _⟩ | ⟨k, _, some, bound, _, first⟩
    · rw [none] at kills
      exact absurd low (Nat.not_le.2 (kills y member))
    · rw [some] at kills
      have below := first y rfl
      exact ⟨k, kills.1, by omega, by omega, kills.2.2⟩
  · intro lowest order perm
    rcases @tcpKillPrio_spec ticks prio order with
      ⟨none, high⟩ | ⟨k, listed, some, bound, oldest, _⟩
    · rw [none]
      refine fun x member => Nat.not_le.1 fun low => ?_
      obtain ⟨k, listed, few, below, _⟩ := lowest x member low
      have := high k (perm.mem_iff.2 listed)
      omega
    · rw [some]
      have member := perm.mem_iff.1 listed
      refine ⟨member, by omega, fun z other low => ?_⟩
      obtain ⟨x, known, _, below, top⟩ := lowest k member (by omega)
      exact Nat.le_trans (top z other low) (oldest x (perm.mem_iff.2 known) below)

/-- A connection of a low priority is aborted although another one is older, if it comes first in
the list; a connection with a priority above `TCP_PRIO_MAX` is never aborted. -/
theorem tcpKillPrio_kills_younger :
    tcpKillPrio 10 64 [⟨1, 5⟩, ⟨64, 0⟩] = some ⟨1, 5⟩ ∧
      ¬KillsOldest 10 64 [⟨1, 5⟩, ⟨64, 0⟩] (some ⟨1, 5⟩) ∧
      tcpKillPrio 10 64 [⟨64, 0⟩, ⟨1, 5⟩] = some ⟨64, 0⟩ ∧
      tcpKillPrio 10 200 [⟨150, 0⟩] = none ∧ ¬KillsOldest 10 200 [⟨150, 0⟩] none := by
  refine ⟨by decide, fun kills => ?_, by decide, by decide, fun none => ?_⟩
  · exact absurd (kills.2.2 ⟨64, 0⟩ (by decide) (by decide)) (by decide)
  · exact absurd (none ⟨150, 0⟩ (by decide)) (by decide)

end Victims

end Lwip
