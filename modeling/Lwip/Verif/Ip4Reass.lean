import Lwip.Verif.ReassList

/-!
# Reassembly over whole runs

All datagrams in the queue are sound and incomplete, and the pbufs of their fragments are
counted. Arrivals of fragments that fit and ticks of the timer keep this, whatever is evicted
or times out on the way, and no assertion fails. So a datagram is returned exactly when the
fragments queued for it are complete, and it is the one the fragments make up.
-/

namespace Lwip

open List

variable {s : IpReass} {p : Chain}

/-! ## The invariant -/

/-- A datagram in the queue. -/
structure DatagramSound (ipr : IpReassdata) : Prop where
  header : ipr.iphdr.length = 20
  nonempty : ipr.p ≠ []
  queue : QueueSound ipr.p ipr.lastfrag ipr.datagramLen
  incomplete : ¬QueueDone ipr.p ipr.lastfrag ipr.datagramLen

/-- Sound datagrams can be freed. -/
theorem releasable_datagramSound : Releasable DatagramSound where
  nonempty _ sound := sound.nonempty
  free _ sound f member := (sound.queue.helpers f member).valid.pbufFree_ok
  timer _ _ sound := ⟨sound.header, sound.nonempty, sound.queue, sound.incomplete⟩

/-! ## Finding the datagram -/

/-- A new datagram has no fragments and nothing is known of its end. -/
theorem newDatagram_sound : QueueSound [] false 0 ∧ ¬QueueDone [] false 0 := by
  refine ⟨⟨by simp, List.Pairwise.nil, ?_, by simp, by simp, by simp, by simp⟩, ?_⟩
  · intro x member
    cases member
  · intro done
    cases done.1

theorem ValidFragment.length_fraghdr (valid : ValidFragment p) : (fraghdrOf p).length = 20 := by
  obtain ⟨size, header⟩ := valid.length_bytes
  simp only [ipHlen] at header
  rw [fraghdrOf_eq valid.denotes valid.header, length_take]
  omega

/-- The datagram that a valid fragment is to be queued in is sound and incomplete. -/
theorem HasPlace.sound {ptr : ReassdataPtr} (place : HasPlace DatagramSound p s ptr)
    (valid : ValidFragment p) :
    ptr.ipr.iphdr.length = 20 ∧ QueueSound ptr.ipr.p ptr.ipr.lastfrag ptr.ipr.datagramLen ∧
      ¬QueueDone ptr.ipr.p ptr.ipr.lastfrag ptr.ipr.datagramLen := by
  cases place.origin with
  | inl fresh =>
    rw [fresh.1]
    exact ⟨valid.length_fraghdr, newDatagram_sound⟩
  | inr listed =>
    obtain ⟨old, datagram, same, _⟩ := listed
    rw [same]
    refine ⟨?_, datagram.queue, datagram.incomplete⟩
    dsimp only [withFirstHeader]
    split
    · exact valid.length_fraghdr
    · exact datagram.header

/-! ## Arrivals -/

/-- The fragments that are queued for the datagram of `p` right after `p` was queued or
dropped. -/
def queuedAfter (p : Chain) (s : IpReass) : Asserting (List Chain) := do
  let (datagram, s) ← (ip4ReassDatagram p s).erase
  match datagram with
  | none =>
    .ok (((datagramOf (fraghdrOf p) s).map fun ipr => ipr.p.map IpReassHelper.p).getD [])
  | some ptr => do
    let (_, ipr, _) ← (ip4ReassChain p ptr.ipr s.pbufcount).erase
    .ok (ipr.p.map IpReassHelper.p)

/-- The arrival of `p` returns a datagram exactly when the fragments queued for it are complete,
and then the one they make up. -/
def ReassMeets (s : IpReass) (p : Chain) : Prop :=
  ∃ result s' queued, (ip4Reass p s).erase = .ok (result, s') ∧ queuedAfter p s = .ok queued ∧
    (result ≠ none ↔ ∃ n, CompleteTo queued n) ∧
    ∀ c ∈ result, ∀ n, CompleteTo queued n → Reassembled queued n c

theorem u16_queuedLength (queue : List IpReassHelper) :
    u16 (queuedLength queue) = u16 (queuedPbufs queue) := by
  induction queue with
  | nil => rfl
  | cons f rest ih =>
    simp only [queuedLength, queuedPbufs, pbufClen, u16, map_cons, sum_cons] at ih ⊢
    omega

/-- An arrival that fits keeps the invariant and does what it should. -/
theorem ip4Reass_arrival (counted : Counted DatagramSound s) (valid : ValidFragment p)
    (fits : ∀ ptr s', (ip4ReassDatagram p s).erase = .ok (some ptr, s') → Fits ptr.ipr p) :
    ReassMeets s p ∧
      ∀ result s', (ip4Reass p s).erase = .ok (result, s') → Counted DatagramSound s' := by
  obtain ⟨datagram, s₁, found, evicted, places⟩ :=
    ip4ReassDatagram_counted releasable_datagramSound p counted
  unfold ReassMeets ip4Reass queuedAfter
  rw [Logged.erase_bind, found, ok_bind]
  cases datagram with
  | none =>
    obtain ⟨freed, free⟩ := valid.pbufFree_ok
    simp only [Logged.erase_bind, Freeing.erase_pbufFree, free, ok_bind, Logged.erase_pure]
    refine ⟨⟨none, s₁, _, rfl, rfl, ⟨by simp, ?_⟩, by simp⟩, ?_⟩
    · rintro ⟨n, complete⟩
      exfalso
      cases queued : datagramOf (fraghdrOf p) s₁ with
      | none =>
        rw [queued] at complete
        simp [CompleteTo] at complete
      | some ipr =>
        have datagram := evicted.counted.datagrams ipr (mem_of_find?_eq_some queued)
        rw [queued] at complete
        exact datagram.incomplete (datagram.queue.complete_iff.mp ⟨n, complete⟩)
    · intro result s' done
      cases done
      exact evicted.counted
  | some ptr =>
    have place := places ptr rfl
    obtain ⟨size, before, incomplete⟩ := place.sound valid
    have room := place.room
    have count := place.count
    simp only [ipReassMaxPbufs] at room
    obtain ⟨v, ipr, pbufcount, chained, queue, done, header, nonempty, counted, most⟩ :=
      ip4ReassChain_spec before incomplete valid (fits ptr s₁ found)
        (show s₁.pbufcount + pbufClen p < 65536 by omega)
    have whole : ipr.iphdr.length = 20 := by rw [header, size]
    simp only [Logged.erase_bind, chained, ok_bind]
    cases v with
    | true =>
      obtain ⟨c, delivered, reassembled, pbufs⟩ := ip4ReassComplete_spec queue (done.mp rfl) whole
      simp only [↓reduceIte, Logged.erase_bind, Logged.erase_lift, delivered, ok_bind,
        Logged.erase_pure]
      refine ⟨⟨some c, _, _, rfl, rfl, ?_, ?_⟩, ?_⟩
      · exact ⟨fun _ => queue.complete_iff.mpr (done.mp rfl), by simp⟩
      · intro c' same n complete
        cases same
        rw [(queue.completeTo complete).2]
        exact reassembled
      · intro result s' returned
        cases returned
        have clen : pbufClen c = queuedPbufs ipr.p := by
          rw [pbufClen, pbufs, u16_queuedLength, u16_of_lt (by omega)]
        have left : toU16 ((pbufcount : Int) - pbufClen c) =
            totalPbufs (ptr.before ++ ptr.behind) := by
          rw [toU16_of_range (by omega) (by omega)]
          omega
        refine ⟨place.others, left, ?_⟩
        simp only [ipReassMaxPbufs]
        omega
    | false =>
      have open' : ¬QueueDone ipr.p ipr.lastfrag ipr.datagramLen := by simpa using done
      refine ⟨⟨none, _, _, rfl, rfl, ⟨by simp, ?_⟩, by simp⟩, ?_⟩
      · intro complete
        exact absurd (queue.complete_iff.mp complete) open'
      intro result s' returned
      cases returned
      refine ⟨?_, ?_, ?_⟩
      · intro other member
        simp only [mem_append, mem_cons] at member
        rcases member with left | rfl | right
        · exact place.others other (mem_append_left _ left)
        · exact ⟨whole, nonempty, queue, open'⟩
        · exact place.others other (mem_append_right _ right)
      · dsimp only
        rw [totalPbufs_split]
        omega
      · dsimp only [ipReassMaxPbufs]
        omega

/-! ## Runs -/

/-- What happens to the reassembly. -/
inductive ReassEvent where
  | arrival (p : Chain)
  | tick

/-- Fragments arrive in any order, with ticks in between. -/
def ReassStep (s : IpReass) : ReassEvent → IpReass → Prop
  | .arrival p, s' => ValidFragment p ∧ ∃ result, (ip4Reass p s).erase = .ok (result, s')
  | .tick, s' => (ipReassTmr s).erase = .ok s'

/-- A fragment that gets to the queue of its datagram fits there. -/
def ReassGuard (s : IpReass) : ReassEvent → Prop
  | .arrival p => ∀ ptr s', (ip4ReassDatagram p s).erase = .ok (some ptr, s') → Fits ptr.ipr p
  | .tick => True

/-- Nothing is queued. -/
def IpReass.init : IpReass := { reassdatagrams := [], pbufcount := 0 }

/-- Every state of a run in which all fragments fit is sound. -/
theorem reassRun_sound (run : Transition.Run ReassStep ReassGuard IpReass.init s) :
    Counted DatagramSound s := by
  apply run.invariant
  · exact ⟨by simp [IpReass.init], rfl, Nat.zero_le _⟩
  intro s event s' counted meets step
  cases event with
  | arrival p =>
    obtain ⟨valid, result, done⟩ := step
    exact (ip4Reass_arrival counted valid meets).2 result s' done
  | tick =>
    obtain ⟨after, done, kept⟩ := ipReassTmr_counted releasable_datagramSound counted
    rw [show (ipReassTmr s).erase = .ok s' from step] at done
    cases done
    exact kept

/-- After any run in which all fragments fit, the arrival of a fragment that fits returns a
datagram exactly when the fragments queued for it are complete, and it is the one they make
up. -/
theorem ip4Reass_run_meets (s : IpReass) (p : Chain)
    (run : Transition.Run ReassStep ReassGuard IpReass.init s) (valid : ValidFragment p)
    (fits : ReassGuard s (.arrival p)) : ReassMeets s p :=
  (ip4Reass_arrival (reassRun_sound run) valid fits).1

/-- A fragment of 8 bytes in one pbuf, with the given flags and offset. -/
def eightBytes (flagsOffset : Nat) : Chain :=
  [pbufRam 0 (iphOffsetSet (iphLenSet plainHeader 28) flagsOffset ++ List.replicate 8 7)]

/-- The first, third and fourth fragment of 8 bytes are valid. -/
theorem eightBytes_valid :
    ValidFragment (eightBytes 0x2000) ∧ ValidFragment (eightBytes 1) ∧
      ValidFragment (eightBytes 0x2002) ∧ ValidFragment (eightBytes 3) := by
  refine ⟨?_, ?_, ?_, ?_⟩
  all_goals
    refine ⟨Denotes.single rfl (by decide) rfl (by decide), ?_, by decide, by decide, by decide, ?_⟩
    · intro q first
      cases first
      decide
    · intro q member
      cases mem_singleton.mp member
      decide

/-- The state with the given fragments queued for one datagram. -/
def queuedState (fragments : List Chain) (lastfrag : Bool) (datagramLen : Nat) : IpReass :=
  { reassdatagrams :=
      [{ p := fragments.map helperOf, iphdr := fraghdrOf (eightBytes 0x2000), datagramLen, lastfrag
         timer := ipReassMaxage }]
    pbufcount := fragments.length }

/-- The first fragment fits an empty queue. -/
theorem firstFragment_fits : ReassGuard IpReass.init (.arrival (eightBytes 0x2000)) := by
  intro ptr s' found
  have made : (ip4ReassDatagram (eightBytes 0x2000) IpReass.init).erase =
      .ok (some ⟨[], ⟨[], fraghdrOf (eightBytes 0x2000), 0, false, 3⟩, []⟩, IpReass.init) := by
    decide +kernel
  cases found
  have more : MoreFragments (fraghdrOf (eightBytes 0x2000)) := by decide
  refine ⟨by decide, fun last => absurd more last, by simp, by simp, fun _ last => absurd more last,
    by simp, ?_⟩
  rintro _ ⟨_, front, back, m, n, empty, some, _⟩
  exact some (append_eq_nil_iff.mp empty.symm).1

theorem firstFragment_run : Transition.Run ReassStep ReassGuard IpReass.init
    (queuedState [eightBytes 0x2000] false 0) :=
  Transition.Run.refl.tail (.arrival (eightBytes 0x2000)) firstFragment_fits
    ⟨eightBytes_valid.1, none, by decide +kernel⟩

theorem lastFragment_fits {flagsOffset : Nat}
    (size : fragmentStop (eightBytes flagsOffset) ≤ 65515)
    (behind : 8 ≤ fragmentStart (eightBytes flagsOffset))
    (found : (ip4ReassDatagram (eightBytes flagsOffset)
        (queuedState [eightBytes 0x2000] false 0)).erase =
      .ok (some ⟨[], ⟨[helperOf (eightBytes 0x2000)], fraghdrOf (eightBytes 0x2000), 0, false, 3⟩,
        []⟩, queuedState [eightBytes 0x2000] false 0)) :
    ReassGuard (queuedState [eightBytes 0x2000] false 0) (.arrival (eightBytes flagsOffset)) := by
  intro ptr s' same
  rw [found] at same
  cases same
  have first : (helperOf (eightBytes 0x2000)).start = 0 := by decide
  have second : (helperOf (eightBytes 0x2000)).stop = 8 := by decide
  have ordered : fragmentStart (eightBytes flagsOffset) ≤ fragmentStop (eightBytes flagsOffset) :=
    Nat.le_add_right _ _
  refine ⟨by omega, fun _ => size, by simp, by simp, fun _ _ => ⟨⟨?_, ?_⟩, ?_⟩, ?_, ?_⟩
  · simp only [mem_singleton, forall_eq, first, second]
    omega
  · simp only [mem_singleton, forall_eq, first]
    omega
  · simp only [mem_singleton, forall_eq, second]
    omega
  · simp only [mem_singleton, forall_eq, first, second]
    omega
  · rintro _ ⟨_, front, back, m, n, whole, some, other, _⟩
    have length := congrArg List.length whole
    have left := length_pos_iff.mpr some
    have right := length_pos_iff.mpr other
    simp only [length_singleton, length_append] at length
    omega

/-- Two fragments that make up a datagram. -/
theorem ip4Reass_run_meets_two :
    Transition.Run ReassStep ReassGuard IpReass.init (queuedState [eightBytes 0x2000] false 0) ∧
      ReassMeets (queuedState [eightBytes 0x2000] false 0) (eightBytes 1) :=
  ⟨firstFragment_run, ip4Reass_run_meets _ _ firstFragment_run eightBytes_valid.2.1
    (lastFragment_fits (by decide) (by decide) (by decide +kernel))⟩

/-- Behind the first and the fourth fragment, which is the last one, the third fragment arrives:
the datagram is returned without the second. -/
theorem ip4Reass_misses_hole :
    Transition.Run ReassStep ReassGuard IpReass.init
        (queuedState [eightBytes 0x2000, eightBytes 3] true 32) ∧
      ValidFragment (eightBytes 0x2002) ∧
      (∃ c s', (ip4Reass (eightBytes 0x2002)
        (queuedState [eightBytes 0x2000, eightBytes 3] true 32)).erase = .ok (some c, s') ∧
          c.totLen = 44 ∧ iphLen (fraghdrOf c) = 52) ∧
      ¬ReassMeets (queuedState [eightBytes 0x2000, eightBytes 3] true 32) (eightBytes 0x2002) := by
  have run : Transition.Run ReassStep ReassGuard IpReass.init
      (queuedState [eightBytes 0x2000, eightBytes 3] true 32) :=
    firstFragment_run.tail (.arrival (eightBytes 3))
      (lastFragment_fits (by decide) (by decide) (by decide +kernel))
      ⟨eightBytes_valid.2.2.2, none, by decide +kernel⟩
  have returned : ∃ c s', (ip4Reass (eightBytes 0x2002)
      (queuedState [eightBytes 0x2000, eightBytes 3] true 32)).erase = .ok (some c, s') ∧
        c.totLen = 44 ∧ iphLen (fraghdrOf c) = 52 := by
    have checked : (ip4Reass (eightBytes 0x2002)
        (queuedState [eightBytes 0x2000, eightBytes 3] true 32)).erase.map
          (fun result => result.1.map fun c => (c.totLen, iphLen (fraghdrOf c))) =
            .ok (some (44, 52)) := by decide +kernel
    cases done : (ip4Reass (eightBytes 0x2002)
        (queuedState [eightBytes 0x2000, eightBytes 3] true 32)).erase with
    | error message =>
      rw [done] at checked
      cases checked
    | ok result =>
      rw [done] at checked
      obtain ⟨c, returned, fields⟩ := Option.map_eq_some_iff.mp (Except.ok.inj checked)
      exact ⟨c, result.2, by rw [← returned], Prod.mk.inj fields⟩
  refine ⟨run, eightBytes_valid.2.2.1, returned, ?_⟩
  rintro ⟨result, s', queued, done, after, exactly, _⟩
  obtain ⟨c, s'', same, _⟩ := returned
  rw [same] at done
  cases done
  have chain : queuedAfter (eightBytes 0x2002)
      (queuedState [eightBytes 0x2000, eightBytes 3] true 32) =
        .ok [eightBytes 0x2000, eightBytes 0x2002, eightBytes 3] := by decide +kernel
  rw [chain] at after
  cases after
  obtain ⟨n, ⟨p, member, last, ends⟩, once⟩ := exactly.mp (by simp)
  have length : n = 32 := by
    simp only [mem_cons, not_mem_nil, or_false] at member
    rcases member with rfl | rfl | rfl
    · exact absurd (by decide) last
    · exact absurd (by decide) last
    · rw [← ends]
      decide
  have covered := once 8 (by omega)
  revert covered
  decide

end Lwip
