import Lwip.Verif.ReassQueue

/-!
# The list of datagrams

What `ip4_reass` and `ip_reass_tmr` do to `reassdatagrams` and `ip_reass_pbufcount`, for any
property of the single datagrams that lets their fragments be freed and does not depend on the
timer. The pbufs of all fragments are counted and their number is limited, room is made by freeing
other datagrams than that of the fragment, and no assertion fails on the way.
-/

namespace Lwip

open List

variable {s : IpReass} {fraghdr : List UInt8}

/-! ## The invariant -/

/-- Number of pbufs of all datagrams. -/
def totalPbufs (datagrams : List IpReassdata) : Nat :=
  (datagrams.map fun ipr => queuedPbufs ipr.p).sum

theorem totalPbufs_split (before behind : List IpReassdata) (ipr : IpReassdata) :
    totalPbufs (before ++ ipr :: behind) = totalPbufs (before ++ behind) + queuedPbufs ipr.p := by
  simp only [totalPbufs, map_append, map_cons, sum_append, sum_cons]
  omega

/-- A property of datagrams under which they can be freed, whatever their timers are. -/
structure Releasable (holds : IpReassdata → Prop) : Prop where
  nonempty : ∀ ipr, holds ipr → ipr.p ≠ []
  free : ∀ ipr, holds ipr → ∀ f ∈ ipr.p, ∃ freed, pbufFree f.p = .ok freed
  timer : ∀ ipr timer, holds ipr → holds { ipr with timer := timer }

/-- All datagrams have the property, and their pbufs are counted and limited. -/
structure Counted (holds : IpReassdata → Prop) (s : IpReass) : Prop where
  datagrams : ∀ ipr ∈ s.reassdatagrams, holds ipr
  count : s.pbufcount = totalPbufs s.reassdatagrams
  limit : s.pbufcount ≤ ipReassMaxPbufs

/-- The pointer points into the list. -/
def ReassdataPtr.PointsInto (ptr : ReassdataPtr) (datagrams : List IpReassdata) : Prop :=
  datagrams = ptr.before ++ ptr.ipr :: ptr.behind

/-- The datagram of a fragment. -/
def datagramOf (fraghdr : List UInt8) (s : IpReass) : Option IpReassdata :=
  s.reassdatagrams.find? fun ipr => ipAddressesAndIdMatch ipr.iphdr fraghdr

/-! ## Freeing datagrams -/

/-- All fragments of a queue are freed and counted. -/
theorem ipReassFreePbufs_eq {queue : List IpReassHelper} {pbufsFreed : Nat}
    (free : ∀ f ∈ queue, ∃ freed, pbufFree f.p = .ok freed)
    (limit : pbufsFreed + queuedPbufs queue ≤ 65535) :
    (ipReassFreePbufs pbufsFreed queue).erase = .ok (pbufsFreed + queuedPbufs queue) := by
  induction queue generalizing pbufsFreed with
  | nil => rfl
  | cons f rest ih =>
    have split : queuedPbufs (f :: rest) = pbufClen f.p + queuedPbufs rest := by
      simp only [queuedPbufs, map_cons, sum_cons]
    rw [split] at limit ⊢
    obtain ⟨freed, first⟩ := free f mem_cons_self
    have behind := @ih (pbufsFreed + pbufClen f.p)
      (fun g member => free g (mem_cons_of_mem f member)) (by omega)
    simp only [ipReassFreePbufs, Logged.erase_bind, Logged.erase_lift, Freeing.erase_pbufFree]
    rw [lwipAssert_pos (by omega), ok_bind, first, ok_bind, ok_bind, behind, Nat.add_assoc]

section Lists

variable {holds : IpReassdata → Prop} (releasable : Releasable holds)

include releasable

/-- Freeing a datagram of the list keeps the invariant for the others. -/
theorem ipReassFreeCompleteDatagram_counted {ptr : ReassdataPtr} {s : IpReass}
    (counted : Counted holds s) (points : ptr.PointsInto s.reassdatagrams) :
    ∃ pbufsFreed s', (ipReassFreeCompleteDatagram ptr s.pbufcount).erase = .ok (pbufsFreed, s') ∧
      s'.reassdatagrams = ptr.before ++ ptr.behind ∧ s'.pbufcount ≤ s.pbufcount ∧
      Counted holds s' := by
  have total := counted.count
  have limit := counted.limit
  rw [points, totalPbufs_split] at total
  simp only [ipReassMaxPbufs] at limit
  have datagram := counted.datagrams ptr.ipr (by rw [points]; simp)
  have freed := @ipReassFreePbufs_eq ptr.ipr.p 0 (releasable.free _ datagram) (by omega)
  simp only [ipReassFreeCompleteDatagram, Logged.erase_bind, Logged.erase_lift, Logged.erase_pure]
  rw [lwipAssert_pos (releasable.nonempty _ datagram), ok_bind, freed, ok_bind,
    lwipAssert_pos (by omega)]
  refine ⟨_, _, rfl, rfl, Nat.sub_le _ _, ?_, ?_, ?_⟩
  · intro ipr member
    apply counted.datagrams
    rw [points]
    simp only [mem_append, mem_cons] at member ⊢
    tauto
  · dsimp only
    omega
  · dsimp only [ipReassMaxPbufs]
    omega

/-- The walk of the timer keeps the invariant. -/
theorem ipReassTmrLoop_counted {before rest : List IpReassdata} {pbufcount : Nat}
    (counted : Counted holds ⟨before ++ rest, pbufcount⟩) :
    ∃ s', (ipReassTmrLoop before pbufcount rest).erase = .ok s' ∧ Counted holds s' := by
  induction rest generalizing before pbufcount with
  | nil => exact ⟨_, rfl, by simpa using counted⟩
  | cons r next ih =>
    unfold ipReassTmrLoop
    split
    · apply ih
      have datagrams := counted.datagrams
      have total := counted.count
      refine ⟨?_, ?_, counted.limit⟩
      · intro ipr member
        simp only [append_assoc, singleton_append, mem_append, mem_cons] at member
        rcases member with left | rfl | right
        · exact datagrams ipr (by simp [left])
        · exact releasable.timer r _ (datagrams r (by simp))
        · exact datagrams ipr (by simp [right])
      · simpa [totalPbufs_split] using total
    · obtain ⟨freed, s', free, list, _, kept⟩ :=
        @ipReassFreeCompleteDatagram_counted holds releasable ⟨before, r, next⟩ _ counted rfl
      rw [Logged.erase_bind, free]
      apply ih
      rwa [show s' = ⟨before ++ next, s'.pbufcount⟩ by rw [← list]] at kept

theorem ipReassTmr_counted (counted : Counted holds s) :
    ∃ s', (ipReassTmr s).erase = .ok s' ∧ Counted holds s' :=
  @ipReassTmrLoop_counted holds releasable [] _ _ counted

omit releasable in
/-- The search for the oldest datagram finds another one than that of the fragment, if there is
any. -/
theorem ipReassOldest_spec {before rest whole : List IpReassdata}
    {oldest result : Option ReassdataPtr} {otherDatagrams count : Nat}
    (split : whole = before ++ rest)
    (good : ∀ ptr ∈ oldest, ptr.PointsInto whole ∧ ipAddressesAndIdMatch ptr.ipr.iphdr
      fraghdr = false)
    (counted : oldest = none → otherDatagrams = 0)
    (done : ipReassOldest fraghdr before oldest otherDatagrams rest = (result, count)) :
    (∀ ptr ∈ result, ptr.PointsInto whole ∧
      ipAddressesAndIdMatch ptr.ipr.iphdr fraghdr = false) ∧ (result = none → count = 0) := by
  induction rest generalizing before oldest otherDatagrams with
  | nil =>
    obtain ⟨rfl, rfl⟩ := Prod.mk.inj done
    exact ⟨good, counted⟩
  | cons r next ih =>
    unfold ipReassOldest at done
    have shifted : whole = (before ++ [r]) ++ next := by simpa using split
    split at done
    · rename_i other
      apply ih shifted ?_ ?_ done
      · intro ptr member
        split at member
        · cases member
          exact ⟨split, by simpa using other⟩
        · exact good ptr member
      · intro none
        split at none
        · cases none
        · rename_i younger
          subst none
          simp at younger
    · exact ih shifted good counted done

omit releasable in
/-- Dropping another datagram does not matter for the one of the fragment. -/
theorem datagramOf_drop {s' : IpReass} {ptr : ReassdataPtr}
    (points : ptr.PointsInto s.reassdatagrams)
    (other : ipAddressesAndIdMatch ptr.ipr.iphdr fraghdr = false)
    (dropped : s'.reassdatagrams = ptr.before ++ ptr.behind) :
    datagramOf fraghdr s' = datagramOf fraghdr s := by
  rw [datagramOf, datagramOf, dropped, points, find?_append, find?_append, find?_cons, other]

/-- What freeing old datagrams leaves: the invariant, the datagram of the fragment, and no more
pbufs than before. -/
structure Evicts (holds : IpReassdata → Prop) (fraghdr : List UInt8) (s s' : IpReass) : Prop where
  counted : Counted holds s'
  same : datagramOf fraghdr s' = datagramOf fraghdr s
  fewer : s'.pbufcount ≤ s.pbufcount

omit releasable in
theorem Evicts.refl (counted : Counted holds s) :
    Evicts holds fraghdr s s := ⟨counted, rfl, Nat.le_refl _⟩

omit releasable in
theorem Evicts.trans {s' s'' : IpReass} (first : Evicts holds fraghdr s s')
    (second : Evicts holds fraghdr s' s'') : Evicts holds fraghdr s s'' :=
  ⟨second.counted, second.same.trans first.same, Nat.le_trans second.fewer first.fewer⟩

/-- One round of `ip_reass_remove_oldest_datagram`, as a step on the state. -/
theorem ipReassRemove_round {oldest : Option ReassdataPtr} {otherDatagrams : Nat}
    (counted : Counted holds s)
    (search : ipReassOldest fraghdr [] none 0 s.reassdatagrams = (oldest, otherDatagrams)) :
    ∃ pbufsFreed s', (ipReassFreeOldest oldest s).erase = .ok (pbufsFreed, s') ∧
      Evicts holds fraghdr s s' ∧
      (otherDatagrams > 1 → s'.reassdatagrams.length < s.reassdatagrams.length) := by
  obtain ⟨good, none'⟩ := ipReassOldest_spec (nil_append _).symm (by simp) (fun _ => rfl) search
  cases oldest with
  | none => exact ⟨0, s, rfl, Evicts.refl counted, by simp [none' rfl]⟩
  | some ptr =>
    obtain ⟨points, other⟩ := good ptr rfl
    obtain ⟨freed, s', free, list, fewer, kept⟩ :=
      ipReassFreeCompleteDatagram_counted releasable counted points
    refine ⟨freed, s', free, ⟨kept, datagramOf_drop points other list, fewer⟩, fun _ => ?_⟩
    rw [list, points]
    simp only [length_append, length_cons]
    omega

/-- The rounds of `ip_reass_remove_oldest_datagram` come to an end. -/
theorem ipReassRemoveLoop_counted {pbufsNeeded fuel pbufsFreed : Nat} (counted : Counted holds s)
    (enough : s.reassdatagrams.length < fuel) :
    ∃ freed s', (ipReassRemoveLoop fraghdr pbufsNeeded fuel pbufsFreed s).erase = .ok (freed, s') ∧
      Evicts holds fraghdr s s' := by
  induction fuel generalizing s pbufsFreed with
  | zero => omega
  | succ fuel ih =>
    rcases search : ipReassOldest fraghdr [] none 0 s.reassdatagrams with ⟨oldest, otherDatagrams⟩
    obtain ⟨current, s', round, evicted, progress⟩ := ipReassRemove_round releasable counted search
    unfold ipReassRemoveLoop
    rw [search]
    simp only [Logged.erase_bind, round, ok_bind]
    split
    · rename_i again
      obtain ⟨freed, s'', result, further⟩ :=
        @ih s' (pbufsFreed + current) evicted.counted (by have := progress again.2; omega)
      exact ⟨freed, s'', result, evicted.trans further⟩
    · exact ⟨_, s', rfl, evicted⟩

/-- `ip_reass_remove_oldest_datagram` returns, and evicts other datagrams only. -/
theorem ipReassRemoveOldestDatagram_counted (fraghdr : List UInt8) (pbufsNeeded : Nat)
    (counted : Counted holds s) :
    ∃ freed s', (ipReassRemoveOldestDatagram fraghdr pbufsNeeded s).erase = .ok (freed, s') ∧
      Evicts holds fraghdr s s' :=
  ipReassRemoveLoop_counted releasable counted (Nat.lt_succ_self _)

/-! ## Finding the datagram -/

omit releasable in
theorem ipReassFind_spec (fraghdr : List UInt8) (datagrams : List IpReassdata) :
    (∀ ptr ∈ ipReassFind fraghdr datagrams, ptr.PointsInto datagrams) ∧
      (ipReassFind fraghdr datagrams).map ReassdataPtr.ipr =
        datagrams.find? fun ipr => ipAddressesAndIdMatch ipr.iphdr fraghdr := by
  induction datagrams with
  | nil => simp [ipReassFind]
  | cons ipr next ih =>
    unfold ipReassFind
    split
    · rename_i found
      refine ⟨fun ptr member => ?_, by simp [found]⟩
      cases member
      rfl
    rename_i other
    constructor
    · intro ptr member
      obtain ⟨inner, listed, rfl⟩ := Option.map_eq_some_iff.mp member
      have := ih.1 inner listed
      simp only [ReassdataPtr.PointsInto] at this ⊢
      rw [this, cons_append]
    · rw [Bool.not_eq_true] at other
      rw [find?_cons, other, ← ih.2, Option.map_map]
      rfl

/-- A datagram that has just been enqueued for a fragment. -/
def newReassdata (fraghdr : List UInt8) : IpReassdata :=
  { p := [], iphdr := fraghdr, datagramLen := 0, lastfrag := false, timer := ipReassMaxage }

/-- A datagram with the header of a first fragment, if the fragment is one and the datagram has
none yet. -/
def withFirstHeader (fraghdr : List UInt8) (ipr : IpReassdata) : IpReassdata :=
  { ipr with
    iphdr := if iphOffset fraghdr &&& ipOffmask = 0 ∧ iphOffset ipr.iphdr &&& ipOffmask ≠ 0
      then fraghdr else ipr.iphdr }

/-- The datagram that a fragment is to be queued in, with room for it. -/
structure HasPlace (holds : IpReassdata → Prop) (p : Chain) (s : IpReass) (ptr : ReassdataPtr) :
    Prop where
  /-- It is new, or one of the list. -/
  origin : (ptr.ipr = newReassdata (fraghdrOf p) ∧
      s.reassdatagrams = ptr.before ++ ptr.behind) ∨
    ∃ old, holds old ∧ ptr.ipr = withFirstHeader (fraghdrOf p) old ∧
      s.reassdatagrams = ptr.before ++ old :: ptr.behind
  others : ∀ ipr ∈ ptr.before ++ ptr.behind, holds ipr
  count : s.pbufcount = totalPbufs (ptr.before ++ ptr.behind) + queuedPbufs ptr.ipr.p
  room : s.pbufcount + pbufClen p ≤ ipReassMaxPbufs

/-- The limit on pbufs: other datagrams are evicted, and there is room if the fragment goes
on. -/
theorem ip4ReassRoom_counted {fraghdr : List UInt8} {clen : Nat} {s : IpReass}
    (counted : Counted holds s) :
    ∃ room s', (ip4ReassRoom fraghdr clen s).erase = .ok (room, s') ∧ Evicts holds fraghdr s s' ∧
      (room = true → s'.pbufcount + clen ≤ ipReassMaxPbufs) := by
  unfold ip4ReassRoom
  split
  · obtain ⟨freed, s', result, evicted⟩ :=
      ipReassRemoveOldestDatagram_counted releasable fraghdr clen counted
    rw [Logged.erase_bind, result]
    refine ⟨_, s', rfl, evicted, fun room => ?_⟩
    simp only [decide_eq_true_eq] at room
    exact room.2
  · rename_i below
    exact ⟨true, s, rfl, Evicts.refl counted, fun _ => Nat.le_of_not_lt below⟩

/-- The allocation may evict other datagrams. -/
theorem ipReassMalloc_counted {fraghdr : List UInt8} {clen : Nat} {s : IpReass}
    (counted : Counted holds s) :
    ∃ allocated s', (ipReassMalloc fraghdr clen s).erase = .ok (allocated, s') ∧
      Evicts holds fraghdr s s' := by
  unfold ipReassMalloc
  split
  · exact ⟨true, s, rfl, Evicts.refl counted⟩
  · obtain ⟨freed, s', result, evicted⟩ :=
      ipReassRemoveOldestDatagram_counted releasable fraghdr clen counted
    rw [Logged.erase_bind, result]
    exact ⟨_, s', rfl, evicted⟩

theorem ipReassEnqueueNewDatagram_counted {p : Chain} (counted : Counted holds s)
    (room : s.pbufcount + pbufClen p ≤ ipReassMaxPbufs) :
    ∃ datagram s', (ipReassEnqueueNewDatagram (fraghdrOf p) (pbufClen p) s).erase =
        .ok (datagram, s') ∧
      Evicts holds (fraghdrOf p) s s' ∧ ∀ ptr ∈ datagram, HasPlace holds p s' ptr := by
  obtain ⟨allocated, s', result, evicted⟩ :=
    @ipReassMalloc_counted holds releasable (fraghdrOf p) (pbufClen p) s counted
  unfold ipReassEnqueueNewDatagram
  rw [Logged.erase_bind, result]
  refine ⟨_, s', rfl, evicted, fun ptr member => ?_⟩
  cases allocated with
  | false => cases member
  | true =>
    cases member
    exact ⟨Or.inl ⟨rfl, rfl⟩, evicted.counted.datagrams, evicted.counted.count,
      Nat.le_trans (Nat.add_le_add_right evicted.fewer _) room⟩

/-- The datagram of a fragment is found, made, or the fragment is dropped for lack of room. -/
theorem ip4ReassDatagram_counted (p : Chain) (counted : Counted holds s) :
    ∃ datagram s', (ip4ReassDatagram p s).erase = .ok (datagram, s') ∧
      Evicts holds (fraghdrOf p) s s' ∧ ∀ ptr ∈ datagram, HasPlace holds p s' ptr := by
  unfold ip4ReassDatagram
  by_cases options : iphHl (fraghdrOf p) * 4 ≠ ipHlen
  · refine ⟨none, s, ?_, Evicts.refl counted, by simp⟩
    rw [if_pos options]
    rfl
  obtain ⟨room, s₁, limited, evicted, enough⟩ :=
    @ip4ReassRoom_counted holds releasable (fraghdrOf p) (pbufClen p) s counted
  rw [if_neg options, Logged.erase_bind, limited, ok_bind]
  cases room with
  | false => exact ⟨none, s₁, rfl, evicted, by simp⟩
  | true =>
    simp only [Bool.not_true, Bool.false_eq_true, ↓reduceIte]
    cases search : ipReassFind (fraghdrOf p) s₁.reassdatagrams with
    | none =>
      obtain ⟨datagram, s', result, further, places⟩ :=
        ipReassEnqueueNewDatagram_counted releasable evicted.counted (enough rfl)
      exact ⟨datagram, s', result, evicted.trans further, places⟩
    | some ptr =>
      have place := (ipReassFind_spec (fraghdrOf p) s₁.reassdatagrams).1 ptr search
      have total := evicted.counted.count
      rw [place, totalPbufs_split] at total
      refine ⟨_, s₁, rfl, evicted, fun _ member => ?_⟩
      cases member
      refine ⟨Or.inr ⟨ptr.ipr, ?_, rfl, place⟩, ?_, total, enough rfl⟩
      · apply evicted.counted.datagrams
        rw [place]
        simp
      · intro ipr member
        apply evicted.counted.datagrams
        rw [place]
        simp only [mem_append, mem_cons] at member ⊢
        tauto

end Lists

end Lwip
