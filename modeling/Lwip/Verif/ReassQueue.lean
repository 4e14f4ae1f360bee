import Lwip.Base.Spans
import Lwip.Core.Ip4Reass
import Lwip.Verif.Ip4Frag

/-!
# The queue of one datagram

What it means for the queued fragments of a datagram to be complete, and what
`ip_reass_chain_frag_into_datagram_and_validate` does to a queue. A sound queue is sorted, all
fragments end where the last one lets them, and none of them reaches over an empty one. In such
a queue the fragments are complete exactly when they adjoin from zero on. The search for holes
finds all of them, except a hole in front of a fragment that is put between two others.
-/

namespace Lwip

open Spans List

/-! ## Fragments -/

/-- First position of a fragment in the datagram. -/
def fragmentStart (p : Chain) : Nat := fragmentOffset (fraghdrOf p) * 8

/-- First position behind a fragment. -/
def fragmentStop (p : Chain) : Nat := fragmentStart p + (iphLen (fraghdrOf p) - ipHlen)

/-- The payload of a fragment. -/
def fragmentPayload (p : Chain) : List UInt8 := ipPayload p.bytes

/-- The chain is a fragment as `ip4_input` hands it to `ip4_reass`. -/
structure ValidFragment (p : Chain) : Prop where
  denotes : Denotes p p.bytes
  header : ∀ q ∈ p.head?, ipHlen ≤ q.len
  hl : iphHl (fraghdrOf p) * 4 = ipHlen
  length : iphLen (fraghdrOf p) = p.totLen
  fragment : fragmentOffset (fraghdrOf p) ≠ 0 ∨ MoreFragments (fraghdrOf p)
  referenced : ∀ q ∈ p, 0 < q.ref

/-- The last of the fragments ends at `n`, and every byte before is in exactly one of them. -/
def CompleteTo (fragments : List Chain) (n : Nat) : Prop :=
  (∃ p ∈ fragments, ¬MoreFragments (fraghdrOf p) ∧ fragmentStop p = n) ∧
    CoversOnce fragmentStart fragmentStop fragments n

/-- The chain is the datagram of `n` bytes that the fragments make up. -/
structure Reassembled (fragments : List Chain) (n : Nat) (c : Chain) : Prop where
  totLen : c.totLen = ipHlen + n
  length : iphLen (fraghdrOf c) = n + ipHlen
  /-- The payloads in the order of the offsets. -/
  payload : ∃ ordered : List Chain, ordered.Perm fragments ∧
    ordered.Pairwise (fun p q => fragmentStart p < fragmentStart q) ∧
    ipPayload c.bytes = ordered.flatMap fragmentPayload

namespace ValidFragment

variable {p : Chain}

theorem cons (valid : ValidFragment p) : ∃ q next, p = q :: next ∧ ipHlen ≤ q.len := by
  cases p with
  | nil => exact absurd rfl valid.denotes.nonempty
  | cons q next => exact ⟨q, next, rfl, valid.header q rfl⟩

theorem length_bytes (valid : ValidFragment p) :
    p.bytes.length = iphLen (fraghdrOf p) ∧ ipHlen ≤ iphLen (fraghdrOf p) := by
  have total := valid.denotes.totLen_eq
  obtain ⟨q, next, rfl, long⟩ := valid.cons
  obtain ⟨_, _, bound, _, _⟩ := valid.denotes.cons_inv
  have length := valid.length
  omega

theorem length_payload (valid : ValidFragment p) :
    (fragmentPayload p).length = fragmentStop p - fragmentStart p := by
  obtain ⟨length, _⟩ := valid.length_bytes
  rw [fragmentPayload, ipPayload, length_drop, length, fragmentStop]
  omega

theorem fragOffset_eq (p : Chain) : fragOffset (fraghdrOf p) = fragmentStart p := by
  have small : iphOffset (fraghdrOf p) &&& ipOffmask < 8192 := by
    rw [and_offmask]
    exact Nat.mod_lt _ (by decide)
  rw [fragOffset, fragmentStart, fragmentOffset]
  exact u16_of_lt (by omega)

theorem fragLen_eq (valid : ValidFragment p) :
    fragmentStart p + fragLen (fraghdrOf p) = fragmentStop p := by
  have hl := valid.hl
  have size : iphLen (fraghdrOf p) < 65536 := netU16_lt _ _
  obtain ⟨_, header⟩ := valid.length_bytes
  simp only [ipHlen] at hl header
  rw [fragLen, toU16_of_range (by omega) (by omega), fragmentStop, ipHlen]
  omega

theorem start_pos (valid : ValidFragment p) (last : ¬MoreFragments (fraghdrOf p)) :
    0 < fragmentStart p := by
  have := valid.fragment.resolve_right last
  rw [fragmentStart]
  omega

theorem pbufFree_ok (valid : ValidFragment p) : ∃ freed, pbufFree p = .ok freed :=
  ⟨_, pbufFree_referenced valid.denotes.nonempty valid.referenced⟩

end ValidFragment

/-- The code's view of a fragment agrees with its header. -/
structure HelperSound (f : IpReassHelper) : Prop where
  valid : ValidFragment f.p
  start : f.start = fragmentStart f.p
  stop : f.stop = fragmentStop f.p

/-- A fragment does not end before it starts. -/
theorem HelperSound.ordered {f : IpReassHelper} (sound : HelperSound f) : f.start ≤ f.stop := by
  rw [sound.start, sound.stop, fragmentStop]
  exact Nat.le_add_right _ _

/-! ## Sound queues -/

/-- A queue of fragments, with what is known of the last one. -/
structure QueueSound (queue : List IpReassHelper) (lastfrag : Bool) (datagramLen : Nat) :
    Prop where
  helpers : ∀ f ∈ queue, HelperSound f
  sorted : queue.Pairwise fun f g => f.start < g.start
  /-- No fragment reaches over an empty one. -/
  crossing : ReachesOverNone IpReassHelper.start IpReassHelper.stop queue
  /-- A last fragment has been noted, with its end. -/
  noted : ∀ f ∈ queue, ¬MoreFragments (fraghdrOf f.p) → lastfrag = true ∧ f.stop = datagramLen
  known : lastfrag = true → ∃ f ∈ queue, ¬MoreFragments (fraghdrOf f.p)
  /-- Nothing is behind the last fragment. -/
  bounded : lastfrag = true → ∀ f ∈ queue, f.stop ≤ datagramLen
  /-- The datagram is not too long for its header. -/
  fits : lastfrag = true → datagramLen ≤ 65515

/-- The queue has all of the datagram. -/
def QueueDone (queue : List IpReassHelper) (lastfrag : Bool) (datagramLen : Nat) : Prop :=
  lastfrag = true ∧ Adjoining IpReassHelper.start IpReassHelper.stop 0 queue datagramLen

/-- Coverage by the helpers is coverage by the fragments. -/
theorem coversOnce_map {queue : List IpReassHelper} (helpers : ∀ f ∈ queue, HelperSound f)
    (n : Nat) : CoversOnce fragmentStart fragmentStop (queue.map IpReassHelper.p) n ↔
      CoversOnce IpReassHelper.start IpReassHelper.stop queue n := by
  apply forall_congr'
  intro b
  rw [countP_map]
  have same : queue.countP ((fun p => decide (fragmentStart p ≤ b ∧ b < fragmentStop p)) ∘
      IpReassHelper.p) = queue.countP fun f => f.start ≤ b ∧ b < f.stop := by
    apply countP_congr
    intro f member
    simp only [Function.comp_apply, (helpers f member).start, (helpers f member).stop]
  rw [same]

theorem QueueSound.completeTo {queue : List IpReassHelper} {lastfrag : Bool}
    {datagramLen n : Nat} (sound : QueueSound queue lastfrag datagramLen)
    (complete : CompleteTo (queue.map IpReassHelper.p) n) : lastfrag = true ∧ n = datagramLen := by
  obtain ⟨⟨p, member, last, ends⟩, _⟩ := complete
  obtain ⟨f, listed, rfl⟩ := mem_map.mp member
  obtain ⟨noted, length⟩ := sound.noted f listed last
  exact ⟨noted, by rw [← ends, ← (sound.helpers f listed).stop, length]⟩

/-- A sound queue is complete exactly when its fragments adjoin. -/
theorem QueueSound.complete_iff {queue : List IpReassHelper} {lastfrag : Bool}
    {datagramLen : Nat} (sound : QueueSound queue lastfrag datagramLen) :
    (∃ n, CompleteTo (queue.map IpReassHelper.p) n) ↔ QueueDone queue lastfrag datagramLen := by
  constructor
  · rintro ⟨n, complete⟩
    obtain ⟨noted, rfl⟩ := sound.completeTo complete
    obtain ⟨⟨p, member, last, ends⟩, once⟩ := complete
    obtain ⟨f, listed, rfl⟩ := mem_map.mp member
    refine ⟨noted, (coversOnce_iff sound.sorted (fun g other => (sound.helpers g other).ordered)
      (sound.bounded noted) sound.crossing ⟨f, listed, ?_⟩).mp
        ((coversOnce_map sound.helpers _).mp once)⟩
    rw [(sound.helpers f listed).stop, ends]
  · rintro ⟨noted, adjoining⟩
    obtain ⟨f, listed, last⟩ := sound.known noted
    refine ⟨datagramLen, ⟨f.p, mem_map_of_mem listed, last, ?_⟩,
      (coversOnce_map sound.helpers _).mpr adjoining.coversOnce⟩
    rw [← (sound.helpers f listed).stop, (sound.noted f listed last).2]

/-! ## Inserting a fragment -/

/-- The place of a fragment is free: it starts in none of the queued ones, and unless it comes
first it does not reach into the next. -/
def Accepted (queue : List IpReassHelper) (start stop : Nat) : Prop :=
  (∀ f ∈ queue, f.start ≤ start → f.start < start ∧ f.stop ≤ start) ∧
    ∀ f ∈ queue, ∀ g ∈ queue, f.start < start → start < g.start → stop ≤ g.start

/-- Where the search for holes begins: at the end of the fragment before, or else with the first
fragment. -/
def searchStart (iprh : IpReassHelper) (iprhPrev : Option IpReassHelper)
    (front : List IpReassHelper) : Nat :=
  match iprhPrev with
  | some prev => prev.stop
  | none => (front.head?.map IpReassHelper.start).getD iprh.start

/-- What the loop found: the place of the fragment in the queue, and whether the fragments
before it adjoin. -/
structure Inserted (iprh : IpReassHelper) (iprhPrev : Option IpReassHelper) (valid : Bool)
    (queue front back : List IpReassHelper) (found : Bool) : Prop where
  split : queue = front ++ back
  before : ∀ f ∈ front, f.start < iprh.start ∧ f.stop ≤ iprh.start
  behind : ∀ g ∈ back, iprh.start < g.start
  /-- Unless it comes first, it does not reach into the next. -/
  apart : iprhPrev ≠ none ∨ front ≠ [] → ∀ g ∈ back.head?, iprh.stop ≤ g.start
  found : found = true ↔ valid = true ∧
    ∃ m, Adjoining IpReassHelper.start IpReassHelper.stop (searchStart iprh iprhPrev front)
      front m ∧
      (back = [] → m = iprh.start)

/-- The loop finds the place of an accepted fragment. -/
theorem ipReassInsert_accepted {iprh : IpReassHelper} {iprhPrev : Option IpReassHelper}
    {valid : Bool} {queue : List IpReassHelper}
    (sorted : queue.Pairwise fun f g => f.start < g.start)
    (ordered : ∀ f ∈ queue, f.start ≤ f.stop)
    (previous : ∀ prev ∈ iprhPrev, prev.start < iprh.start ∧ prev.stop ≤ iprh.start)
    (place : ∀ f ∈ queue, f.start ≤ iprh.start → f.start < iprh.start ∧ f.stop ≤ iprh.start)
    (next : ∀ prev, iprhPrev = some prev ∨ prev ∈ queue → ∀ g ∈ queue, prev.start < iprh.start →
      iprh.start < g.start → iprh.stop ≤ g.start) :
    ∃ front back found, ipReassInsert iprh iprhPrev valid queue = .ok (some (front, back, found)) ∧
      Inserted iprh iprhPrev valid queue front back found := by
  induction queue generalizing iprhPrev valid with
  | nil =>
    rw [ipReassInsert, lwipAssert_pos fun prev member => (previous prev member).2, ok_bind]
    refine ⟨[], [], _, rfl, rfl, by simp, by simp, by simp, ?_⟩
    cases iprhPrev with
    | none | some prev => simp [Adjoining, searchStart]
  | cons tmp rest ih =>
    rw [ipReassInsert]
    by_cases earlier : iprh.start < tmp.start
    · rw [if_pos earlier]
      have clear : ¬(iprhPrev.any fun prev =>
          decide (iprh.start < prev.stop ∨ iprh.stop > tmp.start)) = true := by
        cases iprhPrev with
        | none => simp
        | some prev =>
          have end' := next prev (Or.inl rfl) tmp mem_cons_self (previous prev rfl).1 earlier
          have begin := (previous prev rfl).2
          simp only [Option.any_some, decide_eq_true_eq]
          omega
      rw [if_neg clear]
      refine ⟨[], tmp :: rest, valid, rfl, rfl, by simp, ?_, ?_, ?_⟩
      · intro g member
        rcases mem_cons.mp member with rfl | deeper
        · exact earlier
        · have := rel_of_pairwise_cons sorted deeper
          omega
      · intro some g first
        simp only [head?_cons, Option.mem_def, Option.some.injEq] at first
        subst first
        obtain ⟨prev, rfl⟩ := Option.ne_none_iff_exists'.mp (some.resolve_right (by simp))
        exact next prev (Or.inl rfl) tmp mem_cons_self (previous prev rfl).1 earlier
      · simp [Adjoining]
    · obtain ⟨strict, passed⟩ := place tmp mem_cons_self (by omega)
      rw [if_neg earlier, if_neg (by omega), if_neg (by omega)]
      obtain ⟨front, back, found, result, inserted⟩ := @ih (some tmp)
        (valid && iprhPrev.all (·.stop = tmp.start)) (pairwise_cons.mp sorted).2
        (fun f member => ordered f (mem_cons_of_mem tmp member))
        (fun prev same => by cases same; exact ⟨strict, passed⟩)
        (fun f member => place f (mem_cons_of_mem tmp member))
        (fun prev origin g member => by
          refine next prev (Or.inr ?_) g (mem_cons_of_mem tmp member)
          rcases origin with same | deeper
          · cases same
            exact mem_cons_self
          · exact mem_cons_of_mem tmp deeper)
      rw [result, ok_bind]
      refine ⟨tmp :: front, back, found, rfl, by rw [inserted.split, cons_append], ?_,
        inserted.behind, fun _ => inserted.apart (Or.inl (by simp)), ?_⟩
      · intro f member
        rcases mem_cons.mp member with rfl | deeper
        · exact ⟨strict, passed⟩
        · exact inserted.before f deeper
      rw [inserted.found, Bool.and_eq_true, and_assoc]
      apply and_congr_right
      intro _
      have own := ordered tmp mem_cons_self
      cases iprhPrev with
      | none => simp [searchStart, Adjoining, own]
      | some prev =>
        simp only [Option.all_some, decide_eq_true_eq, searchStart, Adjoining, own, true_and]
        constructor
        · rintro ⟨touch, m, rest, last⟩
          exact ⟨m, ⟨touch.symm, rest⟩, last⟩
        · rintro ⟨m, ⟨touch, rest⟩, last⟩
          exact ⟨touch.symm, m, rest, last⟩

theorem ipReassInsert_dropped {iprh : IpReassHelper} {iprhPrev : Option IpReassHelper}
    {valid : Bool} {queue : List IpReassHelper}
    (sorted : queue.Pairwise fun f g => f.start < g.start)
    (previous : ∀ prev ∈ iprhPrev, prev.start < iprh.start ∧ prev.stop ≤ iprh.start)
    (taken : ¬((∀ f ∈ queue, f.start ≤ iprh.start → f.start < iprh.start ∧ f.stop ≤ iprh.start) ∧
      ∀ prev, iprhPrev = some prev ∨ prev ∈ queue → ∀ g ∈ queue, prev.start < iprh.start →
        iprh.start < g.start → iprh.stop ≤ g.start)) :
    ipReassInsert iprh iprhPrev valid queue = .ok none := by
  induction queue generalizing iprhPrev valid with
  | nil => simp at taken
  | cons tmp rest ih =>
    have later := (pairwise_cons.mp sorted).1
    rw [ipReassInsert]
    by_cases earlier : iprh.start < tmp.start
    · rw [if_pos earlier]
      have blocked : (iprhPrev.any fun prev =>
          decide (iprh.start < prev.stop ∨ iprh.stop > tmp.start)) = true := by
        by_contra clear
        apply taken
        constructor
        · intro f member low
          rcases mem_cons.mp member with rfl | deeper
          · omega
          · have := later f deeper
            omega
        intro prev origin g member low high
        have first : tmp.start ≤ g.start := by
          rcases mem_cons.mp member with rfl | deeper
          · exact Nat.le_refl _
          · exact Nat.le_of_lt (later g deeper)
        rcases origin with rfl | listed
        · simp only [Option.any_some, decide_eq_true_eq] at clear
          omega
        · rcases mem_cons.mp listed with rfl | deeper
          · omega
          · have := later prev deeper
            omega
      rw [if_pos blocked]
    · rw [if_neg earlier]
      by_cases same : iprh.start = tmp.start
      · rw [if_pos same]
      rw [if_neg same]
      by_cases inside : iprh.start < tmp.stop
      · rw [if_pos inside]
      rw [if_neg inside, ih (pairwise_cons.mp sorted).2 ?_ ?_]
      · rfl
      · intro prev equal
        cases equal
        omega
      · intro free
        apply taken
        constructor
        · intro f member
          rcases mem_cons.mp member with rfl | deeper
          · omega
          · exact free.1 f deeper
        · intro prev origin g member low high
          rcases mem_cons.mp member with rfl | deeper
          · omega
          · exact free.2 tmp (Or.inl rfl) g deeper (by omega) high

/-- The walk behind the fragment finds the holes there. -/
theorem ipReassNoHoles_spec {iprhPrev : IpReassHelper} {back : List IpReassHelper}
    (ordered : ∀ f ∈ back, f.start ≤ f.stop) :
    (∃ last, ipReassNoHoles iprhPrev back = some last ∧
      Adjoining IpReassHelper.start IpReassHelper.stop iprhPrev.stop back last.stop) ∨
    (ipReassNoHoles iprhPrev back = none ∧
      ∀ m, ¬Adjoining IpReassHelper.start IpReassHelper.stop iprhPrev.stop back m) := by
  induction back generalizing iprhPrev with
  | nil => exact .inl ⟨iprhPrev, rfl, rfl⟩
  | cons iprh next ih =>
    rw [ipReassNoHoles]
    by_cases touch : iprhPrev.stop = iprh.start
    · rw [if_neg (by simpa using touch)]
      have own := ordered iprh mem_cons_self
      rcases @ih iprh fun f member => ordered f (mem_cons_of_mem iprh member) with
        ⟨last, result, adjoining⟩ | ⟨result, hole⟩
      · exact .inl ⟨last, result, touch.symm, own, adjoining⟩
      · exact .inr ⟨result, fun m adjoining => hole m adjoining.2.2⟩
    · rw [if_pos touch]
      exact .inr ⟨rfl, fun m adjoining => touch adjoining.1.symm⟩

/-- The only hole is in front of a fragment that is put between two others. This is the one pair
of neighbours that is not compared. -/
def MissesHole (queue : List IpReassHelper) (start stop : Nat) : Prop :=
  start < stop ∧ ∃ front back m n, queue = front ++ back ∧ front ≠ [] ∧ back ≠ [] ∧
    Adjoining IpReassHelper.start IpReassHelper.stop 0 front m ∧ m < start ∧
    Adjoining IpReassHelper.start IpReassHelper.stop stop back n

/-- The fragments agree on the end of the datagram, none is too far behind, and no place is
missed when the fragment is queued. -/
structure Fits (ipr : IpReassdata) (p : Chain) : Prop where
  size : fragmentStop p ≤ 65535
  /-- The datagram with its header is not too long. -/
  lastSize : ¬MoreFragments (fraghdrOf p) → fragmentStop p ≤ 65515
  /-- Nothing is queued behind the end of the last fragment. -/
  within : ipr.lastfrag = true → MoreFragments (fraghdrOf p) →
    Accepted ipr.p (fragmentStart p) (fragmentStop p) → fragmentStop p ≤ ipr.datagramLen
  /-- Last fragments agree on the end. -/
  same : ipr.lastfrag = true → ¬MoreFragments (fraghdrOf p) → fragmentStop p = ipr.datagramLen
  /-- The first last fragment is not dropped, and ends behind all others. -/
  room : ipr.lastfrag = false → ¬MoreFragments (fraghdrOf p) →
    Accepted ipr.p (fragmentStart p) (fragmentStop p) ∧ ∀ f ∈ ipr.p, f.stop ≤ fragmentStop p
  /-- The fragment does not reach over a queued one without payload. -/
  crossing : Accepted ipr.p (fragmentStart p) (fragmentStop p) → ∀ f ∈ ipr.p, f.start = f.stop →
    fragmentStart p < f.start → fragmentStop p ≤ f.start
  /-- No hole is missed once the last fragment is there. -/
  hole : ipr.lastfrag = true ∨ ¬MoreFragments (fraghdrOf p) →
    ¬MissesHole ipr.p (fragmentStart p) (fragmentStop p)

/-- The helper that the code makes for a fragment. -/
def helperOf (p : Chain) : IpReassHelper :=
  { p, start := fragmentStart p, stop := fragmentStop p }

/-- The helper of a fragment is sound. -/
theorem helperOf_sound {p : Chain} (valid : ValidFragment p) : HelperSound (helperOf p) :=
  ⟨valid, rfl, rfl⟩

/-- The datagram after a last fragment has been noted. -/
def noteLast (ipr : IpReassdata) (p : Chain) : IpReassdata :=
  if MoreFragments (fraghdrOf p) then ipr
  else { ipr with lastfrag := true, datagramLen := fragmentStop p }

/-- Noting a last fragment leaves the queue alone. -/
@[simp] theorem noteLast_p (ipr : IpReassdata) (p : Chain) : (noteLast ipr p).p = ipr.p := by
  unfold noteLast
  split <;> rfl

/-- Noting a last fragment leaves the header alone. -/
@[simp] theorem noteLast_iphdr (ipr : IpReassdata) (p : Chain) :
    (noteLast ipr p).iphdr = ipr.iphdr := by
  unfold noteLast
  split <;> rfl

/-- A fragment that is dropped has changed nothing of the datagram. -/
theorem Fits.noteLast_dropped {ipr : IpReassdata} {p : Chain} (fits : Fits ipr p)
    (dropped : ¬Accepted ipr.p (fragmentStart p) (fragmentStop p)) : noteLast ipr p = ipr := by
  unfold noteLast
  split
  · rfl
  · rename_i last
    cases noted : ipr.lastfrag with
    | false => exact absurd (fits.room noted last).1 dropped
    | true => rw [fits.same noted last, ← noted]

/-- What is known after a fragment was noted. -/
theorem noteLast_cases (ipr : IpReassdata) (p : Chain) :
    (MoreFragments (fraghdrOf p) ∧ noteLast ipr p = ipr) ∨
      (¬MoreFragments (fraghdrOf p) ∧ (noteLast ipr p).lastfrag = true ∧
        (noteLast ipr p).datagramLen = fragmentStop p) := by
  unfold noteLast
  split
  · rename_i more
    exact .inl ⟨more, rfl⟩
  · rename_i last
    exact .inr ⟨last, rfl, rfl⟩

section Insertion

variable {ipr : IpReassdata} {p : Chain} {front back : List IpReassHelper} {found : Bool}
  (queue : QueueSound ipr.p ipr.lastfrag ipr.datagramLen) (valid : ValidFragment p)
  (fits : Fits ipr p) (accepted : Accepted ipr.p (fragmentStart p) (fragmentStop p))
  (inserted : Inserted (helperOf p) none true ipr.p front back found)

include inserted in
theorem Inserted.mem_iff {f : IpReassHelper} :
    f ∈ front ++ helperOf p :: back ↔ f = helperOf p ∨ f ∈ ipr.p := by
  rw [inserted.split]
  simp only [mem_append, mem_cons]
  tauto

include queue inserted in
/-- The queue stays sorted. -/
theorem Inserted.sorted :
    (front ++ helperOf p :: back).Pairwise fun f g => f.start < g.start := by
  have old := queue.sorted
  rw [inserted.split, pairwise_append] at old
  rw [pairwise_append, pairwise_cons]
  refine ⟨old.1, ⟨inserted.behind, old.2.1⟩, ?_⟩
  intro f left g right
  rcases mem_cons.mp right with rfl | deeper
  · exact (inserted.before f left).1
  · exact old.2.2 f left g deeper

include queue fits accepted inserted in
/-- No fragment reaches over an empty one. -/
theorem Inserted.crossing :
    ReachesOverNone IpReassHelper.start IpReassHelper.stop (front ++ helperOf p :: back) := by
  intro f left g right empty before
  rcases inserted.mem_iff.mp left with rfl | leftOld
  · rcases inserted.mem_iff.mp right with rfl | rightOld
    · omega
    · exact fits.crossing accepted g rightOld empty before
  · rcases inserted.mem_iff.mp right with rfl | rightOld
    · exact (accepted.1 f leftOld (Nat.le_of_lt before)).2
    · exact queue.crossing f leftOld g rightOld empty before

include queue valid fits accepted inserted in
theorem Inserted.queueSound :
    QueueSound (front ++ helperOf p :: back) (noteLast ipr p).lastfrag
      (noteLast ipr p).datagramLen := by
  refine ⟨?_, inserted.sorted queue, inserted.crossing queue fits accepted, ?_, ?_, ?_, ?_⟩
  · intro f member
    rcases inserted.mem_iff.mp member with rfl | old
    · exact helperOf_sound valid
    · exact queue.helpers f old
  · intro f member last
    rcases noteLast_cases ipr p with ⟨more, same⟩ | ⟨final, noted, length⟩
    · rw [same]
      rcases inserted.mem_iff.mp member with rfl | old
      · exact absurd more last
      · exact queue.noted f old last
    · rcases inserted.mem_iff.mp member with rfl | old
      · exact ⟨noted, length.symm⟩
      · obtain ⟨known, ends⟩ := queue.noted f old last
        exact ⟨noted, by rw [length, ends, fits.same known final]⟩
  · intro known
    rcases noteLast_cases ipr p with ⟨more, same⟩ | ⟨final, _, _⟩
    · rw [same] at known
      obtain ⟨f, member, last⟩ := queue.known known
      exact ⟨f, inserted.mem_iff.mpr (Or.inr member), last⟩
    · exact ⟨helperOf p, inserted.mem_iff.mpr (Or.inl rfl), final⟩
  · intro known f member
    rcases noteLast_cases ipr p with ⟨more, same⟩ | ⟨final, noted, length⟩
    · rw [same] at known ⊢
      rcases inserted.mem_iff.mp member with rfl | old
      · exact fits.within known more accepted
      · exact queue.bounded known f old
    rw [length]
    rcases inserted.mem_iff.mp member with rfl | old
    · exact Nat.le_refl _
    · cases before : ipr.lastfrag with
      | false => exact (fits.room before final).2 f old
      | true =>
        rw [fits.same before final]
        exact queue.bounded before f old
  · intro known
    rcases noteLast_cases ipr p with ⟨more, same⟩ | ⟨final, noted, length⟩
    · rw [same] at known ⊢
      exact queue.fits known
    · rw [length]
      exact fits.lastSize final

include inserted in
/-- A queue without holes has none in front of the new fragment. -/
theorem Inserted.found_of_adjoining {n : Nat}
    (adjoining : Adjoining IpReassHelper.start IpReassHelper.stop 0
      (front ++ helperOf p :: back) n) :
    found = true := by
  obtain ⟨m, before, first, _, _⟩ := adjoining_append.mp adjoining
  rw [inserted.found]
  refine ⟨rfl, m, ?_, fun _ => first.symm⟩
  cases front with
  | nil =>
    rw [searchStart]
    exact first
  | cons f rest =>
    obtain ⟨zero, ordered, tail⟩ := before
    exact ⟨rfl, ordered, tail⟩

include fits inserted in
/-- If no hole was found before the fragment, the fragments before it end where it starts. -/
theorem Inserted.adjoining_front (known : (noteLast ipr p).lastfrag = true) (good : found = true)
    (zero : ∀ f ∈ (front ++ helperOf p :: back).head?, f.start = 0) {n : Nat}
    (behind : Adjoining IpReassHelper.start IpReassHelper.stop (fragmentStop p) back n) :
    Adjoining IpReassHelper.start IpReassHelper.stop 0 front (fragmentStart p) := by
  obtain ⟨_, m, before, last⟩ := inserted.found.mp good
  cases front with
  | nil => exact (zero (helperOf p) rfl).symm
  | cons f rest =>
    have first : f.start = 0 := zero f rfl
    have start : searchStart (helperOf p) none (f :: rest) = 0 := first
    rw [start] at before
    obtain ⟨g, member, ends⟩ := before.reached (by simp)
    have low : m ≤ fragmentStart p := ends ▸ (inserted.before g member).2
    rcases Nat.lt_or_ge m (fragmentStart p) with hole | high
    · -- only a fragment between two others can have a hole in front of it
      exfalso
      cases back with
      | nil => exact absurd (last rfl) (Nat.ne_of_lt hole)
      | cons b more =>
        have wide : fragmentStart p < fragmentStop p := by
          have := inserted.behind b mem_cons_self
          rw [behind.1] at this
          exact this
        have noted : ipr.lastfrag = true ∨ ¬MoreFragments (fraghdrOf p) := by
          rcases noteLast_cases ipr p with ⟨_, same⟩ | ⟨final, _, _⟩
          · exact .inl (same ▸ known)
          · exact .inr final
        exact fits.hole noted
          ⟨wide, f :: rest, b :: more, m, n, inserted.split, by simp, by simp, before, hole, behind⟩
    · rwa [show m = fragmentStart p by omega] at before

include queue valid fits accepted inserted in
/-- The validation says whether the queue is complete. -/
theorem Inserted.validate :
    ∃ v, ipReassValidate { noteLast ipr p with p := front ++ helperOf p :: back } (helperOf p) back
        found = .ok v ∧
      (v = true ↔ QueueDone (front ++ helperOf p :: back) (noteLast ipr p).lastfrag
        (noteLast ipr p).datagramLen) := by
  have sound := inserted.queueSound queue valid fits accepted
  have ordered : ∀ f ∈ back, f.start ≤ f.stop := fun f member =>
    (sound.helpers f (by simp [member])).ordered
  unfold ipReassValidate
  by_cases go : (noteLast ipr p).lastfrag = true ∧ found = true
  · rw [if_pos (by simpa using go)]
    obtain ⟨known, good⟩ := go
    -- the first fragment of the queue
    obtain ⟨first, others, whole⟩ : ∃ first others, front ++ helperOf p :: back = first ::
      others := by
      cases front with
      | nil | cons f rest => exact ⟨_, _, rfl⟩
    simp only [whole]
    by_cases zero : first.start = 0
    · rw [if_neg (by simpa using zero)]
      rcases @ipReassNoHoles_spec (helperOf p) back ordered with
        ⟨last, result, behind⟩ | ⟨result, hole⟩
      · have starts : ∀ f ∈ (front ++ helperOf p :: back).head?, f.start = 0 := by
          intro f head
          rw [whole] at head
          cases head
          exact zero
        have before := inserted.adjoining_front fits known good starts behind
        have adjoining : Adjoining IpReassHelper.start IpReassHelper.stop 0
            (front ++ helperOf p :: back) last.stop :=
          adjoining_append.mpr ⟨_, before, rfl, (helperOf_sound valid).ordered, behind⟩
        obtain ⟨g, final, more⟩ := sound.known known
        have ends : last.stop = (noteLast ipr p).datagramLen := by
          obtain ⟨f, member, stop⟩ := adjoining.reached (by simp)
          have upper := sound.bounded known f member
          have lower := (adjoining.mem final).2.2
          rw [(sound.noted g final more).2] at lower
          omega
        have several : others ≠ [] := by
          rintro rfl
          rw [whole, mem_singleton] at final
          subst final
          have positive := (sound.helpers g (by simp [whole])).valid.start_pos more
          rw [← (sound.helpers g (by simp [whole])).start] at positive
          omega
        simp only [result]
        rw [lwipAssert_pos several, ok_bind, lwipAssert_pos ends, ok_bind]
        refine ⟨true, rfl, fun _ => ⟨known, ?_⟩, fun _ => rfl⟩
        rwa [whole, ends] at adjoining
      · simp only [result]
        refine ⟨false, rfl, by simp, fun done => ?_⟩
        have adjoining := done.2
        rw [← whole] at adjoining
        obtain ⟨m, _, _, _, behind⟩ := adjoining_append.mp adjoining
        exact absurd behind (hole _)
    · rw [if_pos zero]
      exact ⟨false, rfl, by simp, fun done => absurd done.2.1 zero⟩
  · rw [if_neg (by simpa using go)]
    refine ⟨false, rfl, by simp, fun done => absurd ⟨done.1, ?_⟩ go⟩
    exact inserted.found_of_adjoining done.2

end Insertion

/-! ## Queueing a fragment -/

/-- Number of pbufs of the queued fragments. -/
def queuedPbufs (queue : List IpReassHelper) : Nat := (queue.map fun f => pbufClen f.p).sum

theorem queuedPbufs_insert (front back : List IpReassHelper) (f : IpReassHelper) :
    queuedPbufs (front ++ f :: back) = queuedPbufs (front ++ back) + pbufClen f.p := by
  simp only [queuedPbufs, map_append, map_cons, sum_append, sum_cons]
  omega

/-- The log does not change what `pbuf_free` does. -/
@[simp] theorem Freeing.erase_pbufFree (p : Chain) :
    (Freeing.pbufFree p).erase = Lwip.pbufFree p >>= fun _ => .ok () := by
  unfold Freeing.pbufFree
  simp only [Logged.erase_bind, Logged.erase_lift, Logged.erase_tell]

/-- The middle of `ip4_reass` in the terms of the headers. -/
theorem ip4ReassChain_eq {ipr : IpReassdata} {p : Chain} {pbufcount : Nat}
    (valid : ValidFragment p) (size : fragmentStop p ≤ 65535) :
    (ip4ReassChain p ipr pbufcount).erase = (do
      match ← ipReassInsert (helperOf p) none true ipr.p with
      | none => do
        let _ ← pbufFree p
        .ok (false, noteLast ipr p, toU16 ((u16 (pbufcount + pbufClen p) : Int) - pbufClen p))
      | some (front, back, found) => do
        let v ← ipReassValidate { noteLast ipr p with p := front ++ helperOf p :: back }
          (helperOf p) back found
        .ok (v, { noteLast ipr p with p := front ++ helperOf p :: back },
          u16 (pbufcount + pbufClen p))) := by
  have start := ValidFragment.fragOffset_eq p
  have stop : u16 (fragmentStart p + fragLen (fraghdrOf p)) = fragmentStop p := by
    rw [valid.fragLen_eq, u16_of_lt (by omega)]
  have noted : (if iphOffset (fraghdrOf p) &&& ipMf = 0 then
      { ipr with lastfrag := true, datagramLen := fragmentStop p } else ipr) = noteLast ipr p := by
    unfold noteLast MoreFragments
    split <;> simp_all
  unfold ip4ReassChain ipReassChainFragIntoDatagramAndValidate
  simp only [start, stop, noted, noteLast_p]
  rw [Logged.erase_bind, Logged.erase_lift]
  congr 1
  funext place
  cases place with
  | none =>
    simp only [Logged.erase_bind, Freeing.erase_pbufFree, bind_assoc, ok_bind, Logged.erase_pure]
  | some place =>
    simp only [Logged.erase_bind, Logged.erase_lift, Logged.erase_pure]
    rfl

/-- A fragment that fits is queued or dropped. The queue stays sound, and the return value says
whether it is complete. -/
theorem ip4ReassChain_spec {ipr : IpReassdata} {p : Chain} {pbufcount : Nat}
    (queue : QueueSound ipr.p ipr.lastfrag ipr.datagramLen)
    (incomplete : ¬QueueDone ipr.p ipr.lastfrag ipr.datagramLen) (valid : ValidFragment p)
    (fits : Fits ipr p) (limit : pbufcount + pbufClen p < 65536) :
    ∃ v ipr' pbufcount', (ip4ReassChain p ipr pbufcount).erase = .ok (v, ipr', pbufcount') ∧
      QueueSound ipr'.p ipr'.lastfrag ipr'.datagramLen ∧
      (v = true ↔ QueueDone ipr'.p ipr'.lastfrag ipr'.datagramLen) ∧
      ipr'.iphdr = ipr.iphdr ∧ ipr'.p ≠ [] ∧
      pbufcount' + queuedPbufs ipr.p = pbufcount + queuedPbufs ipr'.p ∧
      pbufcount' ≤ pbufcount + pbufClen p := by
  have ordered : ∀ f ∈ ipr.p, f.start ≤ f.stop := fun f member => (queue.helpers f member).ordered
  have counted : u16 (pbufcount + pbufClen p) = pbufcount + pbufClen p := u16_of_lt limit
  rw [ip4ReassChain_eq valid fits.size]
  by_cases accepted : Accepted ipr.p (fragmentStart p) (fragmentStop p)
  · have after : ∀ prev, none = some prev ∨ prev ∈ ipr.p → ∀ g ∈ ipr.p,
        prev.start < fragmentStart p → fragmentStart p < g.start → fragmentStop p ≤ g.start := by
      rintro prev (impossible | listed)
      · cases impossible
      · exact accepted.2 prev listed
    obtain ⟨front, back, found, result, inserted⟩ :=
      @ipReassInsert_accepted (helperOf p) none true ipr.p queue.sorted ordered (by simp)
        accepted.1 after
    obtain ⟨v, validated, done⟩ := inserted.validate queue valid fits accepted
    rw [result, ok_bind]
    simp only [validated, ok_bind, counted]
    refine ⟨v, _, _, rfl, inserted.queueSound queue valid fits accepted, done,
      noteLast_iphdr ipr p, by simp, ?_, Nat.le_refl _⟩
    simp only [queuedPbufs_insert, ← inserted.split, helperOf]
    omega
  · have same := fits.noteLast_dropped accepted
    have dropped : ipReassInsert (helperOf p) none true ipr.p = .ok none := by
      apply ipReassInsert_dropped queue.sorted (by simp)
      rintro ⟨place, after⟩
      exact accepted ⟨place, fun f member => after f (Or.inr member)⟩
    obtain ⟨freed, free⟩ := valid.pbufFree_ok
    rw [dropped, ok_bind]
    simp only [free, ok_bind, same, counted]
    have restored : toU16 (((pbufcount + pbufClen p : Nat) : Int) - pbufClen p) = pbufcount :=
      toU16_eq (by omega) (by omega)
    refine ⟨false, ipr, _, rfl, queue, by simpa using incomplete, rfl, ?_, by rw [restored], ?_⟩
    · rintro empty
      apply accepted
      simp [Accepted, empty]
    · rw [restored]
      omega

/-! ## Delivery -/

/-- The header at the start of a chain is the start of what it denotes. -/
theorem fraghdrOf_eq {c : Chain} {b : List UInt8} (denotes : Denotes c b)
    (long : ∀ p ∈ c.head?, 20 ≤ p.len) : fraghdrOf c = b.take 20 := by
  cases c with
  | nil => exact absurd rfl denotes.nonempty
  | cons p next =>
    have header : 20 ≤ p.len := long p rfl
    obtain ⟨front, _, _, _, _⟩ := denotes.cons_inv
    have own : p.bytes.take 20 = b.take 20 := by
      rw [front, take_take, Nat.min_eq_left header]
    rw [← own, Pbuf.bytes, take_take, Nat.min_eq_left header]
    rfl

/-- Hiding the header of a fragment leaves its payload. -/
theorem pbufHeader_hides {p : Chain} (valid : ValidFragment p) :
    ∃ c, pbufHeader p (-(ipHlen : Int)) = .ok (some c) ∧ Denotes c (fragmentPayload p) ∧
      c.length = p.length := by
  have denotes := valid.denotes
  have fits := denotes.fits
  obtain ⟨q, next, rfl, long⟩ := valid.cons
  simp only [ipHlen] at long
  have allowed : ¬((-(ipHlen : Int)) < 0 ∧ toU16 (-(-(ipHlen : Int))) > q.len) := by
    simp only [ipHlen, toU16]
    omega
  have moved : ∃ r, pbufHeaderImpl q (-(ipHlen : Int)) false = some r := by
    unfold pbufHeaderImpl
    rw [if_neg (by decide), if_neg allowed]
    cases q.type with
    | ram | pool => exact ⟨_, if_neg (by simp only [ipHlen]; omega)⟩
    | ref | rom => exact ⟨_, if_pos (by decide)⟩
  obtain ⟨r, done⟩ := moved
  have hidden : pbufHeader (q :: next) (-(ipHlen : Int)) = .ok (some (r :: next)) := by
    rw [pbufHeader, done]
    rfl
  have string := pbufHeader_denotes denotes (by decide) (by simp only [ipHlen]; omega) hidden
  exact ⟨r :: next, hidden, string, rfl⟩

/-- The payloads of adjoining fragments fill the span. -/
theorem length_payloads {queue : List IpReassHelper} {lo hi : Nat}
    (helpers : ∀ f ∈ queue, HelperSound f)
    (adjoining : Adjoining IpReassHelper.start IpReassHelper.stop lo queue hi) :
    (queue.flatMap fun f => fragmentPayload f.p).length = hi - lo := by
  induction queue generalizing lo with
  | nil =>
    have same : lo = hi := adjoining
    simp [same]
  | cons f rest ih =>
    obtain ⟨first, ordered, tail⟩ := adjoining
    have sound := helpers f mem_cons_self
    have own := sound.valid.length_payload
    rw [← sound.start, ← sound.stop] at own
    have behind := ih (fun g member => helpers g (mem_cons_of_mem f member)) tail
    have bound := tail.le
    rw [flatMap_cons, length_append, own, behind]
    omega

/-- The number of pbufs of the queued fragments, not truncated. -/
def queuedLength (queue : List IpReassHelper) : Nat := (queue.map fun f => f.p.length).sum

/-- The loop links the payloads of the fragments behind what is there. -/
theorem ip4ReassCat_spec {p : Chain} {b : List UInt8} {r : List IpReassHelper}
    (denotes : Denotes p b) (helpers : ∀ f ∈ r, HelperSound f)
    (total : (b ++ r.flatMap fun f => fragmentPayload f.p).length ≤ 65535) :
    ∃ c, ip4ReassCat p r = .ok c ∧ Denotes c (b ++ r.flatMap fun f => fragmentPayload f.p) ∧
      c.head?.map Pbuf.len = p.head?.map Pbuf.len ∧ c.length = p.length + queuedLength r := by
  induction r generalizing p b with
  | nil => exact ⟨p, rfl, by simpa using denotes, rfl, rfl⟩
  | cons f rest ih =>
    obtain ⟨hidden, hides, payload, size⟩ := pbufHeader_hides (helpers f mem_cons_self).valid
    obtain ⟨joined, done, first⟩ := pbufCat_succeeds denotes payload
    rw [flatMap_cons, ← append_assoc] at total ⊢
    have front : b.length + (fragmentPayload f.p).length ≤ 65535 := by
      simp only [length_append] at total
      omega
    have string := pbufCat_denotes denotes payload front done
    obtain ⟨c, result, whole, header, length⟩ :=
      ih string (fun g member => helpers g (mem_cons_of_mem f member)) total
    have counted : joined.length = p.length + hidden.length := by
      rw [((pbufCat_ok_iff denotes.nonempty payload.nonempty).1 done).2, length_append, length_map]
    refine ⟨c, ?_, whole, header.trans first, ?_⟩
    · rw [ip4ReassCat, hides, ok_bind, Option.getD_some, done, ok_bind, result]
    · rw [length, counted, size]
      simp only [queuedLength, map_cons, sum_cons]
      omega

theorem ip4ReassHeader_fields {iphdr : List UInt8} (length : iphdr.length = 20) {n : Nat}
    (word : n < 65536) :
    (ip4ReassHeader iphdr n).length = 20 ∧ iphLen (ip4ReassHeader iphdr n) = n := by
  constructor
  · simp [ip4ReassHeader, iphLenSet, iphOffsetSet, iphChksumSet, length]
  · simp only [ip4ReassHeader, iphLen, iphLenSet, iphOffsetSet, iphChksumSet]
    rw [netU16_setHostU16_ne (by omega), netU16_setHostU16_ne (by omega),
      netU16_setNetU16_ne (by omega), netU16_setNetU16 (by omega) word]

/-- A complete queue is delivered as the datagram. -/
theorem ip4ReassComplete_spec {ipr : IpReassdata}
    (queue : QueueSound ipr.p ipr.lastfrag ipr.datagramLen)
    (done : QueueDone ipr.p ipr.lastfrag ipr.datagramLen) (header : ipr.iphdr.length = 20) :
    ∃ c, ip4ReassComplete ipr = .ok c ∧
      Reassembled (ipr.p.map IpReassHelper.p) ipr.datagramLen c ∧
      c.length = queuedLength ipr.p := by
  obtain ⟨known, adjoining⟩ := done
  have fits := queue.fits known
  have filled := length_payloads queue.helpers adjoining
  obtain ⟨last, listed, _⟩ := queue.known known
  obtain ⟨first, rest, whole⟩ := exists_cons_of_ne_nil (ne_nil_of_mem listed)
  have sound := queue.helpers first (by simp [whole])
  have word : u16 (ipr.datagramLen + ipHlen) = ipr.datagramLen + 20 :=
    u16_of_lt (by simp only [ipHlen]; omega)
  obtain ⟨size, field⟩ := ip4ReassHeader_fields header
    (show ipr.datagramLen + 20 < 65536 by omega)
  have start := setIphdr_denotes sound.valid.denotes sound.valid.header size
  rw [whole, flatMap_cons, length_append] at filled
  have payload : first.p.bytes.drop 20 = fragmentPayload first.p := rfl
  rw [payload] at start
  have total : ((ip4ReassHeader ipr.iphdr (ipr.datagramLen + 20) ++ fragmentPayload first.p) ++
      rest.flatMap fun f => fragmentPayload f.p).length = 20 + ipr.datagramLen := by
    simp only [length_append, size]
    omega
  obtain ⟨c, result, denotes, lens, length⟩ := @ip4ReassCat_spec _ _ rest start
    (fun f member => queue.helpers f (by simp [whole, member])) (by omega)
  obtain ⟨q, next, chain, long⟩ := sound.valid.cons
  have head : ∀ p ∈ c.head?, 20 ≤ p.len := by
    intro p member
    rw [Option.mem_def.mp member, chain] at lens
    simp only [setIphdr, head?_cons, Option.map_some, Option.some.injEq] at lens
    simp only [ipHlen] at long
    omega
  refine ⟨c, ?_, ⟨?_, ?_, ipr.p.map IpReassHelper.p, List.Perm.refl _, ?_, ?_⟩, ?_⟩
  · simp only [ip4ReassComplete, whole, word]
    exact result
  · rw [denotes.totLen_eq, total]
    rfl
  · rw [fraghdrOf_eq denotes head, append_assoc, take_left' size, field]
    rfl
  · rw [pairwise_map]
    apply queue.sorted.imp_of_mem
    intro f g left right before
    rwa [(queue.helpers f left).start, (queue.helpers g right).start] at before
  · rw [ipPayload, denotes.bytes, append_assoc, ipHlen, drop_left' size, whole]
    simp [flatMap_map]
  · rw [length, whole, chain]
    simp only [setIphdr, queuedLength, map_cons, sum_cons, length_cons, chain]

end Lwip
