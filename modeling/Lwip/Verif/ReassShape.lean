import Lwip.Verif.ReassPbufs

/-!
# The shape of a queue

The fragments of one datagram should be sorted, not empty, and pairwise disjoint, with ends that
are not truncated to 16 bits. `ip_reass_chain_frag_into_datagram_and_validate` keeps this for the
fragments that it compares with both neighbours. It does not look at the fragment behind one that
comes first, at the length, or at a wrap-around of the end; what a fragment must meet for the queue
to stay in shape is stated here, and it is exact.
-/

namespace Lwip

open List

/-- A queue in shape. -/
structure QueueShaped (queue : List IpReassHelper) : Prop where
  /-- Starts and ends are those of the headers, without a wrap-around. -/
  whole : ∀ f ∈ queue, f.start = fragmentStart f.p ∧ f.stop = fragmentStop f.p
  ordered : ∀ f ∈ queue, f.start < f.stop
  sorted : queue.Pairwise fun f g => f.start < g.start
  disjoint : queue.Pairwise fun f g => f.stop ≤ g.start

/-- A fragment keeps a queue in shape: if it starts in none of the queued ones, it is not empty, it
ends within 16 bits, and it does not reach into a queued one if it comes before all of them. -/
def KeepsShape (queue : List IpReassHelper) (p : Chain) : Prop :=
  (∀ f ∈ queue, fragmentStart p < f.start ∨ f.stop ≤ fragmentStart p) →
    fragmentStart p < fragmentStop p ∧ fragmentStop p ≤ 65535 ∧
      ((∀ f ∈ queue, fragmentStart p < f.start) → ∀ f ∈ queue, fragmentStop p ≤ f.start)

/-! ## One fragment -/

/-- The helper that the code makes for a fragment. -/
def madeHelper (p : Chain) : IpReassHelper :=
  { p, start := fragmentStart p, stop := u16 (fragmentStop p) }

/-- The queue behind the middle of `ip4_reass` is what the loop makes of it. -/
theorem ip4ReassChain_queue {p : Chain} {ipr ipr' : IpReassdata} {pbufcount n : Nat} {v : Bool}
    (valid : ValidFragment p) (done : (ip4ReassChain p ipr pbufcount).erase = .ok (v, ipr', n)) :
    (ipReassInsert (madeHelper p) none true ipr.p = .ok none ∧ ipr'.p = ipr.p) ∨
      ∃ front back found,
        ipReassInsert (madeHelper p) none true ipr.p = .ok (some (front, back, found)) ∧
          ipr'.p = front ++ madeHelper p :: back := by
  have helper : (⟨p, fragOffset (fraghdrOf p), u16 (fragOffset (fraghdrOf p) +
      fragLen (fraghdrOf p))⟩ : IpReassHelper) = madeHelper p := by
    rw [ValidFragment.fragOffset_eq, valid.fragLen_eq]
    rfl
  unfold ip4ReassChain ipReassChainFragIntoDatagramAndValidate at done
  dsimp only at done
  rw [helper] at done
  generalize noted : (if iphOffset (fraghdrOf p) &&& ipMf = 0 then
    { ipr with lastfrag := true
               datagramLen := u16 (fragOffset (fraghdrOf p) + fragLen (fraghdrOf p)) }
    else ipr) = ipr₁ at done
  have queue : ipr₁.p = ipr.p := by
    rw [← noted]
    split <;> rfl
  rw [queue, Logged.erase_bind, Logged.erase_lift] at done
  obtain ⟨inserted, result, rest⟩ := bind_ok.1 done
  cases inserted with
  | none =>
    left
    rw [Logged.erase_bind] at rest
    obtain ⟨_, _, last⟩ := bind_ok.1 rest
    cases last
    exact ⟨result, queue⟩
  | some place =>
    right
    rw [Logged.erase_bind] at rest
    obtain ⟨_, _, last⟩ := bind_ok.1 rest
    cases last
    exact ⟨place.1, place.2.1, place.2.2, result, rfl⟩

/-- A valid fragment ends less than 65536 bytes behind its start. -/
theorem ValidFragment.stop_lt {p : Chain} (valid : ValidFragment p) :
    fragmentStop p < fragmentStart p + 65536 := by
  have size := valid.length_bytes.1
  have fits := valid.denotes.fits
  rw [fragmentStop]
  omega

/-- A fragment that was put into its place in a queue in shape. -/
theorem Inserted.shaped_iff {p : Chain} {queue front back : List IpReassHelper} {found : Bool}
    (inserted : Inserted (madeHelper p) none true queue front back found)
    (shaped : QueueShaped queue) :
    QueueShaped (front ++ madeHelper p :: back) ↔
      fragmentStart p < fragmentStop p ∧ fragmentStop p ≤ 65535 ∧
        ∀ g ∈ back, fragmentStop p ≤ g.start := by
  have split := inserted.split
  constructor
  · intro after
    have own : madeHelper p ∈ front ++ madeHelper p :: back := by simp
    have stop : u16 (fragmentStop p) = fragmentStop p := (after.whole _ own).2
    have positive := after.ordered _ own
    have small := u16_lt (fragmentStop p)
    have behind := (pairwise_cons.1 (pairwise_append.1 after.disjoint).2.1).1
    dsimp only [madeHelper] at positive behind
    rw [stop] at positive small behind
    exact ⟨positive, by omega, behind⟩
  · intro fits
    have stop : u16 (fragmentStop p) = fragmentStop p := u16_of_lt (by omega)
    have helper : madeHelper p = ⟨p, fragmentStart p, fragmentStop p⟩ := by
      unfold madeHelper
      rw [stop]
    have before := inserted.before
    have behind := inserted.behind
    rw [helper] at before behind ⊢
    have old := shaped
    rw [split] at old
    have sorted := pairwise_append.1 old.sorted
    have disjoint := pairwise_append.1 old.disjoint
    have members : ∀ f ∈ front ++ ⟨p, fragmentStart p, fragmentStop p⟩ :: back,
        f ∈ queue ∨ f = ⟨p, fragmentStart p, fragmentStop p⟩ := by
      intro f member
      rw [split]
      simp only [mem_append, mem_cons] at member ⊢
      tauto
    refine ⟨?_, ?_, ?_, ?_⟩
    · intro f member
      cases members f member with
      | inl listed => exact shaped.whole f listed
      | inr own => rw [own]; exact ⟨rfl, rfl⟩
    · intro f member
      cases members f member with
      | inl listed => exact shaped.ordered f listed
      | inr own => rw [own]; exact fits.1
    · refine pairwise_append.2 ⟨sorted.1, pairwise_cons.2 ⟨behind, sorted.2.1⟩, ?_⟩
      intro f left g right
      cases mem_cons.1 right with
      | inl own => rw [own]; exact (before f left).1
      | inr listed => exact sorted.2.2 f left g listed
    · refine pairwise_append.2 ⟨disjoint.1, pairwise_cons.2 ⟨fits.2.2, disjoint.2.1⟩, ?_⟩
      intro f left g right
      cases mem_cons.1 right with
      | inl own => rw [own]; exact (before f left).2
      | inr listed => exact disjoint.2.2 f left g listed

/-- The queue stays in shape exactly if the fragment meets the condition. -/
theorem ip4ReassChain_shaped_iff {p : Chain} {ipr ipr' : IpReassdata} {pbufcount n : Nat}
    {v : Bool} (valid : ValidFragment p) (shaped : QueueShaped ipr.p)
    (done : (ip4ReassChain p ipr pbufcount).erase = .ok (v, ipr', n)) :
    QueueShaped ipr'.p ↔ KeepsShape ipr.p p := by
  have near := valid.stop_lt
  have start : (madeHelper p).start = fragmentStart p := rfl
  by_cases accepted : Accepted ipr.p (fragmentStart p) (u16 (fragmentStop p))
  · obtain ⟨front, back, found, result, inserted⟩ :=
      @ipReassInsert_accepted (madeHelper p) none true ipr.p shaped.sorted
        (fun f member => Nat.le_of_lt (shaped.ordered f member)) nofun accepted.1
        fun prev either => by
          cases either with
          | inl impossible => cases impossible
          | inr listed => exact accepted.2 prev listed
    have queue : ipr'.p = front ++ madeHelper p :: back := by
      cases ip4ReassChain_queue valid done with
      | inl dropped =>
        rw [result] at dropped
        cases dropped.1
      | inr queued =>
        obtain ⟨front', back', found', same, after⟩ := queued
        rw [result] at same
        cases same
        exact after
    rw [queue, inserted.shaped_iff shaped]
    have free : ∀ f ∈ ipr.p, fragmentStart p < f.start ∨ f.stop ≤ fragmentStart p := by
      intro f member
      by_cases below : f.start ≤ fragmentStart p
      · exact .inr (accepted.1 f member below).2
      · exact .inl (by omega)
    have before := inserted.before
    have behind := inserted.behind
    have split := inserted.split
    constructor
    · intro fits _
      refine ⟨fits.1, fits.2.1, fun first f member => ?_⟩
      rw [split] at member
      cases mem_append.1 member with
      | inl left =>
        have earlier := before f left
        have later := first f (by rw [split]; exact mem_append_left _ left)
        omega
      | inr right => exact fits.2.2 f right
    · intro keeps
      have fits := keeps free
      refine ⟨fits.1, fits.2.1, ?_⟩
      intro g member
      have listed : g ∈ ipr.p := by rw [split]; exact mem_append_right _ member
      cases front with
      | nil =>
        apply fits.2.2 _ g listed
        intro f other
        rw [split] at other
        exact behind f other
      | cons f others =>
        have earlier := (before f mem_cons_self).1
        have inQueue : f ∈ ipr.p := by rw [split]; simp
        have reached := accepted.2 f inQueue g listed earlier (behind g member)
        rwa [u16_of_lt (by omega)] at reached
  · have dropped : ipReassInsert (madeHelper p) none true ipr.p = .ok none := by
      apply ipReassInsert_dropped shaped.sorted (by simp)
      intro both
      exact accepted ⟨both.1, fun f member => both.2 f (Or.inr member)⟩
    have queue : ipr'.p = ipr.p := by
      cases ip4ReassChain_queue valid done with
      | inl same => exact same.2
      | inr queued =>
        obtain ⟨_, _, _, same, _⟩ := queued
        rw [dropped] at same
        cases same
    rw [queue]
    refine ⟨fun _ free => ?_, fun _ => shaped⟩
    -- the fragment starts in a gap, so it was dropped for reaching into the next one
    have place : ∀ f ∈ ipr.p, f.start ≤ fragmentStart p →
        f.start < fragmentStart p ∧ f.stop ≤ fragmentStart p := by
      intro f member below
      have positive := shaped.ordered f member
      cases free f member with
      | inl above => omega
      | inr ends => exact ⟨by omega, ends⟩
    have reaches : ∃ f ∈ ipr.p, ∃ g ∈ ipr.p, f.start < fragmentStart p ∧
        fragmentStart p < g.start ∧ g.start < u16 (fragmentStop p) := by
      by_contra none'
      apply accepted
      refine ⟨place, fun f left g right below above => ?_⟩
      by_contra across
      exact none' ⟨f, left, g, right, below, above, by omega⟩
    obtain ⟨f, left, g, right, below, above, across⟩ := reaches
    have exact' : u16 (fragmentStop p) = fragmentStop p := by
      by_contra wrapped
      have large : 65536 ≤ fragmentStop p := by
        by_contra small
        exact wrapped (u16_of_lt (by omega))
      have small : u16 (fragmentStop p) ≤ fragmentStop p - 65536 := by
        rw [u16, Nat.mod_eq_sub_mod large]
        exact Nat.mod_le _ _
      omega
    have bound := u16_lt (fragmentStop p)
    refine ⟨by omega, by omega, fun first => ?_⟩
    have later := first f left
    omega

/-! ## Runs -/

/-- A datagram with a queue in shape. -/
structure ShapedDatagram (ipr : IpReassdata) : Prop where
  held : FragmentsHeld ipr
  shaped : QueueShaped ipr.p

theorem releasable_shapedDatagram : Releasable ShapedDatagram where
  nonempty _ known := known.held.nonempty
  free _ known f member := (known.held.valid f member).pbufFree_ok
  timer ipr timer known := ⟨releasable_fragmentsHeld.timer ipr timer known.held, known.shaped⟩

/-- A fragment that gets to the queue of its datagram keeps it in shape. -/
def ShapeGuard (s : IpReass) : ReassEvent → Prop
  | .arrival p => ∀ ptr s', (ip4ReassDatagram p s).erase = .ok (some ptr, s') →
    KeepsShape ptr.ipr.p p
  | .tick => True

/-- The queue that a fragment gets to is in shape. -/
theorem HasPlace.shaped {p : Chain} {s : IpReass} {ptr : ReassdataPtr}
    (place : HasPlace ShapedDatagram p s ptr) : QueueShaped ptr.ipr.p := by
  cases place.origin with
  | inl new =>
    rw [new.1]
    exact ⟨nofun, nofun, List.Pairwise.nil, List.Pairwise.nil⟩
  | inr listed =>
    obtain ⟨old, known, same, _⟩ := listed
    rw [same]
    exact known.shaped

/-- With fragments that keep the shape, all queues are in shape. -/
theorem shapeRun_counted {s : IpReass}
    (run : Transition.Run FragmentStep ShapeGuard IpReass.init s) : Counted ShapedDatagram s := by
  refine run_counted releasable_shapedDatagram (fun s p counted meets received => ?_) run
  refine (ip4Reass_counted (fun _ known => known.held) releasable_shapedDatagram counted
    received ?_).mono fun _ _ known => known.1
  intro ptr s₁ found place ipr n chained held
  have valid := received.valid (ip4ReassDatagram_hl found)
  exact ⟨held, (ip4ReassChain_shaped_iff valid place.shaped chained).2 (meets ptr s₁ found)⟩

/-- In every state of a run whose fragments keep the shape, the fragments queued for one datagram
are sorted, not empty, without a wrap-around and pairwise disjoint. Behind such a run, the next
fragment leaves its queue in shape exactly if it meets the condition. -/
theorem ip4Reass_shape (s : IpReass)
    (run : Transition.Run FragmentStep ShapeGuard IpReass.init s) :
    (∀ ipr ∈ s.reassdatagrams, QueueShaped ipr.p) ∧
      ∀ p ptr s' v ipr n, ReceivedFragment p → (ip4ReassDatagram p s).erase = .ok (some ptr, s') →
        (ip4ReassChain p ptr.ipr s'.pbufcount).erase = .ok (v, ipr, n) →
          (QueueShaped ipr.p ↔ KeepsShape ptr.ipr.p p) := by
  have counted := shapeRun_counted run
  refine ⟨fun ipr member => (counted.datagrams ipr member).shaped, ?_⟩
  intro p ptr s' v ipr n received found chained
  obtain ⟨datagram, s₁, same, _, places⟩ :=
    ip4ReassDatagram_counted releasable_shapedDatagram p counted
  rw [found] at same
  cases same
  exact ip4ReassChain_shaped_iff (received.valid (ip4ReassDatagram_hl found))
    (places ptr rfl).shaped chained

/-- A fragment of the given length in one pbuf, with the given flags and offset. -/
def fragmentAt (flagsOffset length : Nat) : Chain :=
  [pbufRam 0 (iphOffsetSet (iphLenSet plainHeader (20 + length)) flagsOffset ++
    List.replicate length 7)]

/-- The state in which the given fragments are queued for one datagram, with the ends that the code
computes. -/
def madeState (iphdr : List UInt8) (fragments : List Chain) : IpReass :=
  { reassdatagrams :=
      [{ p := fragments.map madeHelper, iphdr, datagramLen := 0, lastfrag := false
         timer := ipReassMaxage }]
    pbufcount := fragments.length }

/-- Such a fragment is as `ip4_input` hands it over. -/
theorem fragmentAt_received {flagsOffset length : Nat} (fits : 20 + length ≤ 65535)
    (total : iphLen (fraghdrOf (fragmentAt flagsOffset length)) = 20 + length)
    (fragment : fragmentOffset (fraghdrOf (fragmentAt flagsOffset length)) ≠ 0 ∨
      MoreFragments (fraghdrOf (fragmentAt flagsOffset length))) :
    ReceivedFragment (fragmentAt flagsOffset length) := by
  have size : (iphOffsetSet (iphLenSet plainHeader (20 + length)) flagsOffset ++
      List.replicate length 7).length = 20 + length := by
    simp [iphOffsetSet, iphLenSet, plainHeader]
  have bytes : (fragmentAt flagsOffset length).bytes =
      iphOffsetSet (iphLenSet plainHeader (20 + length)) flagsOffset ++ List.replicate length
        7 := by
    simp only [fragmentAt, Chain.bytes, Pbuf.bytes, pbufRam, flatMap_cons, flatMap_nil,
      replicate_zero, nil_append, drop_zero, take_length, append_nil]
  refine ⟨Denotes.single ?_ ?_ rfl ?_, ?_, ?_, fragment, ?_⟩
  · exact (append_nil _).symm
  · simp only [pbufRam, replicate_zero, nil_append]
    omega
  · rw [bytes, size]
    exact fits
  · intro q first
    cases first
    dsimp only [pbufRam, ipHlen]
    omega
  · rw [total]
    exact size.symm
  · intro q member
    cases mem_singleton.1 member
    exact Nat.one_pos

/-- The theorem with the third and the first fragment of 8 bytes. -/
theorem ip4Reass_shape_two :
    QueueShaped [madeHelper (fragmentAt 0x2000 8), madeHelper (fragmentAt 0x2002 8)] := by
  have first : ShapeGuard IpReass.init (.arrival (fragmentAt 0x2002 8)) := by
    intro ptr s' found
    have made : (ip4ReassDatagram (fragmentAt 0x2002 8) IpReass.init).erase =
        .ok (some ⟨[], newReassdata (fraghdrOf (fragmentAt 0x2002 8)), []⟩, IpReass.init) := by
      decide +kernel
    cases found
    exact fun _ => ⟨by decide, by decide, nofun⟩
  have second : ShapeGuard (madeState (fraghdrOf (fragmentAt 0x2002 8)) [fragmentAt 0x2002 8])
      (.arrival (fragmentAt 0x2000 8)) := by
    intro ptr s' found
    have queue : ptr.ipr.p = [madeHelper (fragmentAt 0x2002 8)] := by
      have checked : (ip4ReassDatagram (fragmentAt 0x2000 8)
          (madeState (fraghdrOf (fragmentAt 0x2002 8)) [fragmentAt 0x2002 8])).erase.map
            (fun found => found.1.map fun ptr => ptr.ipr.p) =
              .ok (some [madeHelper (fragmentAt 0x2002 8)]) := by decide +kernel
      rw [found] at checked
      exact Option.some.inj (Except.ok.inj checked)
    rw [queue]
    refine fun _ => ⟨by decide, by decide, fun _ f member => ?_⟩
    rw [mem_singleton.1 member]
    decide
  have run : Transition.Run FragmentStep ShapeGuard IpReass.init
      (madeState (fraghdrOf (fragmentAt 0x2000 8)) [fragmentAt 0x2000 8, fragmentAt 0x2002 8]) :=
    (Transition.Run.single (.arrival (fragmentAt 0x2002 8)) first
      ⟨fragmentAt_received (by decide) (by decide) (by decide), none, by decide +kernel⟩).tail
      (.arrival (fragmentAt 0x2000 8)) second
      ⟨fragmentAt_received (by decide) (by decide) (by decide), none, by decide +kernel⟩
  exact (ip4Reass_shape _ run).1 _ (mem_singleton.2 rfl)

/-- Fragments that leave their queue out of shape: one in front of all others that reaches into the
next, one that ends at 65536, and one without payload. -/
theorem ip4Reass_out_of_shape :
    (Transition.Run FragmentStep AnyFragment IpReass.init
        (madeState (fraghdrOf (fragmentAt 0x2000 16)) [fragmentAt 0x2000 16, fragmentAt 0x2001 8]) ∧
      ¬QueueShaped [madeHelper (fragmentAt 0x2000 16), madeHelper (fragmentAt 0x2001 8)]) ∧
    (Transition.Run FragmentStep AnyFragment IpReass.init
        (madeState (fraghdrOf (fragmentAt 0x3fff 8)) [fragmentAt 0x3fff 8]) ∧
      ¬QueueShaped [madeHelper (fragmentAt 0x3fff 8)]) ∧
    Transition.Run FragmentStep AnyFragment IpReass.init
        (madeState (fraghdrOf (fragmentAt 0x2001 0)) [fragmentAt 0x2001 0]) ∧
      ¬QueueShaped [madeHelper (fragmentAt 0x2001 0)] := by
  refine ⟨⟨?_, ?_⟩, ⟨?_, ?_⟩, ?_, ?_⟩
  · exact (Transition.Run.single (.arrival (fragmentAt 0x2001 8)) trivial
      ⟨fragmentAt_received (by decide) (by decide) (by decide), none, by decide +kernel⟩ :
      Transition.Run FragmentStep AnyFragment IpReass.init
        (madeState (fraghdrOf (fragmentAt 0x2001 8)) [fragmentAt 0x2001 8])).tail
      (.arrival (fragmentAt 0x2000 16)) trivial
      ⟨fragmentAt_received (by decide) (by decide) (by decide), none, by decide +kernel⟩
  · intro shaped
    have apart := (pairwise_cons.1 shaped.disjoint).1 _ (mem_singleton.2 rfl)
    revert apart
    decide
  · exact Transition.Run.single (.arrival (fragmentAt 0x3fff 8)) trivial
      ⟨fragmentAt_received (by decide) (by decide) (by decide), none, by decide +kernel⟩
  · intro shaped
    have positive := shaped.ordered _ (mem_singleton.2 rfl)
    revert positive
    decide
  · exact Transition.Run.single (.arrival (fragmentAt 0x2001 0)) trivial
      ⟨fragmentAt_received (by decide) (by decide) (by decide), none, by decide +kernel⟩
  · intro shaped
    have positive := shaped.ordered _ (mem_singleton.2 rfl)
    revert positive
    decide

end Lwip
