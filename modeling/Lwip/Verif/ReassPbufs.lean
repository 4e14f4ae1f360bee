import Lwip.Verif.Assertions
import Lwip.Verif.Ip4Reass

/-!
# Where the pbufs of fragments go

Every chain that is handed to `ip4_reass` is in the queue of a datagram, in the datagram that is
returned, or has been freed, and none is in two of these places. This file first says what the
functions log as freed, and then follows the chains through the calls of any run.
-/

namespace Lwip

open Outcome List

variable {fraghdr : List UInt8} {s s' : IpReass} {freed : List Chain} {p c : Chain}
  {ipr : IpReassdata} {ptr : ReassdataPtr} {v : Bool} {n : Nat}

/-! ## What is logged -/

/-- The chains of a datagram. -/
def chainsOf (ipr : IpReassdata) : List Chain := ipr.p.map IpReassHelper.p

/-- The chains of all datagrams. -/
def chainsIn (datagrams : List IpReassdata) : List Chain := datagrams.flatMap chainsOf

/-- The chains that are queued. -/
def queuedChains (s : IpReass) : List Chain := chainsIn s.reassdatagrams

/-- The pbufs of the datagrams are those of their chains. -/
theorem sum_chainsIn (datagrams : List IpReassdata) :
    ((chainsIn datagrams).map pbufClen).sum = totalPbufs datagrams := by
  induction datagrams with
  | nil => rfl
  | cons ipr rest ih =>
    have split : chainsIn (ipr :: rest) = chainsOf ipr ++ chainsIn rest := flatMap_cons
    have own : ((chainsOf ipr).map pbufClen).sum = queuedPbufs ipr.p := by
      rw [chainsOf, map_map]
      rfl
    rw [split, map_append, sum_append, ih, own]
    rfl

/-- The chains with one datagram singled out. -/
theorem chainsIn_split (before behind : List IpReassdata) (ipr : IpReassdata) :
    (chainsIn (before ++ ipr :: behind)).Perm (chainsIn (before ++ behind) ++ chainsOf ipr) := by
  have front : chainsIn (before ++ ipr :: behind) =
      chainsIn before ++ (chainsOf ipr ++ chainsIn behind) := by
    simp only [chainsIn, flatMap_append, flatMap_cons]
  have rest : chainsIn (before ++ behind) ++ chainsOf ipr =
      chainsIn before ++ (chainsIn behind ++ chainsOf ipr) := by
    simp only [chainsIn, flatMap_append, append_assoc]
  rw [front, rest]
  exact perm_append_comm.append_left _

theorem Freeing.pbufFree_logs (p : Chain) :
    Logged.Ensures AnyError (Freeing.pbufFree p) fun _ freed => freed = [p] := by
  unfold Freeing.pbufFree
  exact .lift_bind (ensures_any _) fun _ _ => .tell rfl

theorem ipReassFreePbufs_logs (pbufsFreed : Nat) (queue : List IpReassHelper) :
    Logged.Ensures AnyError (ipReassFreePbufs pbufsFreed queue)
      fun _ freed => freed = queue.map IpReassHelper.p := by
  induction queue generalizing pbufsFreed with
  | nil => exact .pure rfl
  | cons pcur next ih =>
    refine .lift_bind (ensures_any _) fun _ _ => ?_
    refine (Freeing.pbufFree_logs pcur.p).bind fun _ log first => ?_
    refine (ih _).mono fun _ more rest => ?_
    rw [first, rest]
    rfl

theorem ipReassFreeCompleteDatagram_logs (ptr : ReassdataPtr) (pbufcount : Nat) :
    Logged.Ensures AnyError (ipReassFreeCompleteDatagram ptr pbufcount)
      fun result freed => result.2.reassdatagrams = ptr.before ++ ptr.behind ∧
        freed = chainsOf ptr.ipr := by
  refine .lift_bind (ensures_any _) fun _ _ => ?_
  refine (ipReassFreePbufs_logs 0 ptr.ipr.p).bind fun _ log all => ?_
  refine .lift_bind (ensures_any _) fun _ _ => .pure ⟨rfl, ?_⟩
  rw [append_nil]
  exact all

/-- `ip_reass_tmr` frees the chains that it takes from the list. -/
theorem ipReassTmrLoop_logs (before : List IpReassdata) (pbufcount : Nat)
    (rest : List IpReassdata) :
    Logged.Ensures AnyError (ipReassTmrLoop before pbufcount rest)
      fun s' freed => (chainsIn (before ++ rest)).Perm (queuedChains s' ++ freed) := by
  induction rest generalizing before pbufcount with
  | nil =>
    refine .pure ?_
    rw [append_nil, append_nil]
    exact List.Perm.refl _
  | cons r next ih =>
    unfold ipReassTmrLoop
    split
    · have same : chainsIn ((before ++ [{ r with timer := r.timer - 1 }]) ++ next) =
          chainsIn (before ++ r :: next) := by
        simp only [chainsIn, append_assoc, flatMap_append, singleton_append, flatMap_cons]
        rfl
      rw [← same]
      exact ih _ _
    · refine (ipReassFreeCompleteDatagram_logs _ _).bind fun result log dropped => ?_
      refine (ih _ _).mono fun s' more others => ?_
      rw [dropped.2]
      have all := (chainsIn_split before next r).trans (others.append_right (chainsOf r))
      rw [append_assoc] at all
      exact all.trans (perm_append_comm.append_left _)

/-- Datagrams other than that of a fragment were taken from the list, and their chains freed. -/
def Sheds (fraghdr : List UInt8) (s s' : IpReass) (freed : List Chain) : Prop :=
  ∃ evicted, s.reassdatagrams.Perm (s'.reassdatagrams ++ evicted) ∧ freed = chainsIn evicted ∧
    ∀ ipr ∈ evicted, ipAddressesAndIdMatch ipr.iphdr fraghdr = false

theorem Sheds.refl (fraghdr : List UInt8) (s : IpReass) : Sheds fraghdr s s [] := by
  refine ⟨[], ?_, rfl, by simp⟩
  rw [append_nil]

theorem Sheds.trans {s'' : IpReass} {more : List Chain} (first : Sheds fraghdr s s' freed)
    (second : Sheds fraghdr s' s'' more) : Sheds fraghdr s s'' (freed ++ more) := by
  obtain ⟨evicted, list, chains, others⟩ := first
  obtain ⟨evicted', list', chains', others'⟩ := second
  refine ⟨evicted ++ evicted', ?_, ?_, ?_⟩
  · have all := list.trans (list'.append_right evicted)
    rw [append_assoc] at all
    exact all.trans (perm_append_comm.append_left _)
  · rw [chains, chains', chainsIn, chainsIn, chainsIn, flatMap_append]
  · intro ipr member
    cases mem_append.1 member with
    | inl early => exact others ipr early
    | inr late => exact others' ipr late

/-- The chains are still queued, or freed. -/
theorem Sheds.chains (sheds : Sheds fraghdr s s' freed) :
    (queuedChains s).Perm (queuedChains s' ++ freed) := by
  obtain ⟨evicted, list, rfl, _⟩ := sheds
  have all := list.flatMap_right chainsOf
  rw [flatMap_append] at all
  exact all

/-- `ip_reass_remove_oldest_datagram` takes other datagrams. -/
theorem ipReassRemoveLoop_logs (fraghdr : List UInt8) (pbufsNeeded fuel pbufsFreed : Nat)
    (s : IpReass) : Logged.Ensures AnyError
      (ipReassRemoveLoop fraghdr pbufsNeeded fuel pbufsFreed s)
      fun result freed => Sheds fraghdr s result.2 freed := by
  induction fuel generalizing pbufsFreed s with
  | zero => trivial
  | succ fuel ih =>
    have round : ∀ oldest count, ipReassOldest fraghdr [] none 0 s.reassdatagrams =
      (oldest, count) →
        Logged.Ensures AnyError (ipReassFreeOldest oldest s)
          fun result freed => Sheds fraghdr s result.2 freed := by
      intro oldest count search
      cases oldest with
      | none => exact .pure (Sheds.refl fraghdr s)
      | some ptr =>
        have found := (ipReassOldest_spec (nil_append _).symm (by simp) (fun _ => rfl)
          search).1 ptr rfl
        refine (ipReassFreeCompleteDatagram_logs ptr s.pbufcount).mono
          fun result freed dropped => ⟨[ptr.ipr], ?_, ?_, ?_⟩
        · rw [found.1, dropped.1]
          exact perm_middle.trans (perm_append_singleton _ _).symm
        · rw [dropped.2, chainsIn, flatMap_singleton]
        · intro ipr member
          rw [mem_singleton.1 member]
          exact found.2
    unfold ipReassRemoveLoop
    refine (round _ _ rfl).bind fun result log first => ?_
    dsimp only
    split
    · exact (ih _ _).mono fun _ more rest => first.trans rest
    · refine .pure ?_
      rw [append_nil]
      exact first

/-- What is done behind making room does not free anything. -/
theorem sheds_then {pbufsNeeded : Nat} {α : Type} {rest : Nat × IpReass → α × IpReass}
    (same : ∀ result, (rest result).2 = result.2) :
    Logged.Ensures AnyError
      (ipReassRemoveOldestDatagram fraghdr pbufsNeeded s >>= fun result => pure (rest result))
      fun result freed => Sheds fraghdr s result.2 freed := by
  refine (ipReassRemoveLoop_logs fraghdr pbufsNeeded _ 0 s).bind fun result log first => ?_
  refine .pure ?_
  rw [append_nil, same]
  exact first

/-- `ip4_reass` takes other datagrams until it has that of its fragment. -/
theorem ip4ReassDatagram_logs (p : Chain) (s : IpReass) :
    Logged.Ensures AnyError (ip4ReassDatagram p s)
      fun result freed => Sheds (fraghdrOf p) s result.2 freed := by
  have room : Logged.Ensures AnyError (ip4ReassRoom (fraghdrOf p) (pbufClen p) s)
      fun result freed => Sheds (fraghdrOf p) s result.2 freed := by
    unfold ip4ReassRoom
    split
    · exact sheds_then fun _ => rfl
    · exact .pure (Sheds.refl _ s)
  have malloc : ∀ t, Logged.Ensures AnyError (ipReassMalloc (fraghdrOf p) (pbufClen p) t)
      fun result freed => Sheds (fraghdrOf p) t result.2 freed := by
    intro t
    unfold ipReassMalloc
    split
    · exact .pure (Sheds.refl _ t)
    · exact sheds_then fun _ => rfl
  unfold ip4ReassDatagram
  dsimp only
  split
  · exact .pure (Sheds.refl _ s)
  refine room.bind fun result log first => ?_
  split
  · exact .pure (by rw [append_nil]; exact first)
  · split
    · refine (malloc result.2).bind fun allocated more second => .pure ?_
      rw [append_nil]
      exact first.trans second
    · exact .pure (by rw [append_nil]; exact first)

/-! ## Queueing a fragment -/

/-- A fragment as `ip4_input` hands it to `ip4_reass`; it may have options. -/
structure ReceivedFragment (p : Chain) : Prop where
  denotes : Denotes p p.bytes
  /-- The header is in the first pbuf. -/
  header : ∀ q ∈ p.head?, ipHlen ≤ q.len
  /-- The chain was trimmed to the length in the header. -/
  length : iphLen (fraghdrOf p) = p.totLen
  /-- It is not a whole datagram. -/
  fragment : fragmentOffset (fraghdrOf p) ≠ 0 ∨ MoreFragments (fraghdrOf p)
  /-- Nothing of it was deallocated. -/
  referenced : ∀ q ∈ p, 0 < q.ref

/-- A fragment without options is valid. -/
theorem ReceivedFragment.valid (received : ReceivedFragment p)
    (hl : iphHl (fraghdrOf p) * 4 = ipHlen) : ValidFragment p :=
  ⟨received.denotes, received.header, hl, received.length, received.fragment, received.referenced⟩

theorem ValidFragment.received (valid : ValidFragment p) : ReceivedFragment p :=
  ⟨valid.denotes, valid.header, valid.length, valid.fragment, valid.referenced⟩

/-- A datagram in the queue, whatever its fragments cover. -/
structure FragmentsHeld (ipr : IpReassdata) : Prop where
  header : ipr.iphdr.length = 20
  nonempty : ipr.p ≠ []
  valid : ∀ f ∈ ipr.p, ValidFragment f.p

theorem releasable_fragmentsHeld : Releasable FragmentsHeld where
  nonempty _ held := held.nonempty
  free _ held f member := (held.valid f member).pbufFree_ok
  timer _ _ held := ⟨held.header, held.nonempty, held.valid⟩

/-- The loop finds a place or a reason to drop the fragment; the assertion behind it holds. -/
theorem ipReassInsert_split {iprh : IpReassHelper} {iprhPrev : Option IpReassHelper} {valid : Bool}
    {queue : List IpReassHelper} (behind : ∀ prev ∈ iprhPrev, prev.stop ≤ iprh.start) :
    ∃ inserted, ipReassInsert iprh iprhPrev valid queue = .ok inserted ∧
      (inserted = none → queue ≠ []) ∧ ∀ place ∈ inserted, queue = place.1 ++ place.2.1 := by
  induction queue generalizing iprhPrev valid with
  | nil =>
    refine ⟨some ([], [], valid && iprhPrev.all (·.stop = iprh.start)), ?_,
      fun none' => absurd none' (Option.some_ne_none _), ?_⟩
    · rw [ipReassInsert, lwipAssert_pos behind, ok_bind]
    · intro place member
      cases member
      rfl
  | cons iprhTmp next ih =>
    have dropped : ∃ inserted, (.ok none : Asserting (Option (List IpReassHelper ×
        List IpReassHelper × Bool))) = .ok inserted ∧ (inserted = none → iprhTmp :: next ≠ []) ∧
          ∀ place ∈ inserted, iprhTmp :: next = place.1 ++ place.2.1 :=
      ⟨none, rfl, fun _ => cons_ne_nil _ _, fun _ member => absurd member (Option.not_mem_none _)⟩
    unfold ipReassInsert
    split
    · split
      · exact dropped
      · refine ⟨_, rfl, fun _ => cons_ne_nil _ _, ?_⟩
        intro place member
        cases member
        rfl
    split
    · exact dropped
    · split
      · exact dropped
      · rename_i later
        obtain ⟨inserted, result, _, split'⟩ := @ih (some iprhTmp)
          (valid && iprhPrev.all (·.stop = iprhTmp.start)) (by
            intro prev same
            cases same
            omega)
        rw [result, ok_bind]
        refine ⟨_, rfl, fun _ => cons_ne_nil _ _, ?_⟩
        intro place member
        obtain ⟨inner, listed, rfl⟩ := Option.map_eq_some_iff.1 member
        have rest := split' inner listed
        rw [rest]
        rfl

/-- The assertion that an arrival can fail: the last fragment ends elsewhere than the end that was
noted. -/
def EndMismatch (e : String) : Prop := e = "validate_datagram:datagram end!=datagram len"

/-- The validation fails no other assertion, if a single fragment does not start at zero. -/
theorem ipReassValidate_fails {iprh : IpReassHelper} {back : List IpReassHelper} {valid : Bool}
    (single : ipr.lastfrag = true → ∀ first, ipr.p = [first] → first.start ≠ 0) :
    Ensures EndMismatch (ipReassValidate ipr iprh back valid) fun _ => True := by
  unfold ipReassValidate
  split
  · rename_i known
    split
    · trivial
    rename_i first others queue
    split
    · trivial
    rename_i zero
    split
    · trivial
    · apply ensures_assert
      · intro alone
        rw [not_not.1 alone] at queue
        exact absurd (not_not.1 zero) (single known.1 first queue)
      · intro _
        exact ensures_assert (fun _ => rfl) fun _ => trivial
  · trivial

/-- What the middle of `ip4_reass` does with a fragment: it drops and frees it, or queues it. The
arguments are the return value, the datagram, the count and the freed chains. -/
inductive Chains (p : Chain) (ipr : IpReassdata) (pbufcount : Nat) :
    Bool → IpReassdata → Nat → List Chain → Prop
  /-- A jump to `freepbuf`. -/
  | dropped (ipr' : IpReassdata) (header : ipr'.iphdr = ipr.iphdr) (same : ipr'.p = ipr.p)
      (nonempty : ipr.p ≠ []) : Chains p ipr pbufcount false ipr' pbufcount [p]
  /-- The fragment has its place. -/
  | queued (valid : Bool) (ipr' : IpReassdata) (front back : List IpReassHelper)
      (f : IpReassHelper) (header : ipr'.iphdr = ipr.iphdr) (own : f.p = p)
      (before : ipr.p = front ++ back) (after : ipr'.p = front ++ f :: back) :
      Chains p ipr pbufcount valid ipr' (pbufcount + pbufClen p) []

theorem ip4ReassChain_chains {pbufcount : Nat} (valid : ValidFragment p)
    (fresh : ipr.p = [] → ipr.lastfrag = false) (room : pbufcount + pbufClen p ≤ ipReassMaxPbufs) :
    Logged.Ensures EndMismatch (ip4ReassChain p ipr pbufcount) fun result freed =>
      Chains p ipr pbufcount result.1 result.2.1 result.2.2 freed := by
  have count : u16 (pbufcount + pbufClen p) = pbufcount + pbufClen p := by
    simp only [ipReassMaxPbufs] at room
    exact u16_of_lt (by omega)
  have start := ValidFragment.fragOffset_eq p
  unfold ip4ReassChain ipReassChainFragIntoDatagramAndValidate
  rw [count]
  dsimp only
  generalize noted : (if iphOffset (fraghdrOf p) &&& ipMf = 0 then
    { ipr with lastfrag := true
               datagramLen := u16 (fragOffset (fraghdrOf p) + fragLen (fraghdrOf p)) }
    else ipr) = ipr₁
  have header : ipr₁.iphdr = ipr.iphdr := by
    rw [← noted]
    split <;> rfl
  have queue : ipr₁.p = ipr.p := by
    rw [← noted]
    split <;> rfl
  have last : ipr₁.lastfrag = true → ipr.lastfrag = true ∨ ¬MoreFragments (fraghdrOf p) := by
    rw [← noted]
    intro known
    split at known
    · rename_i last
      exact .inr (not_not.2 last)
    · exact .inl known
  generalize helper : (⟨p, fragOffset (fraghdrOf p),
    u16 (fragOffset (fraghdrOf p) + fragLen (fraghdrOf p))⟩ : IpReassHelper) = iprh
  have own : iprh.p = p := by rw [← helper]
  have begins : iprh.start = fragmentStart p := by rw [← helper]; exact start
  obtain ⟨inserted, result, full, split'⟩ := @ipReassInsert_split iprh none true ipr₁.p
    fun _ member => absurd member (Option.not_mem_none _)
  have found : Ensures EndMismatch (.ok inserted) fun place => place = inserted := .ok rfl
  rw [result]
  refine Logged.Ensures.lift_bind found fun place same => ?_
  rw [same]
  cases inserted with
  | none =>
    obtain ⟨freed, free⟩ := valid.pbufFree_ok
    have gone : (Freeing.pbufFree p).run = .ok ((), [p]) := by
      unfold Freeing.pbufFree
      rw [free]
      rfl
    have back : toU16 (((pbufcount + pbufClen p : Nat) : Int) - pbufClen p) = pbufcount := by
      simp only [ipReassMaxPbufs] at room
      exact toU16_eq (by omega) (by omega)
    refine Logged.Ensures.bind_run gone (.pure ?_)
    rw [back]
    exact .dropped ipr₁ header queue (by rw [← queue]; exact full rfl)
  | some place =>
    have single : ({ ipr₁ with p := place.1 ++ iprh :: place.2.1 } : IpReassdata).lastfrag = true →
        ∀ first, place.1 ++ iprh :: place.2.1 = [first] → first.start ≠ 0 := by
      intro known first alone
      have length := congrArg List.length alone
      simp only [length_append, length_cons, length_nil] at length
      have left : place.1 = [] := length_eq_zero_iff.1 (by omega)
      have right : place.2.1 = [] := length_eq_zero_iff.1 (by omega)
      have empty : ipr.p = [] := by rw [← queue, split' place rfl, left, right]; rfl
      have positive := valid.start_pos ((last known).resolve_left (by rw [fresh empty]; simp))
      rw [left, right] at alone
      cases alone
      omega
    refine Logged.Ensures.lift_bind (ipReassValidate_fails single) fun v _ => .pure ?_
    exact .queued v _ place.1 place.2.1 iprh header own
      (by rw [← queue]; exact split' place rfl) rfl

/-! ## Linking the fragments -/

/-- A pbuf as it was handed over, and the same one in the datagram that is returned: the payload
ends where it ended, and the memory behind an IP header at its start is what it was. -/
structure SameBuffer (q r : Pbuf) : Prop where
  type : r.type = q.type
  isCustom : r.isCustom = q.isCustom
  ref : r.ref = q.ref
  stop : r.payload + r.len = q.payload + q.len
  mem : r.mem.drop (q.payload + ipHlen) = q.mem.drop (q.payload + ipHlen)

/-- A pbuf whose total length was changed. -/
def Relinked (q r : Pbuf) : Prop := ∃ totLen, r = { q with totLen := totLen }

theorem SameBuffer.refl (q : Pbuf) : SameBuffer q q := ⟨rfl, rfl, rfl, rfl, rfl⟩

theorem SameBuffer.relinked {q r t : Pbuf} (same : SameBuffer q r) (linked : Relinked r t) :
    SameBuffer q t := by
  obtain ⟨totLen, rfl⟩ := linked
  exact ⟨same.type, same.isCustom, same.ref, same.stop, same.mem⟩

/-- Changing the total lengths of a chain leaves its pbufs the same. -/
theorem sameBuffers_relinked {a b : Chain} (same : List.Forall₂ SameBuffer a b)
    (linked : List.Forall₂ Relinked b c) : List.Forall₂ SameBuffer a c := by
  induction same generalizing c with
  | nil =>
    cases linked
    exact .nil
  | cons head _ ih =>
    cases linked with
    | cons first rest => exact .cons (head.relinked first) (ih rest)

/-- A chain that `pbuf_cat` can append to. -/
structure Linkable (c : Chain) : Prop where
  nonempty : c ≠ []
  last : ∀ q ∈ c.getLast?, q.totLen = q.len

theorem linkable_of_totLens (nonempty : c ≠ []) (lens : TotLens c) : Linkable c :=
  ⟨nonempty, lens.last⟩

theorem pbufCat_links {h t : Chain} (head : Linkable h) (tail : Linkable t) :
    ∃ c, pbufCat h t = .ok c ∧ Linkable c ∧ List.Forall₂ Relinked (h ++ t) c := by
  have joined := (pbufCat_ok_iff head.nonempty tail.nonempty).2 ⟨head.last, rfl⟩
  refine ⟨_, joined, ⟨by simp [tail.nonempty], ?_⟩, rel_append ?_ ?_⟩
  · rw [getLast?_append_of_ne_nil _ tail.nonempty]
    exact tail.last
  · exact forall₂_map_right_iff.2 (forall₂_same.2 fun q _ => ⟨_, rfl⟩)
  · exact forall₂_same.2 fun q _ => ⟨q.totLen, rfl⟩

/-- Hiding the header of a fragment leaves its pbufs the same. -/
theorem pbufHeader_same (valid : ValidFragment p) :
    ∃ c, pbufHeader p (-(ipHlen : Int)) = .ok (some c) ∧ Linkable c ∧
      List.Forall₂ SameBuffer p c := by
  obtain ⟨c, done, denotes, _⟩ := pbufHeader_hides valid
  refine ⟨c, done, linkable_of_totLens denotes.nonempty denotes.totLens, ?_⟩
  obtain ⟨q, next, rfl, long⟩ := valid.cons
  rw [pbufHeader] at done
  have moved := Except.ok.inj done
  obtain ⟨r, hidden, rfl⟩ := Option.map_eq_some_iff.1 moved
  have others : List.Forall₂ SameBuffer next next := forall₂_same.2 fun q _ => SameBuffer.refl q
  have fits := valid.denotes.fits
  have within := (Denotes.cons_inv valid.denotes).2.2.1
  simp only [ipHlen] at long
  have resized := (pbufHeaderImpl_some (by decide) hidden).2.2.1 (by decide)
  have len : r.len = q.len - 20 := by
    rw [resized]
    dsimp only [ipHlen]
    exact toU16_eq (by omega) (by omega)
  have payload : r.payload = q.payload + 20 := by
    rw [resized]
    dsimp only [ipHlen]
    omega
  refine .cons ⟨?_, ?_, ?_, by omega, ?_⟩ others
  · rw [resized]
  · rw [resized]
  · rw [resized]
  · rw [resized]

/-- Writing a header leaves the pbufs the same. -/
theorem setIphdr_same {iphdr : List UInt8} (denotes : Denotes c c.bytes)
    (size : iphdr.length = 20) :
    List.Forall₂ SameBuffer c (setIphdr iphdr c) := by
  cases c with
  | nil => exact .nil
  | cons q next =>
    have inside := denotes.inMemory q mem_cons_self
    have others : List.Forall₂ SameBuffer next next := forall₂_same.2 fun q _ => SameBuffer.refl q
    refine .cons ⟨rfl, rfl, rfl, rfl, ?_⟩ others
    have front : (q.mem.take q.payload ++ iphdr).length = q.payload + ipHlen := by
      simp only [length_append, length_take, size, ipHlen]
      omega
    exact drop_left' front

theorem ip4ReassCat_links {origin p : Chain} {r : List IpReassHelper} (linkable : Linkable p)
    (same : List.Forall₂ SameBuffer origin p) (valid : ∀ f ∈ r, ValidFragment f.p) :
    ∃ c, ip4ReassCat p r = .ok c ∧
      List.Forall₂ SameBuffer (origin ++ (r.map IpReassHelper.p).flatten) c := by
  induction r generalizing origin p with
  | nil => exact ⟨p, rfl, by rw [map_nil, flatten_nil, append_nil]; exact same⟩
  | cons f rest ih =>
    obtain ⟨hidden, hides, linkable', same'⟩ := pbufHeader_same (valid f mem_cons_self)
    obtain ⟨joined, done, linkable'', linked⟩ := pbufCat_links linkable linkable'
    have both := sameBuffers_relinked (rel_append same same') linked
    obtain ⟨c, result, all⟩ := ih linkable'' both
      fun g member => valid g (mem_cons_of_mem f member)
    refine ⟨c, ?_, ?_⟩
    · rw [ip4ReassCat, hides, ok_bind, Option.getD_some, done, ok_bind, result]
    · rw [map_cons, flatten_cons, ← append_assoc]
      exact all

/-- A complete datagram is made of the pbufs of its fragments. -/
theorem ip4ReassComplete_links (held : FragmentsHeld ipr) :
    ∃ c, ip4ReassComplete ipr = .ok c ∧ List.Forall₂ SameBuffer (chainsOf ipr).flatten c := by
  obtain ⟨first, rest, whole⟩ := exists_cons_of_ne_nil held.nonempty
  have valid := held.valid first (by rw [whole]; exact mem_cons_self)
  have size : ∀ n, (ip4ReassHeader ipr.iphdr n).length = 20 := by
    intro n
    simp [ip4ReassHeader, iphLenSet, iphOffsetSet, iphChksumSet, held.header]
  have written := setIphdr_denotes valid.denotes valid.header
    (size (u16 (ipr.datagramLen + ipHlen)))
  obtain ⟨c, done, same⟩ := @ip4ReassCat_links first.p _ rest
    (linkable_of_totLens written.nonempty written.totLens)
    (setIphdr_same valid.denotes (size _))
    fun f member => held.valid f (by rw [whole]; exact mem_cons_of_mem first member)
  refine ⟨c, ?_, ?_⟩
  · unfold ip4ReassComplete
    rw [whole]
    exact done
  · rw [chainsOf, whole, map_cons, flatten_cons]
    exact same

theorem pbufClen_linked (same : List.Forall₂ SameBuffer (chainsOf ipr).flatten c)
    (few : queuedPbufs ipr.p < 65536) : pbufClen c = queuedPbufs ipr.p := by
  have length : c.length = queuedLength ipr.p := by
    rw [← same.length_eq, length_flatten, chainsOf, map_map]
    rfl
  rw [pbufClen, length, u16_queuedLength, u16_of_lt few]

/-! ## Arrivals -/

/-- The datagram that is returned, if any, is made of the given chains. -/
def LinkedInto (linked : List Chain) : Option Chain → Prop
  | none => linked = []
  | some c => List.Forall₂ SameBuffer linked.flatten c

theorem ip4ReassDatagram_hl (found : (ip4ReassDatagram p s).erase = .ok (some ptr, s')) :
    iphHl (fraghdrOf p) * 4 = ipHlen := by
  by_contra options
  unfold ip4ReassDatagram at found
  rw [if_pos options] at found
  cases found

section Arrival

variable {holds : IpReassdata → Prop} (strong : ∀ ipr, holds ipr → FragmentsHeld ipr)

include strong

section

variable (place : HasPlace holds p s ptr)

include place

/-- A datagram that a fragment is queued in has no end noted before it has fragments. -/
theorem HasPlace.fresh (empty : ptr.ipr.p = []) : ptr.ipr.lastfrag = false := by
  cases place.origin with
  | inl new => rw [new.1]; rfl
  | inr listed =>
    obtain ⟨old, known, same, _⟩ := listed
    rw [same] at empty
    exact absurd empty (strong old known).nonempty

omit strong in
/-- The chains of the state are those of the datagram that a fragment is queued in, and of the
others. -/
theorem HasPlace.chains :
    (queuedChains s).Perm (chainsIn (ptr.before ++ ptr.behind) ++ chainsOf ptr.ipr) := by
  cases place.origin with
  | inl new =>
    rw [queuedChains, new.2, new.1]
    show List.Perm _ (_ ++ [])
    rw [append_nil]
  | inr listed =>
    obtain ⟨old, _, same, list⟩ := listed
    rw [queuedChains, list, same]
    exact chainsIn_split _ _ old

/-- With a fragment queued or dropped, the datagram has valid fragments. -/
theorem HasPlace.held (valid : ValidFragment p)
    (chained : Chains p ptr.ipr s.pbufcount v ipr n freed) : FragmentsHeld ipr := by
  have before : ptr.ipr.iphdr.length = 20 ∧ ∀ f ∈ ptr.ipr.p, ValidFragment f.p := by
    cases place.origin with
    | inl new =>
      rw [new.1]
      exact ⟨valid.length_fraghdr, nofun⟩
    | inr listed =>
      obtain ⟨old, known, same, _⟩ := listed
      rw [same]
      refine ⟨?_, (strong old known).valid⟩
      dsimp only [withFirstHeader]
      split
      · exact valid.length_fraghdr
      · exact (strong old known).header
  cases chained with
  | dropped ipr' header same nonempty =>
    refine ⟨?_, ?_, ?_⟩
    · rw [header]
      exact before.1
    · rw [same]
      exact nonempty
    · rw [same]
      exact before.2
  | queued v ipr' front back f header own split after =>
    refine ⟨?_, ?_, ?_⟩
    · rw [header]
      exact before.1
    · rw [after]
      simp
    intro g member
    rw [after] at member
    rw [split] at before
    cases mem_append.1 member with
    | inl left => exact before.2 g (mem_append_left _ left)
    | inr right =>
      cases mem_cons.1 right with
      | inl new =>
        rw [new, own]
        exact valid
      | inr right => exact before.2 g (mem_append_right _ right)

omit strong in
/-- The count behind a fragment that was queued or dropped. -/
theorem HasPlace.counts (chained : Chains p ptr.ipr s.pbufcount v ipr n freed) :
    n = totalPbufs (ptr.before ++ ptr.behind) + queuedPbufs ipr.p ∧ n ≤ ipReassMaxPbufs := by
  have count := place.count
  have room := place.room
  cases chained with
  | dropped ipr' _ same _ =>
    rw [same]
    exact ⟨count, by omega⟩
  | queued v ipr' front back f _ own split after =>
    rw [after, queuedPbufs_insert, ← split, own]
    exact ⟨by omega, room⟩

omit strong in
/-- No chain is lost or doubled by queueing or dropping a fragment. -/
theorem HasPlace.conserves (chained : Chains p ptr.ipr s.pbufcount v ipr n freed) :
    (p :: queuedChains s).Perm
      (chainsIn (ptr.before ++ ptr.behind) ++ (chainsOf ipr ++ freed)) := by
  have before := place.chains
  cases chained with
  | dropped ipr' _ same _ =>
    have chains : chainsOf ipr = chainsOf ptr.ipr := by rw [chainsOf, same]; rfl
    rw [chains, ← append_assoc]
    exact (before.cons p).trans (perm_append_singleton p _).symm
  | queued v ipr' front back f _ own split after =>
    have old : chainsOf ptr.ipr = front.map IpReassHelper.p ++ back.map IpReassHelper.p := by
      rw [chainsOf, split, map_append]
    have new : chainsOf ipr = front.map IpReassHelper.p ++ p :: back.map IpReassHelper.p := by
      rw [chainsOf, after, map_append, map_cons, own]
    have more : (p :: chainsOf ptr.ipr).Perm (chainsOf ipr) := by
      rw [old, new]
      exact perm_middle.symm
    rw [append_nil]
    exact (before.cons p).trans (perm_middle.symm.trans (more.append_left _))

end

/-- An arrival keeps the count and the limit, and its chain and those that were queued are queued,
in the datagram that is returned, or freed. -/
theorem ip4Reass_counted (releasable : Releasable holds) (counted : Counted holds s)
    (received : ReceivedFragment p)
    (kept : ∀ ptr s', (ip4ReassDatagram p s).erase = .ok (some ptr, s') →
      HasPlace holds p s' ptr → ∀ ipr n,
      (ip4ReassChain p ptr.ipr s'.pbufcount).erase = .ok (false, ipr, n) → FragmentsHeld ipr →
        holds ipr) :
    Logged.Ensures EndMismatch (ip4Reass p s) fun result freed =>
      Counted holds result.2 ∧ ∃ linked, LinkedInto linked result.1 ∧
        (p :: queuedChains s).Perm (queuedChains result.2 ++ linked ++ freed) := by
  obtain ⟨datagram, s₁, found, evicts, places⟩ := ip4ReassDatagram_counted releasable p counted
  obtain ⟨log, run⟩ := Logged.erase_eq_ok found
  have sheds := ((ip4ReassDatagram_logs p s).of_run run).chains
  unfold ip4Reass
  refine Logged.Ensures.bind_run run ?_
  cases datagram with
  | none =>
    have free := pbufFree_referenced received.denotes.nonempty received.referenced
    have gone : (Freeing.pbufFree p).run = .ok ((), [p]) := by
      unfold Freeing.pbufFree
      rw [free]
      rfl
    refine Logged.Ensures.bind_run gone (.pure ⟨evicts.counted, [], rfl, ?_⟩)
    rw [append_nil, append_nil, ← append_assoc]
    exact (sheds.cons p).trans (perm_append_singleton p _).symm
  | some ptr =>
    have place := places ptr rfl
    have valid := received.valid (ip4ReassDatagram_hl found)
    refine (ip4ReassChain_chains valid (place.fresh strong) place.room).eq.bind
      fun result freed known => ?_
    have counts := place.counts known.1
    have room := counts.2
    simp only [ipReassMaxPbufs] at room
    -- the chains behind the eviction are conserved by the rest
    have all : (p :: queuedChains s).Perm (chainsIn (ptr.before ++ ptr.behind) ++
        (chainsOf result.2.1 ++ (log ++ freed))) := by
      have rest := (place.conserves known.1).append_right log
      refine (sheds.cons p).trans (rest.trans ?_)
      rw [append_assoc, append_assoc]
      exact (perm_append_comm.append_left _).append_left _
    have still := place.held strong valid known.1
    dsimp only
    split
    · obtain ⟨c, complete, same⟩ := ip4ReassComplete_links still
      have clen := pbufClen_linked same (by omega)
      have delivered : Ensures EndMismatch (ip4ReassComplete result.2.1) fun d => d = c := by
        rw [complete]
        exact .ok rfl
      refine Logged.Ensures.lift_bind delivered fun d equal => .pure ?_
      rw [equal]
      have left : toU16 ((result.2.2 : Int) - pbufClen c) =
          totalPbufs (ptr.before ++ ptr.behind) := by
        rw [clen, toU16_of_range (by omega) (by omega)]
        omega
      refine ⟨⟨place.others, left, ?_⟩, chainsOf result.2.1, same, ?_⟩
      · show toU16 ((result.2.2 : Int) - pbufClen c) ≤ 10
        rw [left]
        omega
      · rw [append_nil, append_assoc]
        exact all
    · rename_i open'
      rw [Bool.not_eq_true] at open'
      have again : holds result.2.1 := by
        refine kept ptr s₁ found place result.2.1 result.2.2 ?_ still
        rw [known.2, ← open']
      refine .pure ⟨⟨?_, ?_, room⟩, [], rfl, ?_⟩
      · intro other member
        cases mem_append.1 member with
        | inl left => exact place.others other (mem_append_left _ left)
        | inr right =>
          cases mem_cons.1 right with
          | inl own =>
            rw [own]
            exact again
          | inr right => exact place.others other (mem_append_right _ right)
      · dsimp only
        rw [totalPbufs_split]
        exact counts.1
      · rw [append_nil, append_nil]
        have split := (chainsIn_split ptr.before ptr.behind result.2.1).append_right (log ++ freed)
        rw [append_assoc] at split
        exact all.trans split.symm

end Arrival

/-! ## Runs -/

/-- Any fragments arrive in any order, with ticks in between. -/
def FragmentStep (s : IpReass) : ReassEvent → IpReass → Prop
  | .arrival p, s' => ReceivedFragment p ∧ ∃ result, (ip4Reass p s).erase = .ok (result, s')
  | .tick, s' => (ipReassTmr s).erase = .ok s'

/-- No restriction. -/
def AnyFragment (_ : IpReass) (_ : ReassEvent) : Prop := True

/-- An arrival in any state with valid fragments. -/
theorem ip4Reass_held (counted : Counted FragmentsHeld s) (received : ReceivedFragment p) :
    Logged.Ensures EndMismatch (ip4Reass p s) fun result freed =>
      Counted FragmentsHeld result.2 ∧ ∃ linked, LinkedInto linked result.1 ∧
        (p :: queuedChains s).Perm (queuedChains result.2 ++ linked ++ freed) :=
  ip4Reass_counted (fun _ held => held) releasable_fragmentsHeld counted received
    fun _ _ _ _ _ _ _ held => held

/-- The datagrams of a run keep a property that every arrival keeps. -/
theorem run_counted {guard : IpReass → ReassEvent → Prop} (releasable : Releasable holds)
    (arrives : ∀ s p, Counted holds s → guard s (.arrival p) → ReceivedFragment p →
      Logged.Ensures EndMismatch (ip4Reass p s) fun result _ => Counted holds result.2)
    (run : Transition.Run FragmentStep guard IpReass.init s) : Counted holds s := by
  apply run.invariant
  · exact ⟨nofun, rfl, Nat.zero_le _⟩
  intro s event s' counted meets step
  cases event with
  | tick =>
    obtain ⟨after, done, kept⟩ := ipReassTmr_counted releasable counted
    rw [show (ipReassTmr s).erase = .ok s' from step] at done
    cases done
    exact kept
  | arrival p =>
    obtain ⟨received, result, done⟩ := step
    obtain ⟨log, logged⟩ := Logged.erase_eq_ok done
    exact (arrives s p counted meets received).of_run logged

/-- Without a restriction on the fragments, all datagrams have valid fragments and their pbufs are
counted and limited. -/
theorem fragmentRun_counted (run : Transition.Run FragmentStep AnyFragment IpReass.init s) :
    Counted FragmentsHeld s :=
  run_counted releasable_fragmentsHeld (fun _ _ counted _ received =>
    (ip4Reass_held counted received).mono fun _ _ known => known.1) run

/-- After any run the count is the number of pbufs in the queues and keeps the limit. The next
arrival puts its chain and those that were queued into the queues, into the datagram that it returns
or into `pbuf_free`, and the next tick those that were queued; room is made by freeing the chains of
other datagrams than that of the fragment, in any state. -/
theorem ip4Reass_accounts (s : IpReass)
    (run : Transition.Run FragmentStep AnyFragment IpReass.init s) :
    s.pbufcount = ((queuedChains s).map pbufClen).sum ∧ s.pbufcount ≤ ipReassMaxPbufs ∧
      (∀ p, ReceivedFragment p → Logged.Ensures EndMismatch (ip4Reass p s)
        fun result freed => ∃ linked, LinkedInto linked result.1 ∧
          (p :: queuedChains s).Perm (queuedChains result.2 ++ linked ++ freed)) ∧
      (∃ s' freed, (ipReassTmr s).run = .ok (s', freed) ∧
        (queuedChains s).Perm (queuedChains s' ++ freed)) ∧
      ∀ t fraghdr pbufsNeeded,
        Logged.Ensures AnyError (ipReassRemoveOldestDatagram fraghdr pbufsNeeded t)
          fun result freed =>
            ∃ evicted, t.reassdatagrams.Perm (result.2.reassdatagrams ++ evicted) ∧
              freed = chainsIn evicted ∧
              ∀ ipr ∈ evicted, ipAddressesAndIdMatch ipr.iphdr fraghdr = false := by
  have counted := fragmentRun_counted run
  refine ⟨?_, counted.limit, ?_, ?_, ?_⟩
  · rw [queuedChains, sum_chainsIn]
    exact counted.count
  · intro p received
    exact (ip4Reass_held counted received).mono fun _ _ known => known.2
  · obtain ⟨s', done, _⟩ := ipReassTmr_counted releasable_fragmentsHeld counted
    obtain ⟨freed, run⟩ := Logged.erase_eq_ok done
    exact ⟨s', freed, run, (ipReassTmrLoop_logs [] s.pbufcount _).of_run run⟩
  · intro t fraghdr pbufsNeeded
    exact ipReassRemoveLoop_logs fraghdr pbufsNeeded _ 0 t

/-- The theorem with the first fragment of a datagram queued, at the arrival of the last one. -/
theorem ip4Reass_accounts_two :
    (queuedState [eightBytes 0x2000] false 0).pbufcount = 1 ∧
      queuedChains (queuedState [eightBytes 0x2000] false 0) = [eightBytes 0x2000] ∧
      ∃ result freed, (ip4Reass (eightBytes 1) (queuedState [eightBytes 0x2000] false 0)).run =
          .ok (result, freed) ∧
        ∃ linked, LinkedInto linked result.1 ∧
          [eightBytes 1, eightBytes 0x2000].Perm (queuedChains result.2 ++ linked ++ freed) := by
  have run : Transition.Run FragmentStep AnyFragment IpReass.init
      (queuedState [eightBytes 0x2000] false 0) :=
    Transition.Run.refl.tail (.arrival (eightBytes 0x2000)) trivial
      ⟨eightBytes_valid.1.received, none, by decide +kernel⟩
  have accounts := ip4Reass_accounts _ run
  have arrival := accounts.2.2.1 (eightBytes 1) eightBytes_valid.2.1.received
  have checked : (ip4Reass (eightBytes 1) (queuedState [eightBytes 0x2000] false 0)).run.isOk =
      true := by decide +kernel
  cases done : (ip4Reass (eightBytes 1) (queuedState [eightBytes 0x2000] false 0)).run with
  | ok result => exact ⟨rfl, rfl, result.1, result.2, rfl, arrival.of_run done⟩
  | error e =>
    rw [done] at checked
    cases checked

end Lwip
