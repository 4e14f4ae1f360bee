import Lwip.Base.Transition
import Lwip.Core.Etharp
import Lwip.Verif.Assertions

/-!
# Entries of the ARP cache

An IP address has at most one entry that is in use, since `etharp_find_entry` looks at the whole
table before it creates one. Packets are queued only on entries that are pending, and
`etharp_find_entry` recycles the entry that is missed least.
-/

namespace Lwip.Arp

open Oldest Outcome Transition List

/-! ## Entries -/

/-- The packets of an entry. -/
structure EtharpEntry.Sound (entry : EtharpEntry) : Prop where
  pending : entry.q ≠ [] → entry.state = .pending
  short : entry.q.length ≤ arpQueueLen

/-- The entries of the table. -/
structure EtharpCache.Sound (s : EtharpCache) : Prop where
  /-- No two entries in use have the same address. -/
  unique : ∀ i j, (s.table i).state ≠ .empty → (s.table j).state ≠ .empty →
    (s.table i).ipaddr = (s.table j).ipaddr → i = j
  entries : ∀ i, (s.table i).Sound

theorem sound_of_noQueue {entry : EtharpEntry} (none : entry.q = []) : entry.Sound where
  pending some := absurd none some
  short := by
    rw [none]
    exact Nat.zero_le _

section Put

variable {s : EtharpCache} {i j : Fin arpTableSize} {entry : EtharpEntry}

@[simp] theorem put_self (s : EtharpCache) (i : Fin arpTableSize) (entry : EtharpEntry) :
    (s.put i entry).table i = entry := if_pos rfl

theorem put_of_ne (s : EtharpCache) (entry : EtharpEntry) (other : j ≠ i) :
    (s.put i entry).table j = s.table j := if_neg other

/-- No other entry in use has an address. -/
def Apart (s : EtharpCache) (i : Fin arpTableSize) (ipaddr : UInt32) : Prop :=
  ∀ j, j ≠ i → (s.table j).state ≠ .empty → (s.table j).ipaddr ≠ ipaddr

/-- The address of an entry in use belongs to it. -/
theorem EtharpCache.Sound.apart (sound : s.Sound) (inUse : (s.table i).state ≠ .empty) :
    Apart s i (s.table i).ipaddr :=
  fun j other used same => other (sound.unique j i used inUse same)

/-- An entry is written whose address belongs to it. -/
theorem EtharpCache.Sound.put (sound : s.Sound) (entrySound : entry.Sound)
    (apart : entry.state ≠ .empty → Apart s i entry.ipaddr) : (s.put i entry).Sound where
  unique j k usedJ usedK same := by
    by_cases first : j = i
    · by_cases second : k = i
      · rw [first, second]
      · rw [first, put_self] at usedJ same
        rw [put_of_ne s entry second] at usedK same
        exact absurd same.symm (apart usedJ k second usedK)
    · rw [put_of_ne s entry first] at usedJ same
      by_cases second : k = i
      · rw [second, put_self] at usedK same
        exact absurd same (apart usedK j first usedJ)
      · rw [put_of_ne s entry second] at usedK same
        exact sound.unique j k usedJ usedK same
  entries j := by
    by_cases first : j = i
    · rw [first, put_self]
      exact entrySound
    · rw [put_of_ne s entry first]
      exact sound.entries j

theorem EtharpCache.Sound.of_table {s' : EtharpCache} (sound : s.Sound)
    (same : s'.table = s.table) : s'.Sound := by
  constructor
  · rw [same]
    exact sound.unique
  · rw [same]
    exact sound.entries

theorem freed_state (entry : EtharpEntry) (lwipDebug : Bool) :
    (entry.freed lwipDebug).state = .empty := by
  unfold EtharpEntry.freed
  split <;> rfl

theorem freed_q (entry : EtharpEntry) (lwipDebug : Bool) : (entry.freed lwipDebug).q = [] := by
  unfold EtharpEntry.freed
  split <;> rfl

theorem EtharpCache.Sound.free (sound : s.Sound) (env : EtharpEnv) (i : Fin arpTableSize) :
    (etharpFreeEntry env i s).Sound :=
  sound.put (sound_of_noQueue (freed_q _ _)) fun used => absurd (freed_state _ _) used

end Put

theorem sound_etharpInit : etharpInit.Sound where
  unique _ _ used := absurd rfl used
  entries _ := sound_of_noQueue rfl

/-! ## Search -/

/-- An entry that was resolved and may expire. -/
def IsStable (entry : EtharpEntry) : Prop :=
  entry.state = .stable ∨ entry.state = .stableRerequesting1 ∨ entry.state = .stableRerequesting2

/-- A pending entry without packets. -/
def IsIdle (entry : EtharpEntry) : Prop := entry.state = .pending ∧ entry.q = []

/-- A pending entry with packets. -/
def IsQueued (entry : EtharpEntry) : Prop := entry.state = .pending ∧ entry.q ≠ []

/-- The variables of the search behind some entries. -/
structure Candidates (table : Fin arpTableSize → EtharpEntry) (seen : List (Fin arpTableSize))
    (l : FindLocals) : Prop where
  isEmpty : ∀ i, l.empty = some i → (table i).state = .empty
  noEmpty : l.empty = none → ∀ i ∈ seen, (table i).state ≠ .empty
  stable : Keeps (fun i => IsStable (table i)) (fun i => (table i).ctime) seen l.oldStable
  idle : Keeps (fun i => IsIdle (table i)) (fun i => (table i).ctime) seen l.oldPending
  queued : Keeps (fun i => IsQueued (table i)) (fun i => (table i).ctime) seen l.oldQueue

section Search

variable {table : Fin arpTableSize → EtharpEntry} {seen : List (Fin arpTableSize)} {l : FindLocals}
  {i : Fin arpTableSize}

theorem not_candidate_of_empty {entry : EtharpEntry} (empty : entry.state = .empty) :
    ¬IsStable entry ∧ ¬IsIdle entry ∧ ¬IsQueued entry := by
  unfold IsStable IsIdle IsQueued
  rw [empty]
  have notPending : ¬EtharpState.empty = .pending := by decide
  exact ⟨by decide, fun idle => notPending idle.1, fun queued => notPending queued.1⟩

/-- The first empty entry is seen. -/
theorem Candidates.first (candidates : Candidates table seen l)
    (empty : (table i).state = .empty) :
    Candidates table (seen ++ [i]) { l with empty := some i } := by
  have other := not_candidate_of_empty empty
  constructor
  · intro j picked
    rw [← Option.some.inj picked]
    exact empty
  · exact fun missing => absurd missing (Option.some_ne_none i)
  · exact candidates.stable.skip other.1
  · exact candidates.idle.skip other.2.1
  · exact candidates.queued.skip other.2.2

/-- Another empty entry is seen. -/
theorem Candidates.again (candidates : Candidates table seen l)
    (empty : (table i).state = .empty) (found : l.empty ≠ none) :
    Candidates table (seen ++ [i]) l := by
  have other := not_candidate_of_empty empty
  constructor
  · exact candidates.isEmpty
  · exact fun missing => absurd missing found
  · exact candidates.stable.skip other.1
  · exact candidates.idle.skip other.2.1
  · exact candidates.queued.skip other.2.2

/-- An entry in use that does not match is seen. -/
theorem Candidates.used (candidates : Candidates table seen l)
    (used : (table i).state ≠ .empty) :
    Candidates table (seen ++ [i]) (etharpCandidate i (table i) l) := by
  have noEmpty (missing : l.empty = none) : ∀ j ∈ seen ++ [i], (table j).state ≠ .empty := by
    intro j inside
    cases mem_append.1 inside with
    | inl before => exact candidates.noEmpty missing j before
    | inr last =>
      rw [mem_singleton.1 last]
      exact used
  unfold etharpCandidate
  by_cases pending : (table i).state = .pending
  · have unstable : ¬IsStable (table i) := by
      unfold IsStable
      rw [pending]
      decide
    rw [if_pos pending]
    by_cases queue : (table i).q ≠ []
    · rw [if_pos queue]
      exact ⟨candidates.isEmpty, noEmpty, candidates.stable.skip unstable,
        candidates.idle.skip fun idle => queue idle.2, candidates.queued.offer ⟨pending, queue⟩⟩
    · rw [if_neg queue]
      have noQueue := Decidable.not_not.1 queue
      exact ⟨candidates.isEmpty, noEmpty, candidates.stable.skip unstable,
        candidates.idle.offer ⟨pending, noQueue⟩,
        candidates.queued.skip fun queued => queue queued.2⟩
  · have notIdle : ¬IsIdle (table i) := fun idle => pending idle.1
    have notQueued : ¬IsQueued (table i) := fun queued => pending queued.1
    rw [if_neg pending]
    by_cases static : (table i).state = .static
    · have unstable : ¬IsStable (table i) := by
        unfold IsStable
        rw [static]
        decide
      rw [static, if_pos (by decide), if_neg (by decide)]
      exact ⟨candidates.isEmpty, noEmpty, candidates.stable.skip unstable,
        candidates.idle.skip notIdle, candidates.queued.skip notQueued⟩
    · have stable : IsStable (table i) := by
        unfold IsStable
        cases state : (table i).state <;> simp_all
      have atLeast : (table i).state.num ≥ EtharpState.stable.num := by
        rcases stable with state | state | state <;> rw [state] <;> decide
      have below : (table i).state.num < EtharpState.static.num := by
        rcases stable with state | state | state <;> rw [state] <;> decide
      rw [if_pos atLeast, if_pos below]
      exact ⟨candidates.isEmpty, noEmpty, candidates.stable.offer stable,
        candidates.idle.skip notIdle, candidates.queued.skip notQueued⟩

theorem used_cases {state : EtharpState} (used : state ≠ .empty) :
    state = .pending ∨ state.num ≥ EtharpState.stable.num := by
  cases state with
  | empty => exact absurd rfl used
  | pending => exact .inl rfl
  | stable | stableRerequesting1 | stableRerequesting2 | static => exact .inr (by decide)

/-- No entry in use has the address. -/
def NoMatch (table : Fin arpTableSize → EtharpEntry) (ipaddr : Option UInt32) : Prop :=
  ∀ i, (table i).state ≠ .empty → ipaddr ≠ some (table i).ipaddr

/-- The search over some entries finds one in use that has the address, or all candidates. -/
inductive Searched (table : Fin arpTableSize → EtharpEntry) (ipaddr : Option UInt32)
    (seen rest : List (Fin arpTableSize)) : Asserting (Fin arpTableSize ⊕ FindLocals) → Prop
  | found (i : Fin arpTableSize) (used : (table i).state ≠ .empty)
      (same : ipaddr = some (table i).ipaddr) : Searched table ipaddr seen rest (.ok (.inl i))
  | missing (l : FindLocals)
      (others : ∀ i ∈ rest, (table i).state ≠ .empty → ipaddr ≠ some (table i).ipaddr)
      (candidates : Candidates table (seen ++ rest) l) :
      Searched table ipaddr seen rest (.ok (.inr l))

/-- An entry that does not have the address stands before the others. -/
theorem Searched.cons {ipaddr : Option UInt32} {rest : List (Fin arpTableSize)}
    {result : Asserting (Fin arpTableSize ⊕ FindLocals)}
    (searched : Searched table ipaddr (seen ++ [i]) rest result)
    (other : (table i).state ≠ .empty → ipaddr ≠ some (table i).ipaddr) :
    Searched table ipaddr seen (i :: rest) result := by
  cases searched with
  | found j used same => exact .found j used same
  | missing l others candidates =>
    rw [append_assoc] at candidates
    refine .missing l ?_ candidates
    intro j inside
    cases mem_cons.1 inside with
    | inl same =>
      rw [same]
      exact other
    | inr behind => exact others j behind

theorem etharpFindLoop_spec (ipaddr : Option UInt32) (rest : List (Fin arpTableSize))
    (candidates : Candidates table seen l) :
    Searched table ipaddr seen rest (etharpFindLoop table ipaddr rest l) := by
  induction rest generalizing seen l with
  | nil =>
    refine .missing l nofun ?_
    rw [append_nil]
    exact candidates
  | cons i rest ih =>
    rw [etharpFindLoop]
    by_cases empty : (table i).state = .empty
    · have unused (used : (table i).state ≠ .empty) : ipaddr ≠ some (table i).ipaddr :=
        absurd empty used
      by_cases none : l.empty = none
      · rw [if_pos ⟨none, empty⟩]
        exact (ih (candidates.first empty)).cons unused
      · rw [if_neg fun first => none first.1, if_neg (Decidable.not_not.2 empty)]
        exact (ih (candidates.again empty none)).cons unused
    · rw [if_neg fun first => empty first.2, if_pos empty, lwipAssert_pos (used_cases empty),
        ok_bind]
      by_cases same : ipaddr = some (table i).ipaddr
      · rw [if_pos same]
        exact .found i empty same
      · rw [if_neg same]
        exact (ih (candidates.used empty)).cons fun _ => same

/-- An oldest entry of a kind. -/
def IsOldest (table : Fin arpTableSize → EtharpEntry) (kind : EtharpEntry → Prop)
    (i : Fin arpTableSize) : Prop :=
  kind (table i) ∧ ∀ j, kind (table j) → (table j).ctime ≤ (table i).ctime

/-- The entry that is taken for a new address: an empty one if there is one, otherwise the oldest
stable one, otherwise the oldest pending one without packets, otherwise the oldest pending one.
There is none if all entries are static. -/
def Recycled (table : Fin arpTableSize → EtharpEntry) : Option (Fin arpTableSize) → Prop
  | some i =>
    (table i).state = .empty ∨
      (∀ j, (table j).state ≠ .empty) ∧
        (IsOldest table IsStable i ∨
          (∀ j, ¬IsStable (table j)) ∧
            (IsOldest table IsIdle i ∨
              (∀ j, ¬IsIdle (table j)) ∧ IsOldest table (fun entry => entry.state = .pending) i))
  | none => ∀ j, (table j).state = .static

/-- The candidate that a scan of all entries has kept. -/
theorem isOldest_of_keeps {kind : EtharpEntry → Prop} {best : Best (Fin arpTableSize)}
    (keeps : Keeps (fun i => kind (table i)) (fun i => (table i).ctime)
      (List.finRange arpTableSize) best) (picked : best.pick = some i) :
    IsOldest table kind i := by
  have isPicked := keeps.picked i picked
  refine ⟨isPicked.2.1, ?_⟩
  intro j kindJ
  rw [isPicked.2.2]
  exact (keeps.oldest j (mem_finRange j) kindJ).2

theorem none_of_keeps {kind : EtharpEntry → Prop} {best : Best (Fin arpTableSize)}
    (keeps : Keeps (fun i => kind (table i)) (fun i => (table i).ctime)
      (List.finRange arpTableSize) best) (missing : best.pick = none) (j : Fin arpTableSize) :
    ¬kind (table j) :=
  fun kindJ => (keeps.oldest j (mem_finRange j) kindJ).1 missing

theorem static_of_no_candidate {entry : EtharpEntry} (used : entry.state ≠ .empty)
    (unstable : ¬IsStable entry) (notIdle : ¬IsIdle entry) (notQueued : ¬IsQueued entry) :
    entry.state = .static := by
  have notPending : entry.state ≠ .pending := by
    intro pending
    by_cases noQueue : entry.q = []
    · exact notIdle ⟨pending, noQueue⟩
    · exact notQueued ⟨pending, noQueue⟩
  unfold IsStable at unstable
  cases state : entry.state <;> simp_all

/-- The entry that is recycled if there is no empty one. -/
theorem etharpRecycle_spec (candidates : Candidates table (List.finRange arpTableSize) l)
    (noQueues : ∀ i, IsStable (table i) → (table i).q = []) (noEmpty : l.empty = none) :
    ∃ found, etharpRecycle table l = .ok found ∧ Recycled table found := by
  have used (j : Fin arpTableSize) := candidates.noEmpty noEmpty j (mem_finRange j)
  unfold etharpRecycle
  cases stable : l.oldStable.pick with
  | some i =>
    have oldest := isOldest_of_keeps candidates.stable stable
    refine ⟨some i, ?_, Or.inr ⟨used, Or.inl oldest⟩⟩
    dsimp only
    rw [lwipAssert_pos (noQueues i oldest.1)]
    rfl
  | none =>
    have unstable := none_of_keeps candidates.stable stable
    cases idle : l.oldPending.pick with
    | some i =>
      have oldest := isOldest_of_keeps candidates.idle idle
      exact ⟨some i, rfl, Or.inr ⟨used, Or.inr ⟨unstable, Or.inl oldest⟩⟩⟩
    | none =>
      have notIdle := none_of_keeps candidates.idle idle
      refine ⟨l.oldQueue.pick, rfl, ?_⟩
      cases queued : l.oldQueue.pick with
      | some i =>
        have oldest := isOldest_of_keeps candidates.queued queued
        refine .inr ⟨used, Or.inr ⟨unstable, Or.inr ⟨notIdle, oldest.1.1, ?_⟩⟩⟩
        intro j pending
        exact oldest.2 j ⟨pending, fun noQueue => notIdle j ⟨pending, noQueue⟩⟩
      | none =>
        intro j
        exact static_of_no_candidate (used j) (unstable j) (notIdle j)
          (none_of_keeps candidates.queued queued j)

end Search

/-- What `etharp_find_entry` finds. -/
inductive Found (ipaddr : Option UInt32) (flags : EtharpFlags) (s : EtharpCache) :
    Option (Fin arpTableSize × EtharpCache) → Prop
  | used (i : Fin arpTableSize) (used : (s.table i).state ≠ .empty)
      (same : ipaddr = some (s.table i).ipaddr) : Found ipaddr flags s (some (i, s))
  /-- An entry that is recycled. -/
  | new (i : Fin arpTableSize) (entry : EtharpEntry) (others : NoMatch s.table ipaddr)
      (recycled : Recycled s.table (some i)) (empty : entry.state = .empty) (noQueue : entry.q = [])
      (address : ∀ addr, ipaddr = some addr → entry.ipaddr = addr) :
      Found ipaddr flags s (some (i, s.put i entry))
  | none (others : NoMatch s.table ipaddr)
      (refused : flags.findOnly = true ∨ flags.tryHard = false ∨ Recycled s.table none) :
      Found ipaddr flags s none

section Find

variable {s : EtharpCache}

theorem EtharpCache.Sound.stable_noQueue (sound : s.Sound) (i : Fin arpTableSize)
    (stable : IsStable (s.table i)) : (s.table i).q = [] := by
  by_contra queue
  have pending := (sound.entries i).pending queue
  unfold IsStable at stable
  rw [pending] at stable
  revert stable
  decide

theorem put_put (s : EtharpCache) (i : Fin arpTableSize) (entry entry' : EtharpEntry) :
    (s.put i entry).put i entry' = s.put i entry' := by
  unfold EtharpCache.put
  congr 1
  funext j
  by_cases same : j = i
  · rw [if_pos same, if_pos same]
  · rw [if_neg same, if_neg same]
    exact if_neg same

theorem created_spec (ipaddr : Option UInt32) (i : Fin arpTableSize)
    (empty : (s.table i).state = .empty) :
    etharpNewEntry.created ipaddr i s = .ok (some (i, s.put i
      { s.table i with ipaddr := ipaddr.getD (s.table i).ipaddr, ctime := 0 })) := by
  unfold etharpNewEntry.created
  rw [lwipAssert_pos empty]
  rfl

/-- A new entry is found if not all entries are static. -/
theorem etharpNewEntry_spec (env : EtharpEnv) {ipaddr : Option UInt32} (flags : EtharpFlags)
    (sound : s.Sound) {l : FindLocals}
    (candidates : Candidates s.table (List.finRange arpTableSize) l)
    (others : NoMatch s.table ipaddr) :
    ∃ found, etharpNewEntry env ipaddr l s = .ok found ∧ Found ipaddr flags s found := by
  have address {entry : EtharpEntry} (addr : UInt32) (given : ipaddr = some addr) :
      ipaddr.getD entry.ipaddr = addr := by
    rw [given]
    rfl
  unfold etharpNewEntry
  cases empty : l.empty with
  | some i =>
    have isEmpty := candidates.isEmpty i empty
    have noQueue : (s.table i).q = [] := by
      by_contra queue
      have pending := (sound.entries i).pending queue
      rw [isEmpty] at pending
      cases pending
    dsimp only
    rw [created_spec ipaddr i isEmpty]
    exact ⟨_, rfl, .new i _ others (Or.inl isEmpty) isEmpty noQueue address⟩
  | none =>
    obtain ⟨found, chosen, recycled⟩ := etharpRecycle_spec candidates sound.stable_noQueue empty
    rw [chosen, ok_bind]
    cases found with
    | none => exact ⟨none, rfl, .none others (Or.inr (Or.inr recycled))⟩
    | some i =>
      have isEmpty : ((etharpFreeEntry env i s).table i).state = .empty := by
        unfold etharpFreeEntry
        rw [put_self]
        exact freed_state _ _
      have noQueue : ((etharpFreeEntry env i s).table i).q = [] := by
        unfold etharpFreeEntry
        rw [put_self]
        exact freed_q _ _
      dsimp only
      rw [created_spec ipaddr i isEmpty]
      have once := put_put s i ((s.table i).freed env.lwipDebug)
      refine ⟨_, rfl, ?_⟩
      unfold etharpFreeEntry
      rw [once]
      exact .new i _ others recycled isEmpty noQueue address

/-- `etharp_find_entry` does not fail in the table as it is. -/
theorem etharpFindEntry_spec (env : EtharpEnv) (ipaddr : Option UInt32) (flags : EtharpFlags)
    (sound : s.Sound) :
    ∃ found, etharpFindEntry env ipaddr flags s = .ok found ∧ Found ipaddr flags s found := by
  have start : Candidates s.table []
      { empty := none, oldStable := .none, oldPending := .none, oldQueue := .none } :=
    ⟨nofun, nofun, keeps_nil, keeps_nil, keeps_nil⟩
  have searched := etharpFindLoop_spec ipaddr (List.finRange arpTableSize) start
  unfold etharpFindEntry
  generalize etharpFindLoop s.table ipaddr (List.finRange arpTableSize) _ = result at searched ⊢
  cases searched with
  | found i used same => exact ⟨_, rfl, .used i used same⟩
  | missing l others candidates =>
    have noMatch : NoMatch s.table ipaddr := fun i => others i (mem_finRange i)
    rw [ok_bind]
    dsimp only
    split
    · rename_i refused
      refine ⟨none, rfl, .none noMatch ?_⟩
      cases refused with
      | inl findOnly => exact .inl findOnly
      | inr noEmpty => exact .inr (.inl (Bool.not_eq_true' _ ▸ noEmpty.2))
    · exact etharpNewEntry_spec env flags sound candidates noMatch

end Find

/-! ## Calls -/

section Calls

variable {env : EtharpEnv} {s : EtharpCache}

theorem ethernetOutput_table (env : EtharpEnv) (netif : Nat) (p : Chain) (src dst : EthAddr)
    (s : EtharpCache) :
    Ensures AnyError (ethernetOutput env netif p src dst s) fun result =>
      result.2.table = s.table := by
  apply ensures_skip
  intro room
  cases room with
  | none => exact rfl
  | some p => exact ensures_assert (fun _ => trivial) fun _ => rfl

theorem etharpRaw_table (env : EtharpEnv) (netif : Nat) (ethsrcAddr ethdstAddr hwsrcAddr : EthAddr)
    (ipsrcAddr : UInt32) (hwdstAddr : EthAddr) (ipdstAddr : UInt32) (opcode : Nat) (alloc : Bool)
    (s : EtharpCache) :
    Ensures AnyError (etharpRaw env netif ethsrcAddr ethdstAddr hwsrcAddr ipsrcAddr hwdstAddr
      ipdstAddr opcode alloc s) fun result => result.2.table = s.table := by
  unfold etharpRaw
  split
  · exact rfl
  · exact ensures_assert (fun _ => trivial) fun _ => rfl

theorem etharpRequest_table (env : EtharpEnv) (netif : Nat) (ipaddr : UInt32) (alloc : Bool)
    (s : EtharpCache) :
    Ensures AnyError (etharpRequest env netif ipaddr alloc s) fun result =>
      result.2.table = s.table := etharpRaw_table ..

theorem etharpTmrEntry_sound (sound : s.Sound) (i : Fin arpTableSize) :
    Ensures AnyError (etharpTmrEntry env s i) EtharpCache.Sound := by
  have entries := sound.entries i
  unfold etharpTmrEntry
  dsimp only
  split
  · rename_i counted
    have apart := sound.apart counted.1
    have older : (s.put i { s.table i with ctime := u16 ((s.table i).ctime + 1) }).Sound :=
      sound.put ⟨entries.pending, entries.short⟩ fun _ => apart
    -- an entry that is not pending has no packets
    have resolved (state : EtharpState) (notPending : (s.table i).state ≠ .pending) :
        ((s.put i { s.table i with ctime := u16 ((s.table i).ctime + 1) }).put i
          { s.table i with ctime := u16 ((s.table i).ctime + 1), state := state }).Sound := by
      have noQueue : (s.table i).q = [] := by
        by_contra queue
        exact notPending (entries.pending queue)
      rw [put_put]
      exact sound.put (sound_of_noQueue noQueue) fun _ => apart
    split
    · exact older.free env i
    split
    · rename_i rerequesting
      exact resolved _ (by rw [rerequesting]; decide)
    split
    · rename_i rerequesting
      exact resolved _ (by rw [rerequesting]; decide)
    split
    · exact (etharpRequest_table ..).bind fun result same => older.of_table same
    · exact older
  · exact sound

theorem etharpTmr_sound (sound : s.Sound) :
    Ensures AnyError (etharpTmr env s) EtharpCache.Sound :=
  Ensures.foldlM (fun _ i sound => etharpTmrEntry_sound sound i) _ sound

theorem etharpSendQueue_table (netif : Nat) (ethaddr : EthAddr) (queue : List Chain)
    (s : EtharpCache) :
    Ensures AnyError (etharpSendQueue env netif ethaddr queue s) fun s' => s'.table = s.table := by
  induction queue generalizing s with
  | nil => exact rfl
  | cons p queue ih =>
    apply (ethernetOutput_table ..).bind
    intro result same
    exact (ih result.2).mono fun s' next => next.trans same

/-- The table behind `etharp_find_entry`, in which the address belongs to the entry found. -/
theorem Found.sound {addr : UInt32} {flags : EtharpFlags} {i : Fin arpTableSize} {s' : EtharpCache}
    (found : Found (some addr) flags s (some (i, s'))) (sound : s.Sound) :
    s'.Sound ∧ (s'.table i).ipaddr = addr ∧ Apart s' i addr := by
  generalize same : some (i, s') = result at found
  cases found with
  | used j used address =>
    cases same
    have own : (s.table i).ipaddr = addr := (Option.some.inj address).symm
    have apart := sound.apart used
    rw [own] at apart
    exact ⟨sound, own, apart⟩
  | new j entry others recycled empty noQueue address =>
    cases same
    refine ⟨sound.put (sound_of_noQueue noQueue) fun used => absurd empty used, ?_, ?_⟩
    · rw [put_self]
      exact address addr rfl
    · intro k other used
      rw [put_of_ne _ _ other] at used ⊢
      exact fun own => others k used (congrArg some own.symm)
  | none others refused => cases same

theorem etharpUpdateArpEntry_sound (sound : s.Sound) (netif : Nat) (ipaddr : UInt32)
    (ethaddr : EthAddr) (flags : EtharpFlags) :
    Ensures AnyError (etharpUpdateArpEntry env netif ipaddr ethaddr flags s) fun result =>
      result.2.Sound := by
  obtain ⟨result, returned, found⟩ := etharpFindEntry_spec env (some ipaddr) flags sound
  apply ensures_pass trivial
  split
  · exact sound
  rw [returned, ok_bind]
  cases result with
  | none => exact sound
  | some pair =>
    obtain ⟨i, s'⟩ := pair
    have there := found.sound sound
    dsimp only
    split
    · exact there.1
    apply (etharpSendQueue_table ..).bind
    intro s'' same
    refine EtharpCache.Sound.of_table ?_ same
    apply there.1.put (sound_of_noQueue rfl)
    intro _
    rw [there.2.1]
    exact there.2.2

theorem etharpAddStaticEntry_sound (sound : s.Sound) (route : Option Nat) (ipaddr : UInt32)
    (ethaddr : EthAddr) :
    Ensures AnyError (etharpAddStaticEntry env route ipaddr ethaddr s) fun result =>
      result.2.Sound := by
  cases route with
  | none => exact sound
  | some netif => exact etharpUpdateArpEntry_sound sound netif ipaddr ethaddr _

theorem etharpRemoveStaticEntry_sound (sound : s.Sound) (ipaddr : UInt32) :
    Ensures AnyError (etharpRemoveStaticEntry env ipaddr s) fun result => result.2.Sound := by
  obtain ⟨result, returned, found⟩ :=
    etharpFindEntry_spec env (some ipaddr) { findOnly := true } sound
  unfold etharpRemoveStaticEntry
  rw [returned, ok_bind]
  cases result with
  | none => exact sound
  | some pair =>
    obtain ⟨i, s'⟩ := pair
    have there := found.sound sound
    dsimp only
    split
    · exact there.1
    · exact there.1.free env i

theorem etharpCleanupNetif_sound (sound : s.Sound) (netif : Nat) :
    (etharpCleanupNetif env netif s).Sound := by
  unfold etharpCleanupNetif
  generalize List.finRange arpTableSize = items
  induction items generalizing s with
  | nil => exact sound
  | cons i items ih =>
    rw [foldl_cons]
    split
    · exact ih (sound.free env i)
    · exact ih sound

theorem etharpInput_sound (sound : s.Sound) (netif : Nat) (hdr : EtharpHdr) :
    Ensures AnyError (etharpInput env netif hdr s) EtharpCache.Sound := by
  unfold etharpInput
  split
  · exact sound
  apply (etharpUpdateArpEntry_sound sound netif hdr.sipaddr hdr.shwaddr _).bind
  intro result updated
  split
  · apply ensures_pass trivial
    split
    · exact updated
    · exact updated.of_table rfl
  · exact updated

theorem length_etharpEnqueue {queue : List Chain} (short : queue.length ≤ arpQueueLen) (p : Chain) :
    (etharpEnqueue queue p).length ≤ arpQueueLen := by
  unfold etharpEnqueue
  dsimp only
  split
  · rw [length_tail, length_append, length_singleton]
    omega
  · rw [length_append, length_singleton]
    omega

theorem etharpQueryPacket_sound (sound : s.Sound) (netif : Nat) (i : Fin arpTableSize) (q : Chain) :
    Ensures AnyError (etharpQueryPacket env netif i q s) fun result => result.2.Sound := by
  unfold etharpQueryPacket
  split
  · exact (ethernetOutput_table ..).mono fun result same => sound.of_table same
  split
  · rename_i pending
    apply ensures_skip
    intro taken
    cases taken with
    | none => exact sound
    | some p =>
      dsimp only
      split
      · have queued : EtharpEntry.Sound
            { s.table i with q := etharpEnqueue (s.table i).q p } :=
          ⟨fun _ => pending, length_etharpEnqueue (sound.entries i).short p⟩
        exact sound.put queued fun _ => sound.apart (by rw [pending]; decide)
      · exact sound
  · exact sound

theorem etharpQuery_sound (sound : s.Sound) (netif : Nat) (ipaddr : UInt32) (q : Option Chain) :
    Ensures AnyError (etharpQuery env netif ipaddr q s) fun result => result.2.Sound := by
  obtain ⟨result, returned, found⟩ :=
    etharpFindEntry_spec env (some ipaddr) { tryHard := true } sound
  unfold etharpQuery
  split
  · exact sound
  rw [returned, ok_bind]
  cases result with
  | none => exact sound
  | some pair =>
    obtain ⟨i, s'⟩ := pair
    have there := found.sound sound
    -- a new entry is marked as pending
    have marked : (if decide ((s'.table i).state = .empty) = true then
        s'.put i { s'.table i with state := .pending, netif := netif } else s').Sound := by
      split
      · have entry : EtharpEntry.Sound { s'.table i with state := .pending, netif := netif } :=
          ⟨fun _ => rfl, (there.1.entries i).short⟩
        apply there.1.put entry
        intro _
        rw [there.2.1]
        exact there.2.2
      · exact there.1
    dsimp only
    generalize (if decide ((s'.table i).state = .empty) = true then
      s'.put i { s'.table i with state := .pending, netif := netif } else s') = s'' at marked ⊢
    apply ensures_pass trivial
    have requested := etharpRequest_table env netif ipaddr (env.alloc 0) s''
    cases q with
    | none => exact requested.mono fun result same => marked.of_table same
    | some q =>
      dsimp only
      split
      · apply requested.bind
        intro result same
        exact etharpQueryPacket_sound (marked.of_table same) netif i q
      · exact etharpQueryPacket_sound marked netif i q

theorem etharpOutputToArpIndex_sound (sound : s.Sound) (netif : Nat) (q : Chain)
    (i : Fin arpTableSize) :
    Ensures AnyError (etharpOutputToArpIndex env netif q i s) fun result => result.2.Sound := by
  unfold etharpOutputToArpIndex
  apply ensures_assert (fun _ => trivial)
  intro stable
  have resolved : (s.table i).state ≠ .pending ∧ (s.table i).state ≠ .empty := by
    constructor <;> intro state <;> rw [state] at stable <;> exact absurd stable (by decide)
  have noQueue : (s.table i).q = [] := by
    by_contra queue
    exact resolved.1 ((sound.entries i).pending queue)
  have requested : Ensures AnyError (etharpRerequest env netif (s.table i) s) fun result =>
      result.2.table = s.table := by
    unfold etharpRerequest
    split
    · exact etharpRequest_table ..
    split
    · exact etharpRaw_table ..
    · exact rfl
  apply requested.bind
  intro result same
  have there := sound.of_table same
  apply (ethernetOutput_table ..).mono
  intro last kept
  refine EtharpCache.Sound.of_table ?_ kept
  split
  · have entry : EtharpEntry.Sound { s.table i with state := .stableRerequesting1 } :=
      sound_of_noQueue noQueue
    apply there.put entry
    intro _
    have apart := sound.apart resolved.2
    unfold Apart at apart ⊢
    rw [same]
    exact apart
  · exact there

theorem etharpOutput_sound (sound : s.Sound) (netif : Nat) (q : Chain) (ipaddr : UInt32) :
    Ensures AnyError (etharpOutput env netif q ipaddr s) fun result => result.2.Sound := by
  have direct (dst : EthAddr) : Ensures AnyError
      (ethernetOutput env netif q (env.netifs netif).hwaddr dst s) fun result => result.2.Sound :=
    (ethernetOutput_table ..).mono fun result same => sound.of_table same
  have unicast (dstAddr : UInt32) : Ensures AnyError
      (etharpOutputUnicast env netif q dstAddr s) fun result => result.2.Sound := by
    unfold etharpOutputUnicast
    dsimp only
    split
    · exact etharpOutputToArpIndex_sound sound netif q _
    split
    · rename_i i _
      have hinted : EtharpCache.Sound { s with cachedEntry := i } := sound.of_table rfl
      exact etharpOutputToArpIndex_sound hinted netif q i
    · exact etharpQuery_sound sound netif dstAddr (some q)
  unfold etharpOutput
  dsimp only
  split
  · exact direct ethbroadcast
  split
  · exact direct (ethMulticast ipaddr)
  split
  · split
    · exact unicast _
    · exact sound
  · exact unicast ipaddr

/-- Every call keeps the table sound. -/
theorem etharpEvent_sound (sound : s.Sound) (event : EtharpEvent) :
    Ensures AnyError (etharpEvent env s event) EtharpCache.Sound := by
  cases event with
  | query netif ipaddr q => exact (etharpQuery_sound sound netif ipaddr q).map
  | output netif q ipaddr => exact (etharpOutput_sound sound netif q ipaddr).map
  | input netif hdr => exact etharpInput_sound sound netif hdr
  | addStatic route ipaddr ethaddr =>
    exact (etharpAddStaticEntry_sound sound route ipaddr ethaddr).map
  | removeStatic ipaddr => exact (etharpRemoveStaticEntry_sound sound ipaddr).map
  | cleanup netif => exact etharpCleanupNetif_sound sound netif
  | tmr => exact etharpTmr_sound sound

end Calls

/-! ## Runs -/

theorem not_static_of_recycled {table : Fin arpTableSize → EtharpEntry} {i : Fin arpTableSize}
    (recycled : Recycled table (some i)) : (table i).state ≠ .static := by
  intro static
  rcases recycled with empty | ⟨-, stable | ⟨-, idle | ⟨-, pending⟩⟩⟩
  · rw [static] at empty
    cases empty
  · have kind := stable.1
    unfold IsStable at kind
    rw [static] at kind
    revert kind
    decide
  · have kind := idle.1.1
    rw [static] at kind
    cases kind
  · have kind : (table i).state = .pending := pending.1
    rw [static] at kind
    cases kind

/-- In every state of the ARP cache no two entries in use have the same address, packets are queued
only on pending entries and at most `ARP_QUEUE_LEN` on each, and `etharp_find_entry` recycles an
empty entry for a new address if there is one, otherwise the oldest stable one, otherwise the
oldest pending one without packets, otherwise the oldest pending one, and never a static one. -/
theorem etharp_cache_invariant {s : EtharpCache}
    (run : Run EtharpStep (fun _ _ => True) etharpInit s) :
    (∀ i j, (s.table i).state ≠ .empty → (s.table j).state ≠ .empty →
        (s.table i).ipaddr = (s.table j).ipaddr → i = j) ∧
      (∀ i, (s.table i).q ≠ [] → (s.table i).state = .pending) ∧
      (∀ i, (s.table i).q.length ≤ arpQueueLen) ∧
      ∀ env ipaddr flags, flags.tryHard = true → flags.findOnly = false →
        NoMatch s.table ipaddr →
        ∃ found, etharpFindEntry env ipaddr flags s = .ok found ∧
          Recycled s.table (found.map Prod.fst) ∧
          ∀ i s', found = some (i, s') →
            (s.table i).state ≠ .static ∧ (s'.table i).state = .empty ∧ (s'.table i).q = [] ∧
              ∀ j, j ≠ i → s'.table j = s.table j := by
  have kept (s : EtharpCache) (call : EtharpEnv × EtharpEvent) (s' : EtharpCache)
      (sound : s.Sound) (_ : True) (step : EtharpStep s call s') : s'.Sound :=
    (etharpEvent_sound sound call.2).of_ok step
  have sound := run.invariant sound_etharpInit kept
  refine ⟨sound.unique, fun i => (sound.entries i).pending, fun i => (sound.entries i).short, ?_⟩
  intro env ipaddr flags tryHard creates noMatch
  obtain ⟨result, returned, found⟩ := etharpFindEntry_spec env ipaddr flags sound
  refine ⟨result, returned, ?_⟩
  cases found with
  | used i used same => exact absurd same (noMatch i used)
  | new i entry others recycled empty noQueue address =>
    refine ⟨recycled, ?_⟩
    intro j s' same
    cases same
    rw [put_self]
    exact ⟨not_static_of_recycled recycled, empty, noQueue, fun j other => put_of_ne s entry other⟩
  | none others refused =>
    rw [tryHard, creates] at refused
    refine ⟨?_, nofun⟩
    rcases refused with wrong | wrong | recycled
    · cases wrong
    · cases wrong
    · exact recycled

/-- An interface with the address 192.168.0.1, on a host that has memory. -/
def plainEtharpEnv : EtharpEnv :=
  { netifs := fun _ =>
      { ipAddr := 0xc0a80001, netmask := 0xffffff00, gw := 0, broadcast := true, hwaddr := 1
        hwaddrLen := 6 }
    alloc := fun _ => true, malloc := true, room := true, linkoutput := .ok, lwipDebug := false }

/-- The cache behind the first query, for a packet to 192.168.0.2. -/
def queriedCache : EtharpCache :=
  match etharpEvent plainEtharpEnv etharpInit (.query 0 0xc0a80002 (some [pbufRam 16 [1]])) with
  | .ok s => s
  | .error _ => etharpInit

/-- The packet is queued, and the next address gets the second entry. -/
theorem etharp_cache_invariant_queried :
    Run EtharpStep (fun _ _ => True) etharpInit queriedCache ∧
      (queriedCache.table ⟨0, by decide⟩).state = .pending ∧
      (queriedCache.table ⟨0, by decide⟩).q.length = 1 ∧
      ∃ found, etharpFindEntry plainEtharpEnv (some 0xc0a80003) { tryHard := true } queriedCache =
          .ok found ∧ Recycled queriedCache.table (found.map Prod.fst) := by
  have step : EtharpStep etharpInit (plainEtharpEnv, .query 0 0xc0a80002 (some [pbufRam 16 [1]]))
      queriedCache := rfl
  have run : Run EtharpStep (fun _ _ => True) etharpInit queriedCache := Run.single _ trivial step
  have noMatch : NoMatch queriedCache.table (some 0xc0a80003) := by
    unfold NoMatch
    decide +kernel
  obtain ⟨found, returned, recycled, -⟩ := (etharp_cache_invariant run).2.2.2 plainEtharpEnv
    (some 0xc0a80003) { tryHard := true } rfl rfl noMatch
  exact ⟨run, by decide +kernel, by decide +kernel, found, returned, recycled⟩

end Lwip.Arp
