import Lwip.Core.Slipif
import Lwip.Verif.PbufData

/-!
# Packets on a serial line

`slipif_rxbyte` allocates a pbuf for the first byte of a packet and for each byte behind a full
pbuf. If that fails, the byte at hand is dropped and the next one tries again. So the receiver
stays in step with the sender, but a packet is returned without the bytes that were dropped: it is
the packet sent if no allocation for it has failed, and it is not returned at all if all of them
have failed.
-/

namespace Lwip.Slip

open List Overwrite

/-- The number of bytes in a pbuf of the receiver. -/
def slipifPbufLen : Nat := pbufPoolBufsize - pbufLinkHlen

/-- The receiver has received the bytes of a packet. -/
inductive Receives : List UInt8 → SlipifPriv → Prop
  | nothing : Receives [] {}
  | full (front : Chain) (data : List UInt8) (denotes : Denotes front data) (some' : data ≠ [])
      (ends : data.length % slipifPbufLen = 0) :
      Receives data { front := front, recved := data.length }
  | part (front : Chain) (q : Pbuf) (data room : List UInt8) (i : Nat)
      (denotes : Denotes (front ++ [q]) (data ++ room)) (begun : 0 < i) (left : room ≠ [])
      (rest : i + room.length = q.len) (size : q.len = slipifPbufLen)
      (place : data.length % slipifPbufLen = i) :
      Receives data { front := front, p := [q], i := i, recved := data.length }

variable {data room : List UInt8} {front : Chain} {q : Pbuf} {i : Nat} {priv : SlipifPriv}

theorem Receives.escape_eq (receives : Receives data priv) : priv.escape = false := by
  cases receives <;> rfl

theorem Receives.recved_eq (receives : Receives data priv) : priv.recved = data.length := by
  cases receives <;> rfl

theorem bytes_singleton (q : Pbuf) : Chain.bytes [q] = q.bytes := by simp [Chain.bytes]

theorem place_eq (denotes : Denotes (front ++ [q]) (data ++ room))
    (rest : i + room.length = q.len) : data.length = front.bytes.length + i := by
  have size := congrArg length denotes.bytes
  simp only [Chain.bytes_append, bytes_singleton, length_append,
    Pbuf.length_bytes (denotes.inMemory q (by simp))] at size
  omega

theorem slipifStore_receives {c : UInt8} (denotes : Denotes (front ++ [q]) (data ++ c :: room))
    (rest : i + (c :: room).length = q.len) (whole : q.len = slipifPbufLen)
    (at' : data.length % slipifPbufLen = i) (short : data.length ≤ slipMaxSize) (d : UInt8) :
    Receives (data ++ [d])
      (slipifStore d { front := front, p := [q], i := i, recved := data.length }) := by
  have inside := denotes.inMemory q (by simp)
  have place := place_eq denotes rest
  rw [length_cons] at rest
  have within : i + [d].length ≤ q.len := by rw [length_singleton]; omega
  have bytes := denotes.bytes
  rw [Chain.bytes_append, bytes_singleton] at bytes
  have written : Denotes (front ++ [q.write i [d]]) (data ++ [d] ++ room) := by
    refine (Refills.append front rfl
      (.cons (Pbuf.write_refilled inside within) .nil)).denotes denotes ?_
    have set := congrArg (overwrite · data.length [d]) bytes
    rw [overwrite_append_right _ _ (by omega), place, Nat.add_sub_cancel_left, ← place,
      overwrite_append_right _ _ (Nat.le_refl _)] at set
    rw [Chain.bytes_append, bytes_singleton, Pbuf.bytes_write inside within, set]
    simp [overwrite]
  have size : (q.write i [d]).len = q.len := rfl
  unfold slipifStore
  dsimp only
  rw [if_pos short]
  split
  · have none' : room = [] := length_eq_zero_iff.1 (by omega)
    rw [none', append_nil] at written
    have ends : (data ++ [d]).length % slipifPbufLen = 0 := by
      rw [length_append, length_singleton, ← Nat.mod_add_mod, at', ← whole]
      rw [show i + 1 = q.len by omega, Nat.mod_self]
    simpa using Receives.full _ _ written (by simp) ends
  · have left : room ≠ [] := fun empty => by simp [empty] at rest; omega
    have place' : (data ++ [d]).length % slipifPbufLen = i + 1 := by
      rw [length_append, length_singleton, ← Nat.mod_add_mod, at', ← whole]
      exact Nat.mod_eq_of_lt (by omega)
    simpa using Receives.part _ _ _ _ _ written (Nat.succ_pos i) left (by omega) whole place'

theorem denotes_pbufPool :
    Denotes ([] ++ [pbufPool pbufLinkHlen (replicate (pbufPoolBufsize - pbufLinkHlen) 0)])
      ([] ++ 0 :: replicate 111 0) :=
  Denotes.single (by decide +kernel) (by decide +kernel) rfl (by decide +kernel)

/-- Whether a byte is stored behind `n` others. An allocation is tried if the last pbuf is full. -/
def slipifKeeps (n : Nat) (alloc : Bool) : Bool := alloc || n % slipifPbufLen ≠ 0

/-- One more byte is stored if there is a pbuf for it, and nothing changes otherwise. -/
theorem slipifAlloc_stores (receives : Receives data priv) (short : data.length ≤ slipMaxSize)
    (alloc : Bool) :
    ∃ priv', slipifAlloc alloc priv = .ok priv' ∧
      ∀ c, Receives (data ++ if slipifKeeps data.length alloc then [c] else [])
        (slipifStore c priv') := by
  cases receives with
  | nothing =>
    cases alloc with
    | true => exact ⟨_, rfl, slipifStore_receives denotes_pbufPool rfl rfl rfl short⟩
    | false => exact ⟨_, rfl, fun c => .nothing⟩
  | full front _ denotes some' ends =>
    cases alloc with
    | true =>
      have joined := (pbufCat_ok_iff denotes.nonempty denotes_pbufPool.nonempty).2
        ⟨denotes.totLens.last, rfl⟩
      have whole := pbufCat_denotes denotes denotes_pbufPool
        (by simp [slipMaxSize] at short ⊢; omega) joined
      refine ⟨_, ?_, slipifStore_receives whole rfl rfl ends short⟩
      rw [slipifAlloc, if_neg (by simp), if_pos denotes.nonempty]
      dsimp only
      rw [← nil_append [pbufPool _ _], joined, ok_bind]
      simp
    | false =>
      refine ⟨_, rfl, fun c => ?_⟩
      have dropped : slipifKeeps data.length false = false := by simp [slipifKeeps, ends]
      rw [dropped, if_neg Bool.false_ne_true, append_nil]
      exact .full front data denotes some' ends
  | part _ _ _ _ _ denotes begun left rest size place =>
    obtain ⟨c, room, rfl⟩ := exists_cons_of_ne_nil left
    refine ⟨_, rfl, fun d => ?_⟩
    have kept : slipifKeeps data.length alloc = true := by
      simp only [slipifKeeps, place, Bool.or_eq_true, decide_eq_true_eq]
      exact .inr (Nat.pos_iff_ne_zero.1 begun)
    rw [kept, if_pos rfl]
    exact slipifStore_receives denotes rest size place short d

theorem pbufReallocLoop_last {grow : Int} {remLen : Nat} (small : grow < 65535)
    (inside : ∀ p ∈ front, p.payload + p.len ≤ p.mem.length) (low : front.bytes.length < remLen)
    (high : remLen ≤ front.bytes.length + q.len) :
    ∃ kept, pbufReallocLoop grow remLen (front ++ [q]) = .ok (kept, []) := by
  induction front generalizing remLen with
  | nil =>
    simp only [Chain.bytes, flatMap_nil, length_nil, Nat.zero_add] at high
    rw [nil_append, pbufReallocLoop, if_neg (Nat.not_lt.2 high), if_neg (by simp)]
    exact ⟨_, rfl⟩
  | cons p next ih =>
    have own := Pbuf.length_bytes (inside p mem_cons_self)
    rw [Chain.bytes_cons, length_append, own] at low high
    obtain ⟨kept, done⟩ := ih (fun r member => inside r (mem_cons_of_mem p member))
      (show _ < remLen - p.len by omega) (by omega)
    rw [cons_append, pbufReallocLoop, if_pos (by omega), lwipAssert_pos small, ok_bind, done]
    exact ⟨_, rfl⟩

theorem slipifRxbyte_end (receives : Receives data priv) (some' : data ≠ []) :
    ∃ q, slipifRxbyte priv true slipEnd = .ok (some q, {}) ∧ Denotes q data := by
  have positive := length_pos_iff.2 some'
  suffices ∃ kept rest, pbufRealloc (priv.front ++ priv.p) data.length = .ok (kept, rest) ∧
      Denotes kept data by
    obtain ⟨kept, rest, done, denotes⟩ := this
    refine ⟨kept, ?_, denotes⟩
    rw [slipifRxbyte, if_pos ⟨receives.escape_eq, rfl⟩, receives.recved_eq, if_pos positive, done]
    rfl
  cases receives with
  | nothing => exact absurd rfl some'
  | full front _ denotes _ _ =>
    refine ⟨front, [], ?_, denotes⟩
    rw [append_nil, pbufRealloc, lwipAssert_pos denotes.nonempty, ok_bind,
      if_pos (by rw [denotes.totLen_eq])]
  | part front q _ room i denotes begun left rest _ _ =>
    have place := place_eq denotes rest
    have size := denotes.totLen_eq
    have more := length_pos_iff.2 left
    rw [length_append] at size
    obtain ⟨kept, done⟩ := @pbufReallocLoop_last front q (data.length - (front ++ [q]).totLen)
      data.length (by omega) (fun p member => denotes.inMemory p (mem_append_left _ member))
      (by omega) (by omega)
    have returned : pbufRealloc (front ++ [q]) data.length = .ok (kept, []) := by
      rw [pbufRealloc, lwipAssert_pos denotes.nonempty, ok_bind, if_neg (by omega), done]
    refine ⟨kept, [], returned, ?_⟩
    have cut := (pbufRealloc_denotes denotes returned).1
    rwa [take_left' rfl] at cut

theorem slipifRxbytes_none {priv' : SlipifPriv} {alloc : Bool} {c : UInt8}
    (step : slipifRxbyte priv alloc c = .ok (none, priv')) (more : List (Bool × UInt8)) :
    slipifRxbytes ((alloc, c) :: more) priv = slipifRxbytes more priv' := by
  rw [slipifRxbytes, step, ok_bind]
  cases slipifRxbytes more priv' <;> rfl

/-- The characters of a byte. No allocation is tried at `SLIP_ESC`. -/
theorem slipifRxbytes_escape (receives : Receives data priv) (short : data.length ≤ slipMaxSize)
    (alloc : Bool) (c : UInt8) :
    ∃ priv', Receives (data ++ if slipifKeeps data.length alloc then [c] else []) priv' ∧
      ∀ more, slipifRxbytes ((slipifEscape c).map (Prod.mk alloc) ++ more) priv =
        slipifRxbytes more priv' := by
  obtain ⟨after, done, stored⟩ := slipifAlloc_stores receives short alloc
  refine ⟨_, stored c, fun more => ?_⟩
  have normal := receives.escape_eq
  have same : { priv with escape := false } = priv := by rw [← normal]
  have escaped : ∀ code, slipifRxbytes ((alloc, slipEsc) :: (alloc, code) :: more) priv =
      slipifRxbytes more (slipifStore (slipifUnescape code) after) := by
    intro code
    have first : slipifRxbyte priv alloc slipEsc = .ok (none, { priv with escape := true }) := by
      rw [slipifRxbyte, if_neg (by simp [slipEsc, slipEnd]), if_pos ⟨normal, rfl⟩]
    refine (slipifRxbytes_none first _).trans (slipifRxbytes_none ?_ more)
    rw [slipifRxbyte, if_neg (by simp), if_neg (by simp)]
    simp only [if_true, same, done, ok_bind]
  unfold slipifEscape
  split
  · rename_i isEnd
    rw [isEnd]
    exact escaped slipEscEnd
  split
  · rename_i isEsc
    rw [isEsc]
    exact escaped slipEscEsc
  · rename_i notEnd notEsc
    refine slipifRxbytes_none ?_ more
    rw [slipifRxbyte, if_neg (by simp [notEnd]), if_neg (by simp [notEsc])]
    simp only [normal, Bool.false_eq_true, if_false, same, done, ok_bind]

/-! ## Packets with failing allocations -/

/-- A packet as it is heard: the characters that `slipif_output` sends for its bytes, with the
outcome of an allocation at each byte. None is tried at the ends. -/
def slipifHeard (data : List (Bool × UInt8)) : List (Bool × UInt8) :=
  (true, slipEnd) :: data.flatMap (fun c => (slipifEscape c.2).map (Prod.mk c.1)) ++
    [(true, slipEnd)]

/-- The bytes of a packet that are stored behind `n` others. -/
def slipifKept (n : Nat) : List (Bool × UInt8) → List UInt8
  | [] => []
  | (alloc, c) :: more =>
    if slipifKeeps n alloc then c :: slipifKept (n + 1) more else slipifKept n more

/-- No allocation fails for the bytes of a packet behind the first `n`: there is a pbuf for every
`slipifPbufLen`-th byte. -/
def allAllocated (n : Nat) : List (Bool × UInt8) → Bool
  | [] => true
  | (alloc, _) :: more => (alloc || n % slipifPbufLen ≠ 0) && allAllocated (n + 1) more

/-- No allocation succeeds at any byte of a packet. -/
def noneAllocated (data : List (Bool × UInt8)) : Bool := data.all fun c => !c.1

variable {heard : List (List (Bool × UInt8))}

theorem length_slipifKept_le (n : Nat) (data : List (Bool × UInt8)) :
    (slipifKept n data).length ≤ data.length := by
  induction data generalizing n with
  | nil => exact Nat.le_refl 0
  | cons c more ih =>
    rw [slipifKept, length_cons]
    split
    · exact Nat.succ_le_succ (ih (n + 1))
    · exact Nat.le_succ_of_le (ih n)

/-- A packet is stored as it is exactly if no allocation fails. -/
theorem slipifKept_eq_iff (n : Nat) (data : List (Bool × UInt8)) :
    slipifKept n data = data.map Prod.snd ↔ allAllocated n data = true := by
  induction data generalizing n with
  | nil => exact ⟨fun _ => rfl, fun _ => rfl⟩
  | cons c more ih =>
    obtain ⟨alloc, c⟩ := c
    rw [slipifKept, allAllocated, Bool.and_eq_true, ← ih, map_cons]
    by_cases kept : slipifKeeps n alloc = true
    · rw [if_pos kept, cons.injEq]
      exact ⟨fun same => ⟨kept, same.2⟩, fun same => ⟨rfl, same.2⟩⟩
    · rw [if_neg kept]
      constructor
      · intro same
        have short := length_slipifKept_le n more
        rw [same, length_cons, length_map] at short
        exact absurd short (Nat.not_succ_le_self _)
      · exact fun all => absurd all.1 kept

/-- Nothing is stored exactly if all allocations fail. -/
theorem slipifKept_eq_nil_iff (data : List (Bool × UInt8)) :
    slipifKept 0 data = [] ↔ noneAllocated data = true := by
  induction data with
  | nil => exact ⟨fun _ => rfl, fun _ => rfl⟩
  | cons c more ih =>
    obtain ⟨alloc, c⟩ := c
    rw [slipifKept]
    cases alloc with
    | true => simp [slipifKeeps, noneAllocated]
    | false =>
      rw [if_neg (by decide), ih]
      simp [noneAllocated]

/-- The characters of the bytes of a packet. -/
theorem slipifRxbytes_packet (receives : Receives data priv) (more : List (Bool × UInt8))
    (short : data.length + more.length ≤ slipMaxSize + 1) :
    ∃ priv', Receives (data ++ slipifKept data.length more) priv' ∧ ∀ rest,
      slipifRxbytes (more.flatMap (fun c => (slipifEscape c.2).map (Prod.mk c.1)) ++ rest) priv =
        slipifRxbytes rest priv' := by
  induction more generalizing data priv with
  | nil => exact ⟨priv, by simpa [slipifKept] using receives, fun rest => rfl⟩
  | cons c more ih =>
    obtain ⟨alloc, c⟩ := c
    rw [length_cons] at short
    obtain ⟨middle, one, first⟩ := slipifRxbytes_escape receives (by omega) alloc c
    rw [slipifKept]
    simp only [flatMap_cons, append_assoc, first]
    by_cases kept : slipifKeeps data.length alloc = true
    · rw [if_pos kept] at one ⊢
      obtain ⟨priv', all, others⟩ := ih one (by rw [length_append, length_singleton]; omega)
      rw [length_append, length_singleton, append_assoc, singleton_append] at all
      exact ⟨priv', all, others⟩
    · rw [if_neg kept, append_nil] at one
      rw [if_neg kept]
      exact ih one (by omega)

/-- A whole packet: the receiver returns the bytes it has stored, if there are any, and starts
again. -/
theorem slipifRxbytes_heard {data : List (Bool × UInt8)} (short : data.length ≤ 1500) :
    ∃ returned : Option Chain,
      List.Forall₂ Denotes returned.toList ([slipifKept 0 data].filter (!·.isEmpty)) ∧
        ∀ received rest, slipifRxbytes rest {} = .ok (received, {}) →
          slipifRxbytes (slipifHeard data ++ rest) {} = .ok (returned.toList ++ received, {}) := by
  obtain ⟨priv, filled, body⟩ := slipifRxbytes_packet .nothing data
    (by simp only [length_nil, slipMaxSize]; omega)
  rw [nil_append, length_nil] at filled
  have characters : ∀ rest, slipifRxbytes (slipifHeard data ++ rest) {} =
      slipifRxbytes ((true, slipEnd) :: rest) priv := by
    intro rest
    rw [slipifHeard, append_assoc, cons_append]
    exact (slipifRxbytes_none rfl _).trans (body _)
  by_cases kept : slipifKept 0 data = []
  · rw [kept] at filled
    have idle : priv = {} := by
      cases filled with
      | nothing => rfl
      | full _ _ _ some' _ => exact absurd rfl some'
      | part _ _ _ _ _ _ begun _ _ _ place => exact absurd place (Nat.ne_of_lt begun)
    refine ⟨none, by rw [kept]; exact .nil, fun received rest done => ?_⟩
    rw [characters, idle]
    exact (slipifRxbytes_none rfl _).trans done
  · obtain ⟨q, done, returned⟩ := slipifRxbyte_end filled kept
    refine ⟨some q, ?_, fun received rest behind => ?_⟩
    · rw [filter_cons_of_pos (by simpa using kept), filter_nil]
      exact .cons returned .nil
    · rw [characters, slipifRxbytes, done, ok_bind, behind]
      rfl

/-- The characters that are heard are those sent. -/
theorem heard_eq_sent {packets : List Chain}
    (denotes : List.Forall₂ (fun p data => Denotes p (data.map Prod.snd)) packets heard) :
    (heard.flatMap slipifHeard).map Prod.snd = packets.flatMap slipifOutput := by
  induction denotes with
  | nil => rfl
  | cons here behind ih =>
    rename_i p data packets heard
    have body : (data.flatMap fun c => (slipifEscape c.2).map (Prod.mk c.1)).map Prod.snd =
        (data.map Prod.snd).flatMap slipifEscape := by
      simp [map_flatMap, flatMap_map, Function.comp_def]
    rw [flatMap_cons, flatMap_cons, map_append, ih, slipifOutput, here.bytes, ← body, slipifHeard]
    simp

/-- The receiver returns what it has stored of each packet. -/
theorem slipifRxbytes_packets (sizes : ∀ data ∈ heard, data.length ≤ 1500) :
    ∃ received, slipifRxbytes (heard.flatMap slipifHeard) {} = .ok (received, {}) ∧
      List.Forall₂ Denotes received ((heard.map (slipifKept 0)).filter (!·.isEmpty)) := by
  induction heard with
  | nil => exact ⟨[], rfl, .nil⟩
  | cons data heard ih =>
    obtain ⟨received, done, others⟩ := ih fun data member => sizes data (mem_cons_of_mem _ member)
    obtain ⟨returned, here, packet⟩ := slipifRxbytes_heard (sizes data mem_cons_self)
    refine ⟨returned.toList ++ received, packet received _ done, ?_⟩
    rw [map_cons, ← singleton_append, filter_append]
    exact rel_append here others

/-- Chains denote one string each. -/
theorem denotes_unique {received : List Chain} {some' other : List (List UInt8)}
    (here : List.Forall₂ Denotes received some') (there : List.Forall₂ Denotes received other) :
    some' = other := by
  induction here generalizing other with
  | nil => cases there; rfl
  | cons first _ ih =>
    cases there with
    | cons second behind => rw [← first.bytes, ← second.bytes, ih behind]

/-- Something is stored of a packet for which no allocation fails. -/
theorem slipifKept_ne_nil {data : List (Bool × UInt8)} (positive : 1 ≤ data.length)
    (whole : allAllocated 0 data = true) : slipifKept 0 data ≠ [] := by
  rw [(slipifKept_eq_iff 0 data).2 whole]
  exact fun empty => by simp [map_eq_nil_iff.1 empty] at positive

/-- No more packets are stored as they are than are stored in part or as they are. -/
theorem length_whole_le (sizes : ∀ data ∈ heard, 1 ≤ data.length) :
    (heard.filter (allAllocated 0)).length ≤
      ((heard.map (slipifKept 0)).filter (!·.isEmpty)).length := by
  rw [← countP_eq_length_filter, ← countP_eq_length_filter, countP_map]
  apply countP_mono_left
  intro data member whole
  simpa using slipifKept_ne_nil (sizes data member) whole

/-- The packets of which something is stored, and those of which everything is: they are the same
exactly if no packet is stored in part. -/
theorem kept_eq_whole_iff (sizes : ∀ data ∈ heard, 1 ≤ data.length) :
    (heard.map (slipifKept 0)).filter (!·.isEmpty) =
        (heard.filter (allAllocated 0)).map (·.map Prod.snd) ↔
      ∀ data ∈ heard, allAllocated 0 data = true ∨ noneAllocated data = true := by
  induction heard with
  | nil => simp
  | cons data heard ih =>
    have others : ∀ data ∈ heard, 1 ≤ data.length :=
      fun data member => sizes data (mem_cons_of_mem _ member)
    rw [forall_mem_cons, ← ih others, map_cons]
    by_cases whole : allAllocated 0 data = true
    · have some' := slipifKept_ne_nil (sizes data mem_cons_self) whole
      rw [filter_cons_of_pos (by simpa using some'), filter_cons_of_pos whole, map_cons,
        (slipifKept_eq_iff 0 data).2 whole, cons.injEq]
      simp [whole]
    · rw [@filter_cons_of_neg _ (allAllocated 0) _ _ whole]
      by_cases none' : noneAllocated data = true
      · have kept := (slipifKept_eq_nil_iff data).2 none'
        rw [filter_cons_of_neg (by simp [kept])]
        simp [none']
      · have kept := fun empty => none' ((slipifKept_eq_nil_iff data).1 empty)
        rw [filter_cons_of_pos (by simpa using kept)]
        constructor
        · intro same
          have less := length_whole_le others
          have size := congrArg length same
          rw [length_cons, length_map] at size
          omega
        · intro both
          exact absurd both.1 (by simp [whole, none'])

/-- Packets of 1 to 1500 bytes are sent, and allocations fail at any bytes of them. The receiver
returns what it has stored of each packet, in their order, and is in step at the end. It returns
the packets for which no allocation has failed, and nothing else, exactly if for each packet no
allocation has failed or all of them have. -/
theorem slip_receives_sent (packets : List Chain) (heard : List (List (Bool × UInt8)))
    (denotes : List.Forall₂ (fun p data => Denotes p (data.map Prod.snd)) packets heard)
    (sizes : ∀ data ∈ heard, 1 ≤ data.length ∧ data.length ≤ 1500) :
    (heard.flatMap slipifHeard).map Prod.snd = packets.flatMap slipifOutput ∧
      ∃ received, slipifRxbytes (heard.flatMap slipifHeard) {} = .ok (received, {}) ∧
        List.Forall₂ Denotes received ((heard.map (slipifKept 0)).filter (!·.isEmpty)) ∧
        (List.Forall₂ Denotes received
            ((heard.filter (allAllocated 0)).map (·.map Prod.snd)) ↔
          ∀ data ∈ heard, allAllocated 0 data = true ∨ noneAllocated data = true) := by
  constructor
  · exact heard_eq_sent denotes
  obtain ⟨received, done, returned⟩ := slipifRxbytes_packets fun data member =>
    (sizes data member).2
  refine ⟨received, done, returned, ?_⟩
  rw [← kept_eq_whole_iff fun data member => (sizes data member).1]
  constructor
  · intro whole
    exact denotes_unique returned whole
  · intro same
    rw [← same]
    exact returned

/-- A data set for the theorem: all allocations for the second packet fail. -/
theorem slip_receives_sent_two : ∃ received,
    slipifRxbytes ([[(true, 0xC0), (false, 2)], [(false, 3), (false, 0xDB)],
      [(true, 0xDB)]].flatMap slipifHeard) {} = .ok (received, {}) ∧
        List.Forall₂ Denotes received [[0xC0, 2], [0xDB]] := by
  obtain ⟨_, received, done, _, whole⟩ := slip_receives_sent
    [[pbufPool 0 [0xC0, 2]], [pbufPool 0 [3, 0xDB]], [pbufPool 0 [0xDB]]]
    [[(true, 0xC0), (false, 2)], [(false, 3), (false, 0xDB)], [(true, 0xDB)]]
    (.cons (Denotes.single (by decide +kernel) (by decide +kernel) rfl (by decide))
      (.cons (Denotes.single (by decide +kernel) (by decide +kernel) rfl (by decide))
        (.cons (Denotes.single (by decide +kernel) (by decide +kernel) rfl (by decide)) .nil)))
    (by decide)
  exact ⟨received, done, whole.2 (by decide)⟩

/-- If there is no pbuf for the first byte of a packet, the rest of it is returned. -/
theorem slip_loses_byte :
    slipifOutput [pbufPool 0 [1, 2]] = [slipEnd, 1, 2, slipEnd] ∧
      (slipifRxbytes [(true, slipEnd), (false, 1), (true, 2), (true, slipEnd)] {}).map
        (fun result => result.1.map Chain.bytes) = .ok [[2]] := by
  decide +kernel

end Lwip.Slip
