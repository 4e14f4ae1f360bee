import Lwip.Core.PbufData
import Lwip.Verif.Pbuf

/-!
# Access to the data of a chain agrees with the string

The functions that read, write, compare and search the data of a chain do what the operation on
the string of its bytes does, wherever the string is cut into pbufs and wherever those are empty.
The one exception is `pbuf_take_at`, which refuses to write nothing at the end of the string: no
pbuf holds that offset. `pbuf_copy` fills the front of its target; a chain with a pbuf that ends a
packet in front of other pbufs is a packet queue, and is left out.
-/

namespace Lwip

open Overwrite List

variable {p p' : Pbuf} {offset : Nat} {c c' next : Chain} {b : List UInt8}

/-! ## Writing into a pbuf -/

/-- Only bytes of the payload of a pbuf have changed. -/
structure Refilled (p p' : Pbuf) : Prop where
  fields : p' = { p with mem := p'.mem }
  length : p'.mem.length = p.mem.length
  front : p'.mem.take p.payload = p.mem.take p.payload
  back : p'.mem.drop (p.payload + p.len) = p.mem.drop (p.payload + p.len)

theorem Refilled.refl (p : Pbuf) : Refilled p p := ⟨rfl, rfl, rfl, rfl⟩

theorem Refilled.len_eq (refilled : Refilled p p') : p'.len = p.len := by
  rw [refilled.fields]

theorem Refilled.totLen_eq (refilled : Refilled p p') : p'.totLen = p.totLen := by
  rw [refilled.fields]

theorem Refilled.payload_eq (refilled : Refilled p p') : p'.payload = p.payload := by
  rw [refilled.fields]

theorem Refilled.trans {q r : Pbuf} (first : Refilled p q) (second : Refilled q r) :
    Refilled p r where
  fields := by
    rw [second.fields, first.fields]
  length := second.length.trans first.length
  front := by
    rw [← first.front, ← first.payload_eq]
    exact second.front
  back := by
    rw [← first.back, ← first.payload_eq, ← first.len_eq]
    exact second.back

/-- The memory of a pbuf is what lies in front of the payload, the payload, and the rest. -/
theorem Pbuf.mem_eq (p : Pbuf) :
    p.mem = p.mem.take p.payload ++ (p.bytes ++ p.mem.drop (p.payload + p.len)) := by
  rw [Pbuf.bytes, ← drop_drop, take_append_drop, take_append_drop]

section

variable {data : List UInt8} (inside : p.payload + p.len ≤ p.mem.length)
  (within : offset + data.length ≤ p.len)

include inside

theorem Pbuf.length_front : (p.mem.take p.payload).length = p.payload := by
  rw [length_take]
  omega

include within

/-- The memory of a pbuf with bytes of its payload overwritten. -/
theorem Pbuf.mem_write :
    (p.write offset data).mem = p.mem.take p.payload ++
      (overwrite p.bytes offset data ++ p.mem.drop (p.payload + p.len)) := by
  have front := Pbuf.length_front inside
  have own := Pbuf.length_bytes inside
  show overwrite p.mem (p.payload + offset) data = _
  conv => lhs; rw [p.mem_eq]
  rw [overwrite_append_right _ _ (by omega), front, Nat.add_sub_cancel_left,
    overwrite_append_left _ (by omega)]

theorem Pbuf.length_written : (overwrite p.bytes offset data).length = p.len := by
  have own := Pbuf.length_bytes inside
  rw [length_overwrite (by omega), own]

theorem Pbuf.bytes_write :
    (p.write offset data).bytes = overwrite p.bytes offset data := by
  have front := Pbuf.length_front inside
  have length := Pbuf.length_written inside within
  show ((p.write offset data).mem.drop p.payload).take p.len = _
  rw [Pbuf.mem_write inside within, drop_left' front, take_left' length]

/-- Writing into a pbuf changes bytes of its payload only. -/
theorem Pbuf.write_refilled :
    Refilled p (p.write offset data) where
  fields := rfl
  length := length_overwrite (by omega)
  front := by
    rw [Pbuf.mem_write inside within, List.take_left' (Pbuf.length_front inside)]
  back := by
    have front := Pbuf.length_front inside
    have length := Pbuf.length_written inside within
    rw [Pbuf.mem_write inside within, ← List.drop_drop, List.drop_left' front,
      List.drop_left' length]

end

/-- Only bytes of the payloads of a chain have changed. -/
abbrev Refills (c c' : Chain) : Prop := List.Forall₂ Refilled c c'

theorem Refills.refl (c : Chain) : Refills c c := by
  induction c with
  | nil => exact .nil
  | cons p next ih => exact .cons (Refilled.refl p) ih

theorem Refills.trans {d e : Chain} (first : Refills c d) (second : Refills d e) : Refills c e := by
  induction first generalizing e with
  | nil => exact second
  | cons head tail ih =>
    cases second with
    | cons head' tail' => exact .cons (head.trans head') (ih tail')

theorem Refills.totLen_eq (refills : Refills c c') : c'.totLen = c.totLen := by
  cases refills with
  | nil => rfl
  | cons first rest => exact first.totLen_eq

theorem Refills.totLens (refills : Refills c c') (lens : TotLens c) : TotLens c' := by
  induction refills with
  | nil => exact lens
  | cons first rest ih =>
    refine ⟨?_, ih lens.2⟩
    rw [first.totLen_eq, first.len_eq, Refills.totLen_eq rest]
    exact lens.1

/-- The payloads of a chain are still inside their memory. -/
theorem Refills.inMemory (refills : Refills c c')
    (inside : ∀ p ∈ c, p.payload + p.len ≤ p.mem.length) :
    ∀ p ∈ c', p.payload + p.len ≤ p.mem.length := by
  induction refills with
  | nil => exact inside
  | cons first rest ih =>
    intro q member
    cases mem_cons.1 member with
    | inl head =>
      rw [head, first.payload_eq, first.len_eq, first.length]
      exact inside _ mem_cons_self
    | inr tail => exact ih (fun p deeper => inside p (mem_cons_of_mem _ deeper)) q tail

/-- A chain with other data denotes the string of its bytes. -/
theorem Refills.denotes {b' : List UInt8} (refills : Refills c c') (denotes : Denotes c b)
    (bytes : c'.bytes = b') : Denotes c' b' := by
  have lens := refills.totLens denotes.totLens
  have inside := refills.inMemory denotes.inMemory
  have count := lens.totLen_eq inside
  rw [refills.totLen_eq, denotes.totLen_eq, bytes] at count
  refine ⟨?_, lens, inside, count ▸ denotes.fits, bytes⟩
  intro empty
  rw [empty] at refills
  exact denotes.nonempty (forall₂_nil_right_iff.1 refills)

/-! ## Taking data -/

/-- `pbuf_take` fills the front of a chain that is large enough. -/
theorem pbufTakeLoop_spec (inside : ∀ p ∈ c, p.payload + p.len ≤ p.mem.length) {data : List UInt8}
    (room : data.length ≤ c.bytes.length) :
    ∃ c', pbufTakeLoop c data = .ok c' ∧ Refills c c' ∧ c'.bytes = overwrite c.bytes 0 data := by
  induction c generalizing data with
  | nil =>
    have none' : data = [] := length_eq_zero_iff.1 (Nat.le_zero.1 room)
    subst none'
    exact ⟨[], rfl, .nil, rfl⟩
  | cons p next ih =>
    unfold pbufTakeLoop
    by_cases none' : data = []
    · subst none'
      exact ⟨p :: next, rfl, Refills.refl _, (overwrite_nil _ _).symm⟩
    rw [if_neg none']
    dsimp only
    have memory := inside p mem_cons_self
    have own := Pbuf.length_bytes memory
    rw [Chain.bytes_cons, length_append, own] at room
    have fewer : (data.drop (min data.length p.len)).length ≤ (Chain.bytes next).length := by
      rw [length_drop]
      omega
    have taken : (data.take (min data.length p.len)).length = min data.length p.len := by
      rw [length_take]
      omega
    obtain ⟨next', done, refills, bytes⟩ :=
      ih (fun q member => inside q (mem_cons_of_mem p member)) fewer
    have within : 0 + (data.take (min data.length p.len)).length ≤ p.len := by omega
    refine ⟨_ :: next', by rw [done]; rfl, .cons (Pbuf.write_refilled memory within) refills, ?_⟩
    rw [Chain.bytes_cons, Chain.bytes_cons, Pbuf.bytes_write memory within, bytes]
    by_cases short : data.length ≤ p.len
    · -- the data ends in this pbuf
      have rest : data.drop (min data.length p.len) = [] := drop_of_length_le (by omega)
      have whole : data.take (min data.length p.len) = data := take_of_length_le (by omega)
      rw [rest, whole, overwrite_nil, overwrite_append_left _ (by omega)]
    · have border : 0 + (data.take (min data.length p.len)).length = p.bytes.length := by omega
      rw [← overwrite_across _ _ _ border, take_append_drop]

/-- What `pbuf_take_at` does to a string: the value returned and the string afterwards. -/
def takeAt (b data : List UInt8) (offset : Nat) : Err × List UInt8 :=
  if offset + data.length ≤ b.length then (.ok, overwrite b offset data) else (.mem, b)

/-- `pbuf_take` writes to the front of the string. -/
theorem pbufTake_spec (denotes : Denotes c b) (data : List UInt8) :
    ∃ c', pbufTake c data = .ok ((takeAt b data 0).1, c') ∧ Refills c c' ∧
      c'.bytes = (takeAt b data 0).2 := by
  have count := denotes.totLen_eq
  have bytes := denotes.bytes
  unfold pbufTake takeAt
  rw [if_neg denotes.nonempty, count]
  by_cases room : data.length ≤ b.length
  · rw [if_neg (by omega), if_pos (by omega)]
    obtain ⟨c', done, refills, written⟩ := pbufTakeLoop_spec denotes.inMemory (bytes ▸ room)
    exact ⟨c', by rw [done]; rfl, refills, bytes ▸ written⟩
  · rw [if_pos (by omega), if_neg (by omega)]
    exact ⟨c, rfl, Refills.refl c, bytes⟩

/-! ## Skipping to an offset -/

/-- Where `pbuf_skip` stops: an offset into a pbuf, or the end of the chain. -/
structure Skipped (c : Chain) (offset : Nat) (before behind : Chain) (rest : Nat) : Prop where
  split : c = before ++ behind
  offset : offset = before.bytes.length + rest
  inside : ∀ q next, behind = q :: next → rest < q.len

/-- `pbuf_skip` finds the pbuf that an offset lies in. -/
theorem pbufSkip_spec (inside : ∀ p ∈ c, p.payload + p.len ≤ p.mem.length) (offset : Nat) :
    Skipped c offset (pbufSkip c offset).1 (pbufSkip c offset).2.1
      (pbufSkip c offset).2.2 := by
  have found : ∃ before, Skipped c offset before (pbufSkipConst c offset).1
      (pbufSkipConst c offset).2 := by
    induction c generalizing offset with
    | nil => exact ⟨[], rfl, (Nat.zero_add _).symm, fun _ _ some' => nomatch some'⟩
    | cons q next ih =>
      unfold pbufSkipConst
      split
      · rename_i skipped
        have own := Pbuf.length_bytes (inside q mem_cons_self)
        obtain ⟨before, found⟩ :=
          ih (fun p member => inside p (mem_cons_of_mem q member)) (offset - q.len)
        refine ⟨q :: before, ?_, ?_, found.inside⟩
        · rw [cons_append, ← found.split]
        · have behind := found.offset
          rw [Chain.bytes_cons, length_append, own]
          omega
      · rename_i here
        refine ⟨[], rfl, (Nat.zero_add _).symm, ?_⟩
        intro p more same
        cases same
        exact Nat.lt_of_not_le here
  obtain ⟨before, found⟩ := found
  have front : c.take (c.length - (pbufSkipConst c offset).1.length) = before := by
    have whole := found.split
    generalize (pbufSkipConst c offset).1 = behind at whole
    rw [whole, length_append, Nat.add_sub_cancel, take_left]
  unfold pbufSkip
  dsimp only
  rw [front]
  exact found

/-- The offset is behind the end of the string if there is no pbuf for it. -/
theorem Skipped.beyond {before : Chain} {rest : Nat} (skipped : Skipped c offset before [] rest) :
    c.bytes.length ≤ offset := by
  rw [skipped.split, append_nil, skipped.offset]
  exact Nat.le_add_right _ _

/-- The offset is inside the string if there is a pbuf for it. -/
theorem Skipped.within {before : Chain} {q : Pbuf} {rest : Nat}
    (skipped : Skipped c offset before (q :: next) rest)
    (inside : ∀ p ∈ c, p.payload + p.len ≤ p.mem.length) : offset < c.bytes.length := by
  have whole := skipped.split
  have memory : q.payload + q.len ≤ q.mem.length :=
    inside q (by rw [whole]; exact mem_append_right _ mem_cons_self)
  have own := Pbuf.length_bytes memory
  have here := skipped.inside q next rfl
  have place := skipped.offset
  rw [whole, Chain.bytes_append, Chain.bytes_cons, length_append, length_append]
  omega

/-- A change of the second part of a chain. -/
theorem Refills.append {behind' : Chain} (before : Chain) {behind : Chain}
    (split : c = before ++ behind) (refills : Refills behind behind') :
    Refills c (before ++ behind') := by
  rw [split]
  exact rel_append (Refills.refl before) refills

/-- `pbuf_put_at` writes one byte of the string, and nothing beyond its end. -/
theorem pbufPutAt_spec (denotes : Denotes c b) (offset : Nat) (data : UInt8) :
    Refills c (pbufPutAt c offset data) ∧
      (pbufPutAt c offset data).bytes = b.set offset data := by
  have skipped := pbufSkip_spec denotes.inMemory offset
  have bytes := denotes.bytes
  unfold pbufPutAt
  rcases found : pbufSkip c offset with ⟨before, behind, qIdx⟩
  rw [found] at skipped
  cases behind with
  | nil =>
    have beyond := skipped.beyond
    rw [bytes] at beyond
    refine ⟨Refills.refl c, ?_⟩
    rw [bytes, set_eq_of_length_le beyond]
  | cons q next =>
    have here := skipped.inside q next rfl
    have place := skipped.offset
    have split := skipped.split
    have memory : q.payload + q.len ≤ q.mem.length :=
      denotes.inMemory q (by rw [split]; exact mem_append_right _ mem_cons_self)
    have own := Pbuf.length_bytes memory
    have within : qIdx + [data].length ≤ q.len := here
    dsimp only
    rw [if_pos here]
    constructor
    · exact Refills.append before split (.cons (Pbuf.write_refilled memory within)
        (Refills.refl next))
    rw [← bytes, split, Chain.bytes_append, Chain.bytes_append, Chain.bytes_cons,
      Chain.bytes_cons, Pbuf.bytes_write memory within, set_append_right _ _ (by omega),
      set_append_left _ _ (by omega), place, Nat.add_sub_cancel_left]
    congr 2
    rw [set_eq_take_cons_drop]
    · simp [overwrite]
    · omega

/-- `pbuf_take_at` writes into the string if an offset inside it is given; at the end of the string
and beyond, it refuses. -/
theorem pbufTakeAt_eq (denotes : Denotes c b) (data : List UInt8) (offset : Nat) :
    ∃ c', pbufTakeAt c data offset =
        .ok (if offset < b.length then (takeAt b data offset).1 else .mem, c') ∧ Refills c c' ∧
      c'.bytes = if offset < b.length then (takeAt b data offset).2 else b := by
  have skipped := pbufSkip_spec denotes.inMemory offset
  have bytes := denotes.bytes
  unfold pbufTakeAt
  rcases found : pbufSkip c offset with ⟨before, behind, targetOffset⟩
  rw [found] at skipped
  dsimp only at skipped ⊢
  cases behind with
  | nil =>
    have beyond := skipped.beyond
    rw [bytes] at beyond
    rw [if_neg (by omega), if_neg (by omega)]
    exact ⟨c, rfl, Refills.refl c, bytes⟩
  | cons q next =>
    have within := skipped.within denotes.inMemory
    have here := skipped.inside q next rfl
    have place := skipped.offset
    have split := skipped.split
    have lens : TotLens (q :: next) := (split ▸ denotes.totLens : TotLens (before ++ _)).of_append
    have memory : ∀ p ∈ q :: next, p.payload + p.len ≤ p.mem.length := fun p member =>
      denotes.inMemory p (by rw [split]; exact mem_append_right _ member)
    have count := lens.totLen_eq memory
    have own := Pbuf.length_bytes (memory q mem_cons_self)
    have length : b.length = (Chain.bytes before).length + q.totLen := by
      rw [← bytes, split, Chain.bytes_append, length_append, ← count]
      rfl
    rw [bytes] at within
    rw [if_pos within, if_pos within]
    unfold takeAt
    dsimp only
    by_cases room : q.totLen ≥ targetOffset + data.length
    · have fits : offset + data.length ≤ b.length := by omega
      have taken : (data.take (min (q.len - targetOffset) data.length)).length =
          min (q.len - targetOffset) data.length := by
        rw [length_take]
        omega
      have first : targetOffset + (data.take (min (q.len - targetOffset) data.length)).length ≤
          q.len := by omega
      have refilled := Pbuf.write_refilled (memory q mem_cons_self) first
      have written := Pbuf.bytes_write (memory q mem_cons_self) first
      have flat : overwrite b offset data =
          Chain.bytes before ++ overwrite (Chain.bytes (q :: next)) targetOffset data := by
        rw [← bytes, split, Chain.bytes_append, overwrite_append_right _ _ (by omega), place,
          Nat.add_sub_cancel_left]
      rw [if_pos room, if_pos fits]
      rw [flat]
      by_cases more : data.length - min (q.len - targetOffset) data.length > 0
      · rw [if_pos more]
        have border : targetOffset + (data.take (min (q.len - targetOffset) data.length)).length =
            q.bytes.length := by omega
        have behind : q.totLen = q.len + (Chain.bytes next).length := by
          rw [Chain.bytes_cons, length_append, own] at count
          exact count
        have some' : next ≠ [] := by
          intro none'
          rw [none'] at behind
          simp only [Chain.bytes, flatMap_nil, length_nil] at behind
          omega
        have rest : Denotes next (Chain.bytes next) := by
          refine ⟨some', lens.2, fun p member => memory p (mem_cons_of_mem q member), ?_, rfl⟩
          have limit := denotes.fits
          omega
        obtain ⟨next', done, refills, bytes'⟩ :=
          pbufTake_spec rest (data.drop (min (q.len - targetOffset) data.length))
        have enough : 0 + (data.drop (min (q.len - targetOffset) data.length)).length ≤
            (Chain.bytes next).length := by
          rw [length_drop]
          omega
        unfold takeAt at done bytes'
        rw [if_pos enough] at done bytes'
        refine ⟨before ++ _ :: next', by rw [done]; rfl, ?_, ?_⟩
        · exact Refills.append before split (.cons refilled refills)
        · rw [Chain.bytes_append, Chain.bytes_cons, Chain.bytes_cons, written, bytes',
            ← overwrite_across _ _ _ border, take_append_drop]
      · rw [if_neg more]
        have whole : data.take (min (q.len - targetOffset) data.length) = data :=
          take_of_length_le (by omega)
        refine ⟨_, rfl, Refills.append before split (.cons refilled (Refills.refl next)), ?_⟩
        rw [Chain.bytes_append, Chain.bytes_cons, Chain.bytes_cons, written, whole,
          overwrite_append_left _ (by omega)]
    · have short : ¬offset + data.length ≤ b.length := by omega
      rw [if_neg room, if_neg short]
      exact ⟨c, rfl, Refills.refl c, bytes⟩

/-! ## Comparing and searching -/

/-- The first place where a string differs from another one from an offset on. -/
def firstDifference (b : List UInt8) (offset : Nat) (s2 : List UInt8) : Option Nat :=
  (List.range s2.length).find? fun i => b[offset + i]? ≠ s2[i]?

/-- What `pbuf_memcmp` returns for a string. -/
def memcmpAt (b : List UInt8) (offset : Nat) (s2 : List UInt8) : Nat :=
  if b.length < offset + s2.length then 0xffff
  else ((firstDifference b offset s2).map (· + 1)).getD 0

theorem firstDifference_cons (b : List UInt8) (offset : Nat) (x : UInt8) (s2 : List UInt8) :
    firstDifference b offset (x :: s2) =
      if b[offset]? ≠ some x then some 0 else (firstDifference b (offset + 1) s2).map (· + 1) := by
  have behind : (fun i => decide (b[offset + i]? ≠ (x :: s2)[i]?)) ∘ Nat.succ =
      fun i => decide (b[offset + 1 + i]? ≠ s2[i]?) := by
    funext i
    rw [Function.comp_apply, getElem?_cons_succ, Nat.succ_eq_add_one, Nat.add_assoc, Nat.add_comm 1]
  unfold firstDifference
  rw [length_cons, range_succ_eq_map, find?_cons, find?_map, behind]
  by_cases same : b[offset]? = some x
  · simp [same]
  · simp [same]

/-- The loop of `pbuf_memcmp` returns the first difference. -/
theorem pbufMemcmpLoop_spec {q : Chain} (inside : ∀ p ∈ q, p.payload + p.len ≤ p.mem.length)
    (start i : Nat) (s2 : List UInt8) (room : start + i + s2.length ≤ q.bytes.length)
    (fits : q.bytes.length ≤ 65535) : pbufMemcmpLoop q start i s2 =
      ((firstDifference q.bytes (start + i) s2).map (i + · + 1)).getD 0 := by
  induction s2 generalizing i with
  | nil => rfl
  | cons x s2 ih =>
    rw [length_cons] at room
    have short : start + i < q.bytes.length := by omega
    have byte : pbufGetAt q (u16 (start + i)) = q.bytes[start + i] := by
      unfold pbufGetAt
      rw [u16_of_lt (by omega), pbufTryGetAt_bytes inside, getElem?_eq_getElem short]
      rfl
    rw [pbufMemcmpLoop, byte, firstDifference_cons, getElem?_eq_getElem short]
    by_cases same : q.bytes[start + i] = x
    · rw [if_neg (not_not.2 same), if_neg (by rw [same]; exact not_not.2 rfl), ih (i + 1)
        (by omega),
        Option.map_map, Nat.add_assoc start]
      congr 2
      funext j
      show i + 1 + j + 1 = i + (j + 1) + 1
      omega
    · have differs : some q.bytes[start + i] ≠ some x := fun equal => same (Option.some.inj equal)
      rw [if_pos same, if_pos differs, u16_of_lt (by omega)]
      rfl

/-- `pbuf_memcmp` compares a part of the string. -/
theorem pbufMemcmp_spec (denotes : Denotes c b) (offset : Nat) (s2 : List UInt8) :
    pbufMemcmp c offset s2 = memcmpAt b offset s2 := by
  have skipped := pbufSkip_spec denotes.inMemory offset
  have bytes := denotes.bytes
  have fits := denotes.fits
  unfold pbufMemcmp memcmpAt
  rw [denotes.totLen_eq]
  by_cases short : b.length < offset + s2.length
  · rw [if_pos short, if_pos short]
  rw [if_neg short, if_neg short]
  have split := skipped.split
  have place := skipped.offset
  change c = _ ++ (pbufSkipConst c offset).1 at split
  change offset = _ + (pbufSkipConst c offset).2 at place
  rcases found : pbufSkipConst c offset with ⟨q, start⟩
  rw [found] at split place
  dsimp only at split place ⊢
  generalize (pbufSkip c offset).1 = before at split place
  have flat : b = before.bytes ++ Chain.bytes q := by rw [← bytes, split, Chain.bytes_append]
  have memory : ∀ p ∈ q, p.payload + p.len ≤ p.mem.length := fun p member =>
    denotes.inMemory p (by rw [split]; exact mem_append_right _ member)
  have length : b.length = before.bytes.length + (Chain.bytes q).length := by
    rw [flat, length_append]
  rw [pbufMemcmpLoop_spec memory start 0 s2 (by omega) (by omega)]
  have same : firstDifference (Chain.bytes q) (start + 0) s2 = firstDifference b offset s2 := by
    unfold firstDifference
    congr 1
    funext i
    rw [flat, getElem?_append_right (by omega)]
    congr 4
    omega
  rw [same]
  congr 2
  funext j
  omega

/-- `pbuf_memcmp` returns zero exactly if the bytes from the offset on are the given ones. -/
theorem memcmpAt_eq_zero (b : List UInt8) (offset : Nat) (s2 : List UInt8) :
    memcmpAt b offset s2 = 0 ↔
      offset + s2.length ≤ b.length ∧ (b.drop offset).take s2.length = s2 := by
  unfold memcmpAt
  by_cases short : b.length < offset + s2.length
  · rw [if_pos short]
    constructor
    · intro impossible
      cases impossible
    · intro both
      omega
  rw [if_neg short]
  have pointwise : firstDifference b offset s2 = none ↔
      (b.drop offset).take s2.length = s2 := by
    unfold firstDifference
    rw [find?_range_eq_none]
    constructor
    · intro same
      apply ext_getElem?
      intro i
      by_cases inside : i < s2.length
      · have equal := same i inside
        rw [getElem?_take_of_lt inside, getElem?_drop]
        simpa using equal
      · have short' : ((b.drop offset).take s2.length).length ≤ i := by
          rw [length_take]
          omega
        rw [getElem?_eq_none short', getElem?_eq_none (Nat.le_of_not_lt inside)]
    · intro same i inside
      have equal : ((b.drop offset).take s2.length)[i]? = s2[i]? := by rw [same]
      rw [getElem?_take_of_lt inside, getElem?_drop] at equal
      simpa using equal
  rw [← pointwise]
  cases firstDifference b offset s2 with
  | none => simp; omega
  | some i => simp

/-- What `pbuf_memfind` returns for a string: the least place from the start on. -/
def memfindFrom (b mem : List UInt8) (start : Nat) : Nat :=
  ((List.range (b.length + 1)).find? fun i =>
    start ≤ i ∧ i + mem.length ≤ b.length ∧ (b.drop i).take mem.length = mem).getD 0xffff

/-- The loop of `pbuf_memfind` returns the least place up to the last one. -/
theorem pbufMemfindLoop_spec (denotes : Denotes c b) (mem : List UInt8)
    (room : mem.length ≤ b.length) (passes i : Nat)
    (enough : b.length - mem.length + 1 < i + passes) (some' : 0 < passes) :
    ∃ r, pbufMemfindLoop c mem (b.length - mem.length) passes i = some r ∧
      ((memcmpAt b r mem = 0 ∧ i ≤ r ∧ ∀ j, i ≤ j → j < r → memcmpAt b j mem ≠ 0) ∨
        (r = 0xffff ∧ ∀ j, i ≤ j → memcmpAt b j mem ≠ 0)) := by
  have fits := denotes.fits
  induction passes generalizing i with
  | zero => omega
  | succ passes ih =>
    unfold pbufMemfindLoop
    rw [pbufMemcmp_spec denotes]
    by_cases inside : i ≤ b.length - mem.length
    · rw [if_pos inside]
      by_cases found : memcmpAt b i mem = 0
      · rw [if_pos found]
        exact ⟨i, rfl, Or.inl ⟨found, Nat.le_refl i, fun j low high => by omega⟩⟩
      rw [if_neg found]
      -- an empty string is found at once, so the index does not wrap around
      have some'' : 0 < mem.length := by
        apply Nat.pos_of_ne_zero
        intro none'
        apply found
        rw [memcmpAt_eq_zero]
        rw [length_eq_zero_iff.1 none']
        exact ⟨by rw [length_nil]; omega, by simp⟩
      have advance : u16 (i + 1) = i + 1 := u16_of_lt (by omega)
      rw [advance]
      obtain ⟨r, done, result⟩ := ih (i + 1) (by omega) (by omega)
      refine ⟨r, done, ?_⟩
      cases result with
      | inl hit =>
        refine .inl ⟨hit.1, by omega, fun j low high => ?_⟩
        by_cases here : j = i
        · exact here ▸ found
        · exact hit.2.2 j (by omega) high
      | inr miss =>
        refine .inr ⟨miss.1, fun j low => ?_⟩
        by_cases here : j = i
        · exact here ▸ found
        · exact miss.2 j (by omega)
    · rw [if_neg inside]
      refine ⟨0xffff, rfl, Or.inr ⟨rfl, fun j low zero => ?_⟩⟩
      have fit := ((memcmpAt_eq_zero b j mem).1 zero).1
      omega

/-- `pbuf_memfind` returns the least place of a string in the string, or `0xFFFF`. -/
theorem pbufMemfind_spec (denotes : Denotes c b) (mem : List UInt8) (start : Nat) :
    pbufMemfind c mem start = some (memfindFrom b mem start) := by
  have fits := denotes.fits
  have isMatch (i : Nat) : (decide (start ≤ i ∧ i + mem.length ≤ b.length ∧
      (b.drop i).take mem.length = mem)) = decide (start ≤ i ∧ memcmpAt b i mem = 0) :=
    decide_eq_decide.2 (by rw [memcmpAt_eq_zero])
  have missing (never : ∀ j, start ≤ j → memcmpAt b j mem ≠ 0) :
      (List.range (b.length + 1)).find? (fun i => decide (start ≤ i ∧
        i + mem.length ≤ b.length ∧ (b.drop i).take mem.length = mem)) = none := by
    rw [find?_range_eq_none]
    intro j _
    rw [isMatch, Bool.not_eq_true', decide_eq_false_iff_not]
    exact fun both => never j both.1 both.2
  unfold pbufMemfind memfindFrom
  rw [denotes.totLen_eq]
  by_cases room : b.length ≥ mem.length + start
  · have last : toU16 ((b.length : Int) - mem.length) = b.length - mem.length :=
      toU16_eq (by omega) (by omega)
    rw [if_pos room, last]
    obtain ⟨r, done, result⟩ := pbufMemfindLoop_spec denotes mem (by omega)
      (b.length - mem.length + 2) start (by omega) (by omega)
    rw [done]
    congr 1
    symm
    cases result with
    | inl hit =>
      have fit := ((memcmpAt_eq_zero b r mem).1 hit.1).1
      have found : (List.range (b.length + 1)).find? (fun i => decide (start ≤ i ∧
          i + mem.length ≤ b.length ∧ (b.drop i).take mem.length = mem)) = some r := by
        rw [find?_range_eq_some]
        refine ⟨by rw [isMatch]; exact decide_eq_true ⟨hit.2.1, hit.1⟩, ?_, fun j earlier => ?_⟩
        · rw [mem_range]
          omega
        · rw [isMatch, Bool.not_eq_true', decide_eq_false_iff_not]
          exact fun both => hit.2.2 j both.1 earlier both.2
      rw [found]
      rfl
    | inr miss =>
      rw [missing miss.2, miss.1]
      rfl
  · rw [if_neg room]
    have never (j : Nat) (low : start ≤ j) : memcmpAt b j mem ≠ 0 := by
      intro zero
      have fit := ((memcmpAt_eq_zero b j mem).1 zero).1
      omega
    rw [missing never]
    rfl

/-! ## Copying a chain -/

/-- What is behind a pbuf of a single packet is not empty. -/
theorem packetQueue_cons (single : packetQueue (p :: next) = false) :
    packetQueue next = false ∧ (next ≠ [] → p.len ≠ p.totLen) := by
  cases next with
  | nil => exact ⟨rfl, fun some' => absurd rfl some'⟩
  | cons q more =>
    unfold packetQueue at single
    rw [Bool.or_eq_false_iff] at single
    exact ⟨single.2, fun _ => by simpa using single.1⟩

theorem isPacketQueue_of_single (single : packetQueue c = false) : isPacketQueue c = false := by
  match c with
  | [] => rfl
  | [p] => rfl
  | p :: q :: more =>
    have differs := (packetQueue_cons single).2 (cons_ne_nil q more)
    simpa [isPacketQueue] using differs

/-- A chain of a single packet with right lengths, in its memory. -/
structure SinglePacket (c : Chain) : Prop where
  totLens : TotLens c
  inMemory : ∀ p ∈ c, p.payload + p.len ≤ p.mem.length
  fits : c.bytes.length ≤ 65535
  single : packetQueue c = false

/-- What is behind the first pbuf of a packet. -/
theorem SinglePacket.tail {p : Pbuf} {next : Chain} (packet : SinglePacket (p :: next)) :
    SinglePacket next where
  totLens := packet.totLens.2
  inMemory q member := packet.inMemory q (List.mem_cons_of_mem p member)
  fits := by
    have limit := packet.fits
    rw [Chain.bytes_cons, List.length_append] at limit
    exact Nat.le_trans (Nat.le_add_left _ _) limit
  single := (packetQueue_cons packet.single).1

/-- There are bytes behind a pbuf of a packet if there are pbufs. -/
theorem SinglePacket.bytes_tail (packet : SinglePacket (p :: next)) (some' : next ≠ []) :
    0 < (Chain.bytes next).length := by
  have differs := (packetQueue_cons packet.single).2 some'
  have sum := packet.totLens.1
  rw [← packet.tail.totLens.totLen_eq packet.tail.inMemory]
  omega

/-- The state of the loop of `pbuf_copy`: so many bytes have been copied. -/
structure Copying (to0 : Chain) (data : List UInt8) (filled pTo : Chain) (offsetTo : Nat)
    (pFrom : Chain) (offsetFrom copied : Nat) : Prop where
  /-- The target has changed in its payloads only. -/
  refills : Refills to0 (filled ++ pTo)
  written : (filled ++ pTo).bytes = overwrite to0.bytes 0 (data.take copied)
  count : copied ≤ data.length
  place : filled.bytes.length + offsetTo = copied
  rest : data.drop copied = (Chain.bytes pFrom).drop offsetFrom
  room : data.length ≤ to0.bytes.length
  target : SinglePacket pTo
  source : SinglePacket pFrom
  inTarget : ∀ p next, pTo = p :: next → offsetTo ≤ p.len
  inSource : ∀ p next, pFrom = p :: next → offsetFrom ≤ p.len

section Loop

variable {to0 : Chain} {data : List UInt8} {filled pTo toNext pFrom fromNext : Chain}
  {target source : Pbuf} {offsetTo offsetFrom copied : Nat}

/-- One part of the source is copied. -/
theorem Copying.copy (state : Copying to0 data filled (target :: toNext) offsetTo
      (source :: fromNext) offsetFrom copied) (len : Nat)
    (short : len ≤ source.len - offsetFrom) (short' : len ≤ target.len - offsetTo) :
    Copying to0 data filled
      (target.write offsetTo ((source.mem.drop (source.payload + offsetFrom)).take len) :: toNext)
      (offsetTo + len) (source :: fromNext) (offsetFrom + len) (copied + len) := by
  have before := state.inTarget target toNext rfl
  have before' := state.inSource source fromNext rfl
  have memory := state.source.inMemory source mem_cons_self
  have memory' := state.target.inMemory target mem_cons_self
  have own := Pbuf.length_bytes memory
  have own' := Pbuf.length_bytes memory'
  have count := state.count
  have room := state.room
  have rest := state.rest
  have restLength : data.length - copied = (Chain.bytes (source :: fromNext)).length -
    offsetFrom := by
    rw [← length_drop, rest, length_drop]
  rw [Chain.bytes_cons, length_append, own] at restLength
  -- the part is the next one of the data
  have chunk : (source.mem.drop (source.payload + offsetFrom)).take len =
      (data.drop copied).take len := by
    rw [rest, Chain.bytes_cons, drop_append_of_le_length (by omega),
      take_append_of_le_length (by rw [length_drop]; omega), Pbuf.bytes, drop_take,
      drop_drop, take_take, Nat.min_eq_left short]
  rw [chunk]
  have length : ((data.drop copied).take len).length = len := by
    rw [length_take, length_drop]
    omega
  have within : offsetTo + ((data.drop copied).take len).length ≤ target.len := by omega
  have refilled := Pbuf.write_refilled memory' within
  have more : data.take (copied + len) = data.take copied ++ (data.drop copied).take len := take_add
  have soFar : (data.take copied).length = copied := by
    rw [length_take]
    omega
  have single : packetQueue (target.write offsetTo ((data.drop copied).take len) :: toNext) =
      false := by
    have single' := state.target.single
    cases toNext with
    | nil => rfl
    | cons q others => exact single'
  constructor
  · exact state.refills.trans (Refills.append filled rfl (.cons refilled (Refills.refl toNext)))
  · have place := state.place
    have inner : copied - filled.bytes.length = offsetTo := by omega
    rw [more, overwrite_append _ _ _ (by omega), ← state.written, soFar, Nat.zero_add,
      Chain.bytes_append, Chain.bytes_append, Chain.bytes_cons, Chain.bytes_cons,
      Pbuf.bytes_write memory' within, overwrite_append_right _ _ (by omega), inner,
      overwrite_append_left _ (by omega)]
  · omega
  · have place := state.place
    omega
  · rw [← drop_drop, rest, drop_drop]
  · exact room
  · refine ⟨?_, ?_, ?_, single⟩
    · exact Refills.totLens (.cons refilled (Refills.refl toNext)) state.target.totLens
    · exact Refills.inMemory (.cons refilled (Refills.refl toNext)) state.target.inMemory
    · have limit := state.target.fits
      rw [Chain.bytes_cons, length_append] at limit ⊢
      rw [Pbuf.bytes_write memory' within, length_overwrite (by omega)]
      exact limit
  · exact state.source
  · intro p next same
    cases same
    show offsetTo + len ≤ target.len
    omega
  · intro p next same
    cases same
    omega

/-- The source goes on to its next pbuf. -/
theorem Copying.nextFrom (state : Copying to0 data filled pTo offsetTo (source :: fromNext)
      offsetFrom copied) (ended : offsetFrom = source.len) :
    Copying to0 data filled pTo offsetTo fromNext 0 copied where
  refills := state.refills
  written := state.written
  count := state.count
  place := state.place
  rest := by
    have own := Pbuf.length_bytes (state.source.inMemory source List.mem_cons_self)
    rw [state.rest, Chain.bytes_cons, ended, List.drop_left' own, List.drop_zero]
  room := state.room
  target := state.target
  source := state.source.tail
  inTarget := state.inTarget
  inSource _ _ _ := Nat.zero_le _

theorem Copying.nextTo (state : Copying to0 data filled (target :: toNext) offsetTo pFrom
      offsetFrom copied) (ended : offsetTo = target.len) :
    Copying to0 data (filled ++ [target]) toNext 0 pFrom offsetFrom copied where
  refills := by
    rw [List.append_assoc]
    exact state.refills
  written := by
    rw [List.append_assoc]
    exact state.written
  count := state.count
  place := by
    have own := Pbuf.length_bytes (state.target.inMemory target List.mem_cons_self)
    have place := state.place
    rw [Chain.bytes_append, List.length_append, Chain.bytes_cons, List.length_append, own]
    simp only [Chain.bytes, List.flatMap_nil, List.length_nil] at place ⊢
    omega
  rest := state.rest
  room := state.room
  target := state.target.tail
  source := state.source
  inTarget _ _ _ := Nat.zero_le _
  inSource := state.inSource

/-- There is target left as long as there is data left. -/
theorem Copying.target_ne (state : Copying to0 data filled pTo offsetTo pFrom offsetFrom copied)
    (left : copied < data.length) : pTo ≠ [] := by
  intro none'
  have room := state.room
  have place := state.place
  have soFar : (data.take copied).length = copied := by
    rw [length_take]
    omega
  have written := congrArg List.length state.written
  rw [none', append_nil, length_overwrite (by omega)] at written
  omega

/-- The whole source has been copied. -/
theorem Copying.done (state : Copying to0 data filled pTo offsetTo [] offsetFrom copied) :
    (filled ++ pTo).bytes = overwrite to0.bytes 0 data := by
  have rest := congrArg List.length state.rest
  rw [length_drop, length_drop] at rest
  simp only [Chain.bytes, flatMap_nil, length_nil] at rest
  rw [state.written, take_of_length_le (by omega)]

/-- There is data left inside a pbuf of the source. -/
theorem Copying.left_of_lt (state : Copying to0 data filled pTo offsetTo (source :: fromNext)
      offsetFrom copied) (inside : offsetFrom < source.len) : copied < data.length := by
  have own := Pbuf.length_bytes (state.source.inMemory source mem_cons_self)
  have rest := congrArg List.length state.rest
  rw [length_drop, length_drop, Chain.bytes_cons, length_append, own] at rest
  omega

/-- There is data left behind a pbuf of the source if there are pbufs. -/
theorem Copying.left_of_ne (state : Copying to0 data filled pTo offsetTo (source :: fromNext)
      offsetFrom copied) (ended : offsetFrom = source.len) (some' : fromNext ≠ []) :
    copied < data.length := by
  have behind := state.source.bytes_tail some'
  have rest := congrArg List.length (state.nextFrom ended).rest
  rw [length_drop, length_drop] at rest
  omega

/-- The loop of `pbuf_copy` copies what is left of the source. -/
theorem pbufCopyLoop_spec (passes : Nat)
    (state : Copying to0 data filled pTo offsetTo pFrom offsetFrom copied)
    (enough : pTo.length + pFrom.length ≤ passes) (ready : pFrom ≠ [] → pTo ≠ []) :
    ∃ c', pbufCopyLoop passes filled pTo offsetTo pFrom offsetFrom = .ok (.ok, c') ∧
      Refills to0 c' ∧ c'.bytes = overwrite to0.bytes 0 data := by
  induction passes generalizing filled pTo offsetTo pFrom offsetFrom copied with
  | zero =>
    have none' : pFrom = [] := length_eq_zero_iff.1 (by omega)
    subst none'
    exact ⟨filled ++ pTo, rfl, state.refills, state.done⟩
  | succ passes ih =>
    cases pFrom with
    | nil =>
      refine ⟨filled ++ pTo, ?_, state.refills, state.done⟩
      cases pTo <;> rfl
    | cons source fromNext =>
      cases pTo with
      | nil => exact absurd rfl (ready (cons_ne_nil _ _))
      | cons target toNext =>
        have before := state.inTarget target toNext rfl
        have before' := state.inSource source fromNext rfl
        have limit : source.len ≤ 65535 ∧ target.len ≤ 65535 := by
          have fits := state.source.fits
          have fits' := state.target.fits
          rw [Chain.bytes_cons, length_append,
            Pbuf.length_bytes (state.source.inMemory _ mem_cons_self)] at fits
          rw [Chain.bytes_cons, length_append,
            Pbuf.length_bytes (state.target.inMemory _ mem_cons_self)] at fits'
          omega
        have after := state.copy (min (source.len - offsetFrom) (target.len - offsetTo))
          (Nat.min_le_left _ _) (Nat.min_le_right _ _)
        have ends : offsetFrom + min (source.len - offsetFrom) (target.len - offsetTo) =
          source.len ∨
            offsetTo + min (source.len - offsetFrom) (target.len - offsetTo) = target.len :=
              by omega
        have length : ((source.mem.drop (source.payload + offsetFrom)).take
            (min (source.len - offsetFrom) (target.len - offsetTo))).length =
              min (source.len - offsetFrom) (target.len - offsetTo) := by
          have memory := state.source.inMemory source mem_cons_self
          rw [length_take, length_drop]
          omega
        have finish (filled' pTo' pFrom' : Chain) (offsetTo' offsetFrom' copied' : Nat)
            (state' : Copying to0 data filled' pTo' offsetTo' pFrom' offsetFrom' copied')
            (left : pFrom' ≠ [] → copied' < data.length)
            (fewer : pTo'.length + pFrom'.length ≤ passes) :
            ∃ c', (if pTo' = [] ∧ pFrom' ≠ [] then .ok (.arg, filled' ++ pTo')
              else if isPacketQueue pFrom' ∨ isPacketQueue pTo' then .ok (.val, filled' ++ pTo')
              else pbufCopyLoop passes filled' pTo' offsetTo' pFrom' offsetFrom' :
                Asserting (Err × Chain)) = .ok (.ok, c') ∧ Refills to0 c' ∧
              c'.bytes = overwrite to0.bytes 0 data := by
          have ready' : pFrom' ≠ [] → pTo' ≠ [] := fun some' => state'.target_ne (left some')
          have single := isPacketQueue_of_single state'.source.single
          have single' := isPacketQueue_of_single state'.target.single
          rw [if_neg fun both => ready' both.2 both.1, single, single', if_neg (by decide)]
          exact ih state' fewer ready'
        rw [pbufCopyLoop]
        unfold Pbuf.write overwrite at after
        rw [length] at after
        generalize min (source.len - offsetFrom) (target.len - offsetTo) = len at after ends ⊢
        have inside := after.inTarget _ toNext rfl
        have inside' := after.inSource source fromNext rfl
        dsimp only at inside ⊢
        rw [length_cons, length_cons] at enough
        rw [u16_of_lt (by omega), u16_of_lt (by omega), lwipAssert_pos inside,
          lwipAssert_pos inside', ok_bind, ok_bind]
        by_cases ended : offsetFrom + len ≥ source.len
        · have ended' : offsetFrom + len = source.len := by omega
          rw [if_pos ended]
          by_cases full : offsetTo + len = target.len
          · rw [if_pos full]
            refine finish _ _ _ _ _ _ ((after.nextFrom ended').nextTo full)
              (after.left_of_ne ended') ?_
            show toNext.length + fromNext.length ≤ passes
            omega
          · rw [if_neg full]
            refine finish _ _ _ _ _ _ (after.nextFrom ended') (after.left_of_ne ended') ?_
            show toNext.length + 1 + fromNext.length ≤ passes
            omega
        · have full : offsetTo + len = target.len := by omega
          rw [if_neg ended, if_pos full]
          refine finish _ _ _ _ _ _ (after.nextTo full)
            (fun _ => after.left_of_lt (by omega)) ?_
          show toNext.length + (fromNext.length + 1) ≤ passes
          omega

end Loop

/-- `pbuf_copy` fills the front of a target that is large enough. -/
theorem pbufCopy_spec {pTo pFrom : Chain} {e : List UInt8} (target : Denotes pTo b)
    (source : Denotes pFrom e) (single : packetQueue pTo = false)
    (single' : packetQueue pFrom = false) (room : pFrom.totLen ≤ pTo.totLen) :
    ∃ c', pbufCopy pTo pFrom = .ok (.ok, c') ∧ Refills pTo c' ∧
      c'.bytes = e ++ b.drop e.length := by
  have bytes := target.bytes
  have bytes' := source.bytes
  have count := target.totLen_eq
  have count' := source.totLen_eq
  have begins : Copying pTo e [] pTo 0 pFrom 0 0 :=
    { refills := Refills.refl pTo
      written := by rw [take_zero, overwrite_nil]; rfl
      count := Nat.zero_le _
      place := rfl
      rest := by rw [bytes']
      room := by rw [bytes]; omega
      target := ⟨target.totLens, target.inMemory, bytes ▸ target.fits, single⟩
      source := ⟨source.totLens, source.inMemory, bytes' ▸ source.fits, single'⟩
      inTarget := fun _ _ _ => Nat.zero_le _
      inSource := fun _ _ _ => Nat.zero_le _ }
  obtain ⟨c', done, refills, copied⟩ := pbufCopyLoop_spec (pTo.length + pFrom.length) begins
    (Nat.le_refl _) fun _ => target.nonempty
  refine ⟨c', ?_, refills, ?_⟩
  · have given : ¬(pTo = [] ∨ pFrom = [] ∨ pTo.totLen < pFrom.totLen) := by
      intro either
      rcases either with none' | none' | small
      · exact target.nonempty none'
      · exact source.nonempty none'
      · omega
    unfold pbufCopy
    rw [if_neg given]
    exact done
  · rw [copied, bytes]
    simp [overwrite]

/-! ## The operations and the string -/

/-- Reading, comparing, searching, writing and copying the data of a chain is the operation on the
string that the chain denotes, for every cut of the string into pbufs; `pbuf_take_at` is so exactly
if it is not asked to write nothing at the end of the string. -/
theorem pbuf_data_access (c : Chain) (b : List UInt8) (denotes : Denotes c b) :
    (∀ len offset, pbufCopyPartial c len offset = (b.drop offset).take len) ∧
      (∀ data, ∃ c', pbufTake c data = .ok ((takeAt b data 0).1, c') ∧ Refills c c' ∧
        Denotes c' (takeAt b data 0).2) ∧
      (∀ offset, pbufTryGetAt c offset = b[offset]?) ∧
      (∀ offset data, Refills c (pbufPutAt c offset data) ∧
        Denotes (pbufPutAt c offset data) (b.set offset data)) ∧
      (∀ offset s2, pbufMemcmp c offset s2 = memcmpAt b offset s2) ∧
      (∀ mem start, pbufMemfind c mem start = some (memfindFrom b mem start)) ∧
      (∀ pFrom e, Denotes pFrom e → packetQueue c = false → packetQueue pFrom = false →
        pFrom.totLen ≤ c.totLen → ∃ c', pbufCopy c pFrom = .ok (.ok, c') ∧ Refills c c' ∧
          Denotes c' (e ++ b.drop e.length)) ∧
      ∀ data offset, (∃ c', pbufTakeAt c data offset = .ok ((takeAt b data offset).1, c') ∧
        Refills c c' ∧ Denotes c' (takeAt b data offset).2) ↔
          ¬(data = [] ∧ offset = b.length) := by
  refine ⟨denotes.pbufCopyPartial, ?_, denotes.pbufTryGetAt, ?_, pbufMemcmp_spec denotes,
    pbufMemfind_spec denotes, ?_, ?_⟩
  · intro data
    obtain ⟨c', done, refills, bytes⟩ := pbufTake_spec denotes data
    exact ⟨c', done, refills, refills.denotes denotes bytes⟩
  · intro offset data
    have put := pbufPutAt_spec denotes offset data
    exact ⟨put.1, put.1.denotes denotes put.2⟩
  · intro pFrom e source single single' room
    obtain ⟨c', done, refills, bytes⟩ := pbufCopy_spec denotes source single single' room
    exact ⟨c', done, refills, refills.denotes denotes bytes⟩
  · intro data offset
    obtain ⟨c', done, refills, bytes⟩ := pbufTakeAt_eq denotes data offset
    by_cases inside : offset < b.length
    · rw [if_pos inside] at done bytes
      constructor
      · intro _ both
        omega
      · intro _
        exact ⟨c', done, refills, refills.denotes denotes bytes⟩
    rw [if_neg inside] at done bytes
    by_cases ends : data = [] ∧ offset = b.length
    · -- the string would take the empty data
      have taken : (takeAt b data offset).1 = .ok := by
        unfold takeAt
        rw [ends.1, ends.2, length_nil, Nat.add_zero, if_pos (Nat.le_refl _)]
      constructor
      · intro same
        obtain ⟨other, done', _⟩ := same
        rw [done, taken] at done'
        cases done'
      · exact fun differs => absurd ends differs
    · have refused : takeAt b data offset = (.mem, b) := by
        unfold takeAt
        apply if_neg
        intro fits
        have none' : data.length = 0 := by omega
        exact ends ⟨length_eq_zero_iff.1 none', by omega⟩
      rw [refused]
      exact ⟨fun _ => ends, fun _ => ⟨c', done, refills, refills.denotes denotes bytes⟩⟩

/-- The string 1 to 5, in a chain with empty pbufs in front, between and behind. -/
def gappyPacket : Chain :=
  [{ pbufRam 0 [] with totLen := 5 }, { pbufRam 0 [1, 2] with totLen := 5 },
    { pbufRam 0 [] with totLen := 3 }, pbufRam 0 [3, 4, 5], pbufRam 0 []]

/-- The theorem at a chain with empty pbufs. -/
theorem pbuf_data_access_gappy :
    pbufCopyPartial gappyPacket 3 1 = [2, 3, 4] ∧ pbufMemfind gappyPacket [2, 3] 0 = some 1 ∧
      (∃ c', pbufTakeAt gappyPacket [9, 9] 1 = .ok (.ok, c') ∧ Denotes c' [1, 9, 9, 4, 5]) := by
  have denotes : Denotes gappyPacket [1, 2, 3, 4, 5] := by
    refine ⟨by decide, ?_, by decide, by decide, by decide⟩
    exact ⟨rfl, rfl, rfl, rfl, rfl, trivial⟩
  have access := pbuf_data_access gappyPacket [1, 2, 3, 4, 5] denotes
  obtain ⟨c', done, _, written⟩ := (access.2.2.2.2.2.2.2 [9, 9] 1).2 (by decide)
  exact ⟨access.1 3 1, access.2.2.2.2.2.1 [2, 3] 0, c', done, written⟩

/-- `pbuf_take_at` returns `ERR_MEM` for no data at the end of a string, where there is room for
it. -/
theorem pbuf_takeAt_end :
    pbufTakeAt [pbufRam 0 [1, 2, 3]] [] 3 = .ok (.mem, [pbufRam 0 [1, 2, 3]]) ∧
      takeAt [1, 2, 3] [] 3 = (.ok, [1, 2, 3]) := by
  decide

end Lwip
