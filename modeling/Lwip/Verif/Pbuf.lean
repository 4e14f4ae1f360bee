import Lwip.Base.Transition
import Lwip.Core.Pbuf

/-!
# Chains denote byte strings

A chain whose total lengths are right, with every payload inside its memory, denotes the
bytes of its buffers. Shortening, moving the header, linking and unlinking chains do to the
denoted strings what they are for, in any order and on any number of chains. The one
exception is `pbuf_dechain` in front of a multiple of 256 unshared pbufs: the count that
`pbuf_free` returns is an 8-bit number, and the pointer to the deallocated successor is
returned instead of `NULL`.
-/

namespace Lwip

open List

variable {p : Pbuf} {c h t next rest : Chain} {b e : List UInt8} {count : Nat}

/-- `tot_len = len + next->tot_len` for every pbuf of a chain. -/
def TotLens : Chain → Prop
  | [] => True
  | p :: next => p.totLen = p.len + Chain.totLen next ∧ TotLens next

/-- A chain denotes a string. -/
structure Denotes (c : Chain) (b : List UInt8) : Prop where
  nonempty : c ≠ []
  totLens : TotLens c
  inMemory : ∀ p ∈ c, p.payload + p.len ≤ p.mem.length
  fits : b.length ≤ 65535
  bytes : c.bytes = b

/-! ## Reading a chain -/

/-- A payload inside its memory has as many bytes as its length says. -/
theorem Pbuf.length_bytes (inside : p.payload + p.len ≤ p.mem.length) : p.bytes.length = p.len := by
  simp only [Pbuf.bytes, length_take, length_drop]
  omega

@[simp] theorem Chain.bytes_cons (p : Pbuf) (next : Chain) :
    Chain.bytes (p :: next) = p.bytes ++ Chain.bytes next := flatMap_cons

@[simp] theorem Chain.bytes_append (h t : Chain) :
    Chain.bytes (h ++ t) = Chain.bytes h ++ Chain.bytes t := flatMap_append

/-- The total length of the first pbuf counts the bytes of the chain. -/
theorem TotLens.totLen_eq (lens : TotLens c) (inside : ∀ p ∈ c, p.payload + p.len ≤ p.mem.length) :
    Chain.totLen c = (Chain.bytes c).length := by
  induction c with
  | nil => rfl
  | cons p next ih =>
    have rest := ih lens.2 (fun q member => inside q (mem_cons_of_mem p member))
    have own := Pbuf.length_bytes (inside p mem_cons_self)
    simp only [Chain.totLen, Chain.bytes_cons, length_append, own, ← rest]
    exact lens.1

theorem TotLens.of_append (lens : TotLens (h ++ t)) : TotLens t := by
  induction h with
  | nil => exact lens
  | cons p next ih => exact ih lens.2

/-- The total length of a chain is the length of what it denotes. -/
theorem Denotes.totLen_eq (denotes : Denotes c b) : c.totLen = b.length := by
  rw [denotes.totLens.totLen_eq denotes.inMemory, denotes.bytes]

/-- The head of a chain holds the front of the string, and its length fits. -/
theorem Denotes.cons_inv (denotes : Denotes (p :: next) b) :
    p.bytes = b.take p.len ∧ Chain.bytes next = b.drop p.len ∧ p.len ≤ b.length ∧
      p.totLen = b.length ∧ Chain.totLen next = b.length - p.len := by
  have own := Pbuf.length_bytes (denotes.inMemory p mem_cons_self)
  have whole := denotes.bytes
  have count := denotes.totLen_eq
  have equation := denotes.totLens.1
  rw [Chain.bytes_cons] at whole
  simp only [Chain.totLen] at count
  subst whole
  refine ⟨?_, ?_, by simp only [length_append]; omega, count, ?_⟩
  · rw [← own, take_left']
    rfl
  · rw [← own, drop_left']
    rfl
  · omega

/-- A nonempty tail denotes the rest of the string. -/
theorem Denotes.tail (denotes : Denotes (p :: next) b) (nonempty : next ≠ []) :
    Denotes next (b.drop p.len) := by
  obtain ⟨_, rest, _, _, _⟩ := denotes.cons_inv
  refine ⟨nonempty, denotes.totLens.2, fun q member => ?_, ?_, rest⟩
  · exact denotes.inMemory q (mem_cons_of_mem p member)
  · have := denotes.fits
    simp only [length_drop]
    omega

/-- A changed head in front of a tail that denotes a string. -/
theorem Denotes.of_cons (own : p.bytes = b) (inside : p.payload + p.len ≤ p.mem.length)
    (count : p.totLen = (b ++ e).length) (fits : (b ++ e).length ≤ 65535) (rest : Denotes next e) :
    Denotes (p :: next) (b ++ e) := by
  have length := Pbuf.length_bytes inside
  refine ⟨by simp, ⟨?_, rest.totLens⟩, ?_, fits, ?_⟩
  · rw [count, rest.totLen_eq, length_append, ← own, length]
  · intro q member
    rcases mem_cons.mp member with rfl | deeper
    · exact inside
    · exact rest.inMemory q deeper
  · rw [Chain.bytes_cons, own, rest.bytes]

/-- A single pbuf with its own length as total length. -/
theorem Denotes.single (own : p.bytes = b) (inside : p.payload + p.len ≤ p.mem.length)
    (count : p.totLen = p.len) (fits : b.length ≤ 65535) : Denotes [p] b := by
  refine ⟨by simp, ⟨by simpa [Chain.totLen] using count, trivial⟩, ?_, fits, ?_⟩
  · intro q member
    rw [mem_singleton.mp member]
    exact inside
  · simp [Chain.bytes, own]

theorem pbufTryGetAt_bytes (inside : ∀ p ∈ c, p.payload + p.len ≤ p.mem.length) (offset : Nat) :
    pbufTryGetAt c offset = c.bytes[offset]? := by
  induction c generalizing offset with
  | nil => simp [pbufTryGetAt, pbufSkipConst, Chain.bytes]
  | cons q next ih =>
    have own := Pbuf.length_bytes (inside q mem_cons_self)
    rw [Chain.bytes_cons]
    by_cases skipped : q.len ≤ offset
    · have behind := ih (fun p member => inside p (mem_cons_of_mem q member)) (offset - q.len)
      rw [getElem?_append_right (by omega), own, ← behind]
      simp only [pbufTryGetAt, pbufSkipConst, if_pos skipped]
    · have here : offset < q.len := Nat.lt_of_not_le skipped
      rw [getElem?_append_left (by omega)]
      simp only [pbufTryGetAt, pbufSkipConst, if_neg skipped, gt_iff_lt, if_pos here, Pbuf.bytes]
      rw [getElem?_take_of_lt here, getElem?_drop]

theorem Denotes.pbufTryGetAt (denotes : Denotes c b) (offset : Nat) :
    pbufTryGetAt c offset = b[offset]? := by
  rw [pbufTryGetAt_bytes denotes.inMemory, denotes.bytes]

theorem pbufCopyPartial_bytes (inside : ∀ p ∈ c, p.payload + p.len ≤ p.mem.length)
    (len offset : Nat) : pbufCopyPartial c len offset = (c.bytes.drop offset).take len := by
  induction c generalizing len offset with
  | nil => simp [pbufCopyPartial, Chain.bytes]
  | cons q next ih =>
    have own := Pbuf.length_bytes (inside q mem_cons_self)
    have behind := ih fun p member => inside p (mem_cons_of_mem q member)
    rw [Chain.bytes_cons, pbufCopyPartial]
    by_cases none : len = 0
    · rw [if_pos none, none, take_zero]
    rw [if_neg none]
    by_cases skipped : offset ≠ 0 ∧ offset ≥ q.len
    · have short : q.bytes.length ≤ offset := by omega
      rw [if_pos skipped, behind, drop_append, drop_of_length_le short, nil_append, own]
    rw [if_neg skipped]
    dsimp only
    have taken : (q.mem.drop (q.payload + offset)).take (min (q.len - offset) len) =
        (q.bytes.drop offset).take len := by
      rw [Pbuf.bytes, drop_take, drop_drop, take_take, Nat.min_comm]
    have short : offset ≤ q.bytes.length := by omega
    rw [behind, taken, drop_zero, drop_append_of_le_length short, take_append, length_drop, own]
    congr 2
    omega

theorem Denotes.pbufCopyPartial (denotes : Denotes c b) (len offset : Nat) :
    pbufCopyPartial c len offset = (b.drop offset).take len := by
  rw [pbufCopyPartial_bytes denotes.inMemory, denotes.bytes]

/-! ## Freeing -/

/-- Number of pbufs at the front that nothing else refers to. -/
def unshared (c : Chain) : Nat := (c.takeWhile fun p => p.ref = 1).length

/-- What is left of a chain that was freed: one reference of the first survivor is dropped. -/
def released (c : Chain) : Chain :=
  (c.drop (unshared c)).modifyHead fun p => { p with ref := p.ref - 1 }

/-- `pbuf_free` deallocates the unshared pbufs at the front and drops one reference of the
next one. -/
theorem pbufFreeLoop_spec (freed : pbufFreeLoop c = .ok (count, rest)) :
    count = unshared c ∧ rest = released c := by
  induction c generalizing count with
  | nil =>
    cases freed
    exact ⟨rfl, rfl⟩
  | cons p next ih =>
    rw [pbufFreeLoop, lwipAssert_bind_ok] at freed
    obtain ⟨referenced, freed⟩ := freed
    split at freed
    · obtain ⟨⟨inner, left⟩, loop, result⟩ := bind_ok.mp freed
      cases result
      have one : p.ref = 1 := by omega
      have later := ih loop
      simp [unshared, released, one, later.1, later.2]
    · cases freed
      have more : p.ref ≠ 1 := by omega
      simp [unshared, released, more]

/-- The same for `pbuf_free`, whose result is the count in 8 bits. -/
theorem pbufFree_spec (freed : pbufFree c = .ok (count, rest)) :
    count = unshared c % 256 ∧ rest = released c := by
  rw [pbufFree, lwipAssert_bind_ok] at freed
  obtain ⟨⟨whole, left⟩, loop, result⟩ := bind_ok.mp freed.2
  cases result
  have spec := pbufFreeLoop_spec loop
  exact ⟨by rw [spec.1], spec.2⟩

/-- A chain without deallocated pbufs can be freed. -/
theorem pbufFree_referenced (nonempty : c ≠ []) (referenced : ∀ q ∈ c, 0 < q.ref) :
    pbufFree c = .ok (unshared c % 256, released c) := by
  have loop : ∃ result, pbufFreeLoop c = .ok result := by
    clear nonempty
    induction c with
    | nil => exact ⟨_, rfl⟩
    | cons q next ih =>
      obtain ⟨result, freed⟩ := ih fun r member => referenced r (mem_cons_of_mem q member)
      rw [pbufFreeLoop, lwipAssert_pos (referenced q mem_cons_self), ok_bind, freed]
      split <;> exact ⟨_, rfl⟩
  obtain ⟨⟨count, rest⟩, freed⟩ := loop
  have spec := pbufFreeLoop_spec freed
  rw [pbufFree, lwipAssert_pos nonempty, ok_bind, freed, ok_bind, spec.1, spec.2]

/-- Reference counts do not matter for what a chain denotes. -/
theorem Denotes.of_ref (ref : Nat) (denotes : Denotes (p :: next) b) :
    Denotes ({ p with ref := ref } :: next) b := by
  refine ⟨by simp, denotes.totLens, ?_, denotes.fits, denotes.bytes⟩
  intro q member
  rcases mem_cons.mp member with rfl | deeper
  · exact denotes.inMemory p mem_cons_self
  · exact denotes.inMemory q (mem_cons_of_mem p deeper)

/-- Any part behind a cut denotes the end of the string. -/
theorem Denotes.suffix (denotes : Denotes (h ++ t) b) (nonempty : t ≠ []) :
    Denotes t (b.drop (b.length - t.totLen)) := by
  have inside : ∀ p ∈ t, p.payload + p.len ≤ p.mem.length :=
    fun p member => denotes.inMemory p (mem_append_right h member)
  have lens := denotes.totLens.of_append
  have whole := denotes.bytes
  rw [Chain.bytes_append] at whole
  refine ⟨nonempty, lens, inside, ?_, ?_⟩
  · have := denotes.fits
    simp only [length_drop]
    omega
  · have size := lens.totLen_eq inside
    rw [size, ← whole, length_append, Nat.add_sub_cancel, drop_left']
    rfl

theorem Denotes.end_of_drop {n : Nat}
    (denotes : Denotes c ((b.drop n).drop ((b.drop n).length - c.totLen))) :
    Denotes c (b.drop (b.length - c.totLen)) := by
  have size := denotes.totLen_eq
  simp only [length_drop] at size
  rw [drop_drop, length_drop] at denotes
  by_cases short : n ≤ b.length
  · rwa [show n + (b.length - n - c.totLen) = b.length - c.totLen by omega] at denotes
  · rw [drop_eq_nil_of_le (by omega)] at denotes
    rwa [drop_eq_nil_of_le (by omega)]

/-- What `pbuf_free` leaves referenced denotes the end of what the chain denoted. -/
theorem Denotes.pbufFree (denotes : Denotes c b) (freed : Lwip.pbufFree c = .ok (count, rest))
    (left : rest ≠ []) : Denotes rest (b.drop (b.length - rest.totLen)) := by
  have kept := (pbufFree_spec freed).2
  have whole := take_append_drop (unshared c) c
  rw [released] at kept
  cases cut : c.drop (unshared c) with
  | nil =>
    rw [kept, cut] at left
    exact absurd rfl left
  | cons p next =>
    rw [← whole, cut] at denotes
    rw [kept, cut]
    exact (denotes.suffix (by simp)).of_ref (p.ref - 1)

/-! ## The operations -/

/-- Shortening one pbuf keeps the front of its bytes. -/
theorem pbufShrink_bytes (q : Pbuf) (remLen : Nat) (shorter : remLen ≤ q.len) :
    (pbufShrink q remLen).bytes = q.bytes.take remLen := by
  unfold pbufShrink Pbuf.bytes
  simp only [take_take, Nat.min_eq_left shorter]
  split
  · rw [drop_take, take_take]
    congr 1
    omega
  · rfl

/-- The shortened pbuf lies inside the memory it still has. -/
theorem pbufShrink_inMemory {q : Pbuf} {remLen : Nat} (shorter : remLen ≤ q.len)
    (inside : q.payload + q.len ≤ q.mem.length) :
    (pbufShrink q remLen).payload + (pbufShrink q remLen).len ≤
      (pbufShrink q remLen).mem.length := by
  simp only [pbufShrink]
  split
  · simp only [length_take]
    omega
  · omega

/-- The walk of `pbuf_realloc` cuts the string. The invariant is that the difference between
the wanted and the actual total is the same at every pbuf. -/
theorem pbufReallocLoop_denotes {kept : Chain} {remLen : Nat} (denotes : Denotes c b)
    (shorter : remLen ≤ b.length)
    (done : pbufReallocLoop ((remLen : Int) - b.length) remLen c = .ok (kept, rest)) :
    Denotes kept (b.take remLen) ∧
      (rest ≠ [] → Denotes rest (b.drop (b.length - rest.totLen))) := by
  induction c generalizing b remLen kept with
  | nil => exact absurd rfl denotes.nonempty
  | cons q next ih =>
    obtain ⟨own, behind, bound, count, nextCount⟩ := denotes.cons_inv
    have inside := denotes.inMemory q mem_cons_self
    have fits := denotes.fits
    rw [pbufReallocLoop] at done
    split at done
    · rename_i further
      rw [lwipAssert_bind_ok] at done
      obtain ⟨⟨inner, left⟩, loop, result⟩ := bind_ok.mp done.2
      cases result
      have nonempty : next ≠ [] := by
        rintro rfl
        simp [pbufReallocLoop] at loop
      have tail := denotes.tail nonempty
      have grow : ((remLen - q.len : Nat) : Int) - (b.drop q.len).length =
          (remLen : Int) - b.length := by
        simp only [length_drop]
        omega
      rw [← grow] at loop
      obtain ⟨cut, survivors⟩ := ih tail (by simp only [length_drop]; omega) loop
      constructor
      · have joined : b.take remLen = b.take q.len ++ (b.drop q.len).take (remLen - q.len) := by
          rw [← take_add]
          congr 1
          omega
        have size : (b.take q.len ++ (b.drop q.len).take (remLen - q.len)).length = remLen := by
          rw [← joined, length_take]
          omega
        rw [joined]
        refine Denotes.of_cons own inside ?_ (by omega) cut
        rw [size]
        simp only [u16, toU16, count]
        omega
      · exact fun nonempty => Denotes.end_of_drop (survivors nonempty)
    · rename_i here
      have enough : remLen ≤ q.len := Nat.le_of_not_lt here
      have shrunk : Denotes [pbufShrink q remLen] (b.take remLen) := by
        refine Denotes.single ?_ (pbufShrink_inMemory enough inside) rfl ?_
        · rw [pbufShrink_bytes q remLen enough, own, take_take, Nat.min_eq_left enough]
        · simp only [length_take]
          omega
      split at done
      · rename_i more
        obtain ⟨⟨gone, left⟩, free, result⟩ := bind_ok.mp done
        cases result
        exact ⟨shrunk, fun nonempty =>
          Denotes.end_of_drop ((denotes.tail more).pbufFree free nonempty)⟩
      · cases done
        exact ⟨shrunk, fun nonempty => absurd rfl nonempty⟩

/-- `pbuf_realloc` leaves the prefix; what others still refer to denotes the end. -/
theorem pbufRealloc_denotes {kept : Chain} {newLen : Nat} (denotes : Denotes c b)
    (done : pbufRealloc c newLen = .ok (kept, rest)) :
    Denotes kept (b.take newLen) ∧
      (rest ≠ [] → Denotes rest (b.drop (b.length - rest.totLen))) := by
  rw [pbufRealloc, lwipAssert_bind_ok] at done
  obtain ⟨_, done⟩ := done
  rw [denotes.totLen_eq] at done
  split at done
  · rename_i longer
    cases done
    rw [take_of_length_le longer]
    exact ⟨denotes, fun nonempty => absurd rfl nonempty⟩
  · exact pbufReallocLoop_denotes denotes (by omega) done

/-- The string after a header was hidden or revealed: bytes go from its front, or the bytes of
the memory in front of the payload come to it. -/
def headerAdjusted (p : Pbuf) (headerSizeIncrement : Int) (b : List UInt8) : List UInt8 :=
  if headerSizeIncrement ≤ 0 then b.drop (-headerSizeIncrement).toNat
  else (p.mem.drop (p.payload - headerSizeIncrement.toNat)).take headerSizeIncrement.toNat ++ b

/-- What a successful `pbuf_header` does to the pbuf. -/
theorem pbufHeaderImpl_some {q : Pbuf} {inc : Int} (low : -32768 ≤ inc)
    (done : pbufHeaderImpl p inc false = some q) :
    -inc ≤ p.len ∧ inc ≤ p.payload ∧
      (inc ≠ 0 → q = { p with
        payload := (p.payload - inc).toNat
        len := toU16 (p.len + inc)
        totLen := toU16 (p.totLen + inc) }) ∧ (inc = 0 → q = p) := by
  unfold pbufHeaderImpl at done
  split at done
  · rename_i zero
    simp only [Option.some.injEq] at done
    subst done zero
    exact ⟨by omega, by omega, by omega, fun _ => rfl⟩
  split at done
  · cases done
  rename_i nonzero allowed
  have magnitude : -inc ≤ p.len := by
    by_cases hidden : inc < 0
    · rw [toU16_of_range (by omega) (by omega)] at allowed
      omega
    · omega
  simp only at done
  have cases : (p.payload - inc : Int) ≥ 0 ∧ some q = some { p with
      payload := (p.payload - inc).toNat
      len := toU16 (p.len + inc)
      totLen := toU16 (p.totLen + inc) } := by
    split at done
    all_goals split at done
    all_goals first
      | cases done; done
      | exact ⟨by omega, done.symm⟩
  obtain ⟨room, equal⟩ := cases
  exact ⟨magnitude, by omega, fun _ => Option.some.inj equal, fun zero => absurd zero nonzero⟩

/-- `pbuf_header` adjusts the front of the string. -/
theorem pbufHeader_denotes {inc : Int} (denotes : Denotes (p :: next) b) (low : -32768 ≤ inc)
    (total : b.length + inc ≤ 65535) (done : pbufHeader (p :: next) inc = .ok (some c)) :
    Denotes c (headerAdjusted p inc b) := by
  obtain ⟨own, behind, bound, count, nextCount⟩ := denotes.cons_inv
  have inside := denotes.inMemory p mem_cons_self
  simp only [pbufHeader, Except.ok.injEq, Option.map_eq_some_iff] at done
  obtain ⟨q, moved, rfl⟩ := done
  obtain ⟨magnitude, room, changed, kept⟩ := pbufHeaderImpl_some low moved
  by_cases zero : inc = 0
  · rw [kept zero]
    subst zero
    simpa [headerAdjusted] using denotes
  have resized := changed zero
  have newLen : q.len = (p.len + inc).toNat := by
    rw [resized]
    exact toU16_of_range (by omega) (by omega)
  have newTotal : q.totLen = (b.length + inc).toNat := by
    rw [resized, ← count]
    exact toU16_of_range (by omega) (by omega)
  have newPayload : q.payload = (p.payload - inc).toNat := by rw [resized]
  have sameMem : q.mem = p.mem := by rw [resized]
  have joined : p.bytes ++ b.drop p.len = b := by
    rw [own, take_append_drop]
  have string : q.bytes ++ b.drop p.len = headerAdjusted p inc b := by
    rw [Pbuf.bytes, newLen, newPayload, sameMem, headerAdjusted]
    split
    · rename_i hidden
      have taken : (p.mem.drop (p.payload - inc).toNat).take (p.len + inc).toNat =
          p.bytes.drop (-inc).toNat := by
        rw [Pbuf.bytes, drop_take, drop_drop]
        congr 2 <;> omega
      have length := Pbuf.length_bytes inside
      rw [taken]
      conv_rhs => rw [← joined]
      rw [drop_append_of_le_length (by omega)]
    · rename_i revealed
      have start : (p.payload - inc : Int).toNat = p.payload - inc.toNat := by omega
      have size : (p.len + inc).toNat = inc.toNat + p.len := by omega
      rw [start, size, take_add, drop_drop,
        show p.payload - inc.toNat + inc.toNat = p.payload by omega, append_assoc]
      exact congrArg _ joined
  have insideNew : q.payload + q.len ≤ q.mem.length := by
    rw [newPayload, newLen, sameMem]
    omega
  have size : (q.bytes ++ b.drop p.len).length = (b.length + inc).toNat := by
    rw [length_append, Pbuf.length_bytes insideNew, length_drop, newLen]
    omega
  rw [← string]
  by_cases single : next = []
  · subst single
    have empty : b.drop p.len = [] := by
      rw [← behind]
      rfl
    rw [empty, append_nil] at size ⊢
    refine Denotes.single rfl insideNew ?_ (by omega)
    rw [newTotal, ← size, Pbuf.length_bytes insideNew]
  · exact Denotes.of_cons rfl insideNew (by rw [size, newTotal]) (by omega)
      (denotes.tail single)

/-- The last total length of a chain is the length of its last pbuf. -/
theorem TotLens.last (lens : TotLens c) : ∀ q ∈ c.getLast?, q.totLen = q.len := by
  induction c with
  | nil => simp
  | cons p next ih =>
    cases next with
    | nil => simpa [TotLens, Chain.totLen] using lens
    | cons q more =>
      rw [getLast?_cons_cons]
      exact ih lens.2

/-- A pbuf in front of a chain that is linked behind it. -/
def relink (t : Chain) (p : Pbuf) : Pbuf := { p with totLen := u16 (p.totLen + t.totLen) }

theorem pbufCatLoop_ok_iff (head : h ≠ []) : pbufCatLoop t h = .ok c ↔
    (∀ q ∈ h.getLast?, q.totLen = q.len) ∧ c = h.map (relink t) ++ t := by
  induction h generalizing c with
  | nil => exact absurd rfl head
  | cons p next ih =>
    cases next with
    | nil =>
      rw [pbufCatLoop, lwipAssert_bind_ok]
      simp [relink, eq_comm]
    | cons q more =>
      rw [pbufCatLoop, bind_ok]
      simp only [ih (cons_ne_nil q more)]
      simp [relink, eq_comm]

/-- `pbuf_cat` links two chains if the first one ends with a right total length. -/
theorem pbufCat_ok_iff (head : h ≠ []) (tail : t ≠ []) : pbufCat h t = .ok c ↔
    (∀ q ∈ h.getLast?, q.totLen = q.len) ∧ c = h.map (relink t) ++ t := by
  rw [pbufCat, if_neg (by simp [head, tail])]
  exact pbufCatLoop_ok_iff head

/-- The walk of `pbuf_cat` links the strings. -/
theorem pbufCatLoop_denotes (head : Denotes h b) (tail : Denotes t e)
    (total : b.length + e.length ≤ 65535) (done : pbufCatLoop t h = .ok c) :
    Denotes c (b ++ e) := by
  induction h generalizing b c with
  | nil => exact absurd rfl head.nonempty
  | cons p next ih =>
    obtain ⟨own, behind, bound, count, nextCount⟩ := head.cons_inv
    have inside := head.inMemory p mem_cons_self
    have extended : u16 (p.totLen + t.totLen) = b.length + e.length := by
      rw [count, tail.totLen_eq, u16_of_lt (by omega)]
    cases next with
    | nil =>
      rw [pbufCatLoop, lwipAssert_bind_ok] at done
      obtain ⟨_, done⟩ := done
      cases done
      have whole : p.bytes = b := by simpa [Chain.bytes] using head.bytes
      exact Denotes.of_cons whole inside (by simpa using extended) (by simpa using total) tail
    | cons q more =>
      rw [pbufCatLoop] at done
      obtain ⟨rest, loop, result⟩ := bind_ok.mp done
      cases result
      have linked := ih (head.tail (by simp)) (by simp only [length_drop]; omega) loop
      have joined : b ++ e = b.take p.len ++ (b.drop p.len ++ e) := by
        rw [← append_assoc, take_append_drop]
      have size : (b.take p.len ++ (b.drop p.len ++ e)).length = b.length + e.length := by
        rw [← joined, length_append]
      rw [joined]
      exact Denotes.of_cons own inside (by rw [size]; exact extended) (by rw [size]; exact total)
        linked

theorem pbufCat_denotes (head : Denotes h b) (tail : Denotes t e)
    (total : b.length + e.length ≤ 65535) (done : pbufCat h t = .ok c) : Denotes c (b ++ e) := by
  rw [pbufCat, if_neg (by simp [head.nonempty, tail.nonempty])] at done
  exact pbufCatLoop_denotes head tail total done

theorem Denotes.pbufRef (denotes : Denotes t e) : Denotes (Lwip.pbufRef t) e := by
  cases t with
  | nil => exact absurd rfl denotes.nonempty
  | cons p next => exact denotes.of_ref (u16 (p.ref + 1))

/-- `pbuf_dechain` splits the string. The returned pointer is good unless the number of pbufs
deallocated behind it is a positive multiple of 256. -/
theorem pbufDechain_denotes {p' : Pbuf} {returned : Option Chain} (denotes : Denotes (p :: next) b)
    (done : pbufDechain p next = .ok (p', rest, returned)) :
    Denotes [p'] (b.take p.len) ∧
      (rest ≠ [] → Denotes rest (b.drop (b.length - rest.totLen))) ∧
      ∀ q, returned = some q → unshared next % 256 = 0 ∧
        (unshared next = 0 → Denotes q (b.drop p.len)) := by
  obtain ⟨own, behind, bound, count, nextCount⟩ := denotes.cons_inv
  have inside := denotes.inMemory p mem_cons_self
  have fits := denotes.fits
  have short : (b.take p.len).length ≤ 65535 := by
    rw [length_take]
    omega
  cases next with
  | nil =>
    rw [pbufDechain, lwipAssert_bind_ok] at done
    obtain ⟨single, done⟩ := done
    cases done
    exact ⟨Denotes.single own inside single short, by simp, by simp⟩
  | cons q more =>
    rw [pbufDechain, lwipAssert_bind_ok] at done
    obtain ⟨equation, done⟩ := done
    have same : toU16 (p.totLen - p.len) = q.totLen := by
      rw [← equation, toU16_of_range (by omega)]
      · simp
      · have := (denotes.tail (by simp : q :: more ≠ [])).totLen_eq
        simp only [Chain.totLen, length_drop] at this
        omega
    simp only [same] at done
    obtain ⟨⟨tailGone, left⟩, free, result⟩ := bind_ok.mp done
    cases result
    have tail := denotes.tail (by simp : q :: more ≠ [])
    have spec := pbufFree_spec (c := q :: more) free
    refine ⟨Denotes.single own inside rfl short,
      fun nonempty => Denotes.end_of_drop (tail.pbufFree free nonempty), fun chain got => ?_⟩
    split at got
    · cases got
    refine ⟨by omega, fun none => ?_⟩
    have kept : left = { q with ref := q.ref - 1 } :: more := by
      rw [spec.2, released, none]
      rfl
    rw [if_pos (by rw [kept]; rfl), kept] at got
    cases got
    exact tail.of_ref _

/-! ## Sequences of operations -/

/-- A chain together with the string it is to denote. -/
structure Packet where
  chain : Chain
  denoted : List UInt8

/-- The chain of a packet denotes its string. -/
def Packet.Sound (packet : Packet) : Prop := Denotes packet.chain packet.denoted

/-- A call of one of the operations. -/
inductive PbufCall where
  | realloc (p : Chain) (newLen : Nat)
  | header (p : Pbuf) (next : Chain) (headerSizeIncrement : Int)
  | cat (h t : Chain)
  | chain (h t : Chain)
  | dechain (p : Pbuf) (next : Chain)

/-- The packet of what is still referenced of a part that was cut off: its string is the end
of the old one. -/
def survivors (rest : Chain) (b : List UInt8) : List Packet :=
  if rest = [] then [] else [⟨rest, b.drop (b.length - rest.totLen)⟩]

/-- The packet behind the pointer that `pbuf_dechain` returns, or else what is still
referenced of the successors. -/
def dechained (returned : Option Chain) (rest : Chain) (len : Nat) (b : List UInt8) :
    List Packet :=
  match returned with
  | some q => [⟨q, b.drop len⟩]
  | none => survivors rest b

/-- A successful call replaces the packets it is given by the packets it makes. Their strings
are the prefix, the adjusted string, the concatenation or the two parts. -/
inductive Effect : PbufCall → List Packet → List Packet → Prop
  | realloc {p kept rest : Chain} {newLen : Nat} {b : List UInt8}
      (done : pbufRealloc p newLen = .ok (kept, rest)) :
      Effect (.realloc p newLen) [⟨p, b⟩] (⟨kept, b.take newLen⟩ :: survivors rest b)
  /-- Moving the header; the increment is an `s16_t`. -/
  | header {p : Pbuf} {next c : Chain} {inc : Int} {b : List UInt8} (low : -32768 ≤ inc)
      (high : inc ≤ 32767) (total : b.length + inc ≤ 65535)
      (done : pbufHeader (p :: next) inc = .ok (some c)) :
      Effect (.header p next inc) [⟨p :: next, b⟩] [⟨c, headerAdjusted p inc b⟩]
  /-- Concatenation that takes the reference of the tail. -/
  | cat {h t c : Chain} {b e : List UInt8} (total : b.length + e.length ≤ 65535)
      (done : pbufCat h t = .ok c) : Effect (.cat h t) [⟨h, b⟩, ⟨t, e⟩] [⟨c, b ++ e⟩]
  /-- Concatenation that adds a reference to the tail. -/
  | chain {h t c : Chain} {b e : List UInt8} (total : b.length + e.length ≤ 65535)
      (done : pbufChain h t = .ok c) : Effect (.chain h t) [⟨h, b⟩, ⟨t, e⟩] [⟨c, b ++ e⟩]
  | dechain {p p' : Pbuf} {next rest : Chain} {returned : Option Chain} {b : List UInt8}
      (done : pbufDechain p next = .ok (p', rest, returned)) :
      Effect (.dechain p next) [⟨p :: next, b⟩]
        (⟨[p'], b.take p.len⟩ :: dechained returned rest p.len b)

/-- A call on some of the packets in existence, in whatever order they are listed. -/
def PbufStep (s : List Packet) (call : PbufCall) (s' : List Packet) : Prop :=
  ∃ given made frame, s.Perm (given ++ frame) ∧ Effect call given made ∧ s'.Perm (made ++ frame)

/-- The calls that are not affected by the 8-bit count of `pbuf_free`: the number of unshared
pbufs right behind a pbuf to be dechained is zero or no multiple of 256. -/
def CountFits (_ : List Packet) : PbufCall → Prop
  | .dechain _ next => unshared next = 0 ∨ unshared next % 256 ≠ 0
  | _ => True

/-- Every packet that `survivors` lists is sound if the part cut off was. -/
theorem survivors_sound (sound : rest ≠ [] → Denotes rest (b.drop (b.length - rest.totLen))) :
    ∀ packet ∈ survivors rest b, packet.Sound := by
  intro packet member
  unfold survivors at member
  split at member
  · simp at member
  · rename_i nonempty
    rw [mem_singleton.mp member]
    exact sound nonempty

/-- One call turns sound packets into sound packets. -/
theorem effect_sound {call : PbufCall} {given made s : List Packet}
    (effect : Effect call given made) (fits : CountFits s call)
    (sound : ∀ packet ∈ given, packet.Sound) : ∀ packet ∈ made, packet.Sound := by
  cases effect with
  | realloc done =>
    obtain ⟨kept, rest⟩ := pbufRealloc_denotes (sound _ mem_cons_self) done
    exact forall_mem_cons.mpr ⟨kept, survivors_sound rest⟩
  | header low _ total done =>
    exact forall_mem_singleton.mpr
      (pbufHeader_denotes (sound _ mem_cons_self) low total done)
  | cat total done =>
    have tail := sound _ (mem_cons_of_mem _ mem_cons_self)
    exact forall_mem_singleton.mpr
      (pbufCat_denotes (sound _ mem_cons_self) tail total done)
  | chain total done =>
    have tail := Denotes.pbufRef (sound _ (mem_cons_of_mem _ mem_cons_self))
    exact forall_mem_singleton.mpr
      (pbufCat_denotes (sound _ mem_cons_self) tail total done)
  | @dechain p p' next rest returned b done =>
    obtain ⟨front, rest, pointer⟩ := pbufDechain_denotes (sound _ mem_cons_self) done
    refine forall_mem_cons.mpr ⟨front, ?_⟩
    cases returned with
    | none => exact survivors_sound rest
    | some q =>
      obtain ⟨multiple, good⟩ := pointer q rfl
      have zero : unshared next = 0 := fits.resolve_right (by simp [multiple])
      exact forall_mem_singleton.mpr (good zero)

/-- One call on some of the packets keeps all of them sound. -/
theorem pbufStep_sound {s s' : List Packet} {call : PbufCall}
    (sound : ∀ packet ∈ s, packet.Sound) (fits : CountFits s call) (step : PbufStep s call s') :
    ∀ packet ∈ s', packet.Sound := by
  obtain ⟨given, made, frame, before, effect, after⟩ := step
  have parts : ∀ packet ∈ given ++ frame, packet.Sound :=
    fun packet member => sound packet (before.mem_iff.mpr member)
  have results := effect_sound effect fits
    (fun packet member => parts packet (mem_append_left frame member))
  intro packet member
  rcases mem_append.mp (after.mem_iff.mp member) with made | framed
  · exact results packet made
  · exact parts packet (mem_append_right given framed)

/-- Any sequence of successful calls on chains that denote strings gives chains with right
total lengths that denote the strings the calls should make. -/
theorem pbuf_run_denotes (s s' : List Packet) (sound : ∀ packet ∈ s, packet.Sound)
    (run : Transition.Run PbufStep CountFits s s') : ∀ packet ∈ s', packet.Sound :=
  run.invariant sound fun _ _ _ => pbufStep_sound

/-- A pbuf of the pool with the given payload. -/
def poolPbuf (payload : List UInt8) : Pbuf :=
  { mem := payload, payload := 0, totLen := payload.length, len := payload.length, type := .pool
    isCustom := false, ref := 1 }

/-- Two pbufs of the pool, as two packets. -/
def twoPackets : List Packet := [⟨[poolPbuf [1, 2]], [1, 2]⟩, ⟨[poolPbuf [3]], [3]⟩]

/-- The two packets after `pbuf_chain`: the tail keeps a reference of its own. -/
def chainedPacket : List Packet :=
  [⟨[{ poolPbuf [1, 2] with totLen := 3 }, { poolPbuf [3] with ref := 2 }], [1, 2, 3]⟩]

/-- The theorem at two packets that are chained and taken apart again. -/
theorem pbuf_run_denotes_twoPackets :
    PbufStep twoPackets (.chain [poolPbuf [1, 2]] [poolPbuf [3]]) chainedPacket ∧
      PbufStep chainedPacket
        (.dechain { poolPbuf [1, 2] with totLen := 3 } [{ poolPbuf [3] with ref := 2 }])
        twoPackets ∧
      ∀ packet ∈ twoPackets, packet.Sound := by
  have sound : ∀ packet ∈ twoPackets, packet.Sound := by
    intro packet member
    simp only [twoPackets, mem_cons, not_mem_nil, or_false] at member
    rcases member with rfl | rfl <;> exact Denotes.single rfl (by decide) rfl (by decide)
  have chain : PbufStep twoPackets (.chain [poolPbuf [1, 2]] [poolPbuf [3]]) chainedPacket :=
    ⟨twoPackets, chainedPacket, [], by simp, Effect.chain (by decide) rfl, by simp⟩
  have dechain : PbufStep chainedPacket
      (.dechain { poolPbuf [1, 2] with totLen := 3 } [{ poolPbuf [3] with ref := 2 }])
      twoPackets := by
    have done : pbufDechain { poolPbuf [1, 2] with totLen := 3 }
        [{ poolPbuf [3] with ref := 2 }] =
        .ok (poolPbuf [1, 2], [poolPbuf [3]], some [poolPbuf [3]]) := by decide
    exact ⟨chainedPacket, twoPackets, [], by simp, Effect.dechain done, by simp⟩
  have run : Transition.Run PbufStep CountFits twoPackets twoPackets :=
    (Transition.Run.refl.tail _ trivial chain).tail (.dechain _ _) (Or.inl rfl) dechain
  exact ⟨chain, dechain, pbuf_run_denotes _ _ sound run⟩

/-- Unshared pbufs without payload denote the empty string. -/
theorem denotes_empty_pbufs (n : Nat) :
    Denotes (poolPbuf [] :: List.replicate n (poolPbuf [])) [] := by
  induction n with
  | zero => exact Denotes.single rfl (by decide) rfl (by decide)
  | succ n ih => exact Denotes.of_cons (b := []) rfl (by decide) rfl (by decide) ih

theorem pbufFreeLoop_unshared (n : Nat) :
    pbufFreeLoop (List.replicate n (poolPbuf [])) = .ok (n, []) := by
  induction n with
  | zero => rfl
  | succ n ih =>
    rw [replicate_succ, pbufFreeLoop, ih]
    rfl

/-- A packet of 257 unshared pbufs without payload. -/
def longPacket : Packet := ⟨poolPbuf [] :: List.replicate 256 (poolPbuf []), []⟩

/-- Unlinking the first of 257 unshared pbufs deallocates the other 256, which `pbuf_free`
counts as zero, so that the pointer to the second one is returned. -/
theorem pbufDechain_returns_deallocated :
    longPacket.Sound ∧
      pbufDechain (poolPbuf []) (List.replicate 256 (poolPbuf [])) =
        .ok (poolPbuf [], [], some []) ∧
      PbufStep [longPacket] (.dechain (poolPbuf []) (List.replicate 256 (poolPbuf [])))
        [⟨[poolPbuf []], []⟩, ⟨[], []⟩] ∧
      ¬(⟨[], []⟩ : Packet).Sound := by
  have freed : pbufFree (poolPbuf [] :: List.replicate 255 (poolPbuf [])) = .ok (0, []) := by
    rw [← replicate_succ, pbufFree, pbufFreeLoop_unshared]
    rfl
  have done : pbufDechain (poolPbuf []) (poolPbuf [] :: List.replicate 255 (poolPbuf [])) =
      .ok (poolPbuf [], [], some []) := by
    rw [pbufDechain, lwipAssert_bind_ok]
    refine ⟨by decide, bind_ok.mpr ⟨(0, []), freed, ?_⟩⟩
    simp only [ite_self]
    rfl
  exact ⟨denotes_empty_pbufs 256, done,
    ⟨[longPacket], _, [], List.Perm.refl _, Effect.dechain done, List.Perm.refl _⟩,
    fun denotes => denotes.nonempty rfl⟩

/-- What `pbuf_dechain` leaves and returns, by the number of deallocated pbufs. -/
theorem pbufDechain_referenced (lens : TotLens (p :: next)) (short : p.totLen < 65536)
    (referenced : ∀ q ∈ next, 0 < q.ref) :
    pbufDechain p next = .ok ({ p with totLen := p.len }, released next,
      if next = [] ∨ unshared next % 256 ≠ 0 then none
      else some (if unshared next = 0 then released next else [])) := by
  cases next with
  | nil =>
    have single : p.totLen = p.len := lens.1
    have kept : { p with totLen := p.len } = p :=
      congrArg (fun n => { p with totLen := n }) single.symm
    rw [pbufDechain, lwipAssert_pos single, ok_bind, kept]
    rfl
  | cons q more =>
    have total : p.totLen = p.len + q.totLen := lens.1
    have kept : { q with totLen := toU16 (p.totLen - p.len) } = q := by
      rw [toU16_eq (n := q.totLen) (by omega) (by omega)]
    have survives : (released (q :: more)).length = (q :: more).length ↔
        unshared (q :: more) = 0 := by
      have bound : unshared (q :: more) ≤ (q :: more).length := (takeWhile_sublist _).length_le
      rw [released, length_modifyHead, length_drop]
      rw [length_cons] at bound ⊢
      omega
    rw [pbufDechain, lwipAssert_pos (by omega), ok_bind]
    simp only [kept, pbufFree_referenced (cons_ne_nil q more) referenced, ok_bind, survives,
      cons_ne_nil, false_or, Nat.pos_iff_ne_zero]

/-- `pbuf_free` and `pbuf_dechain` over chains with any reference counts. The first deallocates
the unshared pbufs at the front and drops one reference of the next one, and its result counts
them exactly if there are fewer than 256. The second drops the reference of the tail the same
way and returns the tail if it is still allocated and `NULL` otherwise, exactly if the number of
deallocated pbufs is zero or no multiple of 256. -/
theorem pbufFree_counts_iff (p : Pbuf) (next : Chain) (referenced : ∀ q ∈ p :: next, 0 < q.ref) :
    (pbufFree (p :: next) = .ok (unshared (p :: next), released (p :: next)) ↔
      unshared (p :: next) < 256) ∧
    (TotLens (p :: next) → p.totLen < 65536 →
      (pbufDechain p next = .ok ({ p with totLen := p.len }, released next,
          if next ≠ [] ∧ unshared next = 0 then some (released next) else none) ↔
        (unshared next % 256 = 0 → unshared next = 0))) := by
  refine ⟨?_, fun lens short => ?_⟩
  · rw [pbufFree_referenced (by simp) referenced, Except.ok.injEq, Prod.mk.injEq, and_iff_left rfl]
    omega
  rw [pbufDechain_referenced lens short fun q member => referenced q (mem_cons_of_mem p member)]
  simp only [Except.ok.injEq, Prod.mk.injEq, true_and]
  -- The tail is gone, still there, or deallocated and counted as zero.
  by_cases empty : next = []
  · simp [empty, unshared]
  by_cases gone : unshared next % 256 = 0
  · by_cases none : unshared next = 0 <;> simp [empty, gone, none]
  · have some : unshared next ≠ 0 := fun zero => gone (by rw [zero])
    simp [empty, gone, some]

/-- Two pbufs that nothing else refers to, and two of which the second is referred to twice. -/
theorem pbufFree_counts_iff_two :
    pbufFree [poolPbuf [], poolPbuf []] = .ok (2, []) ∧
      pbufDechain (poolPbuf []) [{ poolPbuf [] with ref := 2 }] =
        .ok (poolPbuf [], [poolPbuf []], some [poolPbuf []]) :=
  ⟨(pbufFree_counts_iff (poolPbuf []) [poolPbuf []] (by decide)).1.mpr (by decide),
    ((pbufFree_counts_iff (poolPbuf []) [{ poolPbuf [] with ref := 2 }] (by decide)).2
      ⟨rfl, rfl, trivial⟩ (by decide)).mpr (by decide)⟩

/-- The result for 257 pbufs that nothing else refers to is 1. -/
theorem pbufFree_miscounts :
    (∀ q ∈ longPacket.chain, 0 < q.ref) ∧ TotLens longPacket.chain ∧
      pbufFree longPacket.chain = .ok (1, []) ∧ unshared longPacket.chain = 257 := by
  have all : longPacket.chain = List.replicate 257 (poolPbuf []) := replicate_succ.symm
  refine ⟨?_, (denotes_empty_pbufs 256).totLens, ?_, ?_⟩
  · intro q member
    rw [all] at member
    rw [eq_of_mem_replicate member]
    decide
  · rw [all, pbufFree, pbufFreeLoop_unshared]
    rfl
  · rw [all, unshared, takeWhile_replicate, if_pos (by decide), length_replicate]

end Lwip
