import Lwip.Core.TcpOpt
import Lwip.Verif.Pbuf

/-!
# Reading the options of a segment

`tcp_parseopt` looks at the bound before it reads the kind of an option, and reads the length
behind the kind without looking again. So it reads one byte beyond the options exactly if the
last byte of the options is the kind of an option with a length. What it reads there decides
nothing: the control block ends up as if the options had been one list of bytes, however they are
split between two pbufs.
-/

namespace Lwip

open Relation List

variable {k passes : Nat} {pcb : TcpPcb}

namespace TcpOptions

variable (a : TcpOptions)

/-- The bytes of the options. -/
def area : List UInt8 := (List.range a.optlen).map a.byteAt

/-- An option at one index is followed by the option at another one. -/
def Follows (k next : Nat) : Prop :=
  (k < a.optlen ∧ (a.byteAt k).toNat = 1 ∧ next = k + 1) ∨
    (k + 4 ≤ a.optlen ∧ (a.byteAt k).toNat = 2 ∧ (a.byteAt (k + 1)).toNat = 4 ∧ next = k + 4) ∨
    (k + 1 < a.optlen ∧ 2 < (a.byteAt k).toNat ∧ 2 ≤ (a.byteAt (k + 1)).toNat ∧
      next = k + (a.byteAt (k + 1)).toNat)

/-- Among the options from an index on, one with a length has its kind in the last byte. -/
def CutOff (start : Nat) : Prop :=
  ∃ k, ReflTransGen a.Follows start k ∧ k + 1 = a.optlen ∧ 2 ≤ (a.byteAt k).toNat

/-- There is nothing to cut off behind the options. -/
theorem not_cutOff_of_le (behind : a.optlen ≤ k) : ¬a.CutOff k := by
  rintro ⟨last, reached, ends, kind⟩
  have grows (start next : Nat) (follows : a.Follows start next) : start ≤ next := by
    unfold Follows at follows
    omega
  have further : k ≤ last := by
    clear ends kind
    induction reached with
    | refl => exact Nat.le_refl k
    | tail _ follows ih => exact ih.trans (grows _ _ follows)
  omega

/-- The first option is cut off, or one that follows it. -/
theorem cutOff_iff (k : Nat) : a.CutOff k ↔
    (k + 1 = a.optlen ∧ 2 ≤ (a.byteAt k).toNat) ∨ ∃ next, a.Follows k next ∧ a.CutOff next := by
  constructor
  · rintro ⟨last, reached, ends, kind⟩
    cases reached.cases_head with
    | inl same =>
      subst same
      exact .inl ⟨ends, kind⟩
    | inr later =>
      obtain ⟨next, follows, rest⟩ := later
      exact .inr ⟨next, follows, last, rest, ends, kind⟩
  · intro either
    cases either with
    | inl here => exact ⟨k, ReflTransGen.refl, here⟩
    | inr later =>
      obtain ⟨next, follows, last, rest, ends⟩ := later
      exact ⟨last, ReflTransGen.head follows rest, ends⟩

/-- Nothing follows an option: it is cut off in the last byte or not at all. -/
theorem cutOff_of_none (none' : ∀ next, ¬a.Follows k next) :
    a.CutOff k ↔ k + 1 = a.optlen ∧ 2 ≤ (a.byteAt k).toNat := by
  rw [cutOff_iff]
  constructor
  · intro either
    cases either with
    | inl here => exact here
    | inr later => exact absurd later.choose_spec.1 (none' _)
  · exact .inl

/-- An option is followed by another one: what is cut off is among those from there on. -/
theorem cutOff_of_follows {next : Nat} (follows : a.Follows k next)
    (inside : k + 1 = a.optlen → (a.byteAt k).toNat < 2) : a.CutOff k ↔ a.CutOff next := by
  rw [cutOff_iff]
  constructor
  · intro either
    cases either with
    | inl here => exact absurd here.2 (Nat.not_le_of_lt (inside here.1))
    | inr later =>
      obtain ⟨other, follows', cut⟩ := later
      have same : other = next := by
        unfold Follows at follows follows'
        omega
      exact same ▸ cut
  · exact fun cut => .inr ⟨next, follows, cut⟩

theorem tcpGetoptbyte_area (inside : k < a.optlen) :
    tcpGetoptbyte a.area k = (a.byteAt k).toNat := by
  simp [tcpGetoptbyte, area, inside]

/-- What the loop of `tcp_parseopt` does from an option on: it ends, it does to the control block
what it does for a list of bytes, and it reads beyond the options if it gets to an option that is
cut off. -/
structure Parsed (k : Nat) (pcb : TcpPcb) (passes : Nat) (seen : List Nat)
    (result : Option (OptCursor × TcpPcb)) : Prop where
  same : result.map Prod.snd = some (tcpParseoptLoop a.area passes k pcb)
  /-- It reads some more bytes. -/
  reads : ∃ c, result.map Prod.fst = some c ∧ ∃ read, c.reads = seen ++ read ∧
    ((∀ j ∈ read, j < a.optlen) ↔ ¬a.CutOff k)

variable {a}

/-- The loop stops at an option that nothing follows. -/
theorem Parsed.stops {idx : Nat} {seen read : List Nat}
    (stopped : tcpParseoptLoop a.area passes k pcb = pcb)
    (bound : (∀ j ∈ read, j < a.optlen) ↔ ¬a.CutOff k) :
    a.Parsed k pcb passes seen (some ({ optidx := idx, reads := seen ++ read }, pcb)) where
  same := by rw [stopped]; rfl
  reads := ⟨_, rfl, read, rfl, bound⟩

/-- The loop ends behind the options. -/
theorem Parsed.ends {c : OptCursor} (behind : ¬c.optidx < a.optlen)
    (stopped : tcpParseoptLoop a.area passes c.optidx pcb = pcb) :
    a.Parsed c.optidx pcb passes c.reads (some (c, pcb)) where
  same := by rw [stopped]; rfl
  reads := ⟨c, rfl, [], (List.append_nil _).symm,
    fun _ => a.not_cutOff_of_le (Nat.le_of_not_lt behind), fun _ _ member => nomatch member⟩

/-- The loop goes on at the next option. -/
theorem Parsed.goes {next : Nat} {pcb' : TcpPcb} {passes' : Nat} {seen read : List Nat}
    {result : Option (OptCursor × TcpPcb)} (rest : a.Parsed next pcb' passes' (seen ++ read) result)
    (goesOn : tcpParseoptLoop a.area passes k pcb = tcpParseoptLoop a.area passes' next pcb')
    (follows : a.Follows k next) (inside : ∀ j ∈ read, j < a.optlen)
    (whole : k + 1 = a.optlen → (a.byteAt k).toNat < 2) :
    a.Parsed k pcb passes seen result where
  same := by rw [goesOn]; exact rest.same
  reads := by
    obtain ⟨c, found, more, log, bound⟩ := rest.reads
    refine ⟨c, found, read ++ more, by rw [log, List.append_assoc], ?_⟩
    rw [a.cutOff_of_follows follows whole, ← bound]
    constructor
    · intro all j member
      exact all j (List.mem_append_right _ member)
    · intro later j member
      cases List.mem_append.1 member with
      | inl early => exact inside j early
      | inr late => exact later j late

variable (a)

/-- The limit on the maximum segment size that a peer gives. -/
def limitedMss (high low : Nat) : Nat :=
  if 256 * high + low > tcpMss ∨ 256 * high + low = 0 then tcpMss else 256 * high + low

/-- One pass of the loop, with the bytes that it reads. -/
theorem parseoptLoop_pass (passes k : Nat) (seen : List Nat) (pcb : TcpPcb)
    (inside : k < a.optlen) : a.parseoptLoop (passes + 1) { optidx := k, reads := seen } pcb =
      if (a.byteAt k).toNat = 0 then some ({ optidx := k + 1, reads := seen ++ [k] }, pcb)
      else if (a.byteAt k).toNat = 1 then
        a.parseoptLoop passes { optidx := k + 1, reads := seen ++ [k] } pcb
      else if (a.byteAt k).toNat = 2 then
        if (a.byteAt (k + 1)).toNat ≠ 4 ∨ k + 4 > a.optlen then
          some ({ optidx := k + 2, reads := seen ++ [k, k + 1] }, pcb)
        else
          a.parseoptLoop passes { optidx := k + 4, reads := seen ++ [k, k + 1, k + 2, k + 3] }
            { pcb with mss := limitedMss (a.byteAt (k + 2)).toNat (a.byteAt (k + 3)).toNat }
      else if (a.byteAt (k + 1)).toNat < 2 then
        some ({ optidx := k + 2, reads := seen ++ [k, k + 1] }, pcb)
      else
        a.parseoptLoop passes
          { optidx := k + (a.byteAt (k + 1)).toNat, reads := seen ++ [k, k + 1] } pcb := by
  have atMost := a.optlenLe
  have byte := (a.byteAt (k + 1)).toNat_lt
  have one : u16 (k + 1) = k + 1 := u16_of_lt (by omega)
  have two : u16 (k + 1 + 1) = k + 2 := u16_of_lt (by omega)
  have three : u16 (k + 2 + 1) = k + 3 := u16_of_lt (by omega)
  have four : u16 (k + 3 + 1) = k + 4 := u16_of_lt (by omega)
  have back : k + 2 - 2 + 4 = k + 4 := by omega
  simp only [parseoptLoop, if_pos inside, getoptbyte, one, two, three, four, back,
    append_assoc, cons_append, nil_append, limitedMss]
  by_cases short : (a.byteAt (k + 1)).toNat < 2
  · simp only [if_pos short]
  · have skip : u16 (k + 2 + ((a.byteAt (k + 1)).toNat - 2)) = k + (a.byteAt (k + 1)).toNat := by
      rw [u16_of_lt (by omega)]
      omega
    simp only [if_neg short, skip]

/-- One pass of the loop over a list of bytes. -/
theorem tcpParseoptLoop_pass (opts : List UInt8) (passes k : Nat) (pcb : TcpPcb)
    (inside : k < opts.length) : tcpParseoptLoop opts (passes + 1) k pcb =
      if tcpGetoptbyte opts k = 0 then pcb
      else if tcpGetoptbyte opts k = 1 then tcpParseoptLoop opts passes (k + 1) pcb
      else if tcpGetoptbyte opts k = 2 then
        if tcpGetoptbyte opts (k + 1) ≠ 4 ∨ k + 4 > opts.length then pcb
        else tcpParseoptLoop opts passes (k + 4)
          { pcb with mss := limitedMss (tcpGetoptbyte opts (k + 2)) (tcpGetoptbyte opts (k + 3)) }
      else if tcpGetoptbyte opts (k + 1) < 2 then pcb
      else tcpParseoptLoop opts passes (k + tcpGetoptbyte opts (k + 1)) pcb := by
  rw [tcpParseoptLoop, if_pos inside]
  split
  · rename_i eol
    rw [if_pos eol]
  · rename_i nop
    rw [nop, if_neg (by decide), if_pos rfl]
  · rename_i mss
    rw [mss]
    rfl
  · rename_i noEol noNop noMss
    rw [if_neg noEol, if_neg noNop, if_neg noMss]

theorem parseoptLoop_parsed (passes : Nat) (c : OptCursor) (pcb : TcpPcb)
    (enough : a.optlen - c.optidx ≤ passes) :
    a.Parsed c.optidx pcb passes c.reads (a.parseoptLoop (passes + 1) c pcb) := by
  have length : a.area.length = a.optlen := by simp [area]
  induction passes generalizing c pcb with
  | zero =>
    have behind : ¬c.optidx < a.optlen := by omega
    unfold parseoptLoop
    rw [if_neg behind]
    exact Parsed.ends behind rfl
  | succ passes ih =>
    by_cases inside : c.optidx < a.optlen
    · obtain ⟨k, seen⟩ := c
      dsimp only at enough inside ⊢
      have pass := tcpParseoptLoop_pass a.area passes k pcb (length ▸ inside)
      rw [length, a.tcpGetoptbyte_area inside] at pass
      rw [a.parseoptLoop_pass (passes + 1) k seen pcb inside]
      by_cases eol : (a.byteAt k).toNat = 0
      · rw [if_pos eol] at pass ⊢
        apply Parsed.stops pass
        rw [a.cutOff_of_none (by unfold Follows; omega)]
        simp only [mem_singleton, forall_eq]
        omega
      rw [if_neg eol] at pass ⊢
      by_cases nop : (a.byteAt k).toNat = 1
      · rw [if_pos nop] at pass ⊢
        have rest := ih { optidx := k + 1, reads := seen ++ [k] } pcb (by dsimp only; omega)
        apply rest.goes pass
        · exact .inl ⟨inside, nop, rfl⟩
        · simpa using inside
        · omega
      rw [if_neg nop] at pass ⊢
      by_cases last : k + 1 = a.optlen
      · -- the length is read without another look at the bound
        have zero : tcpGetoptbyte a.area (k + 1) = 0 := by simp [tcpGetoptbyte, area, last]
        have stopped : tcpParseoptLoop a.area (passes + 1) k pcb = pcb := by
          rw [pass, zero]
          split <;> rfl
        have bound : (∀ j ∈ [k, k + 1], j < a.optlen) ↔ ¬a.CutOff k := by
          rw [a.cutOff_of_none (by unfold Follows; omega)]
          simp only [mem_cons, not_mem_nil, or_false, forall_eq_or_imp, forall_eq]
          omega
        split
        · rw [if_pos (Or.inr (by omega))]
          exact Parsed.stops stopped bound
        · split
          · exact Parsed.stops stopped bound
          · unfold parseoptLoop
            rw [if_neg (by dsimp only; omega)]
            exact Parsed.stops stopped bound
      · have next := a.tcpGetoptbyte_area (k := k + 1) (by omega)
        have inside' : ∀ j ∈ [k, k + 1], j < a.optlen := by
          simp only [mem_cons, not_mem_nil, or_false, forall_eq_or_imp, forall_eq]
          omega
        rw [next] at pass
        split
        · rename_i mss
          rw [if_pos mss] at pass
          split
          · rename_i bad
            rw [if_pos bad] at pass
            apply Parsed.stops pass
            rw [a.cutOff_of_none (by unfold Follows; omega)]
            exact ⟨fun _ here => last here.1, fun _ => inside'⟩
          · rename_i good
            rw [if_neg good, a.tcpGetoptbyte_area (by omega), a.tcpGetoptbyte_area (by omega)]
              at pass
            have rest := ih { optidx := k + 4, reads := seen ++ [k, k + 1, k + 2, k + 3] }
              { pcb with mss := limitedMss (a.byteAt (k + 2)).toNat (a.byteAt (k + 3)).toNat }
              (by show a.optlen - (k + 4) ≤ passes; omega)
            apply rest.goes pass
            · exact .inr (.inl ⟨by omega, mss, by omega, rfl⟩)
            · simp only [mem_cons, not_mem_nil, or_false, forall_eq_or_imp, forall_eq]
              omega
            · exact fun here => absurd here last
        · rename_i other
          rw [if_neg other] at pass
          split
          · rename_i bad
            rw [if_pos bad] at pass
            apply Parsed.stops pass
            rw [a.cutOff_of_none (by unfold Follows; omega)]
            exact ⟨fun _ here => last here.1, fun _ => inside'⟩
          · rename_i good
            rw [if_neg good] at pass
            have rest := ih
              { optidx := k + (a.byteAt (k + 1)).toNat, reads := seen ++ [k, k + 1] } pcb
              (by show a.optlen - (k + (a.byteAt (k + 1)).toNat) ≤ passes; omega)
            apply rest.goes pass
            · exact .inr (.inr ⟨by omega, by omega, by omega, rfl⟩)
            · exact inside'
            · exact fun here => absurd here last
    · unfold parseoptLoop
      rw [if_neg inside]
      apply Parsed.ends inside
      exact if_neg (by rw [length]; exact inside)

/-- `tcp_parseopt` ends, and does to the control block what it does for a list of bytes. -/
theorem parseopt_parsed (pcb : TcpPcb) : ∃ c, a.parseopt pcb = some (c, tcpParseopt a.area pcb) ∧
    ((∀ j ∈ c.reads, j < a.optlen) ↔ ¬a.CutOff 0) := by
  unfold parseopt
  by_cases some' : a.optlen ≠ 0
  · rw [if_pos some']
    have parsed := a.parseoptLoop_parsed a.optlen { optidx := 0, reads := [] } pcb (by simp)
    have length : a.area.length = a.optlen := by simp [area]
    obtain ⟨c, found, read, log, bound⟩ := parsed.reads
    have same := parsed.same
    cases result : a.parseoptLoop (a.optlen + 1) { optidx := 0, reads := [] } pcb with
    | none =>
      rw [result] at found
      cases found
    | some pair =>
      rw [result] at found same
      have cursor : pair.1 = c := Option.some.inj found
      have block : pair.2 = tcpParseoptLoop a.area a.optlen 0 pcb := Option.some.inj same
      refine ⟨c, ?_, ?_⟩
      · unfold tcpParseopt
        rw [length, ← cursor, ← block]
      · rw [log]
        exact bound
  · rw [if_neg some']
    have zero : a.optlen = 0 := not_not.1 some'
    have empty : a.area = [] := by simp [area, zero]
    refine ⟨{ optidx := 0, reads := [] }, by rw [empty]; rfl, ?_⟩
    exact ⟨fun _ => a.not_cutOff_of_le (by omega), fun _ _ member => nomatch member⟩

end TcpOptions

/-! ## Where the options are -/

theorem Denotes.getElem?_first {p : Pbuf} {next : Chain} {b : List UInt8} {offset : Nat}
    (denotes : Denotes (p :: next) b) (within : offset + k < p.len) :
    b[offset + k]? = some (payloadMem p offset k) := by
  have inside := denotes.inMemory p mem_cons_self
  have bound : p.payload + (offset + k) < p.mem.length := by omega
  rw [← getElem?_take_of_lt within, ← denotes.cons_inv.1, Pbuf.bytes, getElem?_take_of_lt within,
    getElem?_drop, payloadMem, Nat.add_assoc, getD_eq_getElem?_getD, getElem?_eq_getElem bound]
  rfl

/-- The length of a pbuf after a part of it was hidden. -/
theorem pbufHeaderImpl_hides {p : Pbuf} {n : Nat} (within : n ≤ p.len) (fits : p.len ≤ 65535) :
    ((pbufHeaderImpl p (-(n : Int)) false).getD p).len = p.len - n := by
  unfold pbufHeaderImpl
  by_cases zero : n = 0
  · subst zero
    rfl
  have magnitude : toU16 (n : Int) = n := toU16_eq (by omega) (by omega)
  have length : toU16 ((p.len : Int) + -(n : Int)) = p.len - n := toU16_eq (by omega) (by omega)
  have moved : ¬(p.payload + n : Int) < 0 := by omega
  cases p.type <;>
    simp [zero, magnitude, length, moved, Nat.not_lt.mpr within, Nat.pos_of_ne_zero zero]

/-- The options that `tcp_input` finds are the bytes of the packet behind the fixed header. -/
theorem tcpInputOptions_byteAt {p rest : Chain} {b : List UInt8} {a : TcpOptions}
    (denotes : Denotes p b) (found : tcpInputOptions p = .ok (some (a, rest)))
    (inside : k < a.optlen) : b[tcpHlen + k]? = some (a.byteAt k) := by
  cases p with
  | nil => exact absurd rfl denotes.nonempty
  | cons p next =>
    have parts := denotes.cons_inv
    have fits := denotes.fits
    have atMost := hdrlenBytes_le p
    dsimp only [tcpInputOptions] at found
    split at found
    · cases found
    split at found
    · cases found
    split at found
    · obtain ⟨hidden, _, result⟩ := bind_ok.1 found
      cases result
      dsimp only at inside
      exact denotes.getElem?_first (by omega)
    · cases next with
      | nil => cases found
      | cons q more =>
        have behind := denotes.tail (cons_ne_nil q more)
        dsimp only at found
        rw [pbufHeaderImpl_hides (by omega) (by omega)] at found
        have second : toU16 ((hdrlenBytes p - tcpHlen : Nat) - ((p.len - tcpHlen : Nat) : Int)) =
            hdrlenBytes p - p.len := toU16_eq (by omega) (by omega)
        split at found
        · cases found
        have taken := (lwipAssert_bind_ok.1 (lwipAssert_bind_ok.1 found).2).2
        cases taken
        dsimp only [TcpOptions.byteAt] at inside ⊢
        split
        · exact denotes.getElem?_first (by omega)
        · have later := behind.getElem?_first (show 0 + (k - (p.len - tcpHlen)) < q.len by omega)
          rw [getElem?_drop] at later
          rw [Nat.mod_eq_of_lt (by omega), ← later]
          congr 1
          omega

/-- The options that `tcp_input` finds do to the control block what the bytes of the packet say,
however the packet is split into pbufs. -/
theorem tcpInputOptions_parseopt {p rest : Chain} {b : List UInt8} {a : TcpOptions}
    (denotes : Denotes p b) (found : tcpInputOptions p = .ok (some (a, rest))) (pcb : TcpPcb) :
    ∃ c, a.parseopt pcb = some (c, tcpParseopt ((b.drop tcpHlen).take a.optlen) pcb) := by
  have same : a.area = (b.drop tcpHlen).take a.optlen := by
    apply ext_getElem?
    intro k
    by_cases inside : k < a.optlen
    · simp [TcpOptions.area, inside, tcpInputOptions_byteAt denotes found inside]
    · simp [TcpOptions.area, inside]
  obtain ⟨c, parsed, _⟩ := a.parseopt_parsed pcb
  exact ⟨c, same ▸ parsed⟩

/-- A segment whose option for a maximum segment size of 500 is split behind its length. -/
def splitSegment : Chain :=
  [{ pbufRam 0 (replicate 12 0 ++ [0x60] ++ replicate 7 0 ++ [2, 4]) with totLen := 24 },
    pbufRam 0 [1, 244]]

/-- The theorem at an option in two pbufs. -/
theorem tcpInputOptions_parseopt_mss : ∃ a rest c pcb',
    tcpInputOptions splitSegment = .ok (some (a, rest)) ∧
      a.parseopt (tcpAlloc 0) = some (c, pcb') ∧ pcb'.mss = 500 := by
  obtain ⟨c, parsed⟩ := tcpInputOptions_parseopt (p := splitSegment)
    ⟨by decide, ⟨rfl, rfl, trivial⟩, by decide, by decide, rfl⟩ rfl (tcpAlloc 0)
  exact ⟨_, _, c, _, rfl, parsed, by decide⟩

/-- `tcp_parseopt` ends for every area of options and every split of it between two pbufs, and
leaves the control block in the state that the unsplit area gives; it reads inside the area exactly
if no option with a length has its kind in the last byte. -/
theorem tcp_parseopt_split (a : TcpOptions) (pcb : TcpPcb) :
    ∃ c pcb', a.parseopt pcb = some (c, pcb') ∧
      (∀ whole : TcpOptions, whole.opt2 = none → whole.area = a.area →
        ∃ c', whole.parseopt pcb = some (c', pcb')) ∧
      ((∀ k ∈ c.reads, k < a.optlen) ↔ ¬a.CutOff 0) := by
  obtain ⟨c, parsed, bound⟩ := a.parseopt_parsed pcb
  refine ⟨c, tcpParseopt a.area pcb, parsed, ?_, bound⟩
  intro whole _ same
  obtain ⟨c', parsed', _⟩ := whole.parseopt_parsed pcb
  exact ⟨c', same ▸ parsed'⟩

/-- The option for a maximum segment size of 500, split behind its length. -/
def splitMss : TcpOptions where
  optlen := 4
  opt1len := 2
  opts := fun k => [2, 4].getD k 0
  opt2 := some fun k => [1, 244].getD k 0
  optlenLe := by decide

/-- The theorem at an option that is split between two pbufs. -/
theorem tcp_parseopt_split_mss :
    ∃ c pcb', splitMss.parseopt (tcpAlloc 0) = some (c, pcb') ∧ c.reads = [0, 1, 2, 3] ∧
      pcb'.mss = 500 ∧ ¬splitMss.CutOff 0 := by
  have returns : (splitMss.parseopt (tcpAlloc 0)).map (fun result =>
      (result.1.reads, result.2.mss)) = some ([0, 1, 2, 3], 500) := by
    decide +kernel
  obtain ⟨c, pcb', parsed, _, bound⟩ := tcp_parseopt_split splitMss (tcpAlloc 0)
  rw [parsed] at returns
  have fields := Option.some.inj returns
  have reads : c.reads = [0, 1, 2, 3] := congrArg Prod.fst fields
  refine ⟨c, pcb', parsed, reads, congrArg Prod.snd fields, bound.1 ?_⟩
  rw [reads]
  decide

/-- A segment with four bytes of options, of which the last one is the kind of an option with a
length. -/
def truncatedOption : Chain :=
  [pbufRam 0 (List.replicate 12 0 ++ [0x60] ++ List.replicate 7 0 ++ [1, 1, 1, 3])]

/-- `tcp_parseopt` reads the byte behind the options as the length of the last one. -/
theorem tcp_parseopt_reads_beyond :
    ∃ a rest c pcb', tcpInputOptions truncatedOption = .ok (some (a, rest)) ∧
      a.parseopt (tcpAlloc 0) = some (c, pcb') ∧ a.optlen = 4 ∧ c.reads = [0, 1, 2, 3, 4] := by
  have returns : (tcpInputOptions truncatedOption).map (fun found => found.bind fun found =>
      (found.1.parseopt (tcpAlloc 0)).map fun result => (found.1.optlen, result.1.reads)) =
        .ok (some (4, [0, 1, 2, 3, 4])) := by
    decide +kernel
  cases done : tcpInputOptions truncatedOption with
  | error message =>
    rw [done] at returns
    cases returns
  | ok found =>
    rw [done] at returns
    obtain ⟨options, there, parsed⟩ := Option.bind_eq_some_iff.mp (Except.ok.inj returns)
    obtain ⟨result, parsed, fields⟩ := Option.map_eq_some_iff.mp parsed
    exact ⟨options.1, options.2, result.1, result.2, congrArg _ there, parsed,
      congrArg Prod.fst fields, congrArg Prod.snd fields⟩

end Lwip
