import Lwip.Core.Mdns
import Lwip.Verif.DnsName

/-!
# Comparison of multicast DNS names

`mdns_domain_eq` compares the labels of two domains as C strings: `lwip_strnicmp` returns as soon as
both strings end, so what stands behind a NUL of a label is not looked at. The comparison also ends
at the first empty label. The character behind a label that `lwip_strnicmp` compares in addition is
the length of the next label, which has to be the same in any case.
-/

namespace Lwip.Mdns

open Dns Overwrite List

variable {c d : UInt8} {x y s t : List UInt8} {xs ys labels : List (List UInt8)} {k len : Nat}
  {domain : MdnsDomain}

/-! ## Characters -/

/-- A property of all characters that is decided for each of them. -/
theorem char_all {P : UInt8 → Prop} (each : ∀ n < 256, P (UInt8.ofNat n)) (c : UInt8) : P c := by
  have holds := each c.toNat c.toNat_lt
  rw [UInt8.ofNat_toNat] at holds
  exact holds

/-- The bit that `lwip_strnicmp` sets makes a letter one in lower case, and makes a letter of
nothing else. -/
theorem upc_letter (c : UInt8) :
    (97 ≤ charToInt (c ||| 0x20) ∧ charToInt (c ||| 0x20) ≤ 122 ↔
        97 ≤ toLower c ∧ toLower c ≤ 122) ∧
      (97 ≤ toLower c ∧ toLower c ≤ 122 → c ||| 0x20 = toLower c) ∧
      (¬(97 ≤ toLower c ∧ toLower c ≤ 122) → toLower c = c) := by
  revert c
  apply char_all
  decide +kernel

/-- Only the character that ends a string becomes that character. -/
theorem toLower_eq_zero (c : UInt8) : toLower c = 0 ↔ c = 0 := by
  revert c
  apply char_all
  decide +kernel

/-- Characters are taken for different ones exactly if they differ ignoring case. -/
theorem strnicmpDiffers_iff (c d : UInt8) :
    strnicmpDiffers c d = true ↔ toLower c ≠ toLower d := by
  obtain ⟨range, folded, other⟩ := upc_letter c
  obtain ⟨range', folded', other'⟩ := upc_letter d
  unfold strnicmpDiffers
  by_cases same : c = d
  · simp [same]
  rw [if_neg same]
  by_cases letter : 97 ≤ toLower c ∧ toLower c ≤ 122
  · dsimp only
    rw [if_pos (range.mpr letter), decide_eq_true_iff]
    by_cases letter' : 97 ≤ toLower d ∧ toLower d ≤ 122
    · rw [folded letter, folded' letter']
    · refine iff_of_true (fun eq => ?_) (fun eq => ?_)
      · rw [eq] at range
        exact letter' (range'.mp (range.mpr letter))
      · rw [eq] at letter
        exact letter' letter
  · dsimp only
    rw [if_neg fun given => letter (range.mp given)]
    refine iff_of_true rfl fun eq => ?_
    rw [other letter] at eq letter
    rw [eq] at letter
    exact same (eq.trans (other' letter))

/-! ## Strings -/

/-- A C string: what stands before the first NUL. -/
def cString (s : List UInt8) : List UInt8 := s.takeWhile (· ≠ 0)

/-- Equal C strings, ignoring case. -/
abbrev SameString (s t : List UInt8) : Prop := (cString s).map toLower = (cString t).map toLower

/-- Strings are compared character by character. -/
theorem sameString_cons :
    SameString (c :: x) (d :: y) ↔ toLower c = toLower d ∧ (c = 0 ∨ SameString x y) := by
  have left := toLower_eq_zero c
  have right := toLower_eq_zero d
  by_cases isEnd : c = 0
  · by_cases isEnd' : d = 0
    · simp [SameString, cString, isEnd, isEnd']
    · have apart : ¬toLower c = toLower d := fun eq => isEnd' (right.mp (eq ▸ left.mpr isEnd))
      simp [SameString, cString, isEnd, isEnd', isEnd ▸ apart]
  · by_cases isEnd' : d = 0
    · have apart : ¬toLower c = toLower d := fun eq => isEnd (left.mp (eq ▸ right.mpr isEnd'))
      simp [SameString, cString, isEnd, isEnd', isEnd' ▸ apart]
    · simp [SameString, cString, isEnd, isEnd']

/-- `lwip_strnicmp` compares one character more than it is told to. -/
theorem lwipStrnicmp_spec (readable : len < s.length ∨ 0 ∈ s) (readable' : len < t.length ∨ 0 ∈ t) :
    lwipStrnicmp s t len =
      .ok (if SameString (s.take (len + 1)) (t.take (len + 1)) then 0 else 1) := by
  induction s generalizing t len with
  | nil => simp at readable
  | cons c x ih =>
    cases t with
    | nil => simp at readable'
    | cons d y =>
      unfold lwipStrnicmp
      rw [take_succ_cons, take_succ_cons, if_congr sameString_cons rfl rfl]
      by_cases differs : toLower c = toLower d
      · rw [if_neg (by simpa [strnicmpDiffers_iff] using differs)]
        by_cases goesOn : len ≠ 0 ∧ c ≠ 0
        · have isNot : d ≠ 0 := fun isEnd =>
            goesOn.2 ((toLower_eq_zero c).mp (differs.trans ((toLower_eq_zero d).mpr isEnd)))
          have ahead : len - 1 + 1 = len := Nat.succ_pred goesOn.1
          rw [if_pos goesOn, ih, ahead]
          · simp [differs, goesOn.2]
          · simp only [length_cons, mem_cons, goesOn.2.symm, false_or] at readable
            exact readable.imp_left fun inside => by omega
          · simp only [length_cons, mem_cons, isNot.symm, false_or] at readable'
            exact readable'.imp_left fun inside => by omega
        · rw [if_neg goesOn, if_pos]
          refine ⟨differs, ?_⟩
          by_cases last : len = 0
          · exact .inr (by rw [last]; rfl)
          · exact .inl (by_contra fun isNot => goesOn ⟨last, isNot⟩)
      · rw [if_pos ((strnicmpDiffers_iff c d).mpr differs), if_neg fun both => differs both.1]

/-- What `lwip_strnicmp` should do: it returns 0 exactly if the first `len` characters are equal up
to where both strings end, and memory with no more characters than these is enough for it. -/
def ComparesFirst (s t : List UInt8) (len : Nat) : Prop :=
  (lwipStrnicmp s t len = .ok 0 ↔ SameString (s.take len) (t.take len)) ∧
    ∃ res, lwipStrnicmp (s.take len) (t.take len) len = .ok res

/-- Strings that end are compared as they should be exactly if they end or differ among the first
`len` characters. -/
theorem lwipStrnicmp_first_iff (ends : 0 ∈ s) (ends' : 0 ∈ t) : ComparesFirst s t len ↔
    0 ∈ s.take len ∨ ¬SameString (s.take len) (t.take len) := by
  rw [ComparesFirst, lwipStrnicmp_spec (.inr ends) (.inr ends')]
  induction s generalizing t len with
  | nil => cases ends
  | cons c x ih =>
    cases t with
    | nil => cases ends'
    | cons d y =>
      cases len with
      | zero => simp [lwipStrnicmp]
      | succ len =>
        simp only [take_succ_cons, sameString_cons, lwipStrnicmp]
        by_cases same : toLower c = toLower d
        · have alike : strnicmpDiffers c d = false := by
            simpa [same] using strnicmpDiffers_iff c d
          by_cases isEnd : c = 0
          · subst isEnd
            simp [alike, same]
          · have isNot : d ≠ 0 := fun isEnd' =>
              isEnd ((toLower_eq_zero c).mp (same.trans ((toLower_eq_zero d).mpr isEnd')))
            have rest := @ih y len (by simpa [Ne.symm isEnd] using ends)
              (by simpa [Ne.symm isNot] using ends')
            simpa [alike, same, isEnd, Ne.symm isEnd] using rest
        · simp [same, (strnicmpDiffers_iff c d).mpr same]

/-- The theorem at two strings of one letter. -/
theorem lwipStrnicmp_first_iff_letter : ComparesFirst [65, 0] [97, 0] 2 :=
  (lwipStrnicmp_first_iff (by decide) (by decide)).mpr (.inl (by decide))

/-- The character at `len` is compared, too. -/
theorem lwipStrnicmp_reads_further :
    ¬ComparesFirst [97, 98, 0] [97, 99, 0] 1 ∧ lwipStrnicmp [97, 98, 0] [97, 99, 0] 1 = .ok 1 := by
  refine ⟨fun compares => ?_, rfl⟩
  have equal : SameString [97] [97] := rfl
  cases compares.1.mpr equal

/-- Labels with one character behind each. -/
theorem sameString_append (count : x.length = y.length) :
    SameString (x ++ [c]) (y ++ [d]) ↔ SameString x y ∧ (0 ∈ x ∨ toLower c = toLower d) := by
  induction x generalizing y with
  | nil =>
    rw [length_eq_zero_iff.mp count.symm]
    simp [sameString_cons]
  | cons c' x ih =>
    cases y with
    | nil => cases count
    | cons d' y =>
      rw [cons_append, cons_append, sameString_cons, sameString_cons, ih (Nat.succ.inj count),
        mem_cons]
      tauto

/-! ## What the comparison sees -/

/-- Labels of the same lengths that are the same C strings, ignoring case, up to an empty one. -/
def seenEqual : List (List UInt8) → List (List UInt8) → Bool
  | x :: xs, y :: ys => x.length = y.length && SameString x y && (x = [] || seenEqual xs ys)
  | [], [] => true
  | _, _ => false

/-- Case changes nothing of what is compared. -/
theorem seen_of_equalIgnoringCase (same : EqualIgnoringCase xs ys) :
    (encodeLabels xs).length = (encodeLabels ys).length ∧ seenEqual xs ys = true := by
  induction xs generalizing ys with
  | nil =>
    rw [map_eq_nil_iff.mp (Eq.symm same)]
    exact ⟨rfl, rfl⟩
  | cons x xs ih =>
    cases ys with
    | nil => cases same
    | cons y ys =>
      obtain ⟨first, rest⟩ := List.cons.inj same
      obtain ⟨total, seen⟩ := ih rest
      have count : x.length = y.length := by simpa using congrArg List.length first
      have commutes : ∀ s : List UInt8, cString (s.map toLower) = (cString s).map toLower := by
        simp [cString, takeWhile_map, Function.comp_def, toLower_eq_zero]
      have strings : SameString x y := by rw [SameString, ← commutes, ← commutes, first]
      rw [length_encodeLabels_cons, length_encodeLabels_cons, count, total]
      simp [seenEqual, count, decide_eq_true strings, seen]

/-! ## The loop -/

/-- The length byte at the front of labels, or the zero behind them. -/
def lengthByte : List (List UInt8) → UInt8
  | [] => 0
  | label :: _ => UInt8.ofNat label.length

/-- Labels in an array have a byte behind them, or end with an empty one. -/
def Room (k : Nat) (labels : List (List UInt8)) : Prop := 0 < k ∨ labels.getLast? = some []

/-- The byte at the front. -/
theorem Room.front (room : Room k labels) :
    ∃ rest, encodeLabels labels ++ replicate k 0 = lengthByte labels :: rest := by
  cases labels with
  | nil =>
    cases k with
    | zero => simp [Room] at room
    | succ k => exact ⟨replicate k 0, rfl⟩
  | cons label more => exact ⟨_, rfl⟩

/-- There is room behind a label. -/
theorem Room.tail (room : Room k (x :: xs)) (some' : x ≠ []) : Room k xs := by
  cases room with
  | inl more => exact .inl more
  | inr ends =>
    cases xs with
    | nil => exact absurd (Option.some.inj ends) some'
    | cons next more =>
      rw [getLast?_cons_cons] at ends
      exact .inr ends

/-- The byte at the front of labels that seem equal. -/
theorem lengthByte_of_seen (seen : seenEqual xs ys = true) : lengthByte xs = lengthByte ys := by
  cases xs with
  | nil =>
    cases ys with
    | nil => rfl
    | cons y ys => cases seen
  | cons x xs =>
    cases ys with
    | nil => cases seen
    | cons y ys =>
      simp only [seenEqual, Bool.and_eq_true, decide_eq_true_iff] at seen
      rw [lengthByte, lengthByte, seen.1.1]

/-- Length bytes of labels are as different as the lengths. -/
theorem ofNat_length_inj (short : x.length ≤ 63) (short' : y.length ≤ 63) :
    UInt8.ofNat x.length = UInt8.ofNat y.length ↔ x.length = y.length := by
  have bytes : ∀ n ≤ 63, (UInt8.ofNat n).toNat = n := fun n small =>
    UInt8.toNat_ofNat_of_lt' (Nat.lt_of_le_of_lt small (by decide))
  rw [← UInt8.toNat_inj, bytes _ short, bytes _ short']

/-- The length byte of a label is zero only if the label is empty. -/
theorem ofNat_length_eq_zero (short : x.length ≤ 63) : UInt8.ofNat x.length = 0 ↔ x = [] := by
  have inj := ofNat_length_inj short (show ([] : List UInt8).length ≤ 63 from Nat.zero_le 63)
  rw [length_nil, length_eq_zero_iff] at inj
  exact inj

/-- The loop compares a label together with the byte behind it. -/
theorem mdnsDomainEqLoop_label {fuel left : Nat} (some' : x ≠ []) (short : x.length ≤ 63)
    (count : x.length = y.length) :
    mdnsDomainEqLoop (fuel + 1) (UInt8.ofNat x.length :: (x ++ c :: s))
        (UInt8.ofNat y.length :: (y ++ d :: t)) (x.length + 1 + left) =
      if SameString (x ++ [c]) (y ++ [d]) then mdnsDomainEqLoop fuel (c :: s) (d :: t) left
      else .ok 0 := by
  have byte : (UInt8.ofNat x.length).toNat = x.length :=
    UInt8.toNat_ofNat_of_lt' (Nat.lt_of_le_of_lt short (by decide))
  have nonzero : UInt8.ofNat x.length ≠ 0 := fun zero =>
    some' ((ofNat_length_eq_zero short).mp zero)
  have front : ∀ (label : List UInt8) c s, (label ++ c :: s).take (label.length + 1) =
      label ++ [c] := by
    simp [take_append]
  have compared : lwipStrnicmp (x ++ c :: s) (y ++ d :: t) x.length =
      .ok (if SameString (x ++ [c]) (y ++ [d]) then 0 else 1) := by
    rw [lwipStrnicmp_spec (.inl (by simp)) (.inl (by simp [count])), front, count, front]
  have behind : x.length + 1 + left - (1 + x.length) = left := by omega
  rw [mdnsDomainEqLoop, ← count, if_pos ⟨nonzero, nonzero, by omega⟩, if_neg (not_not_intro rfl),
    byte, compared, ok_bind, behind, drop_left, count, drop_left]
  by_cases same : SameString (x ++ [c]) (y ++ [d])
  · rw [if_pos same, if_pos same]
    rfl
  · rw [if_neg same, if_neg same]
    rfl

theorem mdnsDomainEqLoop_spec {fuel : Nat} (short : ∀ x ∈ xs, x.length ≤ 63)
    (short' : ∀ y ∈ ys, y.length ≤ 63)
    (total : (encodeLabels xs).length = (encodeLabels ys).length) (room : Room k xs)
    (room' : Room k ys) (enough : xs.length < fuel) :
    mdnsDomainEqLoop fuel (encodeLabels xs ++ replicate k 0) (encodeLabels ys ++ replicate k 0)
      (encodeLabels xs).length = .ok (seenEqual xs ys).toNat := by
  induction xs generalizing ys fuel with
  | nil =>
    cases ys with
    | cons y ys => simp [encodeLabels] at total
    | nil =>
      obtain ⟨rest, front⟩ := room.front
      cases fuel with
      | zero => cases enough
      | succ fuel =>
        rw [front]
        rfl
  | cons x xs ih =>
    cases ys with
    | nil => simp [encodeLabels] at total
    | cons y ys =>
      have xShort := short x mem_cons_self
      have yShort := short' y mem_cons_self
      have shape : ∀ label more, encodeLabels (label :: more) ++ replicate k 0 =
          UInt8.ofNat label.length :: (label ++ (encodeLabels more ++ replicate k 0)) := by
        simp [encodeLabels]
      rw [length_encodeLabels_cons, length_encodeLabels_cons] at total
      rw [shape, shape, length_encodeLabels_cons]
      cases fuel with
      | zero => cases enough
      | succ fuel =>
        by_cases goesOn : x ≠ [] ∧ y ≠ [] ∧ x.length = y.length
        · obtain ⟨some', some'', count⟩ := goesOn
          obtain ⟨rest, front⟩ := (room.tail some').front
          obtain ⟨rest', front'⟩ := (room'.tail some'').front
          have totals : (encodeLabels xs).length = (encodeLabels ys).length := by omega
          have next := ih (fun x member => short x (mem_cons_of_mem _ member))
            (fun y member => short' y (mem_cons_of_mem _ member)) totals (room.tail some')
            (room'.tail some'') (Nat.lt_of_succ_lt_succ enough)
          rw [front, front'] at next ⊢
          rw [mdnsDomainEqLoop_label some' xShort count, next,
            if_congr (sameString_append count) rfl rfl]
          by_cases seen : seenEqual xs ys = true
          · have same := congrArg toLower (lengthByte_of_seen seen)
            by_cases strings : SameString x y
            · rw [if_pos ⟨strings, .inr same⟩]
              simp [seenEqual, count, decide_eq_true strings, seen]
            · rw [if_neg fun both => strings both.1]
              simp [seenEqual, strings]
          · simp [seenEqual, seen, some']
        · rw [mdnsDomainEqLoop]
          by_cases count : x.length = y.length
          · have empty : x = [] := by
              by_contra some'
              refine goesOn ⟨some', fun none' => some' (length_eq_zero_iff.mp ?_), count⟩
              rw [count, none', length_nil]
            have empty' : y = [] := length_eq_zero_iff.mp (by rw [← count, empty, length_nil])
            rw [empty, empty']
            rfl
          · have differs : UInt8.ofNat x.length ≠ UInt8.ofNat y.length := fun same =>
              count ((ofNat_length_inj xShort yShort).mp same)
            simp only [seenEqual, count, decide_false, Bool.false_and]
            split
            · rfl
            · rw [if_pos ⟨differs, by omega⟩]
              rfl

/-! ## Domains that have been built -/

/-- A domain holds labels. -/
structure Holds (labels : List (List UInt8)) (domain : MdnsDomain) : Prop where
  /-- The labels are at the front, and zeros behind them. -/
  name : domain.name =
    encodeLabels labels ++ replicate (mdnsDomainMaxlen - (encodeLabels labels).length) 0
  length : domain.length = (encodeLabels labels).length
  fits : (encodeLabels labels).length ≤ mdnsDomainMaxlen
  short : ∀ label ∈ labels, label.length ≤ 63
  /-- There is room behind labels that are not empty. -/
  room : Room (mdnsDomainMaxlen - (encodeLabels labels).length) labels

theorem encodeLabels_append (xs ys : List (List UInt8)) :
    encodeLabels (xs ++ ys) = encodeLabels xs ++ encodeLabels ys := by
  induction xs with
  | nil => rfl
  | cons x xs ih => simp [encodeLabels, ih]

/-- A label is added behind those that a domain holds. -/
theorem Holds.addLabel {domain' : MdnsDomain} (holds : Holds labels domain)
    (done : mdnsDomainAddLabel domain x = (.ok, domain')) : Holds (labels ++ [x]) domain' := by
  have count : (encodeLabels (labels ++ [x])).length =
      (encodeLabels labels).length + 1 + x.length := by
    simp [encodeLabels_append, encodeLabels]
    omega
  unfold mdnsDomainAddLabel at done
  split at done
  · cases done
  rename_i small
  split at done
  · cases done
  rename_i long
  split at done
  · cases done
  rename_i full
  have fits : (encodeLabels labels).length + 1 + x.length ≤ mdnsDomainMaxlen := by
    rw [← holds.length]
    omega
  obtain rfl := (Prod.mk.inj done).2
  constructor
  · show overwrite domain.name domain.length (UInt8.ofNat x.length :: x) = _
    have back : mdnsDomainMaxlen - (encodeLabels labels).length - (0 + (x.length + 1)) =
        mdnsDomainMaxlen - ((encodeLabels labels).length + 1 + x.length) := by omega
    rw [holds.name, holds.length, overwrite_append_right _ _ (Nat.le_refl _), Nat.sub_self,
      overwrite, take_zero, nil_append, drop_replicate, length_cons, back, count,
      encodeLabels_append]
    simp [encodeLabels]
  · show domain.length + 1 + x.length = _
    rw [count, holds.length]
  · rw [count]
    exact fits
  · intro label member
    cases mem_append.mp member with
    | inl old => exact holds.short label old
    | inr new =>
      rw [mem_singleton.mp new]
      exact Nat.le_of_not_lt small
  · by_cases empty : x = []
    · right
      simp [empty]
    · left
      have some' := length_pos_iff.mpr empty
      rw [count, ← holds.length]
      omega

/-- A domain that has been built holds its labels. -/
theorem holds_mdnsDomainOf (built : mdnsDomainOf labels = some domain) : Holds labels domain := by
  have all (step : MdnsDomain → List UInt8 → Option MdnsDomain)
      (adds : ∀ start label next, step start label = some next →
        mdnsDomainAddLabel start label = (.ok, next)) :
      ∀ (rest done : List (List UInt8)) (start : MdnsDomain), Holds done start →
        rest.foldlM step start = some domain → Holds (done ++ rest) domain := by
    intro rest
    induction rest with
    | nil =>
      intro done start holds same
      cases same
      rw [append_nil]
      exact holds
    | cons label rest ih =>
      intro done start holds more
      rw [foldlM_cons, Option.bind_eq_bind, Option.bind_eq_some_iff] at more
      obtain ⟨next, added, more⟩ := more
      have after := ih _ _ (holds.addLabel (adds _ _ _ added)) more
      rw [append_assoc] at after
      exact after
  have empty : Holds [] mdnsDomainZero :=
    ⟨rfl, rfl, Nat.zero_le _, fun _ member => absurd member not_mem_nil, .inl (by decide)⟩
  refine all _ ?_ labels [] mdnsDomainZero empty built
  intro start label next added
  split at added
  · rename_i accepted
    cases added
    exact accepted
  · cases added

theorem mdnsDomainEq_built {a b : MdnsDomain} (left : Holds xs a) (right : Holds ys b) :
    mdnsDomainEq a b = .ok (if (encodeLabels xs).length = (encodeLabels ys).length then
      (seenEqual xs ys).toNat else 0) := by
  unfold mdnsDomainEq
  rw [left.length, right.length]
  by_cases total : (encodeLabels xs).length = (encodeLabels ys).length
  · have room := right.room
    have enough := labels_le_encodeLabels xs
    have fits := left.fits
    rw [← total] at room
    rw [if_neg (not_not_intro total), if_pos total, left.name, right.name, ← total,
      mdnsDomainEqLoop_spec left.short right.short total left.room room (by omega)]
  · rw [if_pos total, if_neg total]

/-- `mdns_domain_eq` returns 1 exactly for domains that are equal ignoring case, if and only if
there is no difference between the two that it does not see: behind a NUL of a label, or behind an
empty label. -/
theorem mdns_domain_eq_iff (left right : List (List UInt8)) (a b : MdnsDomain)
    (builtLeft : mdnsDomainOf left = some a) (builtRight : mdnsDomainOf right = some b) :
    (mdnsDomainEq a b = .ok 1 ↔ EqualIgnoringCase left right) ↔
      ((encodeLabels left).length = (encodeLabels right).length → seenEqual left right = true →
        EqualIgnoringCase left right) := by
  have returns : mdnsDomainEq a b = .ok 1 ↔
      (encodeLabels left).length = (encodeLabels right).length ∧ seenEqual left right = true := by
    rw [mdnsDomainEq_built (holds_mdnsDomainOf builtLeft) (holds_mdnsDomainOf builtRight)]
    cases seenEqual left right <;> simp
  have seen : EqualIgnoringCase left right → _ := seen_of_equalIgnoringCase
  tauto

/-- The theorem at the names `A.local` and `a.local`. -/
theorem mdns_domain_eq_iff_case : ∃ a b,
    mdnsDomainOf [[65], [108, 111, 99, 97, 108], []] = some a ∧
      mdnsDomainOf [[97], [108, 111, 99, 97, 108], []] = some b ∧ mdnsDomainEq a b = .ok 1 := by
  obtain ⟨a, builtLeft⟩ := Option.isSome_iff_exists.mp
    (show (mdnsDomainOf [[65], [108, 111, 99, 97, 108], []]).isSome = true by decide +kernel)
  obtain ⟨b, builtRight⟩ := Option.isSome_iff_exists.mp
    (show (mdnsDomainOf [[97], [108, 111, 99, 97, 108], []]).isSome = true by decide +kernel)
  have same : EqualIgnoringCase [[65], [108, 111, 99, 97, 108], []]
      [[97], [108, 111, 99, 97, 108], []] := rfl
  have agrees := (mdns_domain_eq_iff _ _ a b builtLeft builtRight).mpr fun _ _ => same
  exact ⟨a, b, builtLeft, builtRight, agrees.mpr same⟩

/-- Labels that differ behind a NUL are taken for equal ones. -/
theorem mdns_domain_eq_behind_nul : ∃ a b, mdnsDomainOf [[0, 1], []] = some a ∧
    mdnsDomainOf [[0, 2], []] = some b ∧ mdnsDomainEq a b = .ok 1 ∧
      ¬EqualIgnoringCase [[0, 1], []] [[0, 2], []] := by
  obtain ⟨a, builtLeft⟩ := Option.isSome_iff_exists.mp
    (show (mdnsDomainOf [[0, 1], []]).isSome = true by decide +kernel)
  obtain ⟨b, builtRight⟩ := Option.isSome_iff_exists.mp
    (show (mdnsDomainOf [[0, 2], []]).isSome = true by decide +kernel)
  refine ⟨a, b, builtLeft, builtRight, ?_, by unfold EqualIgnoringCase; decide⟩
  rw [mdnsDomainEq_built (holds_mdnsDomainOf builtLeft) (holds_mdnsDomainOf builtRight)]
  decide

end Lwip.Mdns
