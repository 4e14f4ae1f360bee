import Lwip.Core.Dns
import Lwip.Verif.Pbuf

/-!
# Comparison of host names with encoded names

`dns_compare_name` walks a dotted host name and the labels of a packet in step. At the end of
each label it skips one character of the host name without looking at it, and it returns as
soon as the packet's name ends. So it accepts labels that agree with the host name up to these
skipped characters, and it goes on behind the end of the host name if the packet's name is
longer. It compares characters as they are, letters of different case included.
-/

namespace Lwip.Dns

open List

variable {o fuel : Nat} {c n : UInt8} {rest label query : List UInt8} {labels : List (List UInt8)}
  {host : HostName}

/-! ## Host names and encoded names -/

/-- Labels with dots between them. -/
def dotted : List (List UInt8) → List UInt8
  | [] => []
  | [label] => label
  | label :: next :: more => label ++ 46 :: dotted (next :: more)

/-- A non-empty dotted host name without empty labels. -/
structure HostName where
  labels : List (List UInt8)
  nonempty : labels ≠ []
  filled : ∀ label ∈ labels, label ≠ []
  plain : ∀ label ∈ labels, ∀ c ∈ label, c ≠ 46 ∧ c ≠ 0

/-- The host name as a string in memory that ends with its terminating zero. -/
def HostName.string (host : HostName) : List UInt8 := dotted host.labels ++ [0]

/-- Labels with their lengths in front. -/
def encodeLabels : List (List UInt8) → List UInt8
  | [] => []
  | label :: more => UInt8.ofNat label.length :: label ++ encodeLabels more

/-- An uncompressed name with these labels starts at an offset of a packet and lies completely
inside it; the last argument is the offset just after it. -/
def NameAt (packet : List UInt8) (start : Nat) (labels : List (List UInt8)) (behind : Nat) : Prop :=
  (∀ label ∈ labels, 1 ≤ label.length ∧ label.length ≤ 63) ∧
    behind = start + (encodeLabels labels).length + 1 ∧
      ∃ rest, packet.drop start = encodeLabels labels ++ 0 :: rest

/-- An ASCII letter in lower case, any other character as it is. -/
def toLower (c : UInt8) : UInt8 := if 65 ≤ c ∧ c ≤ 90 then c + 32 else c

/-- Equal sequences of labels, ignoring ASCII case. -/
def EqualIgnoringCase (left right : List (List UInt8)) : Prop :=
  left.map (List.map toLower) = right.map (List.map toLower)

/-! ## What the comparison passes over -/

/-- A label agrees with the front of a string, in 7-bit characters. -/
def Agrees (label query : List UInt8) : Prop := label <+: query ∧ ∀ c ∈ label, c.toNat < 128

/-- Labels agree with a string if one character behind each label is skipped, whatever it is. -/
def AgreesSkipping : List (List UInt8) → List UInt8 → Prop
  | [], _ => True
  | label :: more, query => Agrees label query ∧ AgreesSkipping more (query.drop (label.length + 1))

/-- What is left of a string behind labels with one character skipped behind each. -/
def skipped : List (List UInt8) → List UInt8 → List UInt8
  | [], query => query
  | label :: more, query => skipped more (query.drop (label.length + 1))

/-- Lengths that the comparison takes for those of labels: none has the two highest bits set, and
only the first one can be zero. -/
def LabelLengths (labels : List (List UInt8)) : Prop :=
  (∀ label ∈ labels, label.length < 192) ∧ ∀ label ∈ labels.tail, label ≠ []

/-! ## The inner loop -/

/-- A character equals a byte of the packet exactly if both are the same 7-bit character. -/
theorem charToInt_eq_iff (char c : UInt8) :
    charToInt char = c.toNat ↔ char = c ∧ c.toNat < 128 := by
  have bound := char.toNat_lt
  unfold charToInt
  rw [← UInt8.toNat_inj]
  split <;> omega

variable {p : Chain} {b : List UInt8}

/-- A byte of the packet at the front of what is behind an offset. -/
theorem getElem?_of_drop (here : b.drop o = c :: rest) :
    b[o]? = some c ∧ b.drop (o + 1) = rest ∧ o < b.length := by
  have inside : o < b.length := by
    have count := congrArg List.length here
    simp only [length_drop, length_cons] at count
    omega
  rw [drop_eq_getElem_cons inside] at here
  exact ⟨by rw [getElem?_eq_getElem inside, (List.cons.inj here).1], (List.cons.inj here).2, inside⟩

theorem drop_of_getElem? (here : b[o]? = some c) :
    o < b.length ∧ b.drop o = c :: b.drop (o + 1) := by
  obtain ⟨inside, same⟩ := List.getElem?_eq_some_iff.mp here
  exact ⟨inside, by rw [drop_eq_getElem_cons inside, same]⟩

/-- Characters that agree with the query are passed. -/
theorem dnsCompareLabel_agrees (denotes : Denotes p b) (here : b.drop o = label ++ rest)
    (agrees : Agrees label query) (inside : o ≤ b.length) (n : Nat) :
    dnsCompareLabel p (label.length + n) query o =
      dnsCompareLabel p n (query.drop label.length) (o + label.length) := by
  induction label generalizing query o with
  | nil => simp
  | cons c label ih =>
    have fits := denotes.fits
    have first := getElem?_of_drop here
    cases query with
    | nil =>
      have short := agrees.1.length_le
      simp at short
    | cons char query =>
      have front := cons_prefix_cons.mp agrees.1
      have ascii := agrees.2 c mem_cons_self
      have same : charToInt char = c.toNat := (charToInt_eq_iff char c).mpr ⟨front.1.symm, ascii⟩
      have next : u16 (o + 1) = o + 1 := u16_of_lt (by omega)
      have later := ih first.2.1 ⟨front.2, fun d member => agrees.2 d (mem_cons_of_mem c member)⟩
        first.2.2
      rw [length_cons, Nat.add_right_comm]
      simp only [dnsCompareLabel, denotes.pbufTryGetAt, first.1, same, ne_eq, not_true_eq_false,
        ↓reduceIte, next, later, drop_succ_cons]
      rw [Nat.add_right_comm, Nat.add_assoc]

/-- A label that agrees with everything that is left of the query and has a further byte is read
behind the end of the query. -/
theorem dnsCompareLabel_behind (denotes : Denotes p b) {part : List UInt8} {n : Nat}
    (here : b.drop o = part ++ c :: rest) (agrees : Agrees part query)
    (short : query.length ≤ part.length) (longer : part.length < n) :
    ∃ message, dnsCompareLabel p n query o = .error message := by
  have behind : b.drop (o + part.length) = c :: rest := by
    rw [← drop_drop, here, drop_left]
  have first := getElem?_of_drop behind
  obtain ⟨more, rfl⟩ : ∃ more, n = part.length + (more + 1) := ⟨n - part.length - 1, by omega⟩
  rw [dnsCompareLabel_agrees denotes here agrees (by omega), drop_eq_nil_of_le short,
    dnsCompareLabel, denotes.pbufTryGetAt, first.1]
  exact ⟨_, rfl⟩

/-- How the inner loop ends: past a label that agrees, at a difference, or behind the query. -/
inductive LabelCompared (b : List UInt8) (n : Nat) (query : List UInt8) (o : Nat) :
    Asserting (Option (List UInt8 × Nat)) → Prop
  | passed (label rest : List UInt8) (count : label.length = n) (here : b.drop o = label ++ rest)
      (agrees : Agrees label query) :
      LabelCompared b n query o (.ok (some (query.drop n, o + n)))
  | differs : LabelCompared b n query o (.ok none)
  | behind (part : List UInt8) (c : UInt8) (rest : List UInt8) (message : String)
      (here : b.drop o = part ++ c :: rest) (agrees : Agrees part query)
      (short : query.length ≤ part.length) (longer : part.length < n) :
      LabelCompared b n query o (.error message)

/-- The inner loop ends in one of the three ways. -/
theorem dnsCompareLabel_compared (denotes : Denotes p b) (n : Nat) (query : List UInt8) (o : Nat) :
    LabelCompared b n query o (dnsCompareLabel p n query o) := by
  induction n generalizing query o with
  | zero =>
    exact .passed [] (b.drop o) rfl rfl ⟨List.nil_prefix, by simp⟩
  | succ n ih =>
    unfold dnsCompareLabel
    rw [denotes.pbufTryGetAt]
    cases found : b[o]? with
    | none => exact .differs
    | some c =>
      obtain ⟨inside, here⟩ := drop_of_getElem? found
      cases query with
      | nil =>
        exact .behind [] c (b.drop (o + 1)) _ here ⟨prefix_refl _, by simp⟩ (Nat.le_refl _)
          (Nat.succ_pos n)
      | cons char query =>
        have fits := denotes.fits
        have next : u16 (o + 1) = o + 1 := u16_of_lt (by omega)
        dsimp only
        split
        · exact .differs
        rename_i equal
        have same := (charToInt_eq_iff char c).mp (not_not.mp equal)
        rw [next]
        have extend : ∀ {label : List UInt8}, Agrees label query →
            Agrees (c :: label) (char :: query) := by
          intro label agrees
          constructor
          · rw [same.1]
            exact cons_prefix_cons.mpr ⟨rfl, agrees.1⟩
          · intro d member
            cases member with
            | head => exact same.2
            | tail _ later => exact agrees.2 d later
        have compared := ih query (o + 1)
        generalize dnsCompareLabel p n query (o + 1) = result at compared ⊢
        cases compared with
        | passed label rest count after agrees =>
          have whole : LabelCompared b (n + 1) (char :: query) o _ := .passed (c :: label) rest
            (by rw [length_cons, count]) (by rw [here, after, cons_append])
            (extend agrees)
          rw [drop_succ_cons, Nat.add_comm n 1, ← Nat.add_assoc] at whole
          rw [Nat.add_comm n 1]
          exact whole
        | differs => exact .differs
        | behind part d rest message after agrees short longer =>
          exact .behind (c :: part) d rest message (by rw [here, after, cons_append])
            (extend agrees) (Nat.succ_le_succ short) (Nat.succ_lt_succ longer)

/-! ## The outer loop -/

/-- The labels that the comparison goes past, and what follows them in the packet. -/
structure Passed (b : List UInt8) (o : Nat) (query : List UInt8) (labels : List (List UInt8))
    (rest : List UInt8) : Prop where
  here : b.drop o = encodeLabels labels ++ rest
  /-- The comparison takes their lengths for those of labels. -/
  lengths : LabelLengths labels
  /-- They agree with the query up to the skipped characters. -/
  agrees : AgreesSkipping labels query

theorem notCompressed_iff (n : UInt8) : ¬n &&& 0xc0 = 0xc0 ↔ n.toNat < 192 := by
  have all : ∀ k : Fin 256, ¬UInt8.ofNat k &&& 0xc0 = 0xc0 ↔ k.val < 192 := by
    decide +kernel
  simpa using all ⟨n.toNat, n.toNat_lt⟩

theorem toNat_length (short : label.length < 192) :
    (UInt8.ofNat label.length).toNat = label.length := by
  rw [UInt8.toNat_ofNat']
  omega

theorem dnsCompareNameLoop_label (denotes : Denotes p b) (fuel : Nat)
    (here : b.drop o = UInt8.ofNat label.length :: (label ++ n :: rest))
    (short : label.length < 192) (agrees : Agrees label query) :
    dnsCompareNameLoop p (fuel + 1) query o =
      if n ≠ 0 then
        dnsCompareNameLoop p fuel (query.drop (label.length + 1)) (o + label.length + 1)
      else .ok (u16 (o + label.length + 2)) := by
  have fits := denotes.fits
  have first := getElem?_of_drop here
  have next : u16 (o + 1) = o + 1 := u16_of_lt (by omega)
  have plain := (notCompressed_iff (UInt8.ofNat label.length)).mpr
    (by rw [toNat_length short]; exact short)
  have compared : dnsCompareLabel p label.length query (o + 1) = .ok (some _) :=
    dnsCompareLabel_agrees denotes first.2.1 agrees first.2.2 0
  have position : o + 1 + label.length = o + label.length + 1 := Nat.add_right_comm o 1 _
  have behind : b.drop (o + label.length + 1) = n :: rest := by
    rw [← position, ← drop_drop, first.2.1, drop_left]
  simp only [dnsCompareNameLoop, denotes.pbufTryGetAt, first.1, if_neg plain, toNat_length short,
    next, compared, ok_bind, position, tail_drop, (getElem?_of_drop behind).1]

/-- The encoding of a label that is not empty starts with a byte that is not zero. -/
theorem encodeLabels_goesOn (more : List (List UInt8)) (rest : List UInt8)
    (short : label.length < 192) (filled : label ≠ []) :
    ∃ d tail, encodeLabels (label :: more) ++ rest = d :: tail ∧ d ≠ 0 := by
  refine ⟨UInt8.ofNat label.length, label ++ encodeLabels more ++ rest, by simp [encodeLabels], ?_⟩
  intro zero
  have none := toNat_length short
  rw [zero] at none
  exact filled (length_eq_zero_iff.mp none.symm)

/-- One pass over the first of several labels that agree, with another label behind it. -/
theorem Passed.step (denotes : Denotes p b) {more : List (List UInt8)} {tail : List UInt8}
    {d : UInt8} (fuel : Nat) (passed : Passed b o query (label :: more) rest)
    (follows : encodeLabels more ++ rest = d :: tail) (goesOn : d ≠ 0) :
    dnsCompareNameLoop p (fuel + 1) query o =
        dnsCompareNameLoop p fuel (query.drop (label.length + 1)) (o + label.length + 1) ∧
      Passed b (o + label.length + 1) (query.drop (label.length + 1)) more rest := by
  have here : b.drop o = UInt8.ofNat label.length :: (label ++ d :: tail) := by
    rw [passed.here, encodeLabels, ← follows]
    simp
  have first := getElem?_of_drop here
  have step := dnsCompareNameLoop_label denotes fuel here
    (passed.lengths.1 label mem_cons_self) passed.agrees.1
  rw [if_pos goesOn] at step
  apply And.intro step
  constructor
  · rw [Nat.add_right_comm, ← drop_drop, first.2.1, drop_left, follows]
  · exact ⟨fun l member => passed.lengths.1 l (mem_cons_of_mem label member),
      fun l member => passed.lengths.2 l (mem_of_mem_tail member)⟩
  · exact passed.agrees.2

theorem length_encodeLabels_cons (label : List UInt8) (more : List (List UInt8)) :
    (encodeLabels (label :: more)).length = label.length + 1 + (encodeLabels more).length := by
  simp only [encodeLabels, cons_append, length_cons, length_append]
  omega

theorem labels_le_encodeLabels (labels : List (List UInt8)) :
    labels.length ≤ (encodeLabels labels).length := by
  induction labels with
  | nil => exact Nat.le_refl _
  | cons label more ih =>
    rw [length_encodeLabels_cons, length_cons]
    omega

/-- The end of the packet's name behind labels that agree: the comparison accepts. -/
theorem dnsCompareNameLoop_accepts (denotes : Denotes p b)
    (passed : Passed b o query labels (0 :: rest)) (nonempty : labels ≠ [])
    (enough : labels.length ≤ fuel) :
    dnsCompareNameLoop p fuel query o = .ok (u16 (o + (encodeLabels labels).length + 1)) := by
  induction labels generalizing query o fuel with
  | nil => contradiction
  | cons label more ih =>
    cases fuel with
    | zero => simp at enough
    | succ fuel =>
      rw [length_encodeLabels_cons]
      cases more with
      | nil =>
        have here : b.drop o = UInt8.ofNat label.length :: (label ++ 0 :: rest) := by
          rw [passed.here]
          simp [encodeLabels]
        rw [dnsCompareNameLoop_label denotes fuel here (passed.lengths.1 label mem_cons_self)
          passed.agrees.1, if_neg (by simp)]
        rfl
      | cons next others =>
        obtain ⟨d, tail, follows, goesOn⟩ := encodeLabels_goesOn others (0 :: rest)
          (passed.lengths.1 next (by simp)) (passed.lengths.2 next mem_cons_self)
        have step := passed.step denotes fuel follows goesOn
        rw [step.1, ih step.2 (cons_ne_nil _ _) (Nat.le_of_succ_le_succ enough)]
        congr 2
        omega

/-- A label that agrees with all that is left of the query behind labels that agree, and has a
further byte: the comparison reads behind the end of the query. -/
theorem dnsCompareNameLoop_behind (denotes : Denotes p b) {part : List UInt8}
    (passed : Passed b o query labels (n :: (part ++ c :: rest))) (plain : n.toNat < 192)
    (longer : part.length < n.toNat) (agrees : Agrees part (skipped labels query))
    (short : (skipped labels query).length ≤ part.length) (enough : labels.length < fuel) :
    ∃ message, dnsCompareNameLoop p fuel query o = .error message := by
  induction labels generalizing query o fuel with
  | nil =>
    cases fuel with
    | zero => simp at enough
    | succ fuel =>
      have fits := denotes.fits
      have first := getElem?_of_drop passed.here
      have next : u16 (o + 1) = o + 1 := u16_of_lt (by omega)
      rw [skipped] at agrees short
      have behind := dnsCompareLabel_behind denotes first.2.1 agrees short longer
      simp only [dnsCompareNameLoop, denotes.pbufTryGetAt, first.1,
        if_neg ((notCompressed_iff n).mpr plain), next]
      exact ⟨_, by rw [behind.choose_spec]; rfl⟩
  | cons label more ih =>
    cases fuel with
    | zero => simp at enough
    | succ fuel =>
      have continues : ∃ d tail, encodeLabels more ++ n :: (part ++ c :: rest) = d :: tail ∧
          d ≠ 0 := by
        cases more with
        | nil =>
          refine ⟨n, _, rfl, ?_⟩
          intro zero
          rw [zero] at longer
          exact Nat.not_lt_zero _ longer
        | cons next others =>
          exact encodeLabels_goesOn others _ (passed.lengths.1 next (by simp))
            (passed.lengths.2 next mem_cons_self)
      obtain ⟨d, tail, follows, goesOn⟩ := continues
      have step := passed.step denotes fuel follows goesOn
      rw [step.1]
      exact ih step.2 agrees short (Nat.lt_of_succ_lt_succ enough)

/-- How the comparison ends: at the end of the packet's name behind labels that agree, with
0xFFFF, or behind the end of the query. -/
inductive NameCompared (b : List UInt8) (query : List UInt8) (o : Nat) : Asserting Nat → Prop
  /-- The packet's name ends behind labels that agree. -/
  | accepted (labels : List (List UInt8)) (rest : List UInt8)
      (passed : Passed b o query labels (0 :: rest)) (nonempty : labels ≠ []) :
      NameCompared b query o (.ok (u16 (o + (encodeLabels labels).length + 1)))
  | differs : NameCompared b query o (.ok 0xFFFF)
  /-- The query ends before the packet's name does. -/
  | behind (labels : List (List UInt8)) (n : UInt8) (part : List UInt8) (c : UInt8)
      (rest : List UInt8) (message : String)
      (passed : Passed b o query labels (n :: (part ++ c :: rest)))
      (plain : n.toNat < 192) (longer : part.length < n.toNat)
      (agrees : Agrees part (skipped labels query))
      (short : (skipped labels query).length ≤ part.length) :
      NameCompared b query o (.error message)

/-- A label in front of labels that agree. -/
theorem Passed.cons {more : List (List UInt8)}
    (here : b.drop o = UInt8.ofNat label.length :: (label ++ b.drop (o + label.length + 1)))
    (short : label.length < 192) (agrees : Agrees label query)
    (passed : Passed b (o + label.length + 1) (query.drop (label.length + 1)) more rest)
    (filled : ∀ next ∈ more.head?, next ≠ []) : Passed b o query (label :: more) rest := by
  constructor
  · rw [here, passed.here]
    simp [encodeLabels]
  · constructor
    · intro l member
      cases member with
      | head => exact short
      | tail _ later => exact passed.lengths.1 l later
    · intro l member
      rw [tail_cons] at member
      cases more with
      | nil => simp at member
      | cons next others =>
        cases member with
        | head => exact filled _ rfl
        | tail _ later => exact passed.lengths.2 l later
  · exact ⟨agrees, passed.agrees⟩

/-- A name whose first byte is not zero starts with a label that is not empty. -/
theorem Passed.head_filled (passed : Passed b o query labels rest) (here : b[o]? = some n)
    (goesOn : n ≠ 0) : ∀ label ∈ labels.head?, label ≠ [] := by
  intro label member empty
  cases labels with
  | nil => simp at member
  | cons first more =>
    simp only [head?_cons, Option.mem_def, Option.some.injEq] at member
    rw [member, empty] at passed
    have start := passed.here
    simp only [encodeLabels, length_nil, nil_append, cons_append] at start
    rw [(getElem?_of_drop start).1] at here
    exact goesOn (Option.some.inj here).symm

/-- The comparison ends in one of the three ways. -/
theorem dnsCompareNameLoop_compared (denotes : Denotes p b) (query : List UInt8) (o : Nat)
    (enough : b.length < o + fuel) (some' : 0 < fuel) :
    NameCompared b query o (dnsCompareNameLoop p fuel query o) := by
  induction fuel generalizing query o with
  | zero => contradiction
  | succ fuel ih =>
    unfold dnsCompareNameLoop
    rw [denotes.pbufTryGetAt]
    cases found : b[o]? with
    | none => exact .differs
    | some n =>
      have fits := denotes.fits
      obtain ⟨inside, here⟩ := drop_of_getElem? found
      have next : u16 (o + 1) = o + 1 := u16_of_lt (by omega)
      dsimp only
      split
      · exact .differs
      rename_i plain
      have plain := (notCompressed_iff n).mp plain
      rw [next]
      have compared := dnsCompareLabel_compared denotes n.toNat query (o + 1)
      generalize dnsCompareLabel p n.toNat query (o + 1) = result at compared ⊢
      cases compared with
      | differs => exact .differs
      | behind part c rest message after agrees short longer =>
        refine .behind [] n part c rest message ⟨?_, ?_, trivial⟩ plain longer agrees short
        · rw [here, after]
          rfl
        · exact ⟨by simp, by simp⟩
      | passed label rest count after agrees =>
        have size : UInt8.ofNat label.length = n := by rw [count, UInt8.ofNat_toNat]
        have position : o + 1 + n.toNat = o + label.length + 1 := by omega
        have whole : b.drop o =
            UInt8.ofNat label.length :: (label ++ b.drop (o + label.length + 1)) := by
          have behind : b.drop (o + label.length + 1) = rest := by
            rw [← position, ← count, ← drop_drop, after, drop_left]
          rw [here, size, behind, after]
        simp only [ok_bind, position, denotes.pbufTryGetAt]
        cases later : b[o + label.length + 1]? with
        | none => exact .differs
        | some d =>
          have room := (List.getElem?_eq_some_iff.mp later).1
          dsimp only
          split
          · rename_i goesOn
            have dropped : (query.drop n.toNat).tail = query.drop (label.length + 1) := by
              rw [tail_drop, count]
            rw [dropped]
            have recursive := ih (query.drop (label.length + 1)) (o + label.length + 1)
              (by omega) (by omega)
            generalize dnsCompareNameLoop p fuel (query.drop (label.length + 1))
              (o + label.length + 1) = result at recursive ⊢
            cases recursive with
            | differs => exact .differs
            | accepted more tail passed nonempty =>
              have longer := Passed.cons whole (by omega) agrees passed
                (passed.head_filled later goesOn)
              have accepted := NameCompared.accepted (label :: more) tail longer
                (cons_ne_nil _ _)
              have total : o + (encodeLabels (label :: more)).length + 1 =
                  o + label.length + 1 + (encodeLabels more).length + 1 := by
                rw [length_encodeLabels_cons]
                omega
              rw [total] at accepted
              exact accepted
            | behind more n' part c tail message passed plain' longer agrees' short =>
              exact .behind (label :: more) n' part c tail message
                (Passed.cons whole (by omega) agrees passed (passed.head_filled later goesOn))
                plain' longer agrees' short
          · rename_i ends
            have zero : d = 0 := not_not.mp ends
            rw [zero] at later
            have empty : Passed b (o + label.length + 1) (query.drop (label.length + 1)) []
                (0 :: b.drop (o + label.length + 2)) := by
              constructor
              · exact (drop_of_getElem? later).2
              · exact ⟨by simp, by simp⟩
              · trivial
            have accepted := NameCompared.accepted [label] _
              (Passed.cons whole (by omega) agrees empty (by simp)) (cons_ne_nil _ _)
            have total : o + (encodeLabels [label]).length + 1 = o + label.length + 1 + 1 := by
              rw [length_encodeLabels_cons]
              rfl
            rw [total] at accepted
            exact accepted

/-! ## Skipped names -/

/-- The end of a name: a zero byte, or a pointer to the rest of the name. -/
def NameTail (ending : List UInt8) : Prop :=
  ending = [0] ∨ ∃ high low : UInt8, ending = [high, low] ∧ 192 ≤ high.toNat

/-- A name, possibly compressed, starts at an offset of a packet. -/
structure SkippableAt (packet : List UInt8) (start : Nat) (labels : List (List UInt8))
    (ending rest : List UInt8) : Prop where
  sizes : ∀ label ∈ labels, 1 ≤ label.length ∧ label.length ≤ 63
  ends : NameTail ending
  here : packet.drop start = encodeLabels labels ++ (ending ++ rest)

theorem dnsSkipNameLoop_label (denotes : Denotes p b) (fuel : Nat)
    (here : b.drop o = UInt8.ofNat label.length :: (label ++ n :: rest))
    (short : label.length < 192) :
    dnsSkipNameLoop p (fuel + 1) o =
      if n ≠ 0 then dnsSkipNameLoop p fuel (o + label.length + 1)
      else .ok (o + label.length + 2) := by
  have fits := denotes.fits
  have first := getElem?_of_drop here
  have plain := (notCompressed_iff (UInt8.ofNat label.length)).mpr
    (by rw [toNat_length short]; exact short)
  have behind : b.drop (o + label.length + 1) = n :: rest := by
    rw [Nat.add_right_comm, ← drop_drop, first.2.1, drop_left]
  have later := getElem?_of_drop behind
  have next : u16 (o + 1) = o + 1 := u16_of_lt (by omega)
  have position : u16 (o + 1 + label.length) = o + label.length + 1 := by
    rw [u16_of_lt (by omega), Nat.add_right_comm]
  have inside : ¬p.totLen ≤ o + 1 + label.length := by
    rw [denotes.totLen_eq]
    omega
  simp only [dnsSkipNameLoop, denotes.pbufTryGetAt, first.1, if_neg plain, toNat_length short,
    next, if_neg inside, position, later.1,
    u16_of_lt (show o + label.length + 1 + 1 < 65536 by omega)]

/-- A name that is more than a zero byte is skipped. -/
theorem dnsSkipNameLoop_name (denotes : Denotes p b) {ending : List UInt8}
    (name : SkippableAt b o labels ending rest) (more : encodeLabels labels ++ ending ≠ [0])
    (enough : labels.length < fuel) :
    dnsSkipNameLoop p fuel o = .ok (o + (encodeLabels labels ++ ending).length) := by
  have fits := denotes.fits
  obtain ⟨fuel, rfl⟩ := Nat.exists_eq_add_one_of_ne_zero (Nat.ne_zero_of_lt enough)
  induction labels generalizing o fuel with
  | nil =>
    cases name.ends with
    | inl zero => exact absurd zero more
    | inr pointer =>
      obtain ⟨high, low, rfl, marked⟩ := pointer
      have first := getElem?_of_drop name.here
      have second := getElem?_of_drop first.2.1
      have compressed : high &&& 0xc0 = 0xc0 :=
        not_not.mp fun plain => absurd ((notCompressed_iff high).mp plain) (by omega)
      simp only [dnsSkipNameLoop, denotes.pbufTryGetAt, first.1, if_pos compressed]
      rw [u16_of_lt (show o + 1 < 65536 by omega), u16_of_lt (by omega)]
      rfl
  | cons label others ih =>
    have short : label.length < 192 := by
      have := name.sizes label mem_cons_self
      omega
    have here : b.drop o =
        UInt8.ofNat label.length :: (label ++ (encodeLabels others ++ (ending ++ rest))) := by
      rw [name.here, encodeLabels, append_assoc, cons_append]
    have later : SkippableAt b (o + label.length + 1) others ending rest := by
      refine ⟨fun l member => name.sizes l (mem_cons_of_mem label member), name.ends, ?_⟩
      rw [Nat.add_right_comm, ← drop_drop, (getElem?_of_drop here).2.1, drop_left]
    rw [length_append, length_encodeLabels_cons]
    by_cases last : encodeLabels others ++ ending = [0]
    · rw [← append_assoc (encodeLabels others), last] at here
      have count := congrArg List.length last
      rw [length_append, length_singleton] at count
      rw [dnsSkipNameLoop_label denotes fuel here short, if_neg (by simp)]
      congr 1
      omega
    have goesOn : ∃ d tail, encodeLabels others ++ (ending ++ rest) = d :: tail ∧ d ≠ 0 := by
      cases others with
      | nil =>
        cases name.ends with
        | inl zero => exact absurd zero last
        | inr pointer =>
          obtain ⟨high, low, rfl, marked⟩ := pointer
          exact ⟨high, low :: rest, rfl, fun zero => by simp [zero] at marked⟩
      | cons next others =>
        have size := later.sizes next mem_cons_self
        exact encodeLabels_goesOn others _ (by omega) (length_pos_iff.mp size.1)
    obtain ⟨d, tail, follows, nonzero⟩ := goesOn
    rw [follows] at here
    obtain ⟨fuel, rfl⟩ := Nat.exists_eq_add_one_of_ne_zero
      (Nat.ne_zero_of_lt (Nat.lt_of_succ_lt_succ enough))
    rw [dnsSkipNameLoop_label denotes _ here short, if_pos nonzero,
      ih later last fuel (Nat.lt_of_succ_lt_succ enough), length_append]
    congr 1
    omega

/-- An offset returned is 0xFFFF, zero (behind a pointer at the last offset there is), or more
than one byte ahead. -/
theorem dnsSkipNameLoop_ahead (denotes : Denotes p b) {r : Nat}
    (returns : dnsSkipNameLoop p fuel o = .ok r) : r = 0xFFFF ∨ r = 0 ∨ o + 1 < r := by
  have fits := denotes.fits
  induction fuel generalizing o with
  | zero => contradiction
  | succ fuel ih =>
    rw [dnsSkipNameLoop, denotes.pbufTryGetAt] at returns
    cases found : b[o]? with
    | none =>
      rw [found] at returns
      exact .inl (Except.ok.inj returns).symm
    | some n =>
      have inside := (List.getElem?_eq_some_iff.mp found).1
      rw [found] at returns
      dsimp only at returns
      rw [u16_of_lt (show o + 1 < 65536 by omega), denotes.totLen_eq] at returns
      split at returns
      · have value : u16 (o + 1 + 1) = r := Except.ok.inj returns
        unfold u16 at value
        omega
      split at returns
      · exact .inl (Except.ok.inj returns).symm
      · rename_i within
        rw [u16_of_lt (show o + 1 + n.toNat < 65536 by omega), denotes.pbufTryGetAt,
          getElem?_eq_getElem (Nat.lt_of_not_le within)] at returns
        dsimp only at returns
        split at returns
        · have := ih returns
          omega
        · have value : u16 (o + 1 + n.toNat + 1) = r := Except.ok.inj returns
          rw [u16_of_lt (by omega)] at value
          omega

/-- `dns_skip_name` returns the offset behind a name exactly if the name is not the empty one,
up to the last offset there is: it takes the single zero byte for a label and skips the byte
behind it too, or the name there. -/
theorem dnsSkipName_iff (denotes : Denotes p b) {ending : List UInt8}
    (name : SkippableAt b o labels ending rest) :
    dnsSkipName p o = .ok (o + (encodeLabels labels ++ ending).length) ↔
      encodeLabels labels ++ ending ≠ [0] ∨ o = 0xFFFE := by
  have fits := denotes.fits
  by_cases empty : encodeLabels labels ++ ending = [0]
  · have here := name.here
    rw [← append_assoc, empty] at here
    have first := getElem?_of_drop here
    rw [empty]
    constructor
    · intro returns
      have ahead := dnsSkipNameLoop_ahead denotes returns
      rw [length_singleton] at ahead
      omega
    intro given
    have last : o = 0xFFFE := given.resolve_left (not_not.mpr rfl)
    have size := denotes.totLen_eq
    rw [last] at first ⊢
    have ends : p.totLen ≤ u16 (0xFFFE + 1) + (0 : UInt8).toNat := by
      rw [size]
      exact fits
    rw [dnsSkipName, dnsSkipNameLoop, denotes.pbufTryGetAt, first.1]
    dsimp only
    rw [if_neg (by decide), if_pos ends]
    rfl
  · have bytes := congrArg List.length name.here
    have count := labels_le_encodeLabels labels
    simp only [length_drop, length_append] at bytes
    refine iff_of_true (dnsSkipNameLoop_name denotes name empty ?_) (.inl empty)
    rw [denotes.totLen_eq]
    omega

/-! ## Host names in packets -/

/-- The labels of a host name in 7-bit characters agree with its string. -/
theorem agreesSkipping_dotted (suffix : List UInt8)
    (ascii : ∀ label ∈ labels, ∀ c ∈ label, c.toNat < 128) :
    AgreesSkipping labels (dotted labels ++ suffix) := by
  induction labels with
  | nil => trivial
  | cons label more ih =>
    have later := ih fun l member => ascii l (mem_cons_of_mem label member)
    cases more with
    | nil => exact ⟨⟨prefix_append _ _, ascii label mem_cons_self⟩, trivial⟩
    | cons next others =>
      constructor
      · rw [dotted, append_assoc]
        exact ⟨prefix_append _ _, ascii label mem_cons_self⟩
      · rw [dotted, append_assoc, drop_length_add_append, cons_append]
        exact later

/-- Labels that agree with the string of labels of the same lengths are these labels. -/
theorem eq_of_agreesSkipping {given : List (List UInt8)} {suffix : List UInt8}
    (equal : EqualIgnoringCase labels given)
    (agrees : AgreesSkipping labels (dotted given ++ suffix)) :
    labels = given ∧ ∀ label ∈ labels, ∀ c ∈ label, c.toNat < 128 := by
  induction labels generalizing given with
  | nil =>
    cases given with
    | nil => simp
    | cons first others => simp [EqualIgnoringCase] at equal
  | cons label more ih =>
    cases given with
    | nil => simp [EqualIgnoringCase] at equal
    | cons first others =>
      simp only [EqualIgnoringCase, map_cons, List.cons.injEq] at equal
      have count : label.length = first.length := by
        simpa using congrArg List.length equal.1
      have front : first <+: dotted (first :: others) ++ suffix := by
        cases others with
        | nil => exact prefix_append _ _
        | cons next rest =>
          rw [dotted, append_assoc]
          exact prefix_append _ _
      have same : label = first :=
        (prefix_of_prefix_length_le agrees.1.1 front (Nat.le_of_eq count)).eq_of_length count
      have rest : more = others ∧ ∀ l ∈ more, ∀ c ∈ l, c.toNat < 128 := by
        cases others with
        | nil =>
          have none : more = [] := by simpa using equal.2
          simp [none]
        | cons next rest =>
          apply ih equal.2
          have later := agrees.2
          rw [dotted, count, append_assoc, drop_length_add_append, cons_append] at later
          exact later
      constructor
      · rw [same, rest.1]
      · intro l member
        cases member with
        | head => exact agrees.1.2
        | tail _ later => exact rest.2 l later

/-- Labels that are not empty can be read back from their encoding. -/
theorem encodeLabels_unique {left right : List (List UInt8)} {rest' : List UInt8}
    (same : encodeLabels left ++ 0 :: rest = encodeLabels right ++ 0 :: rest')
    (leftLabels : ∀ label ∈ left, label.length < 192 ∧ label ≠ [])
    (rightLabels : ∀ label ∈ right, label.length < 192 ∧ label ≠ []) : left = right := by
  induction left generalizing right with
  | nil =>
    cases right with
    | nil => rfl
    | cons label more =>
      have proper := rightLabels label mem_cons_self
      obtain ⟨d, tail, follows, goesOn⟩ := encodeLabels_goesOn more (0 :: rest') proper.1 proper.2
      rw [follows] at same
      exact absurd (List.cons.inj same).1.symm goesOn
  | cons label more ih =>
    have proper := leftLabels label mem_cons_self
    cases right with
    | nil =>
      obtain ⟨d, tail, follows, goesOn⟩ := encodeLabels_goesOn more (0 :: rest) proper.1 proper.2
      rw [follows] at same
      exact absurd (List.cons.inj same).1 goesOn
    | cons label' more' =>
      have proper' := rightLabels label' mem_cons_self
      simp only [encodeLabels, cons_append, append_assoc, List.cons.injEq] at same
      have count : label.length = label'.length := by
        rw [← toNat_length proper.1, ← toNat_length proper'.1, same.1]
      have parts := append_inj same.2 count
      rw [parts.1, ih parts.2 (fun l member => leftLabels l (mem_cons_of_mem label member))
        fun l member => rightLabels l (mem_cons_of_mem label' member)]

/-- Labels equal to those of a host name are not empty. -/
theorem EqualIgnoringCase.filled (equal : EqualIgnoringCase labels host.labels) :
    labels ≠ [] ∧ ∀ label ∈ labels, label ≠ [] := by
  constructor
  · intro empty
    rw [empty, EqualIgnoringCase, map_nil] at equal
    exact host.nonempty (map_eq_nil_iff.mp equal.symm)
  intro label member empty
  have mapped : ([] : List UInt8) ∈ labels.map (List.map toLower) := by
    rw [mem_map]
    exact ⟨label, member, by rw [empty]; rfl⟩
  rw [equal, mem_map] at mapped
  obtain ⟨given, listed, none⟩ := mapped
  exact host.filled given listed (map_eq_nil_iff.mp none)

/-- Labels that the comparison accepts are those of the name in the packet, if the packet holds
a name that equals the host name. -/
theorem Passed.eq_of_nameAt {accepted : List (List UInt8)} {behind : Nat}
    (passed : Passed b o query accepted (0 :: rest)) (nonempty : accepted ≠ [])
    (name : NameAt b o labels behind) (equal : EqualIgnoringCase labels host.labels) :
    accepted = labels := by
  have filled := equal.filled
  obtain ⟨sizes, _, rest', here⟩ := name
  have properLabels : ∀ label ∈ labels, label.length < 192 ∧ label ≠ [] :=
    fun label member => ⟨by have := sizes label member; omega, filled.2 label member⟩
  cases labels with
  | nil => exact absurd rfl filled.1
  | cons first others =>
    have proper := properLabels first mem_cons_self
    obtain ⟨d, tail, follows, goesOn⟩ := encodeLabels_goesOn others (0 :: rest') proper.1 proper.2
    have byte : b[o]? = some d := (getElem?_of_drop (here.trans follows)).1
    have head := passed.head_filled byte goesOn
    apply encodeLabels_unique (passed.here.symm.trans here) _ properLabels
    intro label member
    refine ⟨passed.lengths.1 label member, ?_⟩
    cases accepted with
    | nil => contradiction
    | cons first' others' =>
      cases member with
      | head => exact head _ rfl
      | tail _ later => exact passed.lengths.2 label later

/-- What `dns_compare_name` is for: it returns an offset exactly if the packet holds an
uncompressed name that equals the host name up to ASCII case, the offset just after that name,
and it reads nothing behind the host name's terminating zero. -/
def ComparesName (host : HostName) (p : Chain) (b : List UInt8) (start : Nat) : Prop :=
  ∃ result, dnsCompareName host.string p start = .ok result ∧
    (result ≠ 0xFFFF ↔ ∃ labels behind, NameAt b start labels behind ∧
      EqualIgnoringCase labels host.labels) ∧
    ∀ labels behind, NameAt b start labels behind → EqualIgnoringCase labels host.labels →
      result ≠ 0xFFFF → result = behind

/-- The packets on which `dns_compare_name` does what it is for. -/
structure Comparable (host : HostName) (b : List UInt8) (start : Nat) : Prop where
  /-- A name in the packet that equals the host name up to ASCII case is written in the same
  case, in 7-bit characters, and does not end at the last offset there is. -/
  sameCase : ∀ labels behind, NameAt b start labels behind → EqualIgnoringCase labels host.labels →
    labels = host.labels ∧ (∀ label ∈ labels, ∀ c ∈ label, c.toNat < 128) ∧ behind ≠ 0xFFFF
  /-- Labels up to a zero byte that agree with the host name, whatever character follows each of
  them there, are the labels of the host name, and none is longer than 63 bytes. (At the last
  offset there is they are refused anyway.) -/
  sameEnds : ∀ labels rest, labels ≠ [] → Passed b start host.string labels (0 :: rest) →
    start + (encodeLabels labels).length + 1 ≠ 0xFFFF →
      labels = host.labels ∧ ∀ label ∈ labels, label.length ≤ 63
  /-- No label goes on where the labels before it and its first bytes have agreed with the host
  name and its terminating zero, whatever character follows each label there. -/
  noLonger : ∀ labels n part c rest,
    Passed b start host.string labels (n :: (part ++ c :: rest)) → n.toNat < 192 →
      part.length < n.toNat → Agrees part (skipped labels host.string) →
        part.length < (skipped labels host.string).length

/-- The fuel of `dns_compare_name` is enough for any number of labels inside the packet. -/
theorem Passed.enough (denotes : Denotes p b) (passed : Passed b o query labels rest) :
    labels.length ≤ p.totLen := by
  have bytes := congrArg List.length passed.here
  simp only [length_drop, length_append] at bytes
  rw [denotes.totLen_eq]
  have := labels_le_encodeLabels labels
  omega

/-- An accepted name ends inside the packet, so the offset after it fits 16 bits. -/
theorem Passed.behind_fits (denotes : Denotes p b) (passed : Passed b o query labels (c :: rest)) :
    u16 (o + (encodeLabels labels).length + 1) = o + (encodeLabels labels).length + 1 := by
  have bytes := congrArg List.length passed.here
  simp only [length_drop, length_append, length_cons] at bytes
  have fits := denotes.fits
  exact u16_of_lt (by omega)

/-- A name in the packet that is written like the host name is accepted. -/
theorem dnsCompareName_accepts_nameAt (denotes : Denotes p b) {start behind : Nat}
    (name : NameAt b start host.labels behind)
    (ascii : ∀ label ∈ host.labels, ∀ c ∈ label, c.toNat < 128) :
    dnsCompareName host.string p start = .ok behind := by
  obtain ⟨sizes, position, rest, here⟩ := name
  have passed : Passed b start host.string host.labels (0 :: rest) := by
    constructor
    · exact here
    · exact ⟨fun label member => by have := sizes label member; omega,
        fun label member => host.filled label (mem_of_mem_tail member)⟩
    · exact agreesSkipping_dotted [0] ascii
  have enough := passed.enough denotes
  rw [dnsCompareName, dnsCompareNameLoop_accepts denotes passed host.nonempty (by omega),
    passed.behind_fits denotes, position]

/-- `dns_compare_name` does what it is for exactly on these packets. -/
theorem comparesName_iff (denotes : Denotes p b) (host : HostName) (start : Nat) :
    ComparesName host p b start ↔ Comparable host b start := by
  have compared : NameCompared b host.string start (dnsCompareNameLoop p (p.totLen + 1) _ _) :=
    dnsCompareNameLoop_compared denotes host.string start (by rw [denotes.totLen_eq]; omega)
      (Nat.succ_pos _)
  rw [← dnsCompareName] at compared
  constructor
  · intro meets
    obtain ⟨result, returned, exactly, position⟩ := meets
    rw [returned] at compared
    constructor
    · intro labels behind name equal
      have found := exactly.mpr ⟨labels, behind, name, equal⟩
      have ends := position labels behind name equal found
      cases compared with
      | differs => exact absurd rfl found
      | accepted accepted rest passed nonempty =>
        have same := passed.eq_of_nameAt nonempty name equal
        have agrees := passed.agrees
        rw [same] at agrees
        have exact := eq_of_agreesSkipping equal agrees
        exact ⟨exact.1, exact.2, by rw [← ends]; exact found⟩
    · intro labels rest nonempty passed inside
      have enough := passed.enough denotes
      have accepted := dnsCompareNameLoop_accepts denotes passed nonempty
        (Nat.le_succ_of_le enough)
      rw [← dnsCompareName, returned, passed.behind_fits denotes] at accepted
      have value := Except.ok.inj accepted
      obtain ⟨given, behind, name, equal⟩ := exactly.mp (by rw [value]; exact inside)
      have same := passed.eq_of_nameAt nonempty name equal
      have agrees := passed.agrees
      rw [same] at agrees ⊢
      exact ⟨(eq_of_agreesSkipping equal agrees).1, fun label member => (name.1 label member).2⟩
    · intro labels n part c rest passed plain longer agrees
      apply Nat.lt_of_not_le
      intro short
      have enough := passed.enough denotes
      obtain ⟨message, failed⟩ := dnsCompareNameLoop_behind denotes passed plain longer agrees short
        (Nat.lt_succ_of_le enough)
      rw [← dnsCompareName, returned] at failed
      contradiction
  · intro comparable
    have complete : ∀ labels behind, NameAt b start labels behind →
        EqualIgnoringCase labels host.labels →
          dnsCompareName host.string p start = .ok behind ∧ behind ≠ 0xFFFF := by
      intro labels behind name equal
      have same := comparable.sameCase labels behind name equal
      have ascii := same.2.1
      rw [same.1] at name ascii
      exact ⟨dnsCompareName_accepts_nameAt denotes name ascii, same.2.2⟩
    generalize returned : dnsCompareName host.string p start = outcome at compared complete
    cases compared with
    | behind labels n part c rest message passed plain longer agrees short =>
      have := comparable.noLonger labels n part c rest passed plain longer agrees
      omega
    | differs =>
      refine ⟨0xFFFF, returned, ?_, fun _ _ _ _ found => absurd rfl found⟩
      apply iff_of_false (fun found => found rfl)
      intro name
      obtain ⟨labels, behind, name, equal⟩ := name
      have accepted := complete labels behind name equal
      exact accepted.2 (Except.ok.inj accepted.1).symm
    | accepted labels rest passed nonempty =>
      rw [passed.behind_fits denotes] at returned complete
      refine ⟨_, returned, ?_, ?_⟩
      · constructor
        · intro inside
          have same := comparable.sameEnds labels rest nonempty passed inside
          refine ⟨labels, _, ⟨?_, rfl, rest, passed.here⟩, by rw [same.1]; rfl⟩
          intro label member
          refine ⟨?_, same.2 label member⟩
          rw [same.1] at member
          exact length_pos_iff.mpr (host.filled label member)
        · intro name
          obtain ⟨given, behind, name, equal⟩ := name
          have accepted := complete given behind name equal
          rw [Except.ok.inj accepted.1]
          exact accepted.2
      · intro given behind name equal _
        exact Except.ok.inj (complete given behind name equal).1

/-- A host name of one label. -/
def singleLabel (c : UInt8) (more : List UInt8) (plain : ∀ d ∈ c :: more, d ≠ 46 ∧ d ≠ 0) :
    HostName :=
  { labels := [c :: more], nonempty := by simp, filled := by simp, plain := by simpa using plain }

/-- The encoded name `a` alone in a packet. -/
def packetA : List UInt8 := [1, 97, 0]

theorem denotes_packetA : Denotes [pbufRam 0 packetA] packetA :=
  Denotes.single rfl (by decide) rfl (by decide)

/-- The name `a` is skipped. -/
theorem dnsSkipName_iff_packetA : dnsSkipName [pbufRam 0 packetA] 0 = .ok 3 := by
  have name : SkippableAt packetA 0 [[97]] [0] [] := ⟨by simp, .inl rfl, rfl⟩
  exact (dnsSkipName_iff denotes_packetA name).mpr (.inl (by decide))

/-- The empty name is skipped together with the byte behind it. -/
theorem dnsSkipName_misses_empty :
    SkippableAt [0, 0] 0 [] [0] [0] ∧ dnsSkipName [pbufRam 0 [0, 0]] 0 = .ok 2 :=
  ⟨⟨by simp, .inl rfl, rfl⟩, by decide +kernel⟩

/-- A name equal to a host name of one label has one label of the same length. -/
theorem EqualIgnoringCase.single (equal : EqualIgnoringCase labels [label]) :
    ∃ same, labels = [same] ∧ same.length = label.length := by
  unfold EqualIgnoringCase at equal
  cases labels with
  | nil => simp at equal
  | cons first others =>
    simp only [map_cons, map_nil, List.cons.injEq, map_eq_nil_iff] at equal
    exact ⟨first, by rw [equal.2], by simpa using congrArg List.length equal.1⟩

/-- The host name `a` is compared as it should be with the encoded name `a`. -/
theorem comparesName_iff_packetA :
    Comparable (singleLabel 97 [] (by simp)) packetA 0 := by
  apply (comparesName_iff denotes_packetA (singleLabel 97 [] (by simp)) 0).mp
  refine ⟨3, by decide +kernel, iff_of_true (by decide) ⟨[[97]], 3, ?_, rfl⟩, ?_⟩
  · exact ⟨by simp, rfl, [], rfl⟩
  · intro labels behind name equal _
    obtain ⟨same, only, count⟩ := equal.single
    rw [name.2.1, only, length_encodeLabels_cons, count]
    rfl

/-- The host name `ab` is found equal to the encoded name `a`: its second character is skipped
as if it were a dot, and nothing tells whether the host name has ended. -/
theorem dnsCompareName_accepts_shorter :
    ¬ComparesName (singleLabel 97 [98] (by simp)) [pbufRam 0 packetA] packetA 0 := by
  intro meets
  obtain ⟨result, returned, exactly, _⟩ := meets
  have accepted : dnsCompareName (singleLabel 97 [98] (by simp)).string [pbufRam 0 packetA] 0 =
      .ok 3 := by decide +kernel
  have value : result = 3 := Except.ok.inj (returned.symm.trans accepted)
  obtain ⟨labels, behind, name, equal⟩ := exactly.mp (by rw [value]; decide)
  obtain ⟨same, only, count⟩ := equal.single
  obtain ⟨_, _, rest, here⟩ := name
  have bytes := congrArg List.length here
  rw [only, length_append, length_encodeLabels_cons, count] at bytes
  simp only [packetA, drop_zero, length_cons, length_nil] at bytes
  omega

end Lwip.Dns
