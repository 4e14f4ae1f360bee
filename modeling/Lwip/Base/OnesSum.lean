import Mathlib.Data.Nat.ModEq
import Mathlib.Tactic.Ring

/-!
# Ones' complement sums

Sums of two-digit words with end-around carry. With `m + 1 = b * b` such a sum is only known up
to multiples of `m`, but zero stays apart from the other multiples: it is the sum of zeros only.
Two numbers that a sum cannot tell from each other are related by `Same`, which addition and
multiplication keep; folding a carry back and swapping the two digits of a word are steps inside
this relation.
-/

namespace OnesSum

open List

/-- Two numbers are equal up to multiples of `m`, and both or none of them are zero. -/
structure Same (m n k : Nat) : Prop where
  /-- They differ by a multiple of `m`. -/
  modEq : n ≡ k [MOD m]
  /-- Zero is related to zero only. -/
  zero : n = 0 ↔ k = 0

/-- Addition with end-around carry. -/
def onesAdd (m x y : Nat) : Nat := if x + y ≤ m then x + y else x + y - m

/-- Ones' complement sum of a list of words. -/
def onesSum (m : Nat) (words : List Nat) : Nat := words.foldr (onesAdd m) 0

/-- The words of a digit string, most significant digit first; a last single digit is padded. -/
def words (b : Nat) : List Nat → List Nat
  | [] => []
  | [x] => [b * x]
  | x :: y :: rest => (b * x + y) :: words b rest

/-- Exact sum of the words of a digit string. -/
def wordSum (b : Nat) (digits : List Nat) : Nat := (words b digits).sum

/-- Exact sum of the words read with their least significant digit first. -/
def pairSum (b : Nat) : List Nat → Nat
  | [] => 0
  | [x] => x
  | x :: y :: rest => x + b * y + pairSum b rest

/-- The carry out of the lowest `w` values is added back. -/
def fold (w n : Nat) : Nat := n / w + n % w

/-- The two digits of a word in the other order. -/
def swap (b n : Nat) : Nat := n % b * b + n / b

variable {m b n k n' k' x y : Nat}

/-! ## Numbers a sum cannot tell apart -/

namespace Same

/-- A number is the same as itself. -/
theorem refl (m n : Nat) : Same m n n := ⟨Nat.ModEq.refl n, Iff.rfl⟩

/-- The relation is symmetric. -/
theorem symm (same : Same m n k) : Same m k n := ⟨same.modEq.symm, same.zero.symm⟩

/-- The relation is transitive. -/
theorem trans (same : Same m n k) (next : Same m k n') : Same m n n' :=
  ⟨same.modEq.trans next.modEq, same.zero.trans next.zero⟩

/-- Sums of related numbers are related. -/
theorem add (same : Same m n k) (other : Same m n' k') : Same m (n + n') (k + k') := by
  constructor
  · exact same.modEq.add other.modEq
  · rw [Nat.add_eq_zero_iff, Nat.add_eq_zero_iff, same.zero, other.zero]

/-- Multiples of related numbers are related. -/
theorem mul_left (c : Nat) (same : Same m n k) : Same m (c * n) (c * k) := by
  constructor
  · exact same.modEq.mul_left c
  · rw [Nat.mul_eq_zero, Nat.mul_eq_zero, same.zero]

/-- Of the numbers up to `m` every one is related to itself only. -/
theorem unique (same : Same m x y) (left : x ≤ m) (right : y ≤ m) : x = y := by
  have zero := same.zero
  have remainder : x % m = y % m := same.modEq
  by_cases xTop : x = m
  · by_cases yTop : y = m
    · rw [xTop, yTop]
    · rw [xTop, Nat.mod_self, Nat.mod_eq_of_lt (by omega)] at remainder
      omega
  · by_cases yTop : y = m
    · rw [yTop, Nat.mod_self, Nat.mod_eq_of_lt (by omega)] at remainder
      omega
    · rwa [Nat.mod_eq_of_lt (by omega), Nat.mod_eq_of_lt (by omega)] at remainder

end Same

/-- Multiples of `m` may be added to a number that is not zero. -/
theorem same_add_mul (c : Nat) (zero : n = 0 → c = 0 ∨ m = 0) : Same m (n + m * c) n := by
  constructor
  · simp [Nat.ModEq]
  · rw [Nat.add_eq_zero_iff, Nat.mul_eq_zero]
    constructor
    · exact And.left
    · intro none
      exact ⟨none, (zero none).symm⟩

/-! ## Carries -/

/-- Adding the carry back does not change a number. -/
theorem same_fold (m n : Nat) : Same m (fold (m + 1) n) n := by
  have parts := Nat.div_add_mod n (m + 1)
  have whole : fold (m + 1) n + m * (n / (m + 1)) = n := by
    rw [fold]
    rw [Nat.succ_mul] at parts
    omega
  have same := same_add_mul (m := m) (n := fold (m + 1) n) (n / (m + 1)) (by
    intro none
    exact .inl (Nat.add_eq_zero_iff.1 none).1)
  rw [whole] at same
  exact same.symm

/-- A sum of two words fits into a word after one fold. -/
theorem fold_le (small : n ≤ m + m) : fold (m + 1) n ≤ m := by
  rw [fold]
  by_cases carry : n < m + 1
  · rw [Nat.div_eq_of_lt carry, Nat.mod_eq_of_lt carry]
    omega
  · have quotient : n / (m + 1) = 1 := Nat.div_eq_of_lt_le (by omega) (by omega)
    have parts := Nat.div_add_mod n (m + 1)
    rw [quotient] at parts
    omega

/-- A double word leaves at most a sum of two words after a fold. -/
theorem fold_le_two (small : n < (m + 1) * (m + 1)) : fold (m + 1) n ≤ m + m := by
  have quotient : n / (m + 1) < m + 1 := Nat.div_lt_of_lt_mul small
  have remainder : n % (m + 1) < m + 1 := Nat.mod_lt n (Nat.succ_pos m)
  rw [fold]
  omega

/-- Addition with end-around carry is addition. -/
theorem same_onesAdd (m x y : Nat) : Same m (onesAdd m x y) (x + y) := by
  unfold onesAdd
  by_cases fits : x + y ≤ m
  · rw [if_pos fits]
    exact Same.refl m _
  · rw [if_neg fits]
    have same := same_add_mul (m := m) (n := x + y - m) 1 (by omega)
    rw [Nat.mul_one, Nat.sub_add_cancel (by omega)] at same
    exact same.symm

/-- A ones' complement sum of words is a word. -/
theorem onesSum_le {words : List Nat} (bound : ∀ word ∈ words, word ≤ m) :
    onesSum m words ≤ m := by
  induction words with
  | nil => exact Nat.zero_le m
  | cons word rest ih =>
    have first := bound word mem_cons_self
    have others : onesSum m rest ≤ m :=
      ih (fun other member => bound other (mem_cons_of_mem word member))
    change onesAdd m word (onesSum m rest) ≤ m
    unfold onesAdd
    split <;> omega

/-- The sum with end-around carries is the sum, up to the modulus. -/
theorem same_onesSum (m : Nat) (words : List Nat) : Same m (onesSum m words) words.sum := by
  induction words with
  | nil => exact Same.refl m 0
  | cons word rest ih =>
    exact (same_onesAdd m word (onesSum m rest)).trans ((Same.refl m word).add ih)

/-! ## Digits -/

section Radix

variable (radix : b * b = m + 1)
include radix

/-- Two places to the left is the same place. -/
theorem same_square (n : Nat) : Same m (b * (b * n)) n := by
  have product : b * (b * n) = n + m * n := by
    rw [← Nat.mul_assoc, radix, Nat.succ_mul, Nat.add_comm]
  rw [product]
  exact same_add_mul n Or.inl

/-- An even number of places to the left is the same place. -/
theorem same_pow_add_self (e n : Nat) : Same m (b ^ e * (b ^ e * n)) n := by
  induction e with
  | zero =>
    rw [Nat.pow_zero, Nat.one_mul, Nat.one_mul]
    exact Same.refl m n
  | succ e ih =>
    have regroup : b ^ (e + 1) * (b ^ (e + 1) * n) = b * (b * (b ^ e * (b ^ e * n))) := by ring
    rw [regroup]
    exact (same_square radix _).trans ih

/-- Only the parity of the number of places counts. -/
theorem same_pow (e n : Nat) : Same m (b ^ e * n) (if e % 2 = 1 then b * n else n) := by
  by_cases odd : e % 2 = 1
  · have half : e = e / 2 + e / 2 + 1 := by omega
    have regroup : b ^ e * n = b ^ (e / 2) * (b ^ (e / 2) * (b * n)) := by
      conv_lhs => rw [half]
      ring
    rw [if_pos odd, regroup]
    exact same_pow_add_self radix (e / 2) (b * n)
  · have half : e = e / 2 + e / 2 := by omega
    have regroup : b ^ e * n = b ^ (e / 2) * (b ^ (e / 2) * n) := by
      conv_lhs => rw [half]
      ring
    rw [if_neg odd, regroup]
    exact same_pow_add_self radix (e / 2) n

/-- Swapping the digits is moving one place to the left. -/
theorem same_swap (n : Nat) : Same m (swap b n) (b * n) := by
  have parts : b * n = n % b * b + b * (b * (n / b)) := by
    conv_lhs => rw [← Nat.div_add_mod n b]
    ring
  rw [parts]
  exact (Same.refl m _).add (same_square radix (n / b)).symm

/-- Swapping the digits of a word gives a word. -/
theorem swap_le (small : n ≤ m) : swap b n ≤ m := by
  have positive : 0 < b := Nat.pos_of_ne_zero (by
    intro none
    rw [none] at radix
    omega)
  have quotient : n / b < b := Nat.div_lt_of_lt_mul (by omega)
  have remainder : n % b + 1 ≤ b := Nat.mod_lt n positive
  have product := Nat.mul_le_mul_right b remainder
  rw [Nat.succ_mul] at product
  rw [swap]
  omega

/-- Words of a string of digits are words. -/
theorem words_le {digits : List Nat} (bound : ∀ digit ∈ digits, digit < b) :
    ∀ word ∈ words b digits, word ≤ m := by
  induction digits using words.induct with
  | case1 => exact fun word member => nomatch member
  | case2 x =>
    intro word member
    have digit : x + 1 ≤ b := bound x mem_cons_self
    have product := Nat.mul_le_mul_left b digit
    rw [words, mem_singleton] at member
    rw [Nat.mul_succ] at product
    omega
  | case3 x y rest ih =>
    intro word member
    have high : x + 1 ≤ b := bound x mem_cons_self
    have low : y < b := bound y (mem_cons_of_mem x mem_cons_self)
    have product := Nat.mul_le_mul_left b high
    rw [words, mem_cons] at member
    rw [Nat.mul_succ] at product
    cases member with
    | inl first => omega
    | inr later =>
      exact ih (fun digit inside => bound digit (by simp [inside])) word later

/-- A digit in front moves the others by one place. -/
theorem same_wordSum_cons (x : Nat) (digits : List Nat) :
    Same m (wordSum b (x :: digits)) (b * x + b * wordSum b digits) := by
  induction digits using words.induct generalizing x with
  | case1 => exact Same.refl m _
  | case2 y =>
    have moved : Same m (b * x + y) (b * x + b * (b * y)) :=
      (Same.refl m _).add (same_square radix y).symm
    simpa [wordSum, words] using moved
  | case3 y z rest ih =>
    have expand : wordSum b (x :: y :: z :: rest) = b * x + y + wordSum b (z :: rest) := by
      simp [wordSum, words]
    have regroup : b * x + b * wordSum b (y :: z :: rest) =
        b * x + b * (b * y) + (b * z + b * wordSum b rest) := by
      simp only [wordSum, words, sum_cons]
      ring
    rw [regroup]
    exact ((Same.refl m _).add (same_square radix y).symm).add (ih z)

/-- The digits behind a string are moved by its length. -/
theorem same_wordSum_append (front back : List Nat) :
    Same m (wordSum b (front ++ back))
      (wordSum b front + b ^ front.length * wordSum b back) := by
  induction front with
  | nil => simpa [wordSum, words] using Same.refl m (words b back).sum
  | cons x rest ih =>
    have outer := same_wordSum_cons radix x (rest ++ back)
    have inner := (same_wordSum_cons radix x rest).symm
    have regroup : b * x + b * (wordSum b rest + b ^ rest.length * wordSum b back) =
        b * x + b * wordSum b rest + b ^ (x :: rest).length * wordSum b back := by
      rw [length_cons]
      ring
    have middle := (Same.refl m (b * x)).add (ih.mul_left b)
    rw [regroup] at middle
    exact (outer.trans middle).trans (inner.add (Same.refl m _))

/-- A running sum that is moved by the length of every string it takes in: taking in two strings
one after the other is taking in both together. -/
theorem same_running_append (n : Nat) (front back : List Nat) :
    Same m (b ^ back.length * (b ^ front.length * (n + b * wordSum b front) + b * wordSum b back))
      (b ^ (front ++ back).length * (n + b * wordSum b (front ++ back))) := by
  have joined := ((Same.refl m n).add
    ((same_wordSum_append radix front back).mul_left b)).mul_left (b ^ (front ++ back).length)
  have regroup : b ^ (front ++ back).length *
        (n + b * (wordSum b front + b ^ front.length * wordSum b back)) =
      b ^ back.length * (b ^ front.length * (n + b * wordSum b front) +
        b ^ front.length * (b ^ front.length * (b * wordSum b back))) := by
    rw [length_append]
    ring
  rw [regroup] at joined
  have near := (same_pow_add_self radix front.length (b * wordSum b back)).symm
  exact (((Same.refl m _).add near).mul_left _).trans joined.symm

/-- Reading words with their least significant digit first moves all digits by one place. -/
theorem same_pairSum (digits : List Nat) : Same m (pairSum b digits) (b * wordSum b digits) := by
  induction digits using pairSum.induct with
  | case1 => exact Same.refl m 0
  | case2 x => simpa [pairSum, wordSum, words] using (same_square radix x).symm
  | case3 x y rest ih =>
    have regroup : b * wordSum b (x :: y :: rest) =
        b * (b * x) + b * y + b * wordSum b rest := by
      simp only [wordSum, words, sum_cons]
      ring
    rw [regroup]
    exact (((same_square radix x).symm).add (Same.refl m _)).add ih

end Radix

/-- Behind an even number of digits the words are the same. -/
theorem wordSum_append_even (b : Nat) {front : List Nat} (even : front.length % 2 = 0)
    (back : List Nat) : wordSum b (front ++ back) = wordSum b front + wordSum b back := by
  induction front using words.induct with
  | case1 => simp [wordSum, words]
  | case2 x => simp at even
  | case3 x y rest ih =>
    have tail := ih (by simp only [length_cons] at even; omega)
    simp only [wordSum, words, cons_append, sum_cons] at tail ⊢
    omega

/-- A sum of pairs of digits grows with the number of digits at most. -/
theorem pairSum_le {digits : List Nat} (bound : ∀ digit ∈ digits, digit < b) :
    pairSum b digits ≤ b * b * digits.length := by
  induction digits using pairSum.induct with
  | case1 => exact Nat.zero_le _
  | case2 x =>
    have digit := bound x mem_cons_self
    have square := Nat.le_mul_self b
    rw [pairSum, length_singleton]
    omega
  | case3 x y rest ih =>
    have low := bound x mem_cons_self
    have high := Nat.mul_le_mul_left b (Nat.le_of_lt (bound y (by simp)))
    have square := Nat.le_mul_self b
    have others := ih (fun digit inside => bound digit (by simp [inside]))
    rw [pairSum, length_cons, length_cons, Nat.mul_succ, Nat.mul_succ]
    omega

end OnesSum
