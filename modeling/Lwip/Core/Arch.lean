import Mathlib.Data.UInt

/-!
# Machine integers and assertions

Lengths and counters of 16 bits are naturals that are truncated where the source stores
them; signed intermediate results are integers. Sequence numbers and times are `UInt32`.
`LWIP_ASSERT` prints its message and aborts, so a modelled function with assertions returns
the message of the first one that fails.
-/

namespace Lwip

/-- Conversion of a natural to `u16_t`. -/
def u16 (n : Nat) : Nat := n % 65536

/-- Conversion of a signed value to `u16_t`. -/
def toU16 (z : Int) : Nat := (z % 65536).toNat

/-- Conversion of a signed value to `s16_t`. -/
def toS16 (z : Int) : Int := Int.bmod z 65536

/-- Conversion of a signed value to a 32-bit unsigned one. -/
def toU32 (z : Int) : Nat := (z % 4294967296).toNat

/-- `err_t`. -/
inductive Err where
  | ok
  | mem
  | buf
  | timeout
  | rte
  | inprogress
  | val
  | wouldblock
  | use
  | already
  | isconn
  | conn
  /-- `ERR_IF`: low-level interface error. -/
  | netif
  | abrt
  | rst
  | clsd
  | arg
  deriving DecidableEq, Repr

/-- Outcome of a function with assertions. -/
abbrev Asserting (α : Type) := Except String α

/-- `LWIP_ASSERT(message, holds)`. -/
def lwipAssert (message : String) (holds : Prop) [Decidable holds] : Asserting Unit :=
  if holds then .ok () else .error message

@[simp] theorem u16_of_lt {n : Nat} (fits : n < 65536) : u16 n = n := Nat.mod_eq_of_lt fits

theorem u16_lt (n : Nat) : u16 n < 65536 := Nat.mod_lt _ (by decide)

/-- A signed value in range is not changed by the conversion. -/
theorem toU16_of_range {z : Int} (low : 0 ≤ z) (high : z < 65536) : toU16 z = z.toNat := by
  rw [toU16, Int.emod_eq_of_lt low high]

/-- A signed value that is a 16-bit number is that number. -/
theorem toU16_eq {z : Int} {n : Nat} (same : z = n) (small : n < 65536) : toU16 z = n := by
  rw [toU16_of_range (by omega) (by omega), same, Int.toNat_natCast]

/-- A signed value in range is not changed by the conversion. -/
theorem toU32_of_range {z : Int} (low : 0 ≤ z) (high : z < 4294967296) : toU32 z = z.toNat := by
  rw [toU32, Int.emod_eq_of_lt low high]

theorem lwipAssert_pos {message : String} {holds : Prop} [Decidable holds] (given : holds) :
    lwipAssert message holds = .ok () := if_pos given

/-- An assertion that does not hold ends the computation. -/
theorem lwipAssert_neg {message : String} {holds : Prop} [Decidable holds] (given : ¬holds) :
    lwipAssert message holds = .error message := if_neg given

@[simp] theorem ok_bind {α β : Type} (value : α) (rest : α → Asserting β) :
    ((.ok value : Asserting α) >>= rest) = rest value := rfl

@[simp] theorem error_bind {α β : Type} (message : String) (rest : α → Asserting β) :
    ((.error message : Asserting α) >>= rest) = .error message := rfl

/-- A computation with an assertion in front succeeds exactly when the assertion holds and the
rest succeeds. -/
theorem lwipAssert_bind_ok {α : Type} {message : String} {holds : Prop} [Decidable holds]
    {rest : Unit → Asserting α} {result : α} :
    (lwipAssert message holds >>= rest) = .ok result ↔ holds ∧ rest () = .ok result := by
  by_cases h : holds <;> simp [lwipAssert, h, bind, Except.bind]

/-- A sequence of two computations succeeds exactly when both do. -/
theorem bind_ok {α β : Type} {first : Asserting α} {rest : α → Asserting β} {result : β} :
    (first >>= rest) = .ok result ↔ ∃ middle, first = .ok middle ∧ rest middle = .ok result := by
  cases first <;> simp [bind, Except.bind]

end Lwip
