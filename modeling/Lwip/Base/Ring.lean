import Mathlib.Data.List.Rotate
import Mathlib.Data.Nat.ModEq

/-!
# Rings

A list of slots that is written and read around its end. The occupied slots are given by the
first of them and their number; read in order they are the contents.
-/

namespace Ring

open List

variable {α : Type} {count : Nat} (mem : List α)

/-- The values of `count` slots from `start` on, around the end of the memory. -/
def contents (mem : List α) (start count : Nat) : List α := (mem.rotate start).take count

/-- There are as many values as occupied slots. -/
theorem length_contents (start : Nat) (fits : count ≤ mem.length) :
    (contents mem start count).length = count := by
  rw [contents, length_take, length_rotate, Nat.min_eq_left fits]

/-- No slots have no contents. -/
@[simp] theorem contents_zero (start : Nat) : contents mem start 0 = [] := take_zero

/-- The first slot is counted around the end. -/
theorem contents_mod (start count : Nat) :
    contents mem (start % mem.length) count = contents mem start count := by
  rw [contents, contents, rotate_mod]

/-- The value at a place of the contents is that of its slot. -/
theorem getElem?_contents (start : Nat) {k : Nat} (inside : k < count) (fits : count ≤ mem.length) :
    (contents mem start count)[k]? = mem[(k + start) % mem.length]? := by
  rw [contents, getElem?_take_of_lt inside, getElem?_rotate (by omega)]

/-- Slots outside of the contents may be written. -/
theorem contents_set_outside (start : Nat) {k : Nat} (value : α) (outside : count ≤ k)
    (inside : k < mem.length) :
    contents (mem.set ((start + k) % mem.length) value) start count =
      contents mem start count := by
  apply ext_getElem?
  intro j
  by_cases occupied : j < count
  · have length : (mem.set ((start + k) % mem.length) value).length = mem.length := length_set
    rw [getElem?_contents _ _ occupied (by omega), getElem?_contents _ _ occupied (by omega),
      length, getElem?_set_ne]
    -- two places less than a whole turn apart are different slots
    intro same
    have near : (start + k) % mem.length = (start + j) % mem.length := by
      rw [same, Nat.add_comm]
    have remainder := Nat.ModEq.add_left_cancel' start near
    rw [Nat.ModEq, Nat.mod_eq_of_lt inside, Nat.mod_eq_of_lt (by omega)] at remainder
    omega
  · rw [getElem?_eq_none, getElem?_eq_none]
    · rw [length_contents _ _ (by omega)]
      omega
    · rw [length_contents _ _ (by rw [length_set]; omega)]
      omega

/-- One more slot gives one more value. -/
theorem contents_succ (start : Nat) (room : count < mem.length) {value : α}
    (slot : mem[(start + count) % mem.length]? = some value) :
    contents mem start (count + 1) = contents mem start count ++ [value] := by
  have last : (mem.rotate start)[count]? = some value := by
    rw [getElem?_rotate room, Nat.add_comm, slot]
  rw [contents, contents, take_add_one, last, Option.toList_some]

/-- A value written into the slot behind the contents is appended to them. -/
theorem contents_push (start : Nat) (room : count < mem.length) (value : α) :
    contents (mem.set ((start + count) % mem.length) value) start (count + 1) =
      contents mem start count ++ [value] := by
  have length : (mem.set ((start + count) % mem.length) value).length = mem.length := length_set
  have slot : (mem.set ((start + count) % mem.length) value)[(start + count) %
      (mem.set ((start + count) % mem.length) value).length]? = some value := by
    rw [length, getElem?_set_self (Nat.mod_lt _ (by omega))]
  rw [contents_succ _ _ (by omega) slot, contents_set_outside _ _ _ (Nat.le_refl count) room]

/-- The first value of the contents is in the first slot; the others begin behind it. -/
theorem contents_pop {start : Nat} (room : count < mem.length) (valid : start < mem.length) :
    contents mem start (count + 1) = mem[start] :: contents mem (start + 1) count := by
  have first : (mem.rotate start)[0]? = some mem[start] := by
    rw [getElem?_rotate (by omega), Nat.zero_add, Nat.mod_eq_of_lt valid, getElem?_eq_getElem valid]
  cases rotated : mem.rotate start with
  | nil => simp [rotated] at first
  | cons head rest =>
    rw [rotated, getElem?_cons_zero, Option.some.injEq] at first
    have turned : mem.rotate (start + 1) = rest ++ [head] := by
      rw [← rotate_rotate, rotated, rotate_cons_succ, rotate_zero]
    have size : rest.length + 1 = mem.length := by
      rw [← length_rotate mem start, rotated, length_cons]
    rw [contents, contents, rotated, turned, take_succ_cons, first,
      take_append_of_le_length (by omega)]

/-- The contents are cut where the slots are. -/
theorem contents_split (start : Nat) {first : Nat} (fewer : first ≤ count)
    (fits : count ≤ mem.length) :
    contents mem start count =
      contents mem start first ++ contents mem (start + first) (count - first) := by
  have turned : mem.rotate (start + first) =
      (mem.rotate start).drop first ++ (mem.rotate start).take first := by
    rw [← rotate_rotate, rotate_eq_drop_append_take]
    rw [length_rotate]
    omega
  have behind : contents mem (start + first) (count - first) =
      ((mem.rotate start).drop first).take (count - first) := by
    rw [contents, turned, take_append_of_le_length]
    rw [length_drop, length_rotate]
    omega
  rw [behind, contents, contents, ← take_add, Nat.add_sub_cancel' fewer]

/-- Contents that do not reach around the end of the memory. -/
theorem contents_straight (start : Nat) (straight : start % mem.length + count ≤ mem.length) :
    contents mem start count = (mem.drop (start % mem.length)).take count := by
  rw [← contents_mod, contents, rotate_eq_drop_append_take (by omega), take_append_of_le_length]
  rw [length_drop]
  omega

end Ring
