import Lwip.Core.Snmp

/-!
# The next object identifier

`snmp_oid_compare` decides the lexicographic order, in which the front of an identifier comes
before it. So the search keeps the first one behind its start of all it has been offered, in
whatever order they come, and an identifier whose front is refused would be refused as a whole.
-/

namespace Lwip.Snmp

open Overwrite List

variable {R : Type} {a b start : Oid} {c : Oid × R} {seen candidates : List (Oid × R)} {max : Nat}
  {s : SnmpNextOidState R}

/-! ## The order -/

theorem snmpOidCompare_eq (a b : Oid) :
    snmpOidCompare a b = if a < b then -1 else if b < a then 1 else 0 := by
  induction a generalizing b with
  | nil => cases b <;> simp [snmpOidCompare]
  | cons x a ih =>
    cases b with
    | nil => simp [snmpOidCompare]
    | cons y b =>
      rw [snmpOidCompare, ih]
      simp only [cons_lt_cons_iff]
      rcases Std.lt_trichotomy x y with less | rfl | greater
      · simp [less]
      · simp
      · simp [greater, UInt32.lt_asymm greater, (UInt32.ne_of_lt greater).symm]

theorem snmpOidCompare_pos : snmpOidCompare a b > 0 ↔ b < a := by
  rw [snmpOidCompare_eq]
  split
  · rename_i less
    simp [List.lt_asymm less]
  · split <;> simp [*]

theorem snmpOidCompare_neg : snmpOidCompare a b < 0 ↔ a < b := by
  rw [snmpOidCompare_eq]
  split
  · simp [*]
  · split <;> simp [*]

/-- What has a lower front is lower. -/
theorem append_lt_of_lt_take (lower : a < b.take a.length) (rest : Oid) : a ++ rest < b := by
  induction a generalizing b with
  | nil => simp at lower
  | cons x a ih =>
    cases b with
    | nil => simp at lower
    | cons y b =>
      rw [length_cons, take_succ_cons, cons_lt_cons_iff] at lower
      rw [cons_append, cons_lt_cons_iff]
      exact lower.imp_right fun same => ⟨same.1, ih same.2⟩

/-! ## The search -/

/-- The first candidate behind `start`. -/
def IsNext (start : Oid) (candidates : List (Oid × R)) (next : Oid × R) : Prop :=
  next ∈ candidates ∧ start < next.1 ∧ ∀ c ∈ candidates, start < c.1 → next.1 ≤ c.1

/-- A search among candidates has come to its result. -/
def Finds (start : Oid) (candidates : List (Oid × R)) (s : SnmpNextOidState R) : Prop :=
  (s.status = .noMatch ∧ ∀ c ∈ candidates, ¬start < c.1) ∨
    (s.status = .success ∧ IsNext start candidates (s.closest, s.reference))

/-- A search that has been offered some candidates. -/
structure Searched (start : Oid) (max : Nat) (seen : List (Oid × R)) (s : SnmpNextOidState R) :
    Prop where
  begins : s.startOid = start
  limit : s.nextOidMaxLen = max
  room : max ≤ s.nextOid.length
  finds : Finds start seen s

theorem Searched.check (searched : Searched start max seen s) (fits : c.1.length ≤ max) :
    Searched start max (seen ++ [c]) (snmpNextOidCheck s c.1 c.2).2 := by
  obtain ⟨rfl, rfl, room, finds⟩ := searched
  simp only [snmpNextOidCheck, snmpOidCompare_pos, snmpOidCompare_neg, if_pos fits]
  split
  · rename_i closer
    have inside : 0 + c.1.length ≤ s.nextOid.length := by omega
    have own : (overwrite s.nextOid 0 c.1).take c.1.length = c.1 := by simp [overwrite]
    refine ⟨rfl, rfl, by rw [length_overwrite inside]; exact room, .inr ⟨rfl, ?_⟩⟩
    rw [SnmpNextOidState.closest, own]
    refine ⟨mem_append_right seen (mem_singleton_self c), closer.2.1, ?_⟩
    refine forall_mem_append.mpr ⟨fun other before behind => ?_, ?_⟩
    · rcases finds with ⟨_, none⟩ | ⟨status, _, _, least⟩
      · exact absurd behind (none other before)
      · have less := closer.2.2.resolve_left (by simp [status])
        exact fun ahead => least other before behind (List.lt_trans ahead less)
    · exact forall_mem_singleton.mpr fun _ => List.le_refl c.1
  · rename_i farther
    refine ⟨rfl, rfl, room, ?_⟩
    rcases finds with ⟨status, none⟩ | ⟨status, member, behind, least⟩
    · refine .inl ⟨status, forall_mem_append.mpr ⟨none, forall_mem_singleton.mpr ?_⟩⟩
      exact fun behind => farther ⟨by simp [status], behind, .inl status⟩
    · refine .inr ⟨status, mem_append_left _ member, behind, forall_mem_append.mpr ⟨least, ?_⟩⟩
      exact forall_mem_singleton.mpr fun behind less =>
        farther ⟨by simp [status], behind, .inr less⟩

/-- The candidates are offered one after the other. -/
def checks (s : SnmpNextOidState R) (candidates : List (Oid × R)) : SnmpNextOidState R :=
  candidates.foldl (fun s c => (snmpNextOidCheck s c.1 c.2).2) s

theorem Searched.checks (searched : Searched start max seen s)
    (fit : ∀ c ∈ candidates, c.1.length ≤ max) :
    Searched start max (seen ++ candidates) (checks s candidates) := by
  induction candidates generalizing seen s with
  | nil => rwa [append_nil]
  | cons c candidates ih =>
    obtain ⟨first, rest⟩ := forall_mem_cons.mp fit
    rw [append_cons]
    exact ih (searched.check first) rest

/-- The front of an identifier that is taken is not refused. -/
theorem snmpNextOidPrecheck_front {oid rest : Oid} {r : R}
    (taken : (snmpNextOidCheck s (oid ++ rest) r).1 ≠ 0) : snmpNextOidPrecheck s oid = 1 := by
  simp only [snmpNextOidCheck, snmpOidCompare_pos, snmpOidCompare_neg] at taken
  split at taken
  · rename_i closer
    obtain ⟨usable, behind, close⟩ := closer
    have front : s.startOid.take (if oid.length < s.startOid.length then oid.length
        else s.startOid.length) = s.startOid.take oid.length := by
      split
      · rfl
      · rw [take_length, take_of_length_le (by omega)]
    refine if_pos ⟨usable, Int.not_lt.mp fun less => ?_, close.imp_right fun less => ?_⟩
    · rw [snmpOidCompare_neg, front] at less
      exact List.lt_asymm behind (append_lt_of_lt_take less rest)
    · exact snmpOidCompare_neg.mpr (List.lt_of_le_of_lt List.le_append_left less)
  · exact absurd rfl taken

/-- Candidates that fit may be offered in any order: the first one behind the start is found. No
front of an identifier that would be taken is refused. -/
theorem snmp_next_oid_least (state : SnmpNextOidState R) (start : Oid) (buf : List UInt32)
    (max : Nat) (room : max ≤ buf.length) (candidates : List (Oid × R))
    (fit : ∀ c ∈ candidates, c.1.length ≤ max) :
    Finds start candidates (checks (snmpNextOidInit state start buf max) candidates) ∧
      ∀ (s : SnmpNextOidState R) (oid rest : Oid) (r : R),
        (snmpNextOidCheck s (oid ++ rest) r).1 ≠ 0 → snmpNextOidPrecheck s oid ≠ 0 := by
  have begun : Searched start max [] (snmpNextOidInit state start buf max) :=
    ⟨rfl, rfl, room, .inl ⟨rfl, forall_mem_nil _⟩⟩
  refine ⟨(begun.checks fit).finds, fun s oid rest r taken => ?_⟩
  rw [snmpNextOidPrecheck_front taken]
  exact Nat.one_ne_zero

/-- Some candidates, the last one of them first. -/
def rows : List (Oid × Nat) := [([3], 0), ([2, 5], 1), ([1], 2)]

/-- A search behind 2. -/
def behindTwo : SnmpNextOidState Nat :=
  checks (snmpNextOidInit ⟨[], [], 0, 0, .noMatch, 0⟩ [2] [0, 0] 2) rows

/-- The theorem at three candidates. -/
theorem snmp_next_oid_least_rows : behindTwo.closest = [2, 5] ∧ Finds [2] rows behindTwo :=
  ⟨by decide, (snmp_next_oid_least _ _ _ _ (by decide) _ (by decide)).1⟩

end Lwip.Snmp
