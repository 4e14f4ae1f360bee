import Lwip.Base.Overwrite

/-!
# SNMP agent

The search for the next object identifier of `apps/snmp/snmp_core.c`.
-/

namespace Lwip.Snmp

open Overwrite

variable {R : Type}

/-- An object identifier: the `oid_len` numbers at its pointer. -/
abbrev Oid := List UInt32

/-- `snmp_oid_compare`. -/
def snmpOidCompare : Oid → Oid → Int
  | x :: oid1, y :: oid2 => if x < y then -1 else if x > y then 1 else snmpOidCompare oid1 oid2
  -- the common part of both is equal
  | oid1, oid2 =>
    if oid1.length < oid2.length then -1 else if oid1.length > oid2.length then 1 else 0

/-- `snmp_next_oid_status_t`. -/
inductive SnmpNextOidStatus where
  | success
  | noMatch
  | bufToSmall
  deriving DecidableEq, Repr

/-- `struct snmp_next_oid_state`. -/
structure SnmpNextOidState (R : Type) where
  startOid : Oid
  /-- The buffer for the result. -/
  nextOid : List UInt32
  nextOidLen : Nat
  nextOidMaxLen : Nat
  status : SnmpNextOidStatus
  reference : R

/-- The closest one up to now. -/
def SnmpNextOidState.closest (state : SnmpNextOidState R) : Oid :=
  state.nextOid.take state.nextOidLen

/-- `snmp_next_oid_init`. -/
def snmpNextOidInit (state : SnmpNextOidState R) (startOid : Oid) (nextOidBuf : List UInt32)
    (nextOidMaxLen : Nat) : SnmpNextOidState R :=
  { state with
    startOid, nextOid := nextOidBuf, nextOidLen := 0, nextOidMaxLen, status := .noMatch }

/-- `snmp_next_oid_precheck`. -/
def snmpNextOidPrecheck (state : SnmpNextOidState R) (oid : Oid) : Nat :=
  let startOidLen :=
    if oid.length < state.startOid.length then oid.length else state.startOid.length
  if state.status ≠ .bufToSmall ∧ snmpOidCompare oid (state.startOid.take startOidLen) ≥ 0 ∧
      (state.status = .noMatch ∨ snmpOidCompare oid state.closest < 0) then 1
  else 0

/-- `snmp_next_oid_check`. -/
def snmpNextOidCheck (state : SnmpNextOidState R) (oid : Oid) (reference : R) :
    Nat × SnmpNextOidState R :=
  -- a failure is not overwritten
  if state.status ≠ .bufToSmall ∧ snmpOidCompare oid state.startOid > 0 ∧
      (state.status = .noMatch ∨ snmpOidCompare oid state.closest < 0) then
    if oid.length ≤ state.nextOidMaxLen then
      (1, { state with
        nextOid := overwrite state.nextOid 0 oid, nextOidLen := oid.length, status := .success
        reference })
    else (0, { state with status := .bufToSmall })
  else (0, state)

end Lwip.Snmp
