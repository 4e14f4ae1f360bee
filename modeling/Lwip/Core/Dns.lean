import Lwip.Core.Pbuf

/-!
# DNS client

`core/dns.c`. Strings are read through a pointer that may run off their end: a string is the
memory from its pointer on, and reading behind that memory is an error of the program.
-/

namespace Lwip.Dns

/-! ## Names -/

/-- A `char` of the port is signed. -/
def charToInt (c : UInt8) : Int := if c.toNat < 128 then c.toNat else (c.toNat : Int) - 256

/-- The inner loop of `dns_compare_name`: `n` characters of a label. `none` is the return of
0xFFFF. -/
def dnsCompareLabel (p : Chain) :
    Nat → List UInt8 → Nat → Asserting (Option (List UInt8 × Nat))
  | 0, query, responseOffset => .ok (some (query, responseOffset))
  | n + 1, query, responseOffset =>
    match pbufTryGetAt p responseOffset with
    | none => .ok none
    | some c =>
      match query with
      | [] => .error "dns_compare_name: read behind the query"
      | char :: query =>
        if charToInt char ≠ c.toNat then .ok none
        else dnsCompareLabel p n query (u16 (responseOffset + 1))

/-- The outer loop of `dns_compare_name`. Each pass moves the offset forward, so the fuel given
by `dnsCompareName` is enough. -/
def dnsCompareNameLoop (p : Chain) : Nat → List UInt8 → Nat → Asserting Nat
  | 0, _, _ => .error "dns_compare_name: no end of the loop"
  | fuel + 1, query, responseOffset =>
    match pbufTryGetAt p responseOffset with
    | none => .ok 0xFFFF
    | some n =>
      if n &&& 0xc0 = 0xc0 then .ok 0xFFFF
      else do
        match ← dnsCompareLabel p n.toNat query (u16 (responseOffset + 1)) with
        | none => .ok 0xFFFF
        | some (query, responseOffset) =>
          match pbufTryGetAt p responseOffset with
          | none => .ok 0xFFFF
          | some n =>
            if n ≠ 0 then dnsCompareNameLoop p fuel query.tail responseOffset
            else .ok (u16 (responseOffset + 1))

def dnsCompareName (query : List UInt8) (p : Chain) (startOffset : Nat) : Asserting Nat :=
  dnsCompareNameLoop p (p.totLen + 1) query startOffset

/-- The loop of `dns_skip_name`. Each pass moves the offset forward. -/
def dnsSkipNameLoop (p : Chain) : Nat → Nat → Asserting Nat
  | 0, _ => .error "dns_skip_name: no end of the loop"
  | fuel + 1, offset =>
    match pbufTryGetAt p offset with
    | none => .ok 0xFFFF
    | some n =>
      if n &&& 0xc0 = 0xc0 then .ok (u16 (u16 (offset + 1) + 1))
      else if p.totLen ≤ u16 (offset + 1) + n.toNat then .ok 0xFFFF
      else
        let offset := u16 (u16 (offset + 1) + n.toNat)
        match pbufTryGetAt p offset with
        | none => .ok 0xFFFF
        | some n => if n ≠ 0 then dnsSkipNameLoop p fuel offset else .ok (u16 (offset + 1))

def dnsSkipName (p : Chain) (queryIdx : Nat) : Asserting Nat :=
  dnsSkipNameLoop p (p.totLen + 1) queryIdx

end Lwip.Dns
