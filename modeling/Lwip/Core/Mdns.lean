import Lwip.Base.Overwrite
import Lwip.Core.Dns

/-!
# Multicast DNS

Domain names of `apps/mdns/mdns.c`, and `lwip_strnicmp` of `core/def.c`. A string is the memory from
its pointer on, as in the DNS client.
-/

namespace Lwip.Mdns

open Dns Overwrite

/-! ## Strings -/

/-- The comparison of two characters in `lwip_strnicmp`: whether it returns 1. -/
def strnicmpDiffers (c1 c2 : UInt8) : Bool :=
  if c1 = c2 then false
  else
    let c1Upc := c1 ||| 0x20
    if 97 ≤ charToInt c1Upc ∧ charToInt c1Upc ≤ 122 then c1Upc ≠ c2 ||| 0x20 else true

/-- `lwip_strnicmp`. The counter is tested behind the comparison. -/
def lwipStrnicmp : List UInt8 → List UInt8 → Nat → Asserting Nat
  | c1 :: str1, c2 :: str2, len =>
    if strnicmpDiffers c1 c2 then .ok 1
    else if len ≠ 0 ∧ c1 ≠ 0 then lwipStrnicmp str1 str2 (len - 1)
    else .ok 0
  | _, _, _ => .error "lwip_strnicmp: read behind a string"

/-! ## Domains -/

def mdnsLabelMaxlen : Nat := 63

def mdnsDomainMaxlen : Nat := 256

/-- `struct mdns_domain`, as far as it is compared. -/
structure MdnsDomain where
  name : List UInt8
  /-- How much of it is in use, the terminating zero included. -/
  length : Nat
  size : name.length = mdnsDomainMaxlen

/-- A domain that has been set to zero. -/
def mdnsDomainZero : MdnsDomain where
  name := List.replicate mdnsDomainMaxlen 0
  length := 0
  size := List.length_replicate

/-- `mdns_domain_add_label` with the bytes at `label`. -/
def mdnsDomainAddLabel (domain : MdnsDomain) (label : List UInt8) : Err × MdnsDomain :=
  if label.length > mdnsLabelMaxlen then (.val, domain)
  else if long : label.length > 0 ∧ 1 + label.length + domain.length ≥ mdnsDomainMaxlen then
    (.val, domain)
  else if full : label.length = 0 ∧ 1 + domain.length > mdnsDomainMaxlen then (.val, domain)
  else
    (.ok, {
      name := overwrite domain.name domain.length (UInt8.ofNat label.length :: label)
      length := domain.length + 1 + label.length
      size := by
        have size := domain.size
        rw [length_overwrite]
        · exact size
        · rw [List.length_cons]
          omega })

/-- A domain with these labels, if the builder accepts all of them. -/
def mdnsDomainOf (labels : List (List UInt8)) : Option MdnsDomain :=
  labels.foldlM (fun domain label =>
    match mdnsDomainAddLabel domain label with
    | (.ok, domain) => some domain
    | _ => none) mdnsDomainZero

/-- The loop of `mdns_domain_eq`; `left` is the number of bytes between `ptra` and the end of the
name. Each pass moves the pointers forward. -/
def mdnsDomainEqLoop : Nat → List UInt8 → List UInt8 → Nat → Asserting Nat
  | fuel + 1, ca :: ptra, cb :: ptrb, left =>
    if ca ≠ 0 ∧ cb ≠ 0 ∧ 0 < left then
      if ca ≠ cb then .ok 0
      else do
        let res ← lwipStrnicmp ptra ptrb ca.toNat
        if res ≠ 0 then .ok 0
        else mdnsDomainEqLoop fuel (ptra.drop ca.toNat) (ptrb.drop ca.toNat) (left - (1 + ca.toNat))
    else if ca ≠ cb ∧ 0 < left then .ok 0
    else .ok 1
  | 0, _, _, _ => .error "mdns_domain_eq: no end of the loop"
  | _, _, _, _ => .error "mdns_domain_eq: read behind the name"

def mdnsDomainEq (a b : MdnsDomain) : Asserting Nat :=
  if a.length ≠ b.length then .ok 0
  else mdnsDomainEqLoop (mdnsDomainMaxlen + 1) a.name b.name a.length

end Lwip.Mdns
