import Plo.Lib.Types

/-!
Kinds of characters, and numbers read from strings.
-/
namespace Plo.Lib

def islower (c : UInt8) : Bool := c ≥ 0x61 && c ≤ 0x7a
def isupper (c : UInt8) : Bool := c ≥ 0x41 && c ≤ 0x5a
def isalpha (c : UInt8) : Bool := islower c || isupper c
def isdigit (c : UInt8) : Bool := c ≥ 0x30 && c ≤ 0x39
def isalnum (c : UInt8) : Bool := islower c || isupper c || isdigit c

section
variable {w : Nat}

/-- The value of a digit; letters of either case follow the nine. -/
def digitValue (c : UInt8) : Nat :=
  let t := c.toNat - 0x30
  if t > 9 then (c ||| 0x20).toNat - 0x61 + 10 else t

/-- The loop of `lib_strtoul`: the number, and the string behind its digits. -/
def strtoulDigits (base : Nat) : BitVec w → List UInt8 → BitVec w × List UInt8
  | v, [] => (v, [])
  | v, c :: cs =>
    if isdigit c || isalpha c then
      if digitValue c ≥ base then (v, c :: cs)
      else strtoulDigits base (v * BitVec.ofNat w base + BitVec.ofNat w (digitValue c)) cs
    else (v, c :: cs)

def strtoul (nptr : CString) (base : Nat) : BitVec w × List UInt8 :=
  if (base = 16 ∨ base = 0) ∧ nptr.bytes.getD 0 0 = 0x30 ∧ nptr.bytes.getD 1 0 ||| 0x20 = 0x78 then
    strtoulDigits 16 0 (nptr.bytes.drop 2)
  else if base = 0 ∧ nptr.bytes.getD 0 0 = 0x30 then strtoulDigits 8 0 nptr.bytes
  else if base = 0 then strtoulDigits 10 0 nptr.bytes
  else strtoulDigits base 0 nptr.bytes

def strtol (nptr : CString) (base : Nat) : BitVec w × List UInt8 :=
  if nptr.bytes.head? = some '-'.toUInt8 then
    let rest : CString := ⟨nptr.bytes.tail, fun h => nptr.noNul (List.mem_of_mem_tail h)⟩
    match strtoul rest base with
    | (v, endptr) => (-v, endptr)
  else strtoul nptr base

end

end Plo.Lib
