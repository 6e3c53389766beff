set_option autoImplicit false

/-!
Double-precision numbers as bit patterns, and rounding to them in exact integer arithmetic: a
finite number is `± significand · 2^exponent`, and `nearest` finds the one closest to a quotient.
-/

namespace Lorebook

structure Binary64 where
  bits : UInt64
  deriving DecidableEq, Repr

namespace Binary64

def hidden : Nat := 4503599627370496

def isNegative (d : Binary64) : Bool := 9223372036854775808 ≤ d.bits.toNat

def magnitude (d : Binary64) : Nat := d.bits.toNat % 9223372036854775808

def biased (d : Binary64) : Nat := d.magnitude / hidden

def fraction (d : Binary64) : Nat := d.magnitude % hidden

def isNaN (d : Binary64) : Bool := d.biased == 2047 && d.fraction != 0

def isFinite (d : Binary64) : Bool := d.biased < 2047

def significand (d : Binary64) : Nat :=
  if d.biased = 0 then d.fraction else hidden + d.fraction

def exponent (d : Binary64) : Int :=
  if d.biased = 0 then -1074 else (d.biased : Int) - 1075

def ofMagnitude (negative : Bool) (m : Nat) : Binary64 :=
  ⟨UInt64.ofNat (if negative then 9223372036854775808 + m else m)⟩

/-- The quotient rounded to the nearest integer, a half to the even one. -/
def roundDiv (n d : Nat) : Nat :=
  let q := n / d
  let r := n % d
  if 2 * r < d then q else if 2 * r > d then q + 1 else if q % 2 = 0 then q else q + 1

def scaled (n d : Nat) (e : Int) : Nat × Nat :=
  if 0 ≤ e then (n, d * Nat.pow 2 e.toNat) else (n * Nat.pow 2 (-e).toNat, d)

/-- The exponent at which `n / d` has a significand of 53 bits, and -1074 at least. -/
def exponentFor (n d : Nat) : Int :=
  let e : Int := (n.log2 : Int) - d.log2 - 52
  let (a, b) := scaled n d e
  let e := if a / b < hidden then e - 1 else e
  if e < -1074 then -1074 else e

/-- The magnitude bits of the number nearest to `n / d`, a tie going to the even significand. The
hidden bit, and the carry of a significand that rounds up to `2^53`, add one to the exponent. -/
def nearestMagnitude (n d : Nat) : Nat :=
  if n = 0 then 0
  else
    let e := exponentFor n d
    let (a, b) := scaled n d e
    (e + 1074).toNat * hidden + roundDiv a b

def nearest? (negative : Bool) (n d : Nat) : Option Binary64 :=
  let m := nearestMagnitude n d
  if m < 2047 * hidden then some (ofMagnitude negative m) else none

def truncated (d : Binary64) : Nat :=
  if 0 ≤ d.exponent then d.significand * Nat.pow 2 d.exponent.toNat
  else d.significand / Nat.pow 2 (-d.exponent).toNat

end Binary64
end Lorebook
