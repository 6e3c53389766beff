import Lorebook.Bytes
import Lorebook.Binary64

set_option autoImplicit false

/-!
Decimal texts of double-precision numbers: the number a decimal stands for, the shortest decimal
that stands for a number, and how it is laid out.
-/

namespace Lorebook.Binary64

def decimalQuotient (m : Nat) (e : Int) : Nat × Nat :=
  if 0 ≤ e then (m * Nat.pow 10 e.toNat, 1) else (m, Nat.pow 10 (-e).toNat)

/-- Beyond these powers of ten every number is infinite, or zero. -/
def decimalReach : Int := 400

def ofDecimal? (negative : Bool) (m : Nat) (e : Int) : Option Binary64 :=
  if m = 0 then some (ofMagnitude negative 0)
  else
    let size := e + (Bytes.ofNat m).length
    if decimalReach < size then none
    else if size < -decimalReach then some (ofMagnitude negative 0)
    else
      let (n, d) := decimalQuotient m e
      nearest? negative n d

def leadingZeros : Nat → Nat → Nat → Nat
  | 0, _, _ => 0
  | fuel + 1, n, d => if n * 10 < d then leadingZeros fuel (n * 10) d + 1 else 0

/-- The power of ten just above `n / d`. -/
def decimalPoint (n d : Nat) : Int :=
  if d ≤ n then (Bytes.ofNat (n / d)).length else -(leadingZeros decimalReach.toNat n d : Int)

/-- Of the two multiples of `10^e` around `n / d` the one that reads back as `m`; of two the
nearer, of two equally near the even one. -/
def onGrid? (m n d : Nat) (e : Int) : Option Nat :=
  let (a, b) := if 0 ≤ e then (n, d * Nat.pow 10 e.toNat) else (n * Nat.pow 10 (-e).toNat, d)
  let low := a / b
  let readsBack (c : Nat) : Bool :=
    let (n', d') := decimalQuotient c e
    nearestMagnitude n' d' == m
  match readsBack low, readsBack (low + 1) with
  | false, false => none
  | true, false => some low
  | false, true => some (low + 1)
  | true, true => some (roundDiv a b)

/-- The first of the grids with `k`, `k + 1`, … digits on which some decimal reads back; the given
decimal if none of `fuel` grids has one. -/
def firstGrid (m n d : Nat) (point : Int) (otherwise : Nat × Int) : Nat → Nat → Nat × Int
  | 0, _ => otherwise
  | fuel + 1, k =>
    match onGrid? m n d (point - k) with
    | some c => (c, point - k)
    | none => firstGrid m n d point otherwise fuel (k + 1)

def quotient (d : Binary64) : Nat × Nat :=
  if 0 ≤ d.exponent then (d.significand * Nat.pow 2 d.exponent.toNat, 1)
  else (d.significand, Nat.pow 2 (-d.exponent).toNat)

def exactDecimal (d : Binary64) : Nat × Int :=
  if 0 ≤ d.exponent then (d.significand * Nat.pow 2 d.exponent.toNat, 0)
  else (d.significand * Nat.pow 5 (-d.exponent).toNat, d.exponent)

/-- A decimal `m · 10^e` with as few digits as possible that stands for the magnitude of a finite
number other than zero. Seventeen digits always suffice. -/
def shortest (d : Binary64) : Nat × Int :=
  let (n, q) := d.quotient
  firstGrid d.magnitude n q (decimalPoint n q) d.exactDecimal 17 1

def withoutZeros (digits : Bytes) : Bytes := Bytes.dropEnding (· == 48) digits

def zeros (n : Nat) : Bytes := List.replicate n 48

def exponentText (e : Int) : Bytes :=
  let digits := Bytes.ofNat e.natAbs
  Bytes.ofChar (if e < 0 then '-' else '+') ::
    if digits.length < 2 then 48 :: digits else digits

/-- Lays out `0.digits · 10^point`: positionally for the exponents -3 to 15, else with one digit
before the point and an exponent. -/
def layout (digits : Bytes) (point : Int) : Bytes :=
  let k : Int := digits.length
  if k ≤ point ∧ point ≤ 15 then digits ++ zeros (point - k).toNat ++ lit ".0"
  else if 0 < point ∧ point ≤ 15 then digits.take point.toNat ++ lit "." ++ digits.drop point.toNat
  else if -4 < point ∧ point ≤ 0 then lit "0." ++ zeros (-point).toNat ++ digits
  else
    digits.take 1 ++ (if k ≤ 1 then [] else lit "." ++ digits.drop 1)
      ++ lit "e" ++ exponentText (point - 1)

def text (d : Binary64) : Bytes :=
  let sign := if d.isNegative then lit "-" else []
  if d.magnitude = 0 then sign ++ lit "0.0"
  else
    let (m, e) := d.shortest
    let digits := Bytes.ofNat m
    sign ++ layout (withoutZeros digits) (e + digits.length)

end Lorebook.Binary64
