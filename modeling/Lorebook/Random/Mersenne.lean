import Lorebook.Random

set_option autoImplicit false

/-!
The 64-bit Mersenne twister: a state of 312 words that is renewed as a whole after every 312
outputs. A draw is the double nearest to an output, divided by `2^64`.
-/

namespace Lorebook.Mersenne

def size : Nat := 312

def offset : Nat := 156

def seedWords (seed : UInt64) : Nat → List UInt64
  | 0 => [seed]
  | n + 1 =>
    match seedWords seed n with
    | x :: xs =>
      ((6364136223846793005 : UInt64) * (x ^^^ (x >>> 62)) + UInt64.ofNat (n + 1)) :: x :: xs
    | [] => []

def seeded (seed : UInt64) : Array UInt64 := (seedWords seed (size - 1)).reverse.toArray

def word (state : Array UInt64) (i : Nat) : UInt64 := state.getD (i % size) 0

/-- Renews word `i` from itself, its neighbour and the word half a state further on. -/
def renewWord (state : Array UInt64) (i : Nat) : Array UInt64 :=
  let y := (word state i &&& 0xFFFFFFFF80000000) ||| (word state (i + 1) &&& 0x7FFFFFFF)
  let mixed := word state (i + offset) ^^^ (y >>> 1)
  state.setIfInBounds i (if y &&& 1 == 0 then mixed else mixed ^^^ 0xB5026F5AA96619E9)

def renew (state : Array UInt64) : Array UInt64 := (List.range size).foldl renewWord state

def block (state : Array UInt64) : Nat → Array UInt64
  | 0 => state
  | n + 1 => renew (block state n)

def temper (y : UInt64) : UInt64 :=
  let y := y ^^^ ((y >>> 29) &&& 0x5555555555555555)
  let y := y ^^^ ((y <<< 17) &&& 0x71D67FFFEDA60000)
  let y := y ^^^ ((y <<< 37) &&& 0xFFF7EEE000000000)
  y ^^^ (y >>> 43)

def unit (y : UInt64) : Float :=
  let x := y.toFloat / 18446744073709551616.0
  if x < 1.0 then x else Float.ofBits 0x3FEFFFFFFFFFFFFF

def draws (seed : UInt64) : Nat → Float :=
  let first := renew (seeded seed)
  fun n => unit (temper (word (block first (n / size)) (n % size)))

end Lorebook.Mersenne

namespace Lorebook.Random

def ofSeed (seed : UInt64) : Random := ofStream (Mersenne.draws seed)

end Lorebook.Random
