import Lorebook.Binary64

set_option autoImplicit false

/-!
Sources of numbers from 0 to 1, with the number of draws taken so far.
-/

namespace Lorebook

inductive Random where
  /-- A list of numbers over and over; the empty list gives zeros that count as no draws. -/
  | sequence (values : List Float) (taken : Nat)
  | stream (draw : Nat → Float) (taken : Nat)

namespace Random

def ofList (values : List Float) : Random := .sequence values 0

def ofStream (draw : Nat → Float) : Random := .stream draw 0

def next : Random → Float × Random
  | .sequence [] n => (0, .sequence [] n)
  | .sequence (v :: vs) n =>
    ((v :: vs).getD (n % (v :: vs).length) v, .sequence (v :: vs) (n + 1))
  | .stream draw n => (draw n, .stream draw (n + 1))

def drawn : Random → Nat
  | .sequence _ n => n
  | .stream _ n => n

def take (r : Random) : Nat → List Float × Random
  | 0 => ([], r)
  | n + 1 =>
    let (x, r) := r.next
    let (xs, r) := r.take n
    (x :: xs, r)

end Random
end Lorebook
