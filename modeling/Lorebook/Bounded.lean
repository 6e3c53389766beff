set_option autoImplicit false

/-!
The signed 64-bit range, in which message clocks, token counts and orders live. Sums are either
pinned to the range (`add`) or taken modulo `2^64` (`wrap`).
-/

namespace Lorebook.Bounded

def max : Int := 9223372036854775807

def min : Int := -9223372036854775808

def clamp (n : Int) : Int := if n < min then min else if max < n then max else n

def add (a b : Int) : Int := clamp (a + b)

/-- The integer of the range that is congruent to `n` modulo `2^64`. -/
def wrap (n : Int) : Int := n.bmod 18446744073709551616

def wrap32 (n : Int) : Int := n.bmod 4294967296

theorem clamp_of_mem {n : Int} (lo : min ≤ n) (hi : n ≤ max) : clamp n = n := by
  unfold clamp; split
  · omega
  · split <;> omega

theorem min_le_clamp (n : Int) : min ≤ clamp n := by
  unfold clamp min max; split
  · omega
  · split <;> omega

theorem clamp_le_max (n : Int) : clamp n ≤ max := by
  unfold clamp min max; split
  · omega
  · split <;> omega

theorem wrap_of_mem {n : Int} (lo : min ≤ n) (hi : n ≤ max) : wrap n = n := by
  unfold min at lo; unfold max at hi
  exact Int.bmod_eq_of_le (by omega) (by omega)

end Lorebook.Bounded
