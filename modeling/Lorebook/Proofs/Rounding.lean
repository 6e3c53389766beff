import Lorebook.Binary64
import Mathlib.Algebra.Order.Field.Power
import Mathlib.Algebra.Order.Field.Rat
import Mathlib.Data.Int.Log
import Mathlib.Data.Rat.Floor
import Mathlib.Tactic.FieldSimp
import Mathlib.Tactic.Ring

set_option autoImplicit false

/-!
Rounding to doubles depends on the rounded number only, not on the quotient that it is given as, and
every finite double is what it rounds to itself.
-/

namespace Lorebook.Binary64

def ratio (n d : Nat) : ℚ := (n : ℚ) / d

section Quotient

variable {n d n' d' : Nat} {e : Int}

theorem ratio_pos (hn : 0 < n) (hd : 0 < d) : 0 < ratio n d := by
  unfold ratio
  positivity

theorem ratio_eq_iff (hd : 0 < d) (hd' : 0 < d') : ratio n d = ratio n' d' ↔ n * d' = n' * d := by
  have hd : (d : ℚ) ≠ 0 := by positivity
  have hd' : (d' : ℚ) ≠ 0 := by positivity
  rw [ratio, ratio, div_eq_div_iff hd hd']
  exact_mod_cast Iff.rfl

theorem lt_div_iff_ratio (hd : 0 < d) (q : Nat) : n / d < q ↔ ratio n d < q := by
  have hd' : (0 : ℚ) < d := by positivity
  rw [Nat.div_lt_iff_lt_mul hd, ratio, div_lt_iff₀ hd']
  exact_mod_cast Iff.rfl

theorem scaled_pos (hn : 0 < n) (hd : 0 < d) (e : Int) :
    0 < (scaled n d e).1 ∧ 0 < (scaled n d e).2 := by
  unfold scaled
  split
  · exact ⟨hn, Nat.mul_pos hd (Nat.pow_pos (by decide))⟩
  · exact ⟨Nat.mul_pos hn (Nat.pow_pos (by decide)), hd⟩

theorem ratio_scaled (hd : 0 < d) (e : Int) :
    ratio (scaled n d e).1 (scaled n d e).2 = ratio n d / 2 ^ e := by
  have hd' : (d : ℚ) ≠ 0 := by positivity
  unfold scaled ratio
  split
  · next he =>
    obtain ⟨k, rfl⟩ := Int.eq_ofNat_of_zero_le he
    simp only [Int.toNat_natCast, zpow_natCast, Nat.pow_eq, Nat.cast_mul,
      Nat.cast_pow, Nat.cast_ofNat]
    field_simp
  · next he =>
    obtain ⟨k, hk⟩ := Int.eq_ofNat_of_zero_le (show 0 ≤ -e by omega)
    have he' : e = -(k : Int) := by omega
    subst he'
    simp only [neg_neg, Int.toNat_natCast, zpow_neg, zpow_natCast, Nat.pow_eq, Nat.cast_mul,
      Nat.cast_pow, Nat.cast_ofNat]
    field_simp

theorem two_pow_log2_le (hn : 0 < n) : (2 : ℚ) ^ (n.log2 : Int) ≤ n ∧
    (n : ℚ) < 2 ^ ((n.log2 : Int) + 1) := by
  have hle : 2 ^ n.log2 ≤ n := Nat.log2_self_le (by omega)
  have hlt : n < 2 ^ (n.log2 + 1) := Nat.lt_log2_self
  constructor
  · rw [zpow_natCast]
    exact_mod_cast hle
  · have hcast : ((n.log2 : Int) + 1) = ((n.log2 + 1 : Nat) : Int) := by push_cast; rfl
    rw [hcast, zpow_natCast]
    exact_mod_cast hlt

/-- The exponent is that of the leading bit, but not below that of the least double. -/
theorem exponentFor_eq (hn : 0 < n) (hd : 0 < d) :
    exponentFor n d = max (Int.log 2 (ratio n d) - 52) (-1074) := by
  have hpos := ratio_pos hn hd
  have hd' : (0 : ℚ) < d := by positivity
  obtain ⟨hnl, hnu⟩ := two_pow_log2_le hn
  obtain ⟨hdl, hdu⟩ := two_pow_log2_le hd
  -- The first guess is right or one too high.
  have hlow : (2 : ℚ) ^ ((n.log2 : Int) - d.log2 - 1) < ratio n d := by
    rw [ratio, lt_div_iff₀ hd']
    calc (2 : ℚ) ^ ((n.log2 : Int) - d.log2 - 1) * d
        < 2 ^ ((n.log2 : Int) - d.log2 - 1) * 2 ^ ((d.log2 : Int) + 1) :=
          mul_lt_mul_of_pos_left hdu (by positivity)
      _ = 2 ^ (n.log2 : Int) := by
          rw [← zpow_add₀ (by norm_num)]
          congr 1
          omega
      _ ≤ n := hnl
  have hhigh : ratio n d < 2 ^ ((n.log2 : Int) - d.log2 + 1) := by
    rw [ratio, div_lt_iff₀ hd']
    calc (n : ℚ) < 2 ^ ((n.log2 : Int) + 1) := hnu
      _ = 2 ^ ((n.log2 : Int) - d.log2 + 1) * 2 ^ (d.log2 : Int) := by
          rw [← zpow_add₀ (by norm_num)]
          congr 1
          omega
      _ ≤ 2 ^ ((n.log2 : Int) - d.log2 + 1) * d := by gcongr
  have hlogl : (n.log2 : Int) - d.log2 - 1 ≤ Int.log 2 (ratio n d) :=
    (Int.zpow_le_iff_le_log (by decide) hpos).mp (by exact_mod_cast hlow.le)
  have hlogu : Int.log 2 (ratio n d) < (n.log2 : Int) - d.log2 + 1 :=
    (Int.lt_zpow_iff_log_lt (by decide) hpos).mp (by exact_mod_cast hhigh)
  have htest (e : Int) : (scaled n d e).1 / (scaled n d e).2 < hidden
      ↔ Int.log 2 (ratio n d) < e + 52 := by
    rw [lt_div_iff_ratio (scaled_pos hn hd e).2, ratio_scaled hd, div_lt_iff₀ (by positivity),
      ← Int.lt_zpow_iff_log_lt (by decide) hpos]
    have hhidden : (hidden : ℚ) * 2 ^ e = ((2 : Nat) : ℚ) ^ (e + 52) := by
      have hcast : (hidden : ℚ) = 2 ^ (52 : Int) := by
        norm_num [hidden]
      rw [hcast, Nat.cast_ofNat, ← zpow_add₀ (by norm_num), Int.add_comm]
    rw [hhidden]
  unfold exponentFor
  dsimp only
  split
  · next hlt =>
    rw [htest] at hlt
    split <;> omega
  · next hge =>
    rw [htest] at hge
    split <;> omega

theorem roundDiv_mul {k : Nat} (hk : 0 < k) (n d : Nat) :
    roundDiv (n * k) (d * k) = roundDiv n d := by
  unfold roundDiv
  dsimp only
  rw [Nat.mul_div_mul_right _ _ hk, Nat.mul_mod_mul_right]
  have hlt : 2 * (n % d * k) < d * k ↔ 2 * (n % d) < d := by
    rw [← Nat.mul_assoc]
    exact Nat.mul_lt_mul_right hk
  have hgt : 2 * (n % d * k) > d * k ↔ 2 * (n % d) > d := by
    rw [← Nat.mul_assoc]
    exact Nat.mul_lt_mul_right hk
  simp only [hlt, hgt]

theorem roundDiv_congr (hd : 0 < d) (hd' : 0 < d') (h : ratio n d = ratio n' d') :
    roundDiv n d = roundDiv n' d' := by
  have hmul := (ratio_eq_iff hd hd').mp h
  rw [← roundDiv_mul hd' n d, ← roundDiv_mul hd n' d', hmul, Nat.mul_comm d d']

theorem nearestMagnitude_congr (hd : 0 < d) (hd' : 0 < d') (h : ratio n d = ratio n' d') :
    nearestMagnitude n d = nearestMagnitude n' d' := by
  have hmul := (ratio_eq_iff hd hd').mp h
  by_cases hn : n = 0
  · have hn' : n' = 0 := by
      subst hn
      simpa [hd.ne'] using hmul.symm
    rw [hn, hn', nearestMagnitude, nearestMagnitude, if_pos rfl, if_pos rfl]
  · have hn' : n' ≠ 0 := by
      rintro rfl
      simp [hn, hd'.ne'] at hmul
    have hpos := Nat.pos_of_ne_zero hn
    have hpos' := Nat.pos_of_ne_zero hn'
    have he : exponentFor n d = exponentFor n' d' := by
      rw [exponentFor_eq hpos hd, exponentFor_eq hpos' hd', h]
    rw [nearestMagnitude, nearestMagnitude, if_neg hn, if_neg hn', he]
    dsimp only
    rw [roundDiv_congr (scaled_pos hpos hd _).2 (scaled_pos hpos' hd' _).2
      (by rw [ratio_scaled hd, ratio_scaled hd', h])]

theorem roundDiv_self_mul {k : Nat} (hk : 0 < k) (s : Nat) : roundDiv (s * k) k = s := by
  have hzero : 2 * (s * k % k) < k := by simpa using hk
  unfold roundDiv
  dsimp only
  rw [if_pos hzero, Nat.mul_div_cancel _ hk]

theorem nearestMagnitude_of_fits {s : Nat} {x : Int} (hn : 0 < n) (hd : 0 < d)
    (h : ratio n d = s * 2 ^ x) (hs : s < 2 * hidden) (hx : -1074 ≤ x)
    (hfull : hidden ≤ s ∨ x = -1074) :
    nearestMagnitude n d = (x + 1074).toNat * hidden + s := by
  have hpos := ratio_pos hn hd
  have hpow (k : Nat) (hk : (k : ℚ) = 2 ^ (52 : Int)) (j : Int) :
      (k : ℚ) * 2 ^ j = ((2 : Nat) : ℚ) ^ (j + 52) := by
    rw [hk, Nat.cast_ofNat, ← zpow_add₀ (by norm_num), Int.add_comm]
  have hhidden : (hidden : ℚ) = 2 ^ (52 : Int) := by norm_num [hidden]
  have hbelow : Int.log 2 (ratio n d) < x + 53 := by
    rw [← Int.lt_zpow_iff_log_lt (by decide) hpos, h]
    have hlt : (s : ℚ) < 2 * hidden := by exact_mod_cast hs
    calc (s : ℚ) * 2 ^ x < 2 * hidden * 2 ^ x := mul_lt_mul_of_pos_right hlt (by positivity)
      _ = hidden * 2 ^ (x + 1) := by
          rw [zpow_add₀ (by norm_num), zpow_one]
          ring
      _ = ((2 : Nat) : ℚ) ^ (x + 53) := by
          rw [hpow _ hhidden]
          congr 1
          omega
  have he : exponentFor n d = x := by
    rw [exponentFor_eq hn hd]
    rcases hfull with hfull | rfl
    · have habove : x + 52 ≤ Int.log 2 (ratio n d) := by
        rw [← Int.zpow_le_iff_le_log (by decide) hpos, h, ← hpow _ hhidden]
        have hle : (hidden : ℚ) ≤ s := by exact_mod_cast hfull
        gcongr
      omega
    · omega
  have hscaled := scaled_pos hn hd x
  have hround : roundDiv (scaled n d x).1 (scaled n d x).2 = s := by
    rw [← roundDiv_self_mul (Nat.one_pos) s]
    refine roundDiv_congr hscaled.2 Nat.one_pos ?_
    rw [ratio_scaled hd, h, ratio]
    have hne : (2 : ℚ) ^ x ≠ 0 := by positivity
    field_simp
    simp
  rw [nearestMagnitude, if_neg (by omega), he]
  dsimp only
  rw [hround]

theorem ratio_bounds (hn : 0 < n) (hd : 0 < d) (hm : nearestMagnitude n d ≠ 0)
    (hfin : nearestMagnitude n d < 2047 * hidden) :
    (2 : ℚ) ^ (-1075 : Int) ≤ ratio n d ∧ ratio n d < 2 ^ (1025 : Int) := by
  have hpos := ratio_pos hn hd
  have he := exponentFor_eq hn hd
  rw [nearestMagnitude, if_neg (by omega)] at hm hfin
  dsimp only at hm hfin
  have hupper : exponentFor n d ≤ 972 := by
    by_contra hgt
    have hnat : 2047 ≤ (exponentFor n d + 1074).toNat := by omega
    have hmul := Nat.mul_le_mul_right hidden hnat
    omega
  constructor
  · by_cases hlow : exponentFor n d = -1074
    · -- Half of the least double at least, else it would round to zero.
      by_contra hlt
      rw [hlow] at hm
      apply hm
      have hscaled := scaled_pos hn hd (-1074)
      have hhalf : ratio (scaled n d (-1074)).1 (scaled n d (-1074)).2 < 1 / 2 := by
        rw [ratio_scaled hd, div_lt_iff₀ (by positivity)]
        have hsplit : (2 : ℚ) ^ (-1075 : Int) = 1 / 2 * 2 ^ (-1074 : Int) := by
          rw [show (-1075 : Int) = -1 + -1074 from rfl, zpow_add₀ (by norm_num), zpow_neg_one]
          norm_num
        rw [← hsplit]
        exact not_le.mp hlt
      generalize scaled n d (-1074) = ab at hscaled hhalf
      obtain ⟨a, b⟩ := ab
      have hb : (0 : ℚ) < b := by exact_mod_cast hscaled.2
      have hab : 2 * a < b := by
        rw [ratio, div_lt_iff₀ hb] at hhalf
        have hq : (2 : ℚ) * a < b := by linarith
        exact_mod_cast hq
      have hdiv : a / b = 0 := Nat.div_eq_of_lt (by omega)
      have hmod : a % b = a := Nat.mod_eq_of_lt (by omega)
      simp [roundDiv, hdiv, hmod, hab]
    · have hlog : (-1075 : Int) ≤ Int.log 2 (ratio n d) := by omega
      exact_mod_cast (Int.zpow_le_iff_le_log (by decide) hpos).mpr hlog
  · have hlog : Int.log 2 (ratio n d) < 1025 := by omega
    exact_mod_cast (Int.lt_zpow_iff_log_lt (by decide) hpos).mpr hlog

end Quotient

section Double

variable {d : Binary64}

theorem magnitude_eq (d : Binary64) : d.magnitude = d.biased * hidden + d.fraction := by
  rw [biased, fraction, Nat.mul_comm, Nat.div_add_mod]

theorem fraction_lt (d : Binary64) : d.fraction < hidden := Nat.mod_lt _ (by decide)

theorem magnitude_lt (h : d.isFinite = true) : d.magnitude < 2047 * hidden := by
  have hb : d.biased < 2047 := by simpa [isFinite] using h
  have hf := fraction_lt d
  rw [magnitude_eq]
  unfold hidden at hf ⊢
  omega

theorem ofMagnitude_magnitude (d : Binary64) : ofMagnitude d.isNegative d.magnitude = d := by
  obtain ⟨bits⟩ := d
  have hbits := bits.toNat_lt
  simp only [ofMagnitude, isNegative, magnitude, decide_eq_true_eq]
  congr 1
  have heq : (if 9223372036854775808 ≤ bits.toNat then
      9223372036854775808 + bits.toNat % 9223372036854775808
      else bits.toNat % 9223372036854775808) = bits.toNat := by
    split <;> omega
  rw [heq, UInt64.ofNat_toNat]

theorem significand_pos (h : d.magnitude ≠ 0) : 0 < d.significand := by
  have heq := magnitude_eq d
  unfold significand
  split
  · next hb =>
    rw [hb] at heq
    omega
  · exact Nat.lt_of_lt_of_le (by decide) (Nat.le_add_right _ _)

/-- A finite double rounds to itself. -/
theorem nearestMagnitude_of_ratio {n m : Nat} (hn : 0 < n) (hm : 0 < m)
    (h : ratio n m = d.significand * 2 ^ d.exponent) : nearestMagnitude n m = d.magnitude := by
  have hf := fraction_lt d
  have heq := magnitude_eq d
  by_cases hb : d.biased = 0
  · have hs : d.significand = d.fraction := by simp [significand, hb]
    have hx : d.exponent = -1074 := by simp [exponent, hb]
    rw [hs, hx] at h
    rw [nearestMagnitude_of_fits hn hm h (by omega) (by omega) (.inr rfl), heq, hb]
    rfl
  · have hs : d.significand = hidden + d.fraction := by simp [significand, hb]
    have hx : d.exponent = (d.biased : Int) - 1075 := by simp [exponent, hb]
    rw [hs, hx] at h
    rw [nearestMagnitude_of_fits hn hm h (by omega) (by omega) (.inl (by omega)), heq]
    obtain ⟨b, hb'⟩ := Nat.exists_eq_succ_of_ne_zero hb
    have hnat : ((d.biased : Int) - 1075 + 1074).toNat = b := by omega
    rw [hnat, hb', Nat.succ_mul]
    omega

end Double
end Lorebook.Binary64
