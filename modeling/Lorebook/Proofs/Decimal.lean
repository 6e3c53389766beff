import Lorebook.Proofs.Digits
import Lorebook.Proofs.Rounding

set_option autoImplicit false

/-!
The decimal that is chosen for a double reads back as that double: it is looked for by reading back,
and the exact decimal stands in where nothing shorter is found.
-/

namespace Lorebook.Binary64

def decimal (m : Nat) (e : Int) : ℚ := m * 10 ^ e

section Decimal

variable {m n q : Nat} {e : Int}

theorem decimalQuotient_pos (hm : 0 < m) (e : Int) :
    0 < (decimalQuotient m e).1 ∧ 0 < (decimalQuotient m e).2 := by
  unfold decimalQuotient
  split
  · exact ⟨Nat.mul_pos hm (Nat.pow_pos (by decide)), Nat.one_pos⟩
  · exact ⟨hm, Nat.pow_pos (by decide)⟩

theorem ratio_decimalQuotient (m : Nat) (e : Int) :
    ratio (decimalQuotient m e).1 (decimalQuotient m e).2 = decimal m e := by
  unfold decimalQuotient ratio decimal
  split
  · next he =>
    obtain ⟨k, rfl⟩ := Int.eq_ofNat_of_zero_le he
    simp
  · next he =>
    obtain ⟨k, hk⟩ := Int.eq_ofNat_of_zero_le (show 0 ≤ -e by omega)
    have he' : e = -(k : Int) := by omega
    subst he'
    simp [div_eq_mul_inv]

theorem decimal_bounds (hm : m ≠ 0) (e : Int) :
    (10 : ℚ) ^ (e + (Bytes.ofNat m).length - 1) ≤ decimal m e ∧
      decimal m e < 10 ^ (e + (Bytes.ofNat m).length) := by
  have hlen : 0 < (Bytes.ofNat m).length := List.length_pos_of_ne_nil (Bytes.ofNat_ne_nil m)
  obtain ⟨k, hk⟩ := Nat.exists_eq_succ_of_ne_zero hlen.ne'
  have hlow := Bytes.pow_length_ofNat_le hm
  have hhigh := Bytes.lt_pow_length_ofNat m
  rw [hk, Nat.succ_sub_one] at hlow
  rw [hk] at hhigh ⊢
  have hlow' : (10 : ℚ) ^ k ≤ m := by exact_mod_cast hlow
  have hhigh' : (m : ℚ) < 10 ^ (k + 1) := by exact_mod_cast hhigh
  unfold decimal
  constructor
  · calc (10 : ℚ) ^ (e + (k.succ : Nat) - 1) = 10 ^ k * 10 ^ e := by
          rw [← zpow_natCast, ← zpow_add₀ (by norm_num)]
          congr 1
          omega
      _ ≤ m * 10 ^ e := by gcongr
  · calc (m : ℚ) * 10 ^ e < 10 ^ (k + 1) * 10 ^ e := mul_lt_mul_of_pos_right hhigh' (by positivity)
      _ = 10 ^ (e + (k.succ : Nat)) := by
          rw [← zpow_natCast, ← zpow_add₀ (by norm_num)]
          congr 1
          push_cast
          omega

theorem two_pow_le_ten_pow : (2 : ℚ) ^ (1200 : Int) ≤ 10 ^ (400 : Int) := by
  have height : (2 : ℚ) ^ (1200 : Int) = ((2 : ℚ) ^ (3 : Int)) ^ (400 : Int) := by
    rw [← zpow_mul]
    rfl
  rw [height]
  exact zpow_le_zpow_left₀ (by norm_num) (by positivity) (by norm_num)

/-- A decimal that rounds to a finite double other than zero is within reach. -/
theorem ofDecimal?_of_nearest (negative : Bool) (hm : m ≠ 0) {M : Nat}
    (h : nearestMagnitude (decimalQuotient m e).1 (decimalQuotient m e).2 = M) (hne : M ≠ 0)
    (hfin : M < 2047 * hidden) : ofDecimal? negative m e = some (ofMagnitude negative M) := by
  obtain ⟨hn, hd⟩ := decimalQuotient_pos (Nat.pos_of_ne_zero hm) e
  obtain ⟨hlow, hhigh⟩ := ratio_bounds hn hd (by rwa [h]) (by rwa [h])
  rw [ratio_decimalQuotient] at hlow hhigh
  obtain ⟨hl, hu⟩ := decimal_bounds hm e
  have hsize : e + (Bytes.ofNat m).length ≤ 400 := by
    have hlt : (10 : ℚ) ^ (e + (Bytes.ofNat m).length - 1) < 10 ^ (400 : Int) :=
      calc (10 : ℚ) ^ (e + (Bytes.ofNat m).length - 1) ≤ decimal m e := hl
        _ < 2 ^ (1025 : Int) := hhigh
        _ ≤ 2 ^ (1200 : Int) := zpow_le_zpow_right₀ (by norm_num) (by decide)
        _ ≤ 10 ^ (400 : Int) := two_pow_le_ten_pow
    have hexp := (zpow_lt_zpow_iff_right₀ (by norm_num)).mp hlt
    omega
  have hsize' : -400 ≤ e + (Bytes.ofNat m).length := by
    have hlt : (10 : ℚ) ^ (-400 : Int) < 10 ^ (e + (Bytes.ofNat m).length) :=
      calc (10 : ℚ) ^ (-400 : Int) ≤ 2 ^ (-1200 : Int) := by
            rw [zpow_neg, zpow_neg]
            exact inv_anti₀ (by positivity) two_pow_le_ten_pow
        _ ≤ 2 ^ (-1075 : Int) := zpow_le_zpow_right₀ (by norm_num) (by decide)
        _ ≤ decimal m e := hlow
        _ < 10 ^ (e + (Bytes.ofNat m).length) := hu
    have hexp := (zpow_lt_zpow_iff_right₀ (by norm_num)).mp hlt
    omega
  have hreach : decimalReach = 400 := rfl
  unfold ofDecimal? nearest?
  dsimp only
  rw [if_neg hm, if_neg (by omega), if_neg (by omega), h, if_pos hfin]

theorem roundDiv_cases (n d : Nat) : roundDiv n d = n / d ∨ roundDiv n d = n / d + 1 := by
  unfold roundDiv
  dsimp only
  split
  · exact .inl rfl
  · split
    · exact .inr rfl
    · split
      · exact .inl rfl
      · exact .inr rfl

/-- Whether the decimal `c · 10^e` stands for the double with magnitude bits `m`. -/
def ReadsBack (m c : Nat) (e : Int) : Prop :=
  nearestMagnitude (decimalQuotient c e).1 (decimalQuotient c e).2 = m

theorem onGrid?_readsBack {c : Nat} (h : onGrid? m n q e = some c) : ReadsBack m c e := by
  unfold onGrid? at h
  dsimp only at h
  generalize (if 0 ≤ e then (n, q * Nat.pow 10 e.toNat)
    else (n * Nat.pow 10 (-e).toNat, q)) = ab at h
  obtain ⟨a, b⟩ := ab
  dsimp only at h
  split at h
  · cases h
  · next hlow _ =>
    cases h
    exact beq_iff_eq.mp hlow
  · next _ hhigh =>
    cases h
    exact beq_iff_eq.mp hhigh
  · next hlow hhigh =>
    cases h
    rcases roundDiv_cases a b with hr | hr
    · rw [hr]
      exact beq_iff_eq.mp hlow
    · rw [hr]
      exact beq_iff_eq.mp hhigh

theorem firstGrid_readsBack {point : Int} {otherwise : Nat × Int}
    (h : ReadsBack m otherwise.1 otherwise.2) (fuel k : Nat) :
    ReadsBack m (firstGrid m n q point otherwise fuel k).1
      (firstGrid m n q point otherwise fuel k).2 := by
  induction fuel generalizing k with
  | zero => exact h
  | succ fuel ih =>
    unfold firstGrid
    split
    · next hc => exact onGrid?_readsBack hc
    · exact ih (k + 1)

end Decimal

section Shortest

variable {d : Binary64}

theorem exactDecimal_readsBack (h : d.magnitude ≠ 0) :
    ReadsBack d.magnitude d.exactDecimal.1 d.exactDecimal.2 := by
  have hs := significand_pos h
  have hpos : 0 < d.exactDecimal.1 := by
    unfold exactDecimal
    split
    · exact Nat.mul_pos hs (Nat.pow_pos (by decide))
    · exact Nat.mul_pos hs (Nat.pow_pos (by decide))
  obtain ⟨hn, hd⟩ := decimalQuotient_pos hpos d.exactDecimal.2
  refine nearestMagnitude_of_ratio hn hd ?_
  rw [ratio_decimalQuotient]
  unfold decimal exactDecimal
  split
  · next he =>
    obtain ⟨k, hk⟩ := Int.eq_ofNat_of_zero_le he
    rw [hk]
    simp
  · next he =>
    obtain ⟨k, hk⟩ := Int.eq_ofNat_of_zero_le (show 0 ≤ -d.exponent by omega)
    have he' : d.exponent = -(k : Int) := by omega
    have hten : (10 : ℚ) ^ k = 2 ^ k * 5 ^ k := by
      rw [← mul_pow]
      norm_num
    rw [he']
    simp only [neg_neg, Int.toNat_natCast, Nat.pow_eq, Nat.cast_mul, Nat.cast_pow, Nat.cast_ofNat,
      zpow_neg, zpow_natCast, hten]
    field_simp

theorem shortest_readsBack (h : d.magnitude ≠ 0) :
    ReadsBack d.magnitude d.shortest.1 d.shortest.2 :=
  firstGrid_readsBack (exactDecimal_readsBack h) 17 1

theorem ReadsBack.ne_zero {m c : Nat} {e : Int} (h : ReadsBack m c e) (hm : m ≠ 0) : c ≠ 0 := by
  rintro rfl
  apply hm
  have hzero : (decimalQuotient 0 e).1 = 0 := by
    unfold decimalQuotient
    split
    · exact Nat.zero_mul _
    · rfl
  rw [← h, hzero, nearestMagnitude, if_pos rfl]

theorem ofDecimal?_eq_of_decimal (hfin : d.isFinite = true) (h : d.magnitude ≠ 0) {m : Nat}
    {e : Int}
    (heq : decimal m e = decimal d.shortest.1 d.shortest.2) :
    ofDecimal? d.isNegative m e = some d := by
  have hc := (shortest_readsBack h).ne_zero h
  have hm : m ≠ 0 := by
    rintro rfl
    have hzero : decimal 0 e = 0 := by simp [decimal]
    rw [hzero] at heq
    have hpos : 0 < decimal d.shortest.1 d.shortest.2 := by
      unfold decimal
      have hc' : (0 : ℚ) < d.shortest.1 := by exact_mod_cast Nat.pos_of_ne_zero hc
      positivity
    exact absurd heq hpos.ne
  obtain ⟨_, hd⟩ := decimalQuotient_pos (Nat.pos_of_ne_zero hm) e
  obtain ⟨_, hd'⟩ := decimalQuotient_pos (Nat.pos_of_ne_zero hc) d.shortest.2
  have hnear : nearestMagnitude (decimalQuotient m e).1 (decimalQuotient m e).2 = d.magnitude := by
    rw [← shortest_readsBack h]
    refine nearestMagnitude_congr hd hd' ?_
    rw [ratio_decimalQuotient, ratio_decimalQuotient, heq]
  rw [ofDecimal?_of_nearest d.isNegative hm hnear h (magnitude_lt hfin), ofMagnitude_magnitude]

end Shortest
end Lorebook.Binary64
