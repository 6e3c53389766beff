import Lorebook.Json.Reader
import Mathlib.Data.List.Basic
import Mathlib.Tactic.Ring

set_option autoImplicit false

/-!
Decimal digits: what is written for a number, and the number that is read from them. Zeros at the
front count for nothing, and each one at the end for a factor of ten.
-/

namespace Lorebook

namespace Bytes

theorem ofChar_digitChar {n : Nat} (h : n < 10) : ofChar n.digitChar = UInt8.ofNat (48 + n) := by
  match n, h with
  | 0, _ | 1, _ | 2, _ | 3, _ | 4, _ | 5, _ | 6, _ | 7, _ | 8, _ | 9, _ => rfl

theorem ofNat_of_lt {n : Nat} (h : n < 10) : ofNat n = [UInt8.ofNat (48 + n)] := by
  rw [ofNat, Nat.toDigits_of_lt_base h, List.map_cons, List.map_nil, ofChar_digitChar h]

theorem ofNat_of_le {n : Nat} (h : 10 ≤ n) :
    ofNat n = ofNat (n / 10) ++ [UInt8.ofNat (48 + n % 10)] := by
  rw [ofNat, Nat.toDigits_of_base_le (by decide) h, List.map_append, List.map_cons, List.map_nil,
    ofChar_digitChar (Nat.mod_lt n (by decide)), ofNat]

theorem digit_cases {n : Nat} (h : n < 10) :
    isDigit (UInt8.ofNat (48 + n)) = true ∧ digitValue (UInt8.ofNat (48 + n)) = n := by
  match n, h with
  | 0, _ | 1, _ | 2, _ | 3, _ | 4, _ | 5, _ | 6, _ | 7, _ | 8, _ | 9, _ => exact ⟨rfl, rfl⟩

theorem isDigit_of_mem_ofNat {n : Nat} {b : UInt8} (h : b ∈ ofNat n) : isDigit b = true := by
  induction n using Nat.strongRecOn with
  | ind n ih =>
    by_cases hn : n < 10
    · rw [ofNat_of_lt hn, List.mem_singleton] at h
      exact h ▸ (digit_cases hn).1
    · rw [ofNat_of_le (by omega), List.mem_append, List.mem_singleton] at h
      rcases h with h | rfl
      · exact ih (n / 10) (by omega) h
      · exact (digit_cases (Nat.mod_lt n (by decide))).1

theorem ofNat_ne_nil (n : Nat) : ofNat n ≠ [] := by simp [ofNat]

theorem length_ofNat_le_iff {n k : Nat} (hk : 0 < k) : (ofNat n).length ≤ k ↔ n < 10 ^ k := by
  rw [ofNat, List.length_map]
  exact Nat.length_toDigits_le_iff (by decide) hk

theorem lt_pow_length_ofNat (n : Nat) : n < 10 ^ (ofNat n).length :=
  (length_ofNat_le_iff (List.length_pos_of_ne_nil (ofNat_ne_nil n))).mp (Nat.le_refl _)

theorem pow_length_ofNat_le {n : Nat} (hn : n ≠ 0) : 10 ^ ((ofNat n).length - 1) ≤ n := by
  by_contra hlt
  by_cases hk : (ofNat n).length - 1 = 0
  · rw [hk, Nat.pow_zero] at hlt
    omega
  · have hle := (length_ofNat_le_iff (Nat.pos_of_ne_zero hk)).mpr (Nat.not_le.mp hlt)
    omega

theorem head?_ofNat {n : Nat} (hn : n ≠ 0) : (ofNat n).head? ≠ some 48 := by
  induction n using Nat.strongRecOn with
  | ind n ih =>
    by_cases hlt : n < 10
    · rw [ofNat_of_lt hlt]
      match n, hlt, hn with
      | 1, _, _ | 2, _, _ | 3, _, _ | 4, _, _ | 5, _, _ | 6, _, _ | 7, _, _ | 8, _, _ | 9, _, _ =>
        decide
    · rw [ofNat_of_le (by omega), List.head?_append_of_ne_nil _ (ofNat_ne_nil _)]
      exact ih (n / 10) (by omega) (by omega)

end Bytes

namespace Json

open Bytes

theorem natOfDigits_foldl (digits : Bytes) (n : Nat) :
    digits.foldl (fun n b => n * 10 + digitValue b) n
      = n * 10 ^ digits.length + natOfDigits digits := by
  induction digits generalizing n with
  | nil => simp [natOfDigits]
  | cons b digits ih =>
    rw [natOfDigits, List.foldl_cons, List.foldl_cons, ih, ih (0 * 10 + digitValue b),
      List.length_cons, Nat.pow_succ]
    ring

theorem natOfDigits_append (a b : Bytes) :
    natOfDigits (a ++ b) = natOfDigits a * 10 ^ b.length + natOfDigits b := by
  rw [natOfDigits, List.foldl_append, natOfDigits_foldl]
  rfl

theorem natOfDigits_singleton (b : UInt8) : natOfDigits [b] = digitValue b := by
  simp [natOfDigits]

theorem natOfDigits_ofNat (n : Nat) : natOfDigits (ofNat n) = n := by
  induction n using Nat.strongRecOn with
  | ind n ih =>
    by_cases hn : n < 10
    · rw [ofNat_of_lt hn, natOfDigits_singleton, (digit_cases hn).2]
    · rw [ofNat_of_le (by omega), natOfDigits_append, ih (n / 10) (by omega), natOfDigits_singleton,
        (digit_cases (Nat.mod_lt n (by decide))).2]
      simp only [List.length_cons, List.length_nil]
      omega

theorem natOfDigits_zeros (k : Nat) : natOfDigits (Binary64.zeros k) = 0 := by
  induction k with
  | zero => rfl
  | succ k ih =>
    have hcons : Binary64.zeros (k + 1) = [48] ++ Binary64.zeros k := rfl
    rw [hcons, natOfDigits_append, ih]
    simp [natOfDigits_singleton, digitValue]

theorem takeWhile_isDigit {digits rest : Bytes} (h : ∀ b ∈ digits, isDigit b = true)
    (hrest : ∀ b, rest.head? = some b → isDigit b = false) :
    (digits ++ rest).takeWhile isDigit = digits ∧ (digits ++ rest).dropWhile isDigit = rest := by
  rw [List.takeWhile_append_of_pos h, List.dropWhile_append_of_pos h]
  cases rest with
  | nil => simp
  | cons b rest => simp [hrest b rfl]

end Json
end Lorebook
