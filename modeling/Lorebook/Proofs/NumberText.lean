import Lorebook.Bounded
import Lorebook.Proofs.Decimal

set_option autoImplicit false

/-!
Numbers as they are written in JSON texts are read back: integers of 64 bits, signed or unsigned,
and all finite doubles, however these are laid out.
-/

namespace Lorebook.Json

open Bytes

/-- The text does not go on with anything that would belong to a number. -/
def EndsNumber (rest : Bytes) : Prop :=
  ∀ b, rest.head? = some b → isDigit b = false ∧ b ≠ 46 ∧ b ≠ 101 ∧ b ≠ 69

theorem isDigit_zero : ∀ b ∈ lit "0", isDigit b = true := by
  intro b hb
  cases List.mem_singleton.mp hb
  rfl

section Parts

variable {negative : Bool} {whole tail tail' rest digits : Bytes} {frac : Option Bytes}
  {exp : Option Int}

theorem fraction?_of_ne (h : ∀ b, rest.head? = some b → b ≠ 46) :
    fraction? rest = some (none, rest) := by
  unfold fraction?
  split
  · next r => exact absurd rfl (h 46 rfl)
  · rfl

theorem fraction?_digits (hd : ∀ b ∈ digits, isDigit b = true) (hne : digits ≠ [])
    (hrest : ∀ b, rest.head? = some b → isDigit b = false) :
    fraction? (lit "." ++ (digits ++ rest)) = some (some digits, rest) := by
  obtain ⟨htake, hdrop⟩ := takeWhile_isDigit hd hrest
  have hdot (r : Bytes) : fraction? (lit "." ++ r) =
      if (r.takeWhile isDigit).isEmpty then none
      else some (some (r.takeWhile isDigit), r.dropWhile isDigit) := rfl
  rw [hdot, htake, hdrop, if_neg (by simpa using hne)]

theorem exponent?_of_ne (h : ∀ b, rest.head? = some b → b ≠ 101 ∧ b ≠ 69) :
    exponent? rest = some (none, rest) := by
  cases rest with
  | nil => rfl
  | cons b rest =>
    obtain ⟨hsmall, hbig⟩ := h b rfl
    simp [exponent?, hsmall, hbig]

theorem exponent?_text (e : Int) (hrest : ∀ b, rest.head? = some b → isDigit b = false) :
    exponent? (lit "e" ++ (Binary64.exponentText e ++ rest)) = some (some e, rest) := by
  have hpadded (n : Nat) (ds : Bytes)
      (hds : ds = if (ofNat n).length < 2 then 48 :: ofNat n else ofNat n) :
      (∀ b ∈ ds, isDigit b = true) ∧ ds ≠ [] ∧ natOfDigits ds = n := by
    subst hds
    split
    · refine ⟨fun b hb => ?_, by simp, ?_⟩
      · rcases List.mem_cons.mp hb with rfl | hb
        · rfl
        · exact isDigit_of_mem_ofNat hb
      · rw [← List.singleton_append, natOfDigits_append, natOfDigits_ofNat]
        simp [natOfDigits_singleton, digitValue]
    · exact ⟨fun b hb => isDigit_of_mem_ofNat hb, ofNat_ne_nil n, natOfDigits_ofNat n⟩
  obtain ⟨hd, hne, hvalue⟩ := hpadded e.natAbs _ rfl
  obtain ⟨htake, hdrop⟩ := takeWhile_isDigit hd hrest
  have hsigned (negative : Bool) (r : Bytes) :
      exponent? (lit "e" ++ (ofChar (if negative then '-' else '+') :: r)) =
        if (r.takeWhile isDigit).isEmpty then none
        else some (some (if negative then -(natOfDigits (r.takeWhile isDigit) : Int)
          else natOfDigits (r.takeWhile isDigit)), r.dropWhile isDigit) := by
    cases negative <;> rfl
  have hsign : (if e < 0 then '-' else '+') = if decide (e < 0) = true then '-' else '+' := by
    simp
  rw [Binary64.exponentText, List.cons_append, hsign, hsigned, htake, hdrop,
    if_neg (by simpa using hne), hvalue]
  congr 3
  simp only [decide_eq_true_eq]
  split <;> omega

theorem number?_of_parts (hd : ∀ b ∈ whole, isDigit b = true) (hne : whole ≠ [])
    (hlead : whole.length ≤ 1 ∨ whole.head? ≠ some 48)
    (htail : ∀ b, tail.head? = some b → isDigit b = false)
    (hfrac : fraction? tail = some (frac, tail')) (hexp : exponent? tail' = some (exp, rest)) :
    number? ((if negative then lit "-" else []) ++ (whole ++ tail)) =
      if frac = none ∧ exp = none then (ofInteger? negative (natOfDigits whole)).map (·, rest)
      else (Binary64.ofDecimal? negative (natOfDigits (whole ++ frac.getD []))
        (exp.getD 0 - (frac.getD []).length)).map fun d => (.float d, rest) := by
  obtain ⟨htake, hdrop⟩ := takeWhile_isDigit hd htail
  have hlead' :
      (whole.isEmpty || (decide (1 < whole.length) && whole.head? == some 48)) = false := by
    rcases hlead with hlen | hhead
    · simp [hne, Nat.not_lt.mpr hlen]
    · simp [hne, hhead]
  unfold number?
  split
  next minus s hsign =>
  obtain ⟨rfl, rfl⟩ : minus = negative ∧ s = whole ++ tail := by
    cases negative with
    | true =>
      cases hsign
      exact ⟨rfl, rfl⟩
    | false =>
      obtain ⟨b, whole', rfl⟩ := List.exists_cons_of_ne_nil hne
      have hb : b ≠ 45 := by
        rintro rfl
        exact absurd (hd 45 List.mem_cons_self) (by decide)
      split at hsign
      · next r hr => exact absurd (List.cons.inj hr).1 hb
      · cases hsign
        exact ⟨rfl, rfl⟩
  dsimp only
  rw [htake, hdrop, hfrac, if_neg (by simp [hlead'])]
  simp only [Option.bind_eq_bind, Option.bind_some, hexp]
  cases frac <;> cases exp <;> simp [Option.map_eq_bind]

end Parts

theorem EndsNumber.isDigit {rest : Bytes} (h : EndsNumber rest) :
    ∀ b, rest.head? = some b → isDigit b = false := fun b hb => (h b hb).1

def InRange (n : Int) : Prop := Bounded.min ≤ n ∧ n ≤ 18446744073709551615

theorem number?_ofInt {n : Int} (hn : InRange n) {rest : Bytes} (hrest : EndsNumber rest) :
    number? (ofInt n ++ rest) = some (.int n, rest) := by
  obtain ⟨hlow, hhigh⟩ := hn
  have hmin : Bounded.min = -9223372036854775808 := rfl
  have htext : ofInt n ++ rest
      = (if decide (n < 0) = true then lit "-" else []) ++ (ofNat n.natAbs ++ rest) := by
    unfold ofInt
    by_cases hneg : n < 0
    · simp only [hneg, decide_true, if_true]
      rfl
    · simp [hneg]
  have hlead : (ofNat n.natAbs).length ≤ 1 ∨ (ofNat n.natAbs).head? ≠ some 48 := by
    by_cases hzero : n.natAbs = 0
    · rw [hzero]
      exact .inl (by decide)
    · exact .inr (head?_ofNat hzero)
  rw [htext, number?_of_parts (fun b hb => isDigit_of_mem_ofNat hb) (ofNat_ne_nil _) hlead
    hrest.isDigit (fraction?_of_ne fun b hb => (hrest b hb).2.1)
    (exponent?_of_ne fun b hb => (hrest b hb).2.2), if_pos ⟨rfl, rfl⟩, natOfDigits_ofNat]
  by_cases hneg : n < 0
  · rw [ofInteger?, if_pos (by simpa using hneg), if_pos (by omega)]
    simp only [Option.map_some, Option.some.injEq, Prod.mk.injEq, and_true, Json.int.injEq]
    omega
  · rw [ofInteger?, if_neg (by simpa using hneg), if_pos (by omega)]
    simp only [Option.map_some, Option.some.injEq, Prod.mk.injEq, and_true, Json.int.injEq]
    omega

section Float

variable {d : Binary64} {rest : Bytes}

theorem withoutZeros_append (digits : Bytes) :
    ∃ j, digits = Binary64.withoutZeros digits ++ Binary64.zeros j := by
  have hsplit := List.takeWhile_append_dropWhile (p := (· == (48 : UInt8))) (l := digits.reverse)
  have hzeros : digits.reverse.takeWhile (· == 48)
      = List.replicate (digits.reverse.takeWhile (· == 48)).length 48 := by
    refine List.eq_replicate_of_mem fun b hb => ?_
    have hb' := List.all_eq_true.mp List.all_takeWhile b hb
    exact beq_iff_eq.mp hb'
  refine ⟨(digits.reverse.takeWhile (· == 48)).length, ?_⟩
  have hrev := congrArg List.reverse hsplit
  rw [List.reverse_append, List.reverse_reverse, hzeros, List.reverse_replicate] at hrev
  exact hrev.symm

theorem shortest_digits (h : d.magnitude ≠ 0) :
    let digits := Binary64.withoutZeros (ofNat d.shortest.1)
    let point := d.shortest.2 + (ofNat d.shortest.1).length
    (∀ b ∈ digits, isDigit b = true) ∧ digits ≠ [] ∧ digits.head? ≠ some 48 ∧
      Binary64.decimal (natOfDigits digits) (point - digits.length)
        = Binary64.decimal d.shortest.1 d.shortest.2 := by
  intro digits point
  have hc := (Binary64.shortest_readsBack h).ne_zero h
  obtain ⟨j, hj⟩ := withoutZeros_append (ofNat d.shortest.1)
  have hj : ofNat d.shortest.1 = digits ++ Binary64.zeros j := hj
  have hne : digits ≠ [] := by
    intro hnil
    rw [hnil, List.nil_append] at hj
    cases j with
    | zero => exact ofNat_ne_nil _ hj
    | succ j =>
      have hhead := head?_ofNat hc
      rw [hj] at hhead
      exact hhead rfl
  have hhead : digits.head? = (ofNat d.shortest.1).head? := by
    rw [hj, List.head?_append_of_ne_nil _ hne]
  have hlen : (ofNat d.shortest.1).length = digits.length + j := by
    rw [hj, List.length_append]
    simp [Binary64.zeros]
  have hvalue : d.shortest.1 = natOfDigits digits * 10 ^ j := by
    have hread := natOfDigits_ofNat d.shortest.1
    rw [hj, natOfDigits_append, natOfDigits_zeros, Nat.add_zero] at hread
    rw [← hread]
    simp [Binary64.zeros]
  refine ⟨fun b hb => ?_, hne, hhead ▸ head?_ofNat hc, ?_⟩
  · refine isDigit_of_mem_ofNat (n := d.shortest.1) ?_
    rw [hj]
    exact List.mem_append_left _ hb
  · have hpoint : point - digits.length = d.shortest.2 + j := by
      have hcast : ((ofNat d.shortest.1).length : Int) = digits.length + j := by
        rw [hlen]
        push_cast
        rfl
      omega
    rw [hpoint, Binary64.decimal, Binary64.decimal, hvalue, zpow_add₀ (by norm_num), zpow_natCast]
    push_cast
    ring

/-- With any sign in front the text is read as a double of this magnitude. -/
def ReadsAs (rest text : Bytes) (v : ℚ) : Prop :=
  ∀ negative : Bool, ∃ m e, Binary64.decimal m e = v ∧
    number? ((if negative then lit "-" else []) ++ (text ++ rest))
      = (Binary64.ofDecimal? negative m e).map fun d => (.float d, rest)

section Layout

variable {digits : Bytes}

theorem isDigit_of_mem_zeros {k : Nat} {b : UInt8} (h : b ∈ Binary64.zeros k) :
    isDigit b = true := by
  rw [List.eq_of_mem_replicate h]
  rfl

theorem head?_dot (r : Bytes) : ∀ b, (lit "." ++ r).head? = some b → isDigit b = false := by
  intro b hb
  cases hb
  rfl

theorem head?_e (r : Bytes) : ∀ b, (lit "e" ++ r).head? = some b → isDigit b = false := by
  intro b hb
  cases hb
  rfl

theorem EndsNumber.exponent? (hrest : EndsNumber rest) : exponent? rest = some (none, rest) :=
  exponent?_of_ne fun b hb => (hrest b hb).2.2

theorem readsAs_whole (hd : ∀ b ∈ digits, isDigit b = true) (hne : digits ≠ [])
    (hhead : digits.head? ≠ some 48) (hrest : EndsNumber rest) (k : Nat) :
    ReadsAs rest (digits ++ Binary64.zeros k ++ lit ".0")
      (Binary64.decimal (natOfDigits digits) k) := by
  intro negative
  have hwhole : ∀ b ∈ digits ++ Binary64.zeros k, isDigit b = true := by
    intro b hb
    rcases List.mem_append.mp hb with hb | hb
    · exact hd b hb
    · exact isDigit_of_mem_zeros hb
  have hfirst : (digits ++ Binary64.zeros k).head? ≠ some 48 := by
    rwa [List.head?_append_of_ne_nil _ hne]
  refine ⟨natOfDigits (digits ++ Binary64.zeros k ++ lit "0"), 0 - 1, ?_, ?_⟩
  · have hlit : natOfDigits (lit "0") = 0 ∧ (lit "0").length = 1 := by decide
    rw [natOfDigits_append, natOfDigits_append, natOfDigits_zeros, hlit.1, hlit.2]
    simp only [Binary64.decimal, Binary64.zeros, List.length_replicate, zpow_natCast]
    push_cast
    norm_num
    ring
  · have htext : digits ++ Binary64.zeros k ++ lit ".0" ++ rest
        = digits ++ Binary64.zeros k ++ (lit "." ++ (lit "0" ++ rest)) := by simp [lit]
    rw [htext, number?_of_parts hwhole (by simp [hne]) (.inr hfirst) (head?_dot _)
      (fraction?_digits isDigit_zero (by decide) hrest.isDigit) hrest.exponent?, if_neg (by simp)]
    rfl

theorem readsAs_pointed (hd : ∀ b ∈ digits, isDigit b = true) (hhead : digits.head? ≠ some 48)
    (hrest : EndsNumber rest) {k : Nat} (hpos : 0 < k) (hk : k < digits.length) :
    ReadsAs rest (digits.take k ++ lit "." ++ digits.drop k)
      (Binary64.decimal (natOfDigits digits) (k - digits.length)) := by
  intro negative
  have htake : digits.take k ≠ [] := by
    rw [← List.length_pos_iff, List.length_take]
    omega
  have hdrop : digits.drop k ≠ [] := by
    rw [← List.length_pos_iff, List.length_drop]
    omega
  have hfirst : (digits.take k).head? ≠ some 48 := by
    rwa [List.head?_take, if_neg (by omega)]
  refine ⟨natOfDigits digits, (k : Int) - digits.length, rfl, ?_⟩
  simp only [List.append_assoc]
  rw [number?_of_parts (fun b hb => hd b (List.mem_of_mem_take hb)) htake (.inr hfirst)
    (head?_dot _)
    (fraction?_digits (fun b hb => hd b (List.mem_of_mem_drop hb)) hdrop hrest.isDigit)
    hrest.exponent?, if_neg (by simp)]
  simp only [Option.getD_some, Option.getD_none, List.take_append_drop, List.length_drop]
  congr 2
  omega

theorem readsAs_small (hd : ∀ b ∈ digits, isDigit b = true) (hne : digits ≠ [])
    (hrest : EndsNumber rest) (k : Nat) :
    ReadsAs rest (lit "0." ++ Binary64.zeros k ++ digits)
      (Binary64.decimal (natOfDigits digits) (-k - digits.length)) := by
  intro negative
  have hfrac : ∀ b ∈ Binary64.zeros k ++ digits, isDigit b = true := by
    intro b hb
    rcases List.mem_append.mp hb with hb | hb
    · exact isDigit_of_mem_zeros hb
    · exact hd b hb
  refine ⟨natOfDigits (lit "0" ++ (Binary64.zeros k ++ digits)),
    0 - ((Binary64.zeros k ++ digits).length : Int), ?_, ?_⟩
  · have hlit : natOfDigits (lit "0") = 0 := by decide
    rw [natOfDigits_append, natOfDigits_append, natOfDigits_zeros, hlit]
    simp only [Nat.zero_mul, Nat.zero_add, List.length_append, Binary64.zeros,
      List.length_replicate]
    congr 1
    push_cast
    omega
  · have htext : lit "0." ++ Binary64.zeros k ++ digits ++ rest
        = lit "0" ++ (lit "." ++ (Binary64.zeros k ++ digits ++ rest)) := by simp [lit]
    rw [htext, number?_of_parts isDigit_zero (by decide) (.inl (by decide)) (head?_dot _)
      (fraction?_digits hfrac (by simp [hne]) hrest.isDigit) hrest.exponent?, if_neg (by simp)]
    rfl

theorem readsAs_scientific (hd : ∀ b ∈ digits, isDigit b = true) (hne : digits ≠ [])
    (hrest : EndsNumber rest) (point : Int) :
    ReadsAs rest (digits.take 1
        ++ (if (digits.length : Int) ≤ 1 then [] else lit "." ++ digits.drop 1)
        ++ lit "e" ++ Binary64.exponentText (point - 1))
      (Binary64.decimal (natOfDigits digits) (point - digits.length)) := by
  intro negative
  have hlen : 0 < digits.length := List.length_pos_of_ne_nil hne
  have hwhole : ∀ b ∈ digits.take 1, isDigit b = true := fun b hb => hd b (List.mem_of_mem_take hb)
  have htake : digits.take 1 ≠ [] := by
    rw [← List.length_pos_iff, List.length_take]
    omega
  have hshort : (digits.take 1).length ≤ 1 := by simp
  have hexp := exponent?_text (point - 1) hrest.isDigit
  refine ⟨natOfDigits digits, point - digits.length, rfl, ?_⟩
  by_cases hone : (digits.length : Int) ≤ 1
  · have hall : digits.take 1 = digits := List.take_of_length_le (by omega)
    have hfrac : fraction? (lit "e" ++ (Binary64.exponentText (point - 1) ++ rest))
        = some (none, lit "e" ++ (Binary64.exponentText (point - 1) ++ rest)) := by
      refine fraction?_of_ne ?_
      rintro b hb
      cases hb
      decide
    rw [if_pos hone]
    simp only [List.append_nil, List.append_assoc]
    rw [number?_of_parts hwhole htake (.inl hshort) (head?_e _) hfrac hexp, if_neg (by simp), hall]
    simp only [Option.getD_some, Option.getD_none, List.append_nil, List.length_nil]
    congr 2
    push_cast
    omega
  · rw [if_neg hone]
    simp only [List.append_assoc]
    have hdrop : digits.drop 1 ≠ [] := by
      rw [← List.length_pos_iff, List.length_drop]
      omega
    rw [number?_of_parts hwhole htake (.inl hshort) (head?_dot _)
      (fraction?_digits (fun b hb => hd b (List.mem_of_mem_drop hb)) hdrop (head?_e _)) hexp,
      if_neg (by simp)]
    simp only [Option.getD_some, List.take_append_drop, List.length_drop]
    congr 2
    omega

/-- Digits that are laid out are read as the number that they stand for. -/
theorem readsAs_layout (hd : ∀ b ∈ digits, isDigit b = true) (hne : digits ≠ [])
    (hhead : digits.head? ≠ some 48) (hrest : EndsNumber rest) (point : Int) :
    ReadsAs rest (Binary64.layout digits point)
      (Binary64.decimal (natOfDigits digits) (point - digits.length)) := by
  unfold Binary64.layout
  dsimp only
  split
  · next hpos =>
    obtain ⟨k, hk⟩ := Int.eq_ofNat_of_zero_le (show 0 ≤ point - digits.length by omega)
    rw [hk]
    exact readsAs_whole hd hne hhead hrest k
  split
  · next hpos =>
    obtain ⟨k, rfl⟩ := Int.eq_ofNat_of_zero_le (show 0 ≤ point by omega)
    exact readsAs_pointed hd hhead hrest (by omega) (by omega)
  split
  · next hpos =>
    obtain ⟨k, hk⟩ := Int.eq_ofNat_of_zero_le (show 0 ≤ -point by omega)
    have hpoint : point = -k := by omega
    subst hpoint
    rw [hk]
    exact readsAs_small hd hne hrest k
  · exact readsAs_scientific hd hne hrest point

end Layout

theorem number?_text (hfin : d.isFinite = true) (hrest : EndsNumber rest) :
    number? (d.text ++ rest) = some (.float d, rest) := by
  have hzero (h : d.magnitude = 0) : Binary64.ofMagnitude d.isNegative 0 = d := by
    rw [← h, Binary64.ofMagnitude_magnitude]
  unfold Binary64.text
  dsimp only
  split
  · next h =>
    have htext : (if d.isNegative = true then lit "-" else []) ++ lit "0.0" ++ rest
        = (if d.isNegative = true then lit "-" else [])
          ++ (lit "0" ++ (lit "." ++ (lit "0" ++ rest))) := by
      simp [lit]
    have hdot : ∀ b, (lit "." ++ (lit "0" ++ rest)).head? = some b → isDigit b = false := by
      intro b hb
      cases hb
      rfl
    rw [htext, number?_of_parts isDigit_zero (by decide) (.inl (by decide)) hdot
      (fraction?_digits isDigit_zero (by decide) hrest.isDigit)
      (exponent?_of_ne fun b hb => (hrest b hb).2.2), if_neg (by simp)]
    have hnat : natOfDigits (lit "0" ++ (some (lit "0")).getD []) = 0 := by decide
    rw [hnat, Binary64.ofDecimal?, if_pos rfl, hzero h]
    rfl
  · next h =>
    obtain ⟨hd, hne, hhead, hvalue⟩ := shortest_digits h
    obtain ⟨m, e, hme, hnumber⟩ := readsAs_layout hd hne hhead hrest
      (d.shortest.2 + (ofNat d.shortest.1).length) d.isNegative
    rw [List.append_assoc, hnumber,
      Binary64.ofDecimal?_eq_of_decimal hfin h (hme.trans hvalue)]
    rfl

end Float
end Lorebook.Json
