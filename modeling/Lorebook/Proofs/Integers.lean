import Lorebook.Proofs.EntryLoading
import Lorebook.Proofs.NumberText

set_option autoImplicit false

/-!
Integers and their decimal texts. The integers of the signed range are written exactly, any integer
is read as the one of the range that is nearest to it, and a text as the integer it denotes, pinned
to the range, as long as that is below a bound; of a greater number only a beginning is read.
-/

namespace Lorebook

open Json (natOfDigits)

namespace Bytes

section Shortened

/-- What is left of a number when digits at its end are dropped until it is below the bound. -/
def shortened (n : Nat) : Nat := if n < unreadNumber then n else shortened (n / 10)
termination_by n
decreasing_by
  unfold unreadNumber at *
  omega

theorem shortened_of_lt {n : Nat} (h : n < unreadNumber) : shortened n = n := by
  rw [shortened, if_pos h]

theorem shortened_of_le {n : Nat} (h : unreadNumber ≤ n) : shortened n = shortened (n / 10) := by
  rw [shortened, if_neg (Nat.not_lt.mpr h)]

theorem shortened_lt (n : Nat) : shortened n < unreadNumber := by
  induction n using Nat.strongRecOn with
  | ind n ih =>
    by_cases h : n < unreadNumber
    · rwa [shortened_of_lt h]
    · have hle := Nat.not_lt.mp h
      rw [shortened_of_le hle]
      refine ih (n / 10) (Nat.div_lt_self ?_ (by decide))
      exact Nat.lt_of_lt_of_le (by decide) hle

theorem shortened_append {n x k : Nat} (hlow : leadingIntLimit < n) (hhigh : n < unreadNumber)
    (hx : x < 10 ^ k) : shortened (n * 10 ^ k + x) = n := by
  induction k generalizing x with
  | zero =>
    have hzero : x = 0 := Nat.lt_one_iff.mp hx
    rw [hzero, Nat.pow_zero, Nat.mul_one, Nat.add_zero, shortened_of_lt hhigh]
  | succ k ih =>
    have hpow : 1 ≤ 10 ^ k := Nat.pow_pos (by decide)
    have hprod : n ≤ n * 10 ^ k := Nat.le_mul_of_pos_right n hpow
    have hlong : n * 10 ^ (k + 1) = 10 * (n * 10 ^ k) := by
      rw [Nat.pow_succ]
      ring
    have hle : unreadNumber ≤ n * 10 ^ (k + 1) + x := by
      unfold unreadNumber
      omega
    have hdiv : (n * 10 ^ (k + 1) + x) / 10 = n * 10 ^ k + x / 10 := by omega
    rw [shortened_of_le hle, hdiv]
    exact ih (by rw [Nat.pow_succ] at hx; omega)

end Shortened

section Digits

theorem digitValue_le {b : UInt8} (h : isDigit b = true) : digitValue b ≤ 9 := by
  simp only [isDigit, Bool.and_eq_true, decide_eq_true_eq, UInt8.le_iff_toNat_le] at h
  have h57 : (57 : UInt8).toNat = 57 := rfl
  rw [digitValue]
  omega

theorem natOfDigits_lt {digits : Bytes} (h : ∀ b ∈ digits, isDigit b = true) :
    natOfDigits digits < 10 ^ digits.length := by
  induction digits with
  | nil => decide
  | cons b digits ih =>
    obtain ⟨hb, h⟩ := List.forall_mem_cons.mp h
    have hvalue := digitValue_le hb
    have hcons : natOfDigits (b :: digits)
        = digitValue b * 10 ^ digits.length + natOfDigits digits := by
      rw [← List.singleton_append, Json.natOfDigits_append, Json.natOfDigits_singleton]
    have hprod : digitValue b * 10 ^ digits.length ≤ 9 * 10 ^ digits.length :=
      Nat.mul_le_mul_right _ hvalue
    rw [hcons, List.length_cons, Nat.pow_succ]
    have hrest := ih h
    omega

theorem leadingDigits_eq_shortened {digits : Bytes} (h : ∀ b ∈ digits, isDigit b = true)
    {n : Nat} (hn : n < unreadNumber) :
    leadingDigits n digits = shortened (n * 10 ^ digits.length + natOfDigits digits) := by
  induction digits generalizing n with
  | nil => simpa [leadingDigits, natOfDigits] using (shortened_of_lt hn).symm
  | cons b digits ih =>
    rw [leadingDigits]
    split
    · next hread =>
      have hvalue := digitValue_le hread.1
      have hlimit := hread.2
      have hnext : n * 10 + digitValue b < unreadNumber := by
        unfold unreadNumber
        omega
      rw [ih (List.forall_mem_cons.mp h).2 hnext, ← Json.natOfDigits_foldl,
        ← Json.natOfDigits_foldl, List.foldl_cons]
    · next hstop =>
      have hlow : leadingIntLimit < n :=
        Nat.not_le.mp fun hle => hstop ⟨h b List.mem_cons_self, hle⟩
      exact (shortened_append hlow hn (natOfDigits_lt h)).symm

theorem leadingDigits_append {digits rest : Bytes} (h : ∀ b ∈ digits, isDigit b = true)
    (hrest : ∀ b, rest.head? = some b → isDigit b = false) (n : Nat) :
    leadingDigits n (digits ++ rest) = leadingDigits n digits := by
  induction digits generalizing n with
  | nil =>
    cases rest with
    | nil => rfl
    | cons b rest => simp [leadingDigits, hrest b rfl]
  | cons b digits ih =>
    rw [List.cons_append, leadingDigits, leadingDigits, ih (List.forall_mem_cons.mp h).2]

end Digits

section Denoted

inductive Sign
  | absent
  | plus
  | minus
  deriving DecidableEq, Repr

def Sign.text : Sign → Bytes
  | .absent => []
  | .plus => [43]
  | .minus => [45]

def Sign.apply : Sign → Nat → Int
  | .absent, n | .plus, n => n
  | .minus, n => -n

/-- A text that begins with the digits of a number, under a sign or without one, denotes it. -/
inductive Denotes : Bytes → Int → Prop
  | intro (sign : Sign) {digits rest : Bytes} (hne : digits ≠ [])
    (hdigits : ∀ b ∈ digits, isDigit b = true)
    (hrest : ∀ b, rest.head? = some b → isDigit b = false) :
    Denotes (sign.text ++ digits ++ rest) (sign.apply (natOfDigits digits))

theorem denotes_ofInt (n : Int) : Denotes (ofInt n) n := by
  have hdigits : ∀ b ∈ ofNat n.natAbs, isDigit b = true := fun b hb => isDigit_of_mem_ofNat hb
  have hread (sign : Sign) := @Denotes.intro sign _ [] (ofNat_ne_nil n.natAbs) hdigits nofun
  simp only [List.append_nil, Json.natOfDigits_ofNat] at hread
  by_cases hneg : n < 0
  · have hvalue : Sign.minus.apply n.natAbs = n := by
      simp only [Sign.apply]
      omega
    have htext : ofInt n = Sign.minus.text ++ ofNat n.natAbs := by
      rw [ofInt, if_pos hneg]
      rfl
    have hminus := hread .minus
    rwa [hvalue, ← htext] at hminus
  · have hvalue : Sign.absent.apply n.natAbs = n := by
      simp only [Sign.apply]
      omega
    have htext : ofInt n = Sign.absent.text ++ ofNat n.natAbs := by
      rw [ofInt, if_neg hneg]
      rfl
    have habsent := hread .absent
    rwa [hvalue, ← htext] at habsent

theorem trim_append {s rest : Bytes} (hne : s ≠ []) (hs : ∀ b ∈ s, isPad b = false) :
    trim (s ++ rest) = s ++ dropEnding isPad rest := by
  have hstart : (s ++ rest).dropWhile isPad = s ++ rest := by
    cases s with
    | nil => exact absurd rfl hne
    | cons b s => simp [hs b List.mem_cons_self]
  have hend : s.reverse.dropWhile isPad = s.reverse := by
    rw [List.dropWhile_eq_self_iff]
    intro hl
    rw [hs _ (List.mem_reverse.mp (List.getElem_mem hl))]
    exact Bool.false_ne_true
  rw [trim, hstart, dropEnding, List.reverse_append, List.dropWhile_append, hend]
  split
  · next hempty =>
    rw [dropEnding, List.isEmpty_iff.mp hempty]
    simp
  · rw [List.reverse_append, List.reverse_reverse, dropEnding]

theorem head?_dropEnding {p : UInt8 → Bool} {s : Bytes} {b : UInt8}
    (h : (dropEnding p s).head? = some b) : s.head? = some b := by
  obtain ⟨r, hr⟩ : dropEnding p s <+: s := List.rdropWhile_prefix p s
  rw [← hr, List.head?_append, h]
  rfl

end Denoted

/-- The integer that is read where `n` is denoted. -/
def readNumber (n : Int) : Int := if n < 0 then -(shortened n.natAbs : Int) else shortened n.natAbs

theorem readNumber_apply (sign : Sign) (n : Nat) :
    readNumber (sign.apply n) = sign.apply (shortened n) := by
  have hplain : readNumber n = shortened n := by
    rw [readNumber, if_neg (Int.not_lt.mpr (Int.natCast_nonneg n)), Int.natAbs_natCast]
  cases sign with
  | absent => exact hplain
  | plus => exact hplain
  | minus =>
    cases n with
    | zero => exact hplain.trans (by rw [shortened_of_lt (n := 0) (by decide)]; rfl)
    | succ n =>
      have hneg : Sign.minus.apply (n + 1) < 0 := by
        simp only [Sign.apply]
        omega
      rw [readNumber, if_pos hneg, Sign.apply, Int.natAbs_neg, Int.natAbs_natCast, Sign.apply]

theorem readNumber_of_lt {n : Int} (h : n.natAbs < unreadNumber) : readNumber n = n := by
  unfold readNumber
  rw [shortened_of_lt h]
  split <;> omega

/-- The least number that is not read to its end is read as a tenth of it. -/
theorem readNumber_unreadNumber : readNumber unreadNumber = leadingIntLimit + 1 := by
  have hdiv : unreadNumber / 10 = leadingIntLimit + 1 := rfl
  rw [readNumber, if_neg (by decide), Int.natAbs_natCast, shortened_of_le (Nat.le_refl _), hdiv,
    shortened_of_lt (by decide)]
  rfl

theorem natAbs_readNumber_lt (n : Int) : (readNumber n).natAbs < unreadNumber := by
  have hlt := shortened_lt n.natAbs
  unfold readNumber
  split <;> omega

theorem readNumber_eq_clamp_iff (n : Int) :
    readNumber n = Bounded.clamp n ↔ n.natAbs < unreadNumber := by
  have hbound : unreadNumber = 9223372036854775800 := rfl
  constructor
  · intro heq
    have hlt := natAbs_readNumber_lt n
    rw [heq] at hlt
    unfold Bounded.clamp Bounded.min Bounded.max at hlt
    split at hlt
    · omega
    · split at hlt <;> omega
  · intro h
    rw [readNumber_of_lt h, Bounded.clamp_of_mem]
    · unfold Bounded.min
      omega
    · unfold Bounded.max
      omega

end Bytes

namespace Json

open Bytes (Denotes Sign readNumber unreadNumber)

theorem toInt?_of_denotes {s : Bytes} {n : Int} (h : Denotes s n) :
    toInt? (.str s) = some (readNumber n) := by
  obtain ⟨sign, hne, hdigits, hrest⟩ := h
  next digits rest =>
  obtain ⟨b, ds, rfl⟩ := List.exists_cons_of_ne_nil hne
  have hb : Bytes.isDigit b = true := hdigits b List.mem_cons_self
  have hread : Bytes.leadingDigits 0 (b :: ds ++ Bytes.dropEnding Bytes.isPad rest)
      = Bytes.shortened (natOfDigits (b :: ds)) := by
    rw [Bytes.leadingDigits_append hdigits fun c hc => hrest c (Bytes.head?_dropEnding hc),
      Bytes.leadingDigits_eq_shortened hdigits (by decide), Nat.zero_mul, Nat.zero_add]
  have htrim : Bytes.trim (sign.text ++ b :: ds ++ rest)
      = sign.text ++ (b :: ds ++ Bytes.dropEnding Bytes.isPad rest) := by
    rw [Bytes.trim_append (by simp), List.append_assoc]
    intro c hc
    rcases List.mem_append.mp hc with hc | hc
    · cases sign <;> simp [Sign.text] at hc <;> subst hc <;> rfl
    · exact Bytes.isPad_of_isDigit (hdigits c hc)
  have hagain : Bytes.trim (sign.text ++ (b :: ds ++ Bytes.dropEnding Bytes.isPad rest))
      = sign.text ++ (b :: ds ++ Bytes.dropEnding Bytes.isPad rest) := by
    rw [← htrim, Bytes.trim_trim]
  rw [Bytes.readNumber_apply, ← hread]
  simp only [toInt?, Bytes.leadingInt, htrim, hagain]
  cases sign with
  | plus | minus => simp [Sign.text, Sign.apply, hb]
  | absent =>
    have hminus : b ≠ 45 := by
      rintro rfl
      cases hb
    have hplus : b ≠ 43 := by
      rintro rfl
      cases hb
    simp [Sign.text, Sign.apply, hb, hminus, hplus]

theorem ofInt_injective {m n : Int} (hm : InRange m) (hn : InRange n)
    (h : Bytes.ofInt m = Bytes.ofInt n) : m = n := by
  have hends : EndsNumber [] := nofun
  have hread := number?_ofInt hm hends
  rw [h, number?_ofInt hn hends, Option.some.injEq, Prod.mk.injEq, Json.int.injEq] at hread
  exact hread.1.symm

theorem toText_int_iff {n : Int} (hn : InRange n) :
    toText (.int n) = Bytes.ofInt n ↔ n ≤ Bounded.max := by
  constructor
  · intro h
    have hwrap := Bounded.within_wrap n
    have hle : Bounded.max ≤ 18446744073709551615 := by decide
    have heq := ofInt_injective ⟨hwrap.1, Int.le_trans hwrap.2 hle⟩ hn h
    exact heq ▸ hwrap.2
  · intro h
    rw [toText, Bounded.wrap_of_mem hn.1 h]

def ReadInOrder (bound : Nat) : Prop :=
  ∀ s t m n, Denotes s m → Denotes t n → m.natAbs < bound → n.natAbs < bound → m ≤ n →
    ∃ a b, toInt? (.str s) = some a ∧ toInt? (.str t) = some b ∧ a ≤ b

theorem readInOrder_iff (bound : Nat) : ReadInOrder bound ↔ bound ≤ unreadNumber := by
  constructor
  · intro h
    by_contra hlt
    have hlt := Nat.not_le.mp hlt
    have hfirst := Bytes.denotes_ofInt ((unreadNumber - 1 : Nat) : Int)
    have hsecond := Bytes.denotes_ofInt (unreadNumber : Int)
    obtain ⟨a, b, ha, hb, hle⟩ := h _ _ _ _ hfirst hsecond
      (Nat.lt_of_le_of_lt (by decide) hlt) hlt (by decide)
    rw [toInt?_of_denotes hfirst] at ha
    rw [toInt?_of_denotes hsecond] at hb
    cases ha
    cases hb
    rw [Bytes.readNumber_of_lt (by decide), Bytes.readNumber_unreadNumber] at hle
    exact absurd hle (by decide)
  · intro h s t m n hs ht hm hn hle
    refine ⟨m, n, ?_, ?_, hle⟩
    · rw [toInt?_of_denotes hs, Bytes.readNumber_of_lt (Nat.lt_of_lt_of_le hm h)]
    · rw [toInt?_of_denotes ht, Bytes.readNumber_of_lt (Nat.lt_of_lt_of_le hn h)]

/-- The integers that are written exactly are those of the signed range. A text that denotes an
integer is read as the nearest one of the range if and only if that integer is below the bound, be
it the text of a number or any other. Up to the bound, and to no greater one, texts are read in the
order of what they denote. -/
theorem integers_coerced {v : Int} (hv : InRange v) {s : Bytes} {n : Int} (hs : Denotes s n)
    (bound : Nat) :
    (toText (.int v) = Bytes.ofInt v ↔ v ≤ Bounded.max) ∧
    toInt? (.int v) = some (Bounded.clamp v) ∧
    (toInt? (.str (Bytes.ofInt v)) = toInt? (.int v) ↔ v.natAbs < unreadNumber) ∧
    toInt? (.str s) = some (readNumber n) ∧
    (toInt? (.str s) = some (Bounded.clamp n) ↔ n.natAbs < unreadNumber) ∧
    (ReadInOrder bound ↔ bound ≤ unreadNumber) := by
  have htexts {s : Bytes} {n : Int} (h : Denotes s n) :
      toInt? (.str s) = some (Bounded.clamp n) ↔ n.natAbs < unreadNumber := by
    rw [toInt?_of_denotes h, Option.some.injEq, Bytes.readNumber_eq_clamp_iff]
  exact ⟨toText_int_iff hv, rfl, htexts (Bytes.denotes_ofInt v), toInt?_of_denotes hs, htexts hs,
    readInOrder_iff bound⟩

theorem integers_coerced_below :
    (toText (.int 9223372036854775799) = lit "9223372036854775799" ∧
      toInt? (.str (lit "9223372036854775799")) = toInt? (.int 9223372036854775799)) ∧
    (Denotes (lit "-12 gold") (-12) ∧ toInt? (.str (lit "-12 gold")) = some (-12)) ∧
    ReadInOrder unreadNumber := by
  have hdenotes : Denotes (lit "-12 gold") (-12) :=
    @Denotes.intro .minus (lit "12") (lit " gold") (by decide +kernel) (by decide +kernel)
      fun b hb => by cases hb; rfl
  have hrange : InRange 9223372036854775799 := ⟨by decide, by decide⟩
  obtain ⟨htext, -, hread, -, hgold, horder⟩ := integers_coerced hrange hdenotes unreadNumber
  exact ⟨⟨htext.mpr (by decide), hread.mpr (by decide)⟩, ⟨hdenotes, hgold.mpr (by decide)⟩,
    horder.mpr (Nat.le_refl _)⟩

/-- The greatest integer of 64 bits is written as minus one, and the text of the greatest one of the
signed range is read without its last digit. -/
theorem not_integers_exact :
    (InRange 18446744073709551615 ∧
      toText (.int 18446744073709551615) ≠ Bytes.ofInt 18446744073709551615) ∧
    (Denotes (lit "9223372036854775807") 9223372036854775807 ∧
      toInt? (.str (lit "9223372036854775807")) ≠ some (Bounded.clamp 9223372036854775807)) :=
  ⟨⟨⟨by decide, by decide⟩, by decide +kernel⟩, Bytes.denotes_ofInt 9223372036854775807,
    by decide +kernel⟩

end Json
end Lorebook
