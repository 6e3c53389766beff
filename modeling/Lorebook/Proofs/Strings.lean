import Lorebook.Json.Printer
import Lorebook.Json.Reader

set_option autoImplicit false

/-!
Texts in JSON: repair gives UTF-8 and leaves UTF-8 as it is, and a written string is read back byte
for byte.
-/

namespace Lorebook

namespace Utf8

theorem isValidFrom_replacement (t : Bytes) :
    isValidFrom none (replacement ++ t) = isValidFrom none t := rfl

theorem repairFrom_of_complete {owed : Option Owed} {seen s : Bytes} {b : UInt8}
    (h : step owed b = .complete) :
    repairFrom owed seen (b :: s) = seen.reverse ++ b :: repairFrom none [] s := by
  cases owed <;> simp [repairFrom, h]

theorem repairFrom_of_more {owed : Option Owed} {o : Owed} {seen s : Bytes} {b : UInt8}
    (h : step owed b = .more o) :
    repairFrom owed seen (b :: s) = repairFrom (some o) (b :: seen) s := by
  cases owed <;> simp [repairFrom, h]

theorem repairFrom_of_valid {owed : Option Owed} {seen s : Bytes}
    (h : isValidFrom owed s = true) (hseen : owed = none → seen = []) :
    repairFrom owed seen s = seen.reverse ++ s := by
  induction s generalizing owed seen with
  | nil =>
    cases owed with
    | none => simp [repairFrom, hseen rfl]
    | some o => cases h
  | cons b s ih =>
    rw [isValidFrom] at h
    cases hstep : step owed b with
    | complete =>
      rw [hstep] at h
      rw [repairFrom_of_complete hstep, ih h fun _ => rfl]
      rfl
    | more o =>
      rw [hstep] at h
      rw [repairFrom_of_more hstep, ih h fun ho => by cases ho]
      simp
    | refused =>
      rw [hstep] at h
      cases h

@[simp] theorem repair_of_valid {s : Bytes} (h : isValid s = true) : repair s = s :=
  repairFrom_of_valid h fun _ => rfl

/-- `seen`, latest first, is a sequence that has begun and still owes this. -/
def Began (owed : Option Owed) (seen : Bytes) : Prop :=
  ∀ t, isValidFrom none (seen.reverse ++ t) = isValidFrom owed t

theorem Began.cons {owed owed' : Option Owed} {seen : Bytes} {b : UInt8} (h : Began owed seen)
    (hb : ∀ t, isValidFrom owed (b :: t) = isValidFrom owed' t) : Began owed' (b :: seen) := by
  intro t
  rw [List.reverse_cons, List.append_assoc, List.singleton_append, h, hb]

theorem isValid_repairFrom {owed : Option Owed} {seen : Bytes} (h : Began owed seen) (s : Bytes) :
    isValidFrom none (repairFrom owed seen s) = true := by
  have hstart : Began none [] := fun _ => rfl
  induction s generalizing owed seen with
  | nil => cases owed <;> rfl
  | cons b s ih =>
    have hcomplete (owed : Option Owed) (hb : step owed b = .complete) (t : Bytes) :
        isValidFrom owed (b :: t) = isValidFrom none t := by rw [isValidFrom, hb]
    have hmore {owed : Option Owed} {o : Owed} (hb : step owed b = .more o) (t : Bytes) :
        isValidFrom owed (b :: t) = isValidFrom (some o) t := by rw [isValidFrom, hb]
    cases hstep : step owed b with
    | complete =>
      rw [repairFrom_of_complete hstep, h, hcomplete owed hstep, ih hstart]
    | more o =>
      rw [repairFrom_of_more hstep, ih (h.cons (hmore hstep))]
    | refused =>
      cases owed with
      | none =>
        have hrepair : repairFrom none seen (b :: s) = replacement ++ repairFrom none [] s := by
          simp [repairFrom, hstep]
        rw [hrepair, isValidFrom_replacement, ih hstart]
      | some o =>
        -- The byte that breaks the sequence may start another one.
        cases hfirst : first b with
        | complete =>
          have hrepair : repairFrom (some o) seen (b :: s)
              = replacement ++ b :: repairFrom none [] s := by simp [repairFrom, hstep, hfirst]
          rw [hrepair, isValidFrom_replacement, hcomplete none hfirst, ih hstart]
        | more o' =>
          have hrepair : repairFrom (some o) seen (b :: s)
              = replacement ++ repairFrom (some o') [b] s := by simp [repairFrom, hstep, hfirst]
          have hbegan : Began (some o') [b] := hstart.cons (hmore hfirst)
          rw [hrepair, isValidFrom_replacement, ih hbegan]
        | refused =>
          have hrepair : repairFrom (some o) seen (b :: s)
              = replacement ++ (replacement ++ repairFrom none [] s) := by
            simp [repairFrom, hstep, hfirst]
          rw [hrepair, isValidFrom_replacement, isValidFrom_replacement, ih hstart]

@[simp] theorem isValid_repair (s : Bytes) : isValid (repair s) = true :=
  isValid_repairFrom (fun _ => rfl) s

end Utf8

namespace Json

theorem hex4?_control {n : Nat} (h : n < 32) :
    hex4? 48 48 (hexDigit (n / 16)) (hexDigit (n % 16)) = some n := by
  revert n
  decide

theorem stringBody_quote (t : Bytes) : stringBody (34 :: t) = some ([], t) := by
  rw [stringBody.eq_def]
  rfl

theorem stringBody_plain {b : UInt8} (hquote : b ≠ 34) (hcontrol : ¬b < 32) (hslash : b ≠ 92)
    (t : Bytes) : stringBody (b :: t) = prepend [b] (stringBody t) := by
  rw [stringBody.eq_def]
  simp only [if_neg hquote, if_neg hcontrol, if_pos hslash]

theorem stringBody_letter {e x : UInt8} (he : e ≠ 117) (hx : escaped? e = some x) (t : Bytes) :
    stringBody (92 :: e :: t) = prepend [x] (stringBody t) := by
  have hcontrol : ¬(92 : UInt8) < 32 := by decide
  rw [stringBody.eq_def]
  simp [hcontrol, he, hx]

theorem stringBody_control {b : UInt8} (h : b < 32) (t : Bytes) :
    stringBody (lit "\\u00" ++ [hexDigit (b.toNat / 16), hexDigit (b.toNat % 16)] ++ t)
      = prepend [b] (stringBody t) := by
  have hn : b.toNat < 32 := h
  have hlit (x y : UInt8) :
      lit "\\u00" ++ [x, y] ++ t = 92 :: 117 :: 48 :: 48 :: x :: y :: t := rfl
  have hcontrol : ¬(92 : UInt8) < 32 := by decide
  have hlow : isLowSurrogate b.toNat = false := by
    simp only [isLowSurrogate, Bool.and_eq_false_imp, decide_eq_true_eq, decide_eq_false_iff_not]
    omega
  have hhigh : isHighSurrogate b.toNat = false := by
    simp only [isHighSurrogate, Bool.and_eq_false_imp, decide_eq_true_eq, decide_eq_false_iff_not]
    omega
  have hencode : Utf8.encode b.toNat = [b] := by
    rw [Utf8.encode, if_pos (by omega), UInt8.ofNat_toNat]
  rw [hlit, stringBody.eq_def]
  simp [hcontrol, hex4?_control hn, hlow, hhigh, hencode]

theorem stringBody_escapeByte (b : UInt8) (t : Bytes) :
    stringBody (escapeByte b ++ t) = prepend [b] (stringBody t) := by
  unfold escapeByte
  simp only [beq_iff_eq]
  split
  · next h => exact h ▸ stringBody_letter (e := 34) (by decide) rfl t
  split
  · next h => exact h ▸ stringBody_letter (e := 92) (by decide) rfl t
  split
  · next h => exact h ▸ stringBody_letter (e := 98) (by decide) rfl t
  split
  · next h => exact h ▸ stringBody_letter (e := 102) (by decide) rfl t
  split
  · next h => exact h ▸ stringBody_letter (e := 110) (by decide) rfl t
  split
  · next h => exact h ▸ stringBody_letter (e := 114) (by decide) rfl t
  split
  · next h => exact h ▸ stringBody_letter (e := 116) (by decide) rfl t
  next hquote hslash _ _ _ _ _ =>
  split
  · next hcontrol => exact stringBody_control hcontrol t
  · next hcontrol => exact stringBody_plain hquote hcontrol hslash t

theorem stringBody_written (s rest : Bytes) :
    stringBody (s.flatMap escapeByte ++ 34 :: rest) = some (s, rest) := by
  induction s with
  | nil => exact stringBody_quote rest
  | cons b s ih =>
    rw [List.flatMap_cons, List.append_assoc, stringBody_escapeByte, ih]
    rfl

theorem string?_quoted {s : Bytes} (h : Utf8.isValid s = true) (rest : Bytes) :
    ∃ r, quoted s ++ rest = 34 :: r ∧ string? r = some (s, rest) := by
  refine ⟨s.flatMap escapeByte ++ 34 :: rest, by simp [quoted], ?_⟩
  simp only [string?, stringBody_written, h, if_true]

end Json
end Lorebook
