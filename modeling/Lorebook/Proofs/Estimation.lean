import Lorebook.Proofs.Tables
import Lorebook.Tokens

set_option autoImplicit false

/-!
Estimators that keep answers answer as the function behind them, as long as all they keep are true
answers; and asking never puts a false one there.
-/

namespace Lorebook

namespace Estimator

/-- All that is kept are answers of the function behind. -/
def Faithful : Estimator → Prop
  | .function _ => True
  | .caching inner _ memo => inner.Faithful ∧ ∀ s n, Table.get? s memo = some n → n = inner.value s

def tokens (est : Estimator) (text : Bytes) : Int :=
  if est.value text < 0 then 0 else est.value text

variable {est : Estimator}

@[simp] theorem value_estimate (est : Estimator) (s : Bytes) :
    (est.estimate s).2.value = est.value := by
  induction est with
  | function f => rfl
  | caching inner limit memo ih =>
    simp only [estimate]
    split
    · rfl
    · exact ih

theorem Faithful.estimate_fst (h : est.Faithful) (s : Bytes) :
    (est.estimate s).1 = est.value s := by
  induction est with
  | function f => rfl
  | caching inner limit memo ih =>
    obtain ⟨hinner, hmemo⟩ := h
    simp only [estimate]
    split
    · next n hn => exact hmemo s n hn
    · exact ih hinner

theorem Faithful.estimate_snd (h : est.Faithful) (s : Bytes) : (est.estimate s).2.Faithful := by
  induction est with
  | function f => trivial
  | caching inner limit memo ih =>
    obtain ⟨hinner, hmemo⟩ := h
    simp only [estimate]
    split
    · exact ⟨hinner, hmemo⟩
    · refine ⟨ih hinner, fun x n hn => ?_⟩
      rw [value_estimate]
      rw [Table.get?_put] at hn
      split at hn
      · next hx =>
        cases hn
        rw [hinner.estimate_fst, hx]
      · split at hn
        · cases hn
        · exact hmemo x n hn

end Estimator
end Lorebook
