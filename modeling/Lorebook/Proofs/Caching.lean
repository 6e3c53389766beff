import Lorebook.Proofs.Regeneration

set_option autoImplicit false

/-!
Kept answers make no difference. Whatever it was asked before, an estimator that keeps answers gives
those of the one behind it, never keeps more than its limit allows, and leaves evaluations as they
are.
-/

namespace Lorebook

theorem Table.length_put_le {β : Type} (k : Bytes) (v : β) (t : Table β) :
    (put k v t).length ≤ t.length + 1 := by
  induction t with
  | nil => simp [put]
  | cons r t ih =>
    rw [put]
    split
    · simp
    · simpa using ih

namespace Estimator

def after (est : Estimator) (asked : List Bytes) : Estimator :=
  asked.foldl (fun est s => (est.estimate s).2) est

variable {est inner : Estimator} {limit : Nat} {memo : Table Int}

theorem value_after (est : Estimator) (asked : List Bytes) :
    (est.after asked).value = est.value := by
  induction asked generalizing est with
  | nil => rfl
  | cons s asked ih => exact (ih (est.estimate s).2).trans (value_estimate est s)

theorem after_snoc (est : Estimator) (asked : List Bytes) (s : Bytes) :
    est.after (asked ++ [s]) = ((est.after asked).estimate s).2 := List.foldl_concat ..

theorem Faithful.after (h : est.Faithful) (asked : List Bytes) : (est.after asked).Faithful := by
  induction asked generalizing est with
  | nil => exact h
  | cons s asked ih => exact ih (h.estimate_snd s)

theorem Faithful.caching (h : inner.Faithful) (limit : Nat) : (caching inner limit []).Faithful :=
  ⟨h, nofun⟩

/-- An estimator keeps no more answers than it may, and one if it may keep none. -/
def WithinLimit : Estimator → Prop
  | .function _ => True
  | .caching _ limit memo => memo.length ≤ max 1 limit

theorem WithinLimit.estimate (h : (caching inner limit memo).WithinLimit) (s : Bytes) :
    ∃ inner' memo', ((caching inner limit memo).estimate s).2 = caching inner' limit memo' ∧
      (caching inner' limit memo').WithinLimit := by
  simp only [Estimator.estimate]
  split
  · exact ⟨inner, memo, rfl, h⟩
  · refine ⟨_, _, rfl, ?_⟩
    dsimp only [WithinLimit]
    split
    · exact Nat.le_trans (Table.length_put_le _ _ _) (Nat.le_max_left 1 limit)
    · next hroom =>
      have hput := Table.length_put_le s (inner.estimate s).1 memo
      omega

theorem size_after_le (h : (caching inner limit memo).WithinLimit) (asked : List Bytes) :
    ((caching inner limit memo).after asked).size ≤ max 1 limit := by
  induction asked generalizing inner memo with
  | nil => exact h
  | cons s asked ih =>
    obtain ⟨inner', memo', heq, hbounded⟩ := h.estimate s
    rw [after, List.foldl_cons, heq]
    exact ih hbounded

end Estimator

namespace Scan

/-- An evaluation sees of its estimator only the function behind. -/
theorem evaluate_replaced {sc : Scanner} {est : Estimator} (h : sc.estimator.Faithful)
    (h' : est.Faithful) (hvalue : est.value = sc.estimator.value) (books : List Book) (o : Options)
    (vars : Variables) (random : Random) :
    let r := evaluate sc books o vars random
    let r' := evaluate { sc with estimator := est } books o vars random
    r'.outcome = r.outcome ∧ r'.vars = r.vars ∧ r'.random = r.random := by
  intro r r'
  cases course books o vars with
  | noBooks hb =>
    rw [show r' = _ from evaluate_of_no_books hb, show r = _ from evaluate_of_no_books hb]
    exact ⟨rfl, rfl, rfl⟩
  | untriggered hb he =>
    rw [show r' = _ from evaluate_of_untriggered hb he,
      show r = _ from evaluate_of_untriggered hb he]
    exact ⟨rfl, rfl, rfl⟩
  | fault f hb he hs =>
    rw [show r' = _ from evaluate_of_fault hb he hs, show r = _ from evaluate_of_fault hb he hs]
    exact ⟨rfl, rfl, rfl⟩
  | scan fx warnings hb he hs =>
    let su := setup sc books o (fx.check vars).1
    let log := openingLine sc (triggeredEntries books o.generation) o.generation ++ warnings
    have hanswers : su.effects.SameAnswers su.effects := ⟨rfl, fun _ => rfl, fun _ => rfl⟩
    obtain ⟨hcandidates, hused, hrandom⟩ := ending_replaced su h h' hvalue hanswers random log log
    rw [show r' = _ from evaluate_of_start hb he hs, show r = _ from evaluate_of_start hb he hs]
    refine ⟨?_, ?_, hrandom⟩
    · exact congrArg₂ (fun used cs => Except.ok (outcome books o used cs)) hused hcandidates
    · exact congrArg (fun cs : Candidates => ((fx.check vars).1.commit
        ((cs.filter (·.isSelected)).map (·.entry)) (fx.check vars).2).2) hcandidates

theorem exists_asked (sc : Scanner) (books : List Book) (o : Options) (vars : Variables)
    (random : Random) : ∃ asked : List Bytes,
      (evaluate sc books o vars random).estimator = sc.estimator.after asked := by
  cases course books o vars with
  | noBooks hb => exact ⟨[], by rw [evaluate_of_no_books hb]; rfl⟩
  | untriggered hb he => exact ⟨[], by rw [evaluate_of_untriggered hb he]; rfl⟩
  | fault f hb he hs => exact ⟨[], by rw [evaluate_of_fault hb he hs]; rfl⟩
  | scan fx warnings hb he hs =>
    rw [evaluate_of_start hb he hs]
    refine estimator_ending (P := fun est => ∃ asked, est = sc.estimator.after asked) ?_ ⟨[], rfl⟩
    rintro _ text ⟨asked, rfl⟩
    exact ⟨asked ++ [text], (Estimator.after_snoc _ asked text).symm⟩

end Scan

namespace Estimator

theorem caching_transparent {inner : Estimator} (h : inner.Faithful) (limit : Nat)
    (asked : List Bytes) :
    let est := (caching inner limit []).after asked
    est.size ≤ max 1 limit ∧
    (∀ text, (est.estimate text).1 = (inner.estimate text).1) ∧
    ∀ (sc : Scanner) (books : List Book) (o : Scan.Options) (vars : Variables) (random : Random),
      let direct := Scan.evaluate { sc with estimator := inner } books o vars random
      let cached := Scan.evaluate { sc with estimator := est } books o vars random
      cached.outcome = direct.outcome ∧ cached.vars = direct.vars ∧
        cached.random = direct.random ∧ ∃ more, cached.estimator = est.after more := by
  intro est
  have hest : est.Faithful := (h.caching limit).after asked
  have hvalue : est.value = inner.value := value_after _ asked
  refine ⟨size_after_le (Nat.zero_le _) asked, fun text => ?_, fun sc books o vars random => ?_⟩
  · rw [hest.estimate_fst, h.estimate_fst, hvalue]
  · obtain ⟨houtcome, hvars, hrandom⟩ := @Scan.evaluate_replaced { sc with estimator := inner } est
      h hest hvalue books o vars random
    exact ⟨houtcome, hvars, hrandom, Scan.exists_asked _ books o vars random⟩

theorem caching_transparent_nested :
    let inner := caching .plain 1 [(lit "abcd", 1)]
    let est := (caching inner 2 []).after [lit "abcdefgh", lit "x", lit "abcd"]
    let direct := Scan.evaluate { Scanner.standard with estimator := inner } [Book.constantTrio] {}
      [] (.ofList [])
    let cached := Scan.evaluate { Scanner.standard with estimator := est } [Book.constantTrio] {}
      [] (.ofList [])
    inner.Faithful ∧ est.size = 1 ∧ est.size ≤ max 1 2 ∧
      (est.estimate (lit "abcdefgh")).1 = 2 ∧
      (est.estimate (lit "abcdefgh")).1 = (inner.estimate (lit "abcdefgh")).1 ∧
      cached.outcome = direct.outcome ∧ cached.vars = direct.vars ∧
      cached.random = direct.random ∧ ∃ more, cached.estimator = est.after more := by
  intro inner est direct cached
  have hinner : inner.Faithful := by
    refine ⟨trivial, fun s n hn => ?_⟩
    obtain ⟨rfl, rfl⟩ : s = lit "abcd" ∧ n = 1 := by simpa [Table.get?, eq_comm] using hn
    decide +kernel
  obtain ⟨hsize, hanswers, hevaluations⟩ :=
    caching_transparent hinner 2 [lit "abcdefgh", lit "x", lit "abcd"]
  exact ⟨hinner, by decide +kernel, hsize, by decide +kernel, hanswers _,
    hevaluations .standard [Book.constantTrio] {} [] (.ofList [])⟩

end Estimator
end Lorebook
