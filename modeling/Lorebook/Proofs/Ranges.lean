import Lorebook.Proofs.Coherence
import Lorebook.Proofs.Reload

set_option autoImplicit false

/-!
The ranges that entries are read with are those of every form that a scan gives them: directives add
nothing but keys, and what a record puts in the place of a number is moved into its range.
-/

namespace Lorebook

open Bounded (Within)

namespace Entry

variable {e : Entry}

/-- An entry in its ranges that stays in them in a recursive activation. -/
structure Ready (e : Entry) : Prop extends Orderly e where
  fallback : ∀ d ∈ e.fallbackDirectives, d.2.KeysTidy

theorem ready_of_ofJson {v : Json} {uid? : Option Bytes} {fresh source bookName : Bytes}
    (h : ofJson v uid? fresh source bookName = .ok e) : e.Ready where
  toOrderly := (wellRead_of_ofJson h).toOrderly
  fallback := by
    obtain ⟨logic, rfl⟩ := ofJson_eq_ok h
    exact (Directive.typed_parse _).fallback

theorem Ready.recursiveVariant (h : e.Ready) : e.recursiveVariant.Orderly :=
  h.toOrderly.withDirectives h.fallback

/-- A record changes an entry within its ranges, whatever values it gives. -/
theorem Orderly.overridden (h : e.Orderly) (o : Json) : (e.overridden o).Orderly := by
  have hnumber (names : List Bytes) {old : Int} (hold : Within old) :
      Within (((overrideValue? o names).bind Json.toInt?).getD old) := by
    cases hn : (overrideValue? o names).bind Json.toInt? with
    | none => exact hold
    | some n =>
      obtain ⟨v, _, hv⟩ := Option.bind_eq_some_iff.mp hn
      exact Json.within_of_toInt? hv
  have hweight (v : Json) : v.toInt?.getD e.groupWeight ≤ Bounded.max := by
    cases hn : v.toInt? with
    | none => exact h.groupWeight.2
    | some n => exact (Json.within_of_toInt? hn).2
  have hspan {v : Json} {n : Int} (hn : Fields.positive? v.toInt? = some n) :
      0 < n ∧ n ≤ Bounded.max := by
    obtain ⟨hv, hpos⟩ := Fields.positive?_eq_some hn
    exact ⟨hpos, (Json.within_of_toInt? hv).2⟩
  refine { h with
    depth := hnumber _ h.depth
    insertionOrder := hnumber _ h.insertionOrder
    probability := ?_
    group := ?_
    groupWeight := ?_
    sticky := fun n hn => ?_
    cooldown := fun n hn => ?_
    delay := fun n hn => ?_
    delayUntilRecursion := fun n hn => ?_ }
  all_goals
    unfold Entry.overridden at *
    dsimp only at *
  · split
    · exact inRange_bounds (by decide) _
    · exact h.probability
  · cases overrideValue? o [lit "group"] with
    | none => exact h.group
    | some v => exact Bytes.trim_trim v.toText
  · split
    · exact atLeast_bounds (by decide) (hweight _)
    · exact h.groupWeight
  · split at hn
    · exact hspan hn
    · exact h.sticky n hn
  · split at hn
    · exact hspan hn
    · exact h.cooldown n hn
  · split at hn
    · exact hspan hn
    · exact h.delay n hn
  · split at hn
    · exact recursionLevel_bounds hn
    · exact h.delayUntilRecursion n hn

end Entry

namespace Scan

section Forms

variable {su : Setup} {e v : Entry}

theorem Form.orderly (h : Form su e v) (he : e.Ready) : v.Orderly := by
  cases h with
  | plain => exact he.toOrderly
  | recursive => exact he.recursiveVariant
  | forced _ => exact he.toOrderly.overridden _

/-- Candidates are forms of entries, at any time of a scan. -/
theorem Coherent.orderly {s : State} (hs : Coherent su s) (hsu : ∀ e ∈ su.entries, e.Ready) :
    ∀ c ∈ s.candidates, c.entry.Orderly := by
  intro c hc
  obtain ⟨e, he, _, hform⟩ := (hs.sound c hc).form
  exact hform.orderly (hsu e he)

end Forms

section Evaluate

variable {sc : Scanner} {books : List Book} {o : Options} {vars : Variables} {random : Random}

theorem ready_triggered (h : ∀ b ∈ books, ∃ v source, Book.ofJson v source = .ok b)
    (g : GenerationType) : ∀ e ∈ triggeredEntries books g, e.Ready := by
  intro e he
  obtain ⟨w, uid, source, bookName, hentry⟩ := Book.exists_reading_of_triggered h he
  exact Entry.ready_of_ofJson hentry

/-- Whatever the books are read from and whatever is forced, the entry of a candidate is in its
ranges, after every pass and in the outcome. -/
theorem candidates_orderly (h : ∀ b ∈ books, ∃ v source, Book.ofJson v source = .ok b) :
    (∀ su s, opening? sc books o vars random = some (su, s) → ∀ t ∈ trace su (passBound su) s,
      ∀ c ∈ (step su t).state.candidates, c.entry.Orderly) ∧
    ∀ out, (evaluate sc books o vars random).outcome = .ok out →
      ∀ c ∈ out.candidates, c.entry.Orderly := by
  have hready {su : Setup} {s : State} (hopen : opening? sc books o vars random = some (su, s)) :
      ∀ e ∈ su.entries, e.Ready := by
    obtain ⟨_, _, rfl, _⟩ := opening?_eq_some hopen
    exact ready_triggered h o.generation
  constructor
  · intro su s hopen t ht
    exact ((coherent_of_opening hopen).of_mem_trace ht).step.orderly (hready hopen)
  · intro out hout
    obtain ⟨_, rfl⟩ | ⟨su, s, hopen, rfl⟩ := evaluate_cases hout
    · exact fun c hc => absurd hc List.not_mem_nil
    · exact (coherent_of_opening hopen).ending.orderly (hready hopen)

def wildBook : Json :=
  .obj [(lit "entries", .arr [
      .obj [(lit "content", .str (lit "dragon")), (lit "uid", .str (lit "s"))],
      .obj [(lit "content", .str (lit "@@@exclude_keys a, ,b\n@@additional_keys , wyrm ,\nx")),
        (lit "key", .str (lit " dragon,, ")), (lit "probability", .int (-5)),
        (lit "sticky", .int 0), (lit "triggers", .str (lit "normal, normal,quiet")),
        (lit "uid", .str (lit "w")), (lit "useProbability", .bool false)]]),
    (lit "recursive_scanning", .bool true)]

def Options.wild : Options where
  text := some (lit "x")
  forced := .arr [.obj [(lit "cooldown", .int (-3)), (lit "group", .str (lit " g ")),
    (lit "groupWeight", .int (-7)), (lit "probability", .int 300), (lit "uid", .str (lit "s"))]]

theorem candidates_orderly_wildBook : ∃ b out, Book.ofJson wildBook [] = .ok b ∧
    (evaluate .standard [b] .wild [] (.ofList [])).outcome = .ok out ∧
    out.candidates.map (fun c => (c.entry.uid, c.kind, c.entry.keys, c.entry.excludeKeys))
      = [(lit "s", .forced, [], []),
        (lit "w", .recursive, [lit "dragon", lit "wyrm"], [lit "a", lit "b"])] ∧
    ∀ c ∈ out.candidates, c.entry.Orderly := by
  have hcheck : (Book.ofObject wildBook []).toOption.any (fun b =>
      (evaluate .standard [b] .wild [] (.ofList [])).outcome.toOption.any (fun out =>
        out.candidates.map (fun c => (c.entry.uid, c.kind, c.entry.keys, c.entry.excludeKeys))
          = [(lit "s", .forced, [], []),
            (lit "w", .recursive, [lit "dragon", lit "wyrm"], [lit "a", lit "b"])])) = true := by
    decide +kernel
  rw [← Book.ofJson_of_plain (v := wildBook) rfl (by decide +kernel)] at hcheck
  cases hb : Book.ofJson wildBook [] with
  | error f =>
    rw [hb] at hcheck
    cases hcheck
  | ok b =>
    rw [hb, Except.toOption, Option.any_some] at hcheck
    cases hout : (evaluate .standard [b] .wild [] (.ofList [])).outcome with
    | error f =>
      rw [hout] at hcheck
      cases hcheck
    | ok out =>
      rw [hout, Except.toOption, Option.any_some, decide_eq_true_eq] at hcheck
      have hread : ∀ b' ∈ [b], ∃ v source, Book.ofJson v source = .ok b' :=
        fun b' hb' => ⟨wildBook, [], by rw [List.mem_singleton.mp hb', hb]⟩
      exact ⟨b, out, rfl, hout, hcheck, (candidates_orderly hread).2 out hout⟩

end Evaluate
end Scan
end Lorebook
