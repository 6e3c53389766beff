import Lorebook.Proofs.Counting
import Lorebook.Proofs.Judging
import Lorebook.Proofs.ParallelRun
import Lorebook.Proofs.Reading

set_option autoImplicit false

/-!
An evaluation that is repeated at the same clock. What the first one began is taken back before the
second one begins it again, and what the first one handed over to a cooldown stays handed over; so
both see the same active effects and store the same text.
-/

namespace Lorebook

/-- Cooldowns are above zero. One that is not still keeps its entry out where a sticky effect hands
over to it, but not when that is done again; no reader makes such an entry. -/
def CoolsDown (entries : List Entry) : Prop := ∀ e ∈ entries, ∀ n, e.cooldown = some n → 0 < n

namespace Effects

section Tables

variable {p : Bytes → Prop} {clock : Int} {entries es : List Entry} {k : EffectKind}
  {rs s c : Table Json} {key : Bytes} {data : Json}

theorem get?_renewed_of_keeps (h : Kept p rs) (hget : Table.get? key rs = some data)
    (hkeeps : (judge clock entries k key data).keeps = true) :
    Table.get? key (renewed clock entries k es rs) = some data := by
  refine get?_foldl_begun_of_some ?_
  rw [get?_staying h.ordered, hget, Option.filter_some, if_pos hkeeps]

/-- A record that is there after a commit has been kept, or begins now. -/
theorem renewed_cases (lo : Bounded.min ≤ clock) (hi : clock ≤ Bounded.max)
    (h : Kept p rs) (hget : Table.get? key (renewed clock entries k es rs) = some data) :
    (Table.get? key rs = some data ∧ (judge clock entries k key data).keeps = true) ∨
      judge clock entries k key data = .dropped := by
  cases hstay : Table.get? key (staying clock entries k rs) with
  | some data' =>
    rw [renewed, get?_foldl_begun_of_some hstay] at hget
    cases hget
    rw [get?_staying h.ordered] at hstay
    exact .inl (Option.filter_eq_some_iff.mp hstay)
  | none =>
    rw [renewed, get?_foldl_begun_of_none hstay] at hget
    obtain ⟨n, _, rfl⟩ := Option.map_eq_some_iff.mp hget
    exact .inr (judge_record_now lo hi n)

theorem staying_renewed (lo : Bounded.min ≤ clock) (hi : clock ≤ Bounded.max)
    (h : Kept p rs) (hes : ∀ e ∈ es, p e.key) :
    staying clock entries k (renewed clock entries k es rs) = staying clock entries k rs := by
  have hrenewed : Kept p (renewed clock entries k es rs) := h.renewed lo hi hes k
  refine (hrenewed.staying k).ordered.ext (h.staying k).ordered fun key => ?_
  rw [get?_staying hrenewed.ordered, get?_staying h.ordered]
  ext data
  simp only [Option.filter_eq_some_iff]
  constructor
  · intro ⟨hget, hkeeps⟩
    rcases renewed_cases lo hi h hget with hold | hdropped
    · exact hold
    · rw [hdropped] at hkeeps
      cases hkeeps
  · intro ⟨hget, hkeeps⟩
    exact ⟨get?_renewed_of_keeps h hget hkeeps, hkeeps⟩

theorem mem_running_renewed (lo : Bounded.min ≤ clock) (hi : clock ≤ Bounded.max)
    (h : Kept p rs) (hes : ∀ e ∈ es, p e.key) :
    key ∈ running clock entries k (renewed clock entries k es rs) ↔
      key ∈ running clock entries k rs := by
  rw [mem_running (h.renewed lo hi hes k).ordered, mem_running h.ordered]
  constructor
  · intro ⟨data, hget, hactive⟩
    rcases renewed_cases lo hi h hget with ⟨hold, _⟩ | hdropped
    · exact ⟨data, hold, hactive⟩
    · rw [hdropped] at hactive
      cases hactive
  · intro ⟨data, hget, hactive⟩
    exact ⟨data, get?_renewed_of_keeps h hget (by rw [hactive]; rfl), hactive⟩

theorem overdue_renewed (lo : Bounded.min ≤ clock) (hi : clock ≤ Bounded.max)
    (h : Kept p rs) (hes : ∀ e ∈ es, p e.key) :
    overdue clock entries k (renewed clock entries k es rs) = [] := by
  refine List.eq_nil_iff_forall_not_mem.mpr fun e he => ?_
  obtain ⟨data, hget, hended⟩ := (mem_overdue (h.renewed lo hi hes k).ordered).mp he
  rcases renewed_cases lo hi h hget with ⟨_, hkeeps⟩ | hdropped
  · rw [hended] at hkeeps
    cases hkeeps
  · rw [hended] at hdropped
    cases hdropped

theorem renewed_renewed (lo : Bounded.min ≤ clock) (hi : clock ≤ Bounded.max) (h : Kept p rs)
    (hes : ∀ e ∈ es, p e.key) : renewed clock entries k es (renewed clock entries k es rs)
      = renewed clock entries k es rs := by
  rw [renewed, staying_renewed lo hi h hes]
  rfl

theorem handed_renewed (lo : Bounded.min ≤ clock) (hi : clock ≤ Bounded.max) (h : Kept p s)
    (hes : ∀ e ∈ es, p e.key) (c : Table Json) :
    handed clock entries (renewed clock entries .sticky es s) c = c := by
  rw [handed, overdue_renewed lo hi h hes]
  rfl

theorem mem_running_handed (lo : Bounded.min ≤ clock) (hi : clock < Bounded.max)
    (hcool : CoolsDown entries) (hs : Kept p s)
    (hc : Kept p c) {e : Entry} (he : e ∈ overdue clock entries .sticky s)
    (hsome : e.cooldown.isSome = true) :
    e.key ∈ running clock entries .cooldown (handed clock entries s c) := by
  obtain ⟨n, hn⟩ := Option.isSome_iff_exists.mp hsome
  have hfind := find?_of_mem_overdue he hs.ordered
  have hpos : 0 < n := hcool e (List.mem_of_find?_eq_some hfind) n hn
  have hend : ¬Bounded.add clock n ≤ clock := by
    unfold Bounded.add Bounded.clamp
    repeat' split
    all_goals omega
  have hhanded : Kept p (handed clock entries s c) := hs.handed lo (Int.le_of_lt hi) hc
  refine (mem_running hhanded.ordered).mpr ⟨_, get?_handed_of_mem hs.ordered he hn c, ?_⟩
  rw [judge_record (k := .cooldown) lo (Int.le_of_lt hi) hfind hsome fun _ => rfl, if_neg hend]

end Tables

/-- Checking and committing once more at the same clock finds the same effects active, and stores
what is stored already. -/
theorem check_again {clock : Int} {entries selected : List Entry} {vars : Variables}
    {stateKey : Bytes} {fx : Effects} {warnings : List Bytes} (lo : Bounded.min ≤ clock)
    (hi : clock < Bounded.max) (hvalid : ∀ e ∈ entries ++ selected, Utf8.isValid e.key = true)
    (hcool : CoolsDown entries)
    (hstart : start clock entries vars stateKey false = .ok (fx, warnings)) :
    let vars' := ((fx.check vars).1.commit selected (fx.check vars).2).2
    ∃ gx, start clock entries vars' stateKey false = .ok (gx, []) ∧
      (fx.check vars).1.SameAnswers (gx.check vars').1 ∧
      ((gx.check vars').1.commit selected (gx.check vars').2).2 = vars' := by
  obtain ⟨slot, hslot, _, rfl⟩ := start_eq_ok hstart
  have hi' : clock ≤ Bounded.max := Int.le_of_lt hi
  have hobj := isObject_loadState stateKey (Table.get? slot vars)
  have hlegible := legible_loadState stateKey (Table.get? slot vars)
  clear hstart
  generalize (loadState stateKey (Table.get? slot vars)).1 = state at *
  have hes : ∀ e ∈ selected, Utf8.isValid e.key = true :=
    fun e he => hvalid e (List.mem_append_right _ he)
  have hs : Kept (Utf8.isValid · = true) (records state .sticky) :=
    .records hlegible (fun _ hk => hk) .sticky
  have hc : Kept (Utf8.isValid · = true)
      (handed clock entries (records state .sticky) (records state .cooldown)) :=
    hs.handed lo hi' (.records hlegible (fun _ hk => hk) .cooldown)
  have hs' : Kept (Utf8.isValid · = true)
      (renewed clock entries .sticky selected (records state .sticky)) :=
    hs.renewed lo hi' hes .sticky
  have hc' : Kept (Utf8.isValid · = true) (renewed clock entries .cooldown selected
      (handed clock entries (records state .sticky) (records state .cooldown))) :=
    hc.renewed lo hi' hes .cooldown
  have hobj' : (state.setField (lit "format") format).isObject = true := by simpa using hobj
  have hstored := start_stored clock entries vars hslot hobj hlegible hs' hc'
  rw [reloaded_eq hs'.ordered hs'.keys, reloaded_eq hc'.ordered hc'.keys] at hstored
  rw [commit_check hobj rfl]
  refine ⟨_, hstored, ?_, ?_⟩
  · rw [check_eq hobj rfl, check_eq (by simpa using hobj') rfl]
    dsimp only
    simp only [records_withRecords hobj', EffectKind.pick_sticky, EffectKind.pick_cooldown]
    rw [handed_renewed lo hi' hs hes,
      overdue_renewed lo hi' hs hes]
    refine ⟨rfl, fun key => ?_, fun key => ?_⟩
    · exact decide_eq_decide.mpr (mem_running_renewed lo hi' hs hes)
    · refine decide_eq_decide.mpr ?_
      dsimp only
      rw [List.filter_nil, List.map_nil, List.nil_append, mem_running_renewed lo hi' hc hes,
        List.mem_append, or_iff_right_of_imp]
      intro hkey
      obtain ⟨e, he, rfl⟩ := List.mem_map.mp hkey
      obtain ⟨he, hsome⟩ := List.mem_filter.mp he
      exact mem_running_handed lo hi hcool hs (.records hlegible (fun _ hk => hk) .cooldown) he
        hsome
  · rw [commit_check (by simpa using hobj') rfl]
    dsimp only
    simp only [records_withRecords hobj', EffectKind.pick_sticky, EffectKind.pick_cooldown]
    rw [handed_renewed lo hi' hs hes,
      renewed_renewed lo hi' hs hes, renewed_renewed lo hi' hc hes, setField_withRecords,
      setField_setField, withRecords_withRecords, Table.insert_insert_self]

end Effects

section Readers

/-- The entries of books that are read have cooldowns above zero, if any. -/
theorem coolsDown_triggered {books : List Book} (g : GenerationType)
    (h : ∀ b ∈ books, ∃ v source, Book.ofJson v source = .ok b) :
    CoolsDown (Scan.triggeredEntries books g) := by
  intro e he n hn
  obtain ⟨w, uid, source, bookName, hentry⟩ := Book.exists_reading_of_triggered h he
  exact ((Entry.wellRead_of_ofJson hentry).cooldown n hn).1

end Readers

namespace Scan

section Evaluate

variable {sc : Scanner} {books : List Book} {o : Options} {vars : Variables} {random : Random}

theorem candidates_eq {cs ds : Candidates} (hcs : cs.keys.Nodup) (hkeys : ds.keys = cs.keys)
    (hfind : ∀ k, ds.find? k = cs.find? k) : ds = cs := by
  have hall {cs : Candidates} (h : cs.keys.Nodup) : cs.map some = cs.keys.map cs.find? := by
    rw [Candidates.keys, List.map_map]
    exact List.map_congr_left fun c hc => (Candidates.find?_of_mem h hc).symm
  refine List.map_injective_iff.mpr (Option.some_injective _) ?_
  have hsame : ds.find? = cs.find? := funext hfind
  rw [hall hcs, hall (hkeys ▸ hcs), hkeys, hsame]

theorem exists_key_of_selected {su : Setup} {s : State} (hs : Coherent su s) {e : Entry}
    (he : e ∈ (s.candidates.filter (·.isSelected)).map (·.entry)) :
    ∃ e' ∈ su.entries, e'.key = e.key := by
  obtain ⟨c, hc, rfl⟩ := List.mem_map.mp he
  have hc := hs.sound c (List.mem_filter.mp hc).1
  obtain ⟨e', he', hk, _⟩ := hc.form
  exact ⟨e', he', hk.trans hc.entry_key.symm⟩

/-- The same scan with other records behind the same effects, and with another estimator of the same
function. -/
theorem ending_replaced (su : Setup) {gx : Effects} {est : Estimator}
    (hest : su.scanner.estimator.Faithful) (hest' : est.Faithful)
    (hvalue : est.value = su.scanner.estimator.value) (hanswers : su.effects.SameAnswers gx)
    (random : Random) (log log' : List Bytes) :
    let t := ending su (.initial su random log)
    let su' := su.recast su.entries gx est
    let t' := ending su' (.initial su' random log')
    t'.candidates = t.candidates ∧ t'.used = t.used ∧ t'.random = t.random := by
  intro t su' t'
  have hcoherent : Coherent su t := (Coherent.initial su random log).ending
  have hr : Recasts True su su.entries gx := ⟨hanswers, .refl _, fun _ => rfl, .inl rfl⟩
  have hbegin : Parallel True (State.initial su random log) (.initial su' random log') :=
    ⟨rfl, fun _ => rfl, fun _ => rfl, hvalue, hest, hest'⟩
  have hend : Parallel True t t' := hbegin.ending hr _ (.initial su random log)
  have hused : t'.used = t.used := hend.same (·.used) fun _ => rfl
  have hrandom : t'.random = t.random := hend.same (·.random) fun _ => rfl
  exact ⟨candidates_eq hcoherent.nodup (hend.order trivial) hend.find, hused, hrandom⟩

theorem ending_recast (su : Setup) {gx : Effects} (hest : su.scanner.estimator.Faithful)
    (hanswers : su.effects.SameAnswers gx) (random : Random) (log log' : List Bytes) :
    let t := ending su (.initial su random log)
    let su' := su.recast su.entries gx t.estimator
    let t' := ending su' (.initial su' random log')
    t'.candidates = t.candidates ∧ t'.used = t.used := by
  intro t su' t'
  have hcounts : t.Counts su.scanner.estimator.value := State.Counts.ending ⟨hest, rfl⟩
  obtain ⟨hcandidates, hused, _⟩ :=
    ending_replaced su hest hcounts.1 hcounts.2 hanswers random log log'
  exact ⟨hcandidates, hused⟩

theorem evaluate_again (hest : sc.estimator.Faithful)
    (hvalid : ∀ e ∈ triggeredEntries books o.generation, Utf8.isValid e.key = true)
    (hcool : CoolsDown (triggeredEntries books o.generation))
    (lo : Bounded.min ≤ o.messageCount.getD o.chat.length)
    (hi : o.messageCount.getD o.chat.length < Bounded.max) :
    let first := evaluate sc books o vars random
    let second := evaluate { sc with estimator := first.estimator } books o first.vars random
    second.outcome = first.outcome ∧ second.vars = first.vars ∧
      (books.isEmpty = false → Bytes.isBlank o.stateKey = false →
        ∃ out, first.outcome = .ok out) := by
  intro first second
  by_cases hb : books.isEmpty = true
  · rw [show second = _ from evaluate_of_no_books hb, show first = _ from evaluate_of_no_books hb]
    exact ⟨rfl, rfl, fun hbooks => by simp [hb] at hbooks⟩
  rw [Bool.not_eq_true] at hb
  by_cases he : (triggeredEntries books o.generation).isEmpty = true
  · rw [show second = _ from evaluate_of_untriggered hb he,
      show first = _ from evaluate_of_untriggered hb he]
    exact ⟨rfl, rfl, fun _ _ => ⟨_, rfl⟩⟩
  rw [Bool.not_eq_true] at he
  cases hs : Effects.start (o.messageCount.getD o.chat.length) (triggeredEntries books o.generation)
      vars o.stateKey false with
  | error f =>
    have hfirst : first = _ := evaluate_of_fault hb he hs
    have hvars : first.vars = vars := by rw [hfirst]
    rw [show second = _ from evaluate_of_fault hb he (by rw [hvars]; exact hs), hfirst]
    refine ⟨rfl, rfl, fun _ hkey => ?_⟩
    rw [Effects.start_of_key (Variables.key_of_not_blank hkey)] at hs
    cases hs
  | ok r =>
    obtain ⟨fx, warnings⟩ := r
    have hfirst := @evaluate_of_start sc books o vars random fx warnings hb he hs
    let su := setup sc books o (fx.check vars).1
    let t := ending su (.initial su random
      (openingLine sc (triggeredEntries books o.generation) o.generation ++ warnings))
    have hcoherent : Coherent su t := (Coherent.initial su random _).ending
    have hkeys : ∀ e ∈ triggeredEntries books o.generation
        ++ (t.candidates.filter (·.isSelected)).map (·.entry), Utf8.isValid e.key = true := by
      intro e he
      rcases List.mem_append.mp he with he | he
      · exact hvalid e he
      · obtain ⟨e', he', hk⟩ := exists_key_of_selected hcoherent he
        exact hk ▸ hvalid e' he'
    obtain ⟨gx, hgx, hanswers, hvars⟩ := Effects.check_again lo hi hkeys hcool hs
    have hsecond := @evaluate_of_start { sc with estimator := t.estimator } books o _ random gx []
      hb he hgx
    obtain ⟨hcandidates, hused⟩ := ending_recast su hest hanswers random
      (openingLine sc (triggeredEntries books o.generation) o.generation ++ warnings)
      (openingLine sc (triggeredEntries books o.generation) o.generation ++ [])
    simp only [second, first, hfirst]
    rw [hsecond]
    refine ⟨?_, ?_, fun _ _ => ⟨_, rfl⟩⟩
    · exact congrArg₂ (fun used cs => Except.ok (outcome books o used cs)) hused hcandidates
    · exact Eq.trans (congrArg (fun cs : Candidates => Prod.snd (Effects.commit _
        ((cs.filter (·.isSelected)).map (·.entry)) _)) hcandidates) hvars

def lingeringBook : Json :=
  .obj [(lit "entries", .arr [.obj [(lit "content", .str (lit "DRAGONS")), (lit "cooldown", .int 3),
    (lit "keys", .arr [.str (lit "dragon")]), (lit "sticky", .int 2), (lit "uid", .str (lit "wi"))]])]

theorem evaluate_again_lingering : ∃ book, Book.ofJson lingeringBook [] = .ok book ∧
    let o : Options := { text := some (lit "dragon"), messageCount := some 1 }
    let vars : Variables := [(Effects.defaultKey, lit "\x7bnot json")]
    let first := evaluate .standard [book] o vars (.ofList [])
    let second := evaluate { Scanner.standard with estimator := first.estimator } [book] o
      first.vars (.ofList [])
    second.outcome = first.outcome ∧ second.vars = first.vars ∧
      ∃ out, first.outcome = .ok out := by
  have hcheck : (Book.ofObject lingeringBook []).toOption.any (fun book =>
      (triggeredEntries [book] .normal).all fun e => Utf8.isValid e.key) = true := by
    decide +kernel
  rw [← Book.ofJson_of_plain (v := lingeringBook) rfl (by decide +kernel)] at hcheck
  cases hb : Book.ofJson lingeringBook [] with
  | error f =>
    rw [hb] at hcheck
    cases hcheck
  | ok book =>
    rw [hb, Except.toOption, Option.any_some, List.all_eq_true] at hcheck
    have hcool : CoolsDown (triggeredEntries [book] .normal) :=
      coolsDown_triggered .normal fun b hmem =>
        ⟨lingeringBook, [], by rw [List.mem_singleton.mp hmem, hb]⟩
    obtain ⟨houtcome, hvars, hresult⟩ := @evaluate_again .standard [book]
      { text := some (lit "dragon"), messageCount := some 1 }
      [(Effects.defaultKey, lit "\x7bnot json")] (.ofList []) trivial hcheck hcool (by decide)
      (by decide)
    exact ⟨book, rfl, houtcome, hvars, hresult rfl (by decide)⟩

/-- An entry with a cooldown of zero, whose sticky time ends: it is kept out of the first evaluation
and selected by the second. Under a blank key there is no outcome. -/
theorem not_evaluate_again_uncooled :
    let e : Entry := { uid := lit "wi", keys := [lit "dragon"], content := lit "DRAGONS",
                       sticky := some 2, cooldown := some 0 }
    let o : Options := { text := some (lit "dragon"), messageCount := some 3 }
    let vars : Variables := [(Effects.defaultKey,
      lit "\x7b\"sticky\":\x7b\"unknown:unnamed.wi\":\x7b\"start\":1,\"end\":3\x7d\x7d\x7d")]
    let first := evaluate .standard [{ entries := [e] }] o vars (.ofList [])
    let second := evaluate { Scanner.standard with estimator := first.estimator }
      [{ entries := [e] }] o first.vars (.ofList [])
    Utf8.isValid e.key = true ∧
      first.outcome.toOption.map (·.selectedEntries.map (·.uid)) = some [] ∧
      second.outcome.toOption.map (·.selectedEntries.map (·.uid)) = some [lit "wi"] ∧
      second.vars ≠ first.vars ∧
      (evaluate .standard [{ entries := [e] }] { o with stateKey := lit " " } vars (.ofList [])).outcome
        = .error .blankVariableKey := by
  intro e o vars first second
  exact ⟨by decide +kernel, by decide +kernel, by decide +kernel, by decide +kernel,
    by decide +kernel⟩

end Evaluate
end Scan
end Lorebook
