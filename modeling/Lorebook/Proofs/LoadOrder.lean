import Lorebook.Proofs.ParallelRun
import Lorebook.Proofs.PassCount
import Lorebook.Proofs.Prompt
import Lorebook.Proofs.Records
import Mathlib.Algebra.BigOperators.Group.List.Basic

set_option autoImplicit false

/-!
The order in which books and their entries are loaded makes no difference to an evaluation, as long
as no two triggered entries share their key, or their book and uid. Every table and every sum that
is built in load order is looked at: the budget, the window, the recursion levels, the lineup of a
pass, the stored records, and what goes into the prompt.
-/

namespace Lorebook

structure Book.SameLore (b b' : Book) : Prop where
  entries : b'.entries.Perm b.entries
  rest : b' = { b with entries := b'.entries }

def Reordered (books books' : List Book) : Prop :=
  ∃ between, List.Forall₂ Book.SameLore books between ∧ between.Perm books'

theorem foldl_add_perm {ms ms' : List Int} (hp : ms'.Perm ms) (hpos : ∀ m ∈ ms', 0 < m) :
    ms'.foldl Bounded.add 0 = ms.foldl Bounded.add 0 := by
  have hclamp (ms : List Int) (hpos : ∀ m ∈ ms, 0 < m) {n : Int} (lo : 0 ≤ n)
      (hi : n ≤ Bounded.max) :
      0 ≤ ms.sum ∧ ms.foldl Bounded.add n = Bounded.clamp (n + ms.sum) := by
    have hmin : Bounded.min < 0 := by decide
    induction ms generalizing n with
    | nil => simpa using (Bounded.clamp_of_mem (by omega) hi).symm
    | cons m ms ih =>
      have hm := hpos m List.mem_cons_self
      have hadd : Bounded.add n m = if Bounded.max < n + m then Bounded.max else n + m := by
        rw [Bounded.add, Bounded.clamp, if_neg (by omega)]
      have hrange : 0 ≤ Bounded.add n m ∧ Bounded.add n m ≤ Bounded.max := by
        rw [hadd]
        split <;> omega
      obtain ⟨hsum, hfold⟩ := ih (fun x hx => hpos x (List.mem_cons_of_mem m hx)) hrange.1 hrange.2
      rw [List.sum_cons, List.foldl_cons, hfold, hadd]
      refine ⟨by omega, ?_⟩
      simp only [Bounded.clamp]
      repeat' split
      all_goals omega
  rw [(hclamp ms' hpos (Int.le_refl 0) (by decide)).2,
    (hclamp ms (fun m hm => hpos m (hp.mem_iff.mpr hm)) (Int.le_refl 0) (by decide)).2, hp.sum_eq]

namespace Reordered

open Scan

variable {books books' : List Book} {o : Scan.Options}

theorem map_perm {α : Type} {f : Book → α} (h : Reordered books books')
    (hf : ∀ b es, f { b with entries := es } = f b) : (books'.map f).Perm (books.map f) := by
  obtain ⟨between, hsame, hperm⟩ := h
  have hmap : between.map f = books.map f := by
    induction hsame generalizing books' with
    | nil => rfl
    | cons hb _ ih => rw [List.map_cons, List.map_cons, ih (.refl _), hb.rest, hf]
  rw [← hmap]
  exact hperm.symm.map f

theorem triggered_perm (h : Reordered books books') (g : GenerationType) :
    (triggeredEntries books' g).Perm (triggeredEntries books g) := by
  obtain ⟨between, hsame, hperm⟩ := h
  have hflat : (between.flatMap (·.entries)).Perm (books.flatMap (·.entries)) := by
    induction hsame generalizing books' with
    | nil => exact .refl _
    | cons hb _ ih =>
      rw [List.flatMap_cons, List.flatMap_cons]
      exact hb.entries.append (ih (.refl _))
  exact ((hperm.symm.flatMap_right _).trans hflat).filter _

theorem any_eq (h : Reordered books books') :
    books'.any (·.recursiveScanning) = books.any (·.recursiveScanning) := by
  have hmem := (h.map_perm (f := (·.recursiveScanning)) fun _ _ => rfl).mem_iff (a := true)
  simp only [List.mem_map] at hmem
  rw [Bool.eq_iff_iff, List.any_eq_true, List.any_eq_true]
  exact hmem

def raised (n : Int) (own : Option Int) : Int :=
  match own with
  | some m => Bounded.add n m
  | none => n

theorem budget_eq (h : Reordered books books') : o.budget books' = o.budget books := by
  have hfold (bs : List Book) (n : Int) :
      bs.foldl (fun n b => raised n (b.tokenBudget.filter (0 < ·))) n
      = ((bs.map fun b => b.tokenBudget.filter (0 < ·)).filterMap id).foldl Bounded.add n := by
    induction bs generalizing n with
    | nil => rfl
    | cons b bs ih =>
      rw [List.foldl_cons, List.map_cons, ih]
      cases b.tokenBudget.filter (0 < ·) with
      | none => rw [List.filterMap_cons_none rfl, raised]
      | some m =>
        rw [List.filterMap_cons_some (f := id) (b := m) rfl, List.foldl_cons, raised]
  have hsum (bs : List Book) : o.budget bs = (o.tokenBudget.or (some
      (((bs.map fun b => b.tokenBudget.filter (0 < ·)).filterMap id).foldl Bounded.add 0))).filter
        (0 < ·) := by
    rw [← hfold]
    rfl
  have hperm :=
    (h.map_perm (f := fun b => b.tokenBudget.filter (0 < ·)) fun _ _ => rfl).filterMap id
  rw [hsum, hsum, foldl_add_perm hperm]
  intro m hm
  obtain ⟨_, hb, rfl⟩ := List.mem_filterMap.mp hm
  obtain ⟨b, _, hb⟩ := List.mem_map.mp hb
  simpa using (Option.filter_eq_some_iff.mp hb).2

def widest (d n : Option Int) : Option Int :=
  match n, d with
  | some n, some m => some (if m < n then n else m)
  | some n, none => some n
  | none, d => d

theorem window_eq (h : Reordered books books') : o.window books' = o.window books := by
  have hwindow (bs : List Book) : o.window bs
      = o.depth.or ((bs.map fun b => b.scanDepth.filter (0 < ·)).foldl widest none) := by
    rw [List.foldl_map]
    rfl
  have hcomm (d x y : Option Int) : widest (widest d x) y = widest (widest d y) x := by
    cases d <;> cases x <;> cases y <;> simp only [widest, Option.some.injEq]
    · split <;> split <;> omega
    · repeat' split
      all_goals omega
  have hperm := h.map_perm (f := fun b => b.scanDepth.filter (0 < ·)) fun _ _ => rfl
  rw [hwindow, hwindow, hperm.foldl_eq' (fun x _ y _ d => hcomm d x y)]

end Reordered

namespace Scan

theorem recursionLevels_congr {es es' : List Entry}
    (h : ∀ n, n ∈ recursionLevels es' ↔ n ∈ recursionLevels es) :
    recursionLevels es' = recursionLevels es := by
  have hn := (nodup_foldl_once
    ((es.filter (·.delaysUntilRecursion)).map (·.recursionLevel)) List.nodup_nil).1
  have hn' := (nodup_foldl_once
    ((es'.filter (·.delaysUntilRecursion)).map (·.recursionLevel)) List.nodup_nil).1
  refine (Sorts.byKey (id : Int → Int)).sortBy_eq_of_perm
    ((List.perm_ext_iff_of_nodup hn' hn).mpr fun n => ?_) ?_
  · simpa only [recursionLevels, mem_sortBy] using h n
  · intro a _ b _ hab hba
    simp only [id, decide_eq_true_eq] at hab hba
    omega

theorem recursionLevels_perm {es es' : List Entry} (hp : es'.Perm es) :
    recursionLevels es' = recursionLevels es :=
  recursionLevels_congr fun n => by simp only [mem_recursionLevels, hp.mem_iff]

end Scan

namespace Effects

variable {es es' : List Entry} {clock : Int}

theorem find?_key_of_perm (hp : es'.Perm es) (hn : (es.map (·.key)).Nodup) (k : Bytes) :
    es'.find? (·.key = k) = es.find? (·.key = k) := by
  cases hf : es.find? (·.key = k) with
  | none =>
    rw [List.find?_eq_none] at hf ⊢
    exact fun e he => hf e (hp.mem_iff.mp he)
  | some e =>
    have he := List.mem_of_find?_eq_some hf
    have hek : e.key = k := by simpa using List.find?_some hf
    have hsome : (es'.find? (·.key = k)).isSome = true :=
      List.find?_isSome.mpr ⟨e, hp.mem_iff.mpr he, by simpa using hek⟩
    obtain ⟨e', hf'⟩ := Option.isSome_iff_exists.mp hsome
    have he' := hp.mem_iff.mp (List.mem_of_find?_eq_some hf')
    have hek' : e'.key = k := by simpa using List.find?_some hf'
    rw [hf', List.inj_on_of_nodup_map hn he' he (hek'.trans hek.symm)]

theorem judge_perm (hp : es'.Perm es) (hn : (es.map (·.key)).Nodup) :
    judge clock es' = judge clock es := by
  funext k key data
  rw [judge, judge, find?_key_of_perm hp hn]

theorem check_perm {fx : Effects} (hobj : fx.state.isObject = true) (hdry : fx.dryRun = false)
    (hp : es'.Perm fx.entries) (hn : (fx.entries.map (·.key)).Nodup) (vars : Variables) :
    { fx with entries := es' }.check vars
      = ({ (fx.check vars).1 with entries := es' }, (fx.check vars).2) := by
  have hverdicts : verdicts fx.clock es' = verdicts fx.clock fx.entries := by
    funext k rs
    rw [verdicts, verdicts, judge_perm hp hn]
  have hoverdue : overdue fx.clock es' = overdue fx.clock fx.entries := by
    funext k rs
    rw [overdue, overdue, hverdicts]
  have hrunning : running fx.clock es' = running fx.clock fx.entries := by
    funext k rs
    rw [running, running, hverdicts]
  have hhanded : handed fx.clock es' = handed fx.clock fx.entries := by
    funext s c
    rw [handed, handed, hoverdue]
  have hstate : checkedState fx.clock es' = checkedState fx.clock fx.entries := by
    have hstaying : staying fx.clock es' = staying fx.clock fx.entries := by
      funext k rs
      rw [staying, staying, hverdicts]
    funext state
    rw [checkedState, checkedState, hhanded, hstaying]
  rw [check_eq hobj hdry, check_eq (by exact hobj) (by exact hdry)]
  dsimp only
  rw [hoverdue, hrunning, hhanded, hstate]

theorem commit_perm {fx : Effects} (hobj : fx.state.isObject = true) (hdry : fx.dryRun = false)
    (entries : List Entry) (hp : es'.Perm es) (hn : (es.map (·.key)).Nodup)
    (vars vars' : Variables) :
    ({ (fx.check vars).1 with entries }.commit es' vars').2
      = ((fx.check vars).1.commit es vars').2 := by
  have hformat : (fx.state.setField (lit "format") format).isObject = true := by simpa using hobj
  have hn' : (es'.map (·.key)).Nodup := (hp.map _).nodup_iff.mpr hn
  rw [check_eq hobj hdry, checkedState, setField_withRecords, commit_eq hformat rfl (by exact hdry),
    commit_eq hformat rfl (by exact hdry)]
  simp only [foldl_begun_perm hp hn']

end Effects

namespace Scan

/-- Two outcomes that only the order of their candidates and books can tell apart. -/
structure SameOutcome (out out' : Outcome) : Prop where
  candidates : ∀ k, out'.candidates.find? k = out.candidates.find? k
  perm : out'.candidates.Perm out.candidates
  usedTokens : out'.usedTokens = out.usedTokens
  budget : out'.budget = out.budget
  byPosition : ∀ s, out'.byPosition s = out.byPosition s
  outlets : out'.outlets = out.outlets

inductive SameResult : Except Fault Outcome → Except Fault Outcome → Prop where
  | error (f : Fault) : SameResult (.error f) (.error f)
  | ok {out out' : Outcome} : SameOutcome out out' → SameResult (.ok out) (.ok out')

section Reordered

variable {sc : Scanner} {books books' : List Book} {o : Options} {vars : Variables}
  {random : Random} {su : Setup} {s t : State}

theorem setup_reordered (h : Reordered books books') (fx fx' : Effects) :
    setup sc books' o fx' = (setup sc books o fx).recast (triggeredEntries books' o.generation) fx'
      sc.estimator := by
  simp only [setup, Setup.recast, h.any_eq, h.window_eq, h.budget_eq,
    recursionLevels_perm (h.triggered_perm o.generation)]

theorem candidates_perm {cs ds : Candidates} (hcs : cs.keys.Nodup) (hds : ds.keys.Nodup)
    (h : ∀ k, ds.find? k = cs.find? k) : ds.Perm cs := by
  refine (List.perm_ext_iff_of_nodup (List.Nodup.of_map _ hds) (List.Nodup.of_map _ hcs)).mpr ?_
  intro c
  constructor
  · intro hc
    exact Candidates.mem_of_find? ((h c.key).symm.trans (Candidates.find?_of_mem hds hc))
  · intro hc
    exact Candidates.mem_of_find? ((h c.key).trans (Candidates.find?_of_mem hcs hc))

/-- Book and uid tell candidates apart, whatever forms of entries they are. -/
theorem placed_of_apart (hapart : Apart su.entries) (hs : Coherent su s) :
    (outcome books o s.used s.candidates).Placed := by
  intro a ha b hb hbook huid
  obtain ⟨c, hc, rfl⟩ := List.mem_map.mp ha
  obtain ⟨d, hd, rfl⟩ := List.mem_map.mp hb
  have hc := (List.mem_filter.mp hc).1
  have hd := (List.mem_filter.mp hd).1
  obtain ⟨e, he, hek, hf⟩ := (hs.sound c hc).form
  obtain ⟨e', he', hek', hf'⟩ := (hs.sound d hd).form
  rw [hf.identity.bookName, hf'.identity.bookName] at hbook
  rw [hf.identity.uid, hf'.identity.uid] at huid
  have hkey : c.key = d.key := by rw [← hek, ← hek', hapart.eq_of_place he he' hbook huid]
  rw [Candidates.eq_of_key_eq hs.nodup hc hd hkey]

theorem nodup_selected_keys (hs : Coherent su s) :
    (((s.candidates.filter (·.isSelected)).map (·.entry)).map (·.key)).Nodup := by
  have hkeys : ((s.candidates.filter (·.isSelected)).map (·.entry)).map (·.key)
      = Candidates.keys (s.candidates.filter (·.isSelected)) := by
    rw [List.map_map]
    refine List.map_congr_left fun c hc => ?_
    exact (hs.sound c (List.mem_filter.mp hc).1).entry_key
  rw [hkeys]
  exact hs.nodup.sublist (List.filter_sublist.map _)

theorem sameOutcome_of_parallel (o : Options) (h : Reordered books books')
    (hapart : Apart su.entries) (hs : Coherent su s) (hn : t.candidates.keys.Nodup)
    (hst : Parallel False s t) :
    SameOutcome (outcome books o s.used s.candidates) (outcome books' o t.used t.candidates) := by
  have hperm := candidates_perm hs.nodup hn hst.find
  have hplaced : (outcome books o s.used s.candidates).Placed := placed_of_apart hapart hs
  have hused : t.used = s.used := hst.same (·.used) fun _ => rfl
  exact ⟨hst.find, hperm, hused, h.budget_eq, hplaced.byPosition_eq hperm,
    hplaced.outlets_eq hperm rfl⟩

/-- The scan of a reordered evaluation keeps step with the original. -/
theorem sameOutcome_ending (h : Reordered books books') (o : Options) (random : Random)
    (su : Setup) (fx : Effects) (hapart : Apart su.entries)
    (hest : su.scanner.estimator.Faithful) {es : List Entry} (hp : es.Perm su.entries)
    (hfx : su.effects.SameAnswers fx) (log log' : List Bytes) :
    let t := ending su (.initial su random log)
    let t' := ending (su.recast es fx su.scanner.estimator)
      (.initial (su.recast es fx su.scanner.estimator) random log')
    SameOutcome (outcome books o t.used t.candidates) (outcome books' o t'.used t'.candidates) := by
  intro t t'
  have hs : Coherent su t := (Coherent.initial su random log).ending
  have hs' : Coherent (su.recast es fx su.scanner.estimator) t' :=
    (Coherent.initial _ random log').ending
  have hr : Recasts False su es fx := ⟨hfx, hp, False.elim, .inr hapart⟩
  have hbegin : Parallel False (State.initial su random log)
      (.initial (su.recast es fx su.scanner.estimator) random log') :=
    ⟨rfl, fun _ => rfl, fun _ => rfl, rfl, hest, hest⟩
  exact sameOutcome_of_parallel o h hapart hs hs'.nodup
    (hbegin.ending hr _ (.initial su random log))

theorem evaluate_reordered (h : Reordered books books')
    (hapart : Apart (triggeredEntries books o.generation)) (hest : sc.estimator.Faithful) :
    SameResult (evaluate sc books o vars random).outcome
        (evaluate sc books' o vars random).outcome ∧
      (evaluate sc books' o vars random).vars = (evaluate sc books o vars random).vars := by
  have hp := h.triggered_perm o.generation
  have hbooks : books'.isEmpty = books.isEmpty := by
    rw [Bool.eq_iff_iff, List.isEmpty_iff_length_eq_zero, List.isEmpty_iff_length_eq_zero,
      ← List.length_map (f := Book.name), (h.map_perm fun _ _ => rfl).length_eq, List.length_map]
  have hentries : (triggeredEntries books' o.generation).isEmpty
      = (triggeredEntries books o.generation).isEmpty := by
    rw [Bool.eq_iff_iff, List.isEmpty_iff_length_eq_zero, List.isEmpty_iff_length_eq_zero,
      hp.length_eq]
  by_cases hb : books.isEmpty = true
  · rw [evaluate_of_no_books hb, evaluate_of_no_books (hbooks.trans hb)]
    exact ⟨.error _, rfl⟩
  rw [Bool.not_eq_true] at hb
  by_cases he : (triggeredEntries books o.generation).isEmpty = true
  · rw [evaluate_of_untriggered hb he,
      evaluate_of_untriggered (hbooks.trans hb) (hentries.trans he)]
    exact ⟨.ok ⟨fun _ => rfl, .refl _, rfl, h.budget_eq, fun _ => rfl, rfl⟩, rfl⟩
  rw [Bool.not_eq_true] at he
  cases hs : Effects.start (o.messageCount.getD o.chat.length) (triggeredEntries books o.generation)
      vars o.stateKey false with
  | error f =>
    have hs' : Effects.start (o.messageCount.getD o.chat.length)
        (triggeredEntries books' o.generation) vars o.stateKey false = .error f := by
      rw [Effects.start_entries, hs]
      rfl
    rw [evaluate_of_fault hb he hs, evaluate_of_fault (hbooks.trans hb) (hentries.trans he) hs']
    exact ⟨.error f, rfl⟩
  | ok r =>
    obtain ⟨fx, warnings⟩ := r
    have hs' : Effects.start (o.messageCount.getD o.chat.length)
        (triggeredEntries books' o.generation) vars o.stateKey false
          = .ok ({ fx with entries := triggeredEntries books' o.generation }, warnings) := by
      rw [Effects.start_entries, hs]
      rfl
    rw [evaluate_of_start hb he hs, evaluate_of_start (hbooks.trans hb) (hentries.trans he) hs']
    obtain ⟨hfx, hobj, hdry⟩ : fx.entries = triggeredEntries books o.generation ∧
        fx.state.isObject = true ∧ fx.dryRun = false := by
      obtain ⟨slot, _, _, rfl⟩ := Effects.start_eq_ok hs
      exact ⟨rfl, Effects.isObject_loadState _ _, rfl⟩
    have hkeys : (fx.entries.map (·.key)).Nodup := by
      rw [hfx]
      exact hapart.keys
    have hperm : (triggeredEntries books' o.generation).Perm fx.entries := by
      rw [hfx]
      exact hp
    rw [Effects.check_perm hobj hdry hperm hkeys, setup_reordered h (fx.check vars).1]
    have hsame := sameOutcome_ending h o random (setup sc books o (fx.check vars).1)
      { (fx.check vars).1 with entries := triggeredEntries books' o.generation } hapart hest hp
      ⟨rfl, fun _ => rfl, fun _ => rfl⟩
      (openingLine sc (triggeredEntries books o.generation) o.generation ++ warnings)
      (openingLine sc (triggeredEntries books' o.generation) o.generation ++ warnings)
    have hs := (Coherent.initial (setup sc books o (fx.check vars).1) random
      (openingLine sc (triggeredEntries books o.generation) o.generation ++ warnings)).ending
    exact ⟨.ok hsame, Effects.commit_perm hobj hdry _
      (Outcome.selectedEntries_perm hsame.perm) (nodup_selected_keys hs) _ _⟩

theorem evaluate_reordered_constantTrio :
    let trio := Book.constantTrio
    let books' := [{}, { trio with entries := trio.entries.reverse }]
    Reordered [trio, {}] books' ∧
      SameResult (evaluate .standard [trio, {}] { tokenBudget := some 2 } [] (.ofList [])).outcome
        (evaluate .standard books' { tokenBudget := some 2 } [] (.ofList [])).outcome ∧
      (evaluate .standard books' { tokenBudget := some 2 } [] (.ofList [])).vars
        = (evaluate .standard [trio, {}] { tokenBudget := some 2 } [] (.ofList [])).vars := by
  have h : Reordered [.constantTrio, {}]
      [{}, { Book.constantTrio with entries := Book.constantTrio.entries.reverse }] :=
    ⟨_, .cons ⟨List.reverse_perm _, rfl⟩ (.cons ⟨.refl _, rfl⟩ .nil), .swap _ _ _⟩
  exact ⟨h, evaluate_reordered h ⟨by decide, by decide⟩ trivial⟩

end Reordered
end Scan
end Lorebook
