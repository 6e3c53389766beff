import Lorebook.Proofs.Regeneration

set_option autoImplicit false

/-!
What a check leaves in the store, whatever was there: a state in the current format whose records
all have time ahead of them, one for each active effect of the entries that take part. A commit adds
records of selected entries to it and changes none.
-/

namespace Lorebook

/-- An entry with a key that is UTF-8 and with effects that last, if it has any. -/
structure Entry.Lasting (e : Entry) : Prop where
  key : Utf8.isValid e.key = true
  positive : ∀ k n, EffectKind.duration k e = some n → 0 < n

namespace Effects

def active (fx : Effects) : EffectKind → Bytes → Bool
  | .sticky => fx.stickyActive
  | .cooldown => fx.cooldownActive

def Stores (vars : Variables) (slot : Bytes) (state : Json) : Prop :=
  ∃ text, Table.get? slot vars = some text ∧ Json.read? text = some state

/-- An end that is still to come; one that is missing or no number counts as 0. -/
def Ahead (clock : Int) (data : Json) : Prop :=
  data.isObject = true ∧ clock < recordInt data (lit "end")

structure Sanitized (clock : Int) (state : Json) : Prop where
  object : state.isObject = true
  format : state.get? (lit "format") = some (.arr [.int 1, .int 0])
  tables : ∀ k : EffectKind, state.get? k.name = some (.obj (records state k))
  ahead : ∀ k, ∀ r ∈ records state k, Ahead clock r.2
  ended : 0 ≤ clock → ∀ k, ∀ r ∈ records state k, ∃ n,
    (r.2.get? (lit "end")).bind Json.toInt? = some n ∧ clock < n

section Judge

variable {clock : Int} {entries es : List Entry} {k : EffectKind} {rs : Table Json} {key : Bytes}
  {data : Json} {n : Int}

theorem ahead_of_keeps (h : (judge clock entries k key data).keeps = true) : Ahead clock data := by
  unfold judge at h
  dsimp only at h
  split at h
  · cases h
  next hobj =>
  split at h
  · cases h
  have hend : ¬recordInt data (lit "end") ≤ clock := by
    intro hle
    simp only [hle, decide_true, if_true] at h
    repeat' split at h
    all_goals cases h
  exact ⟨by simpa using hobj, by omega⟩

theorem keeps_iff_active {e : Entry} (he : e ∈ entries) :
    (judge clock entries k e.key data).keeps = true ↔
      judge clock entries k e.key data = .active := by
  have hfound : (entries.find? (·.key = e.key)).isSome = true :=
    List.find?_isSome.mpr ⟨e, he, by simp⟩
  obtain ⟨f, hf⟩ := Option.isSome_iff_exists.mp hfound
  -- Only records of entries that take no part wait.
  unfold judge
  dsimp only
  rw [hf]
  repeat' split
  all_goals simp_all [Verdict.keeps]

theorem contains_staying {e : Entry} (he : e ∈ entries) (h : Table.Ordered rs) :
    Table.contains e.key (staying clock entries k rs) = true ↔
      e.key ∈ running clock entries k rs := by
  rw [Table.contains_eq, get?_staying h, mem_running h, Option.isSome_iff_exists]
  simp only [Option.filter_eq_some_iff, keeps_iff_active he]

theorem ahead_record (hi : clock < Bounded.max) (hn : 0 < n) (guarded : Bool) :
    Ahead clock (record clock n guarded) := by
  refine ⟨rfl, ?_⟩
  rw [recordInt_end]
  unfold Bounded.add Bounded.clamp
  repeat' split
  all_goals omega

theorem get?_foldl_begun_cases (h : Table.get? key (es.foldl (begun clock k) rs) = some data) :
    Table.get? key rs = some data ∨ Table.get? key rs = none ∧
      ∃ e ∈ es, e.key = key ∧ ∃ n, k.duration e = some n ∧ data = record clock n false := by
  cases hold : Table.get? key rs with
  | some old =>
    rw [get?_foldl_begun_of_some hold] at h
    exact .inl h
  | none =>
    rw [get?_foldl_begun_of_none hold] at h
    obtain ⟨n, hn, rfl⟩ := Option.map_eq_some_iff.mp h
    obtain ⟨e, he, hd⟩ := List.exists_of_findSome?_eq_some hn
    obtain ⟨he, hk⟩ := List.mem_filter.mp he
    exact .inr ⟨rfl, e, he, by simpa using hk, n, hd, rfl⟩

theorem ended_of_ahead (h0 : 0 ≤ clock) (h : Ahead clock data) : ∃ n,
    (data.get? (lit "end")).bind Json.toInt? = some n ∧ clock < n := by
  obtain ⟨_, hlt⟩ := h
  rw [recordInt] at hlt
  cases hend : (data.get? (lit "end")).bind Json.toInt? with
  | none =>
    rw [hend, Option.getD_none] at hlt
    omega
  | some n =>
    rw [hend, Option.getD_some] at hlt
    exact ⟨n, rfl, hlt⟩

end Judge

section State

variable {state : Json} {s c : Table Json} {clock : Int}

theorem get?_withRecords (hobj : state.isObject = true) (k : EffectKind) :
    (withRecords state s c).get? k.name = some (.obj (records (withRecords state s c) k)) := by
  have hget (state : Json) (hobj : state.isObject = true) (k : EffectKind) (rs : Table Json) :
      (setRecords state k rs).get? k.name = some (.obj rs) := by
    cases state with
    | obj fs => exact Table.get?_insert_self _ _ _
    | _ => cases hobj
  rw [records_withRecords hobj]
  conv_lhs => rw [← setRecords_pick k]
  exact hget _ (by simpa using hobj) _ _

theorem sanitized_withRecords (hobj : state.isObject = true) (hs : ∀ r ∈ s, Ahead clock r.2)
    (hc : ∀ r ∈ c, Ahead clock r.2) :
    Sanitized clock (withRecords (state.setField (lit "format") format) s c) := by
  have hobj' : (state.setField (lit "format") format).isObject = true := by simpa using hobj
  have hahead (k : EffectKind) (r : Bytes × Json)
      (hr : r ∈ records (withRecords (state.setField (lit "format") format) s c) k) :
      Ahead clock r.2 := by
    rw [records_withRecords hobj'] at hr
    cases k with
    | sticky => exact hs r hr
    | cooldown => exact hc r hr
  refine ⟨by simpa using hobj, get?_format hobj, get?_withRecords hobj', hahead, ?_⟩
  exact fun h0 k r hr => ended_of_ahead h0 (hahead k r hr)

theorem stores_insert {vars : Variables} {slot : Bytes} (hlegible : Json.Legible state)
    (hs : Kept (Utf8.isValid · = true) s) (hc : Kept (Utf8.isValid · = true) c) :
    let state' := withRecords (state.setField (lit "format") format) s c
    Stores (Table.insert slot (stored state') vars) slot state' := by
  have hformat : Json.Legible (state.setField (lit "format") format) :=
    hlegible.setField (by decide) legible_format
  have hread := read?_stored hformat hs hc
  rw [reloaded_eq hs.ordered hs.keys, reloaded_eq hc.ordered hc.keys] at hread
  exact ⟨_, Table.get?_insert_self _ _ _, hread⟩

end State

section Dry

theorem dryRun_checkSticky (fx : Effects) : fx.checkSticky.dryRun = fx.dryRun := by
  refine List.foldlRecOn (motive := fun gx : Effects => gx.dryRun = fx.dryRun) _ _ rfl
    fun gx hgx e _ => ?_
  unfold coolDown
  split
  · exact hgx
  · exact hgx

theorem check_dry {fx : Effects} (h : fx.dryRun = true) (vars : Variables) :
    (fx.check vars).1.dryRun = true ∧ (fx.check vars).2 = vars := by
  have hdry (gx : Effects) : gx.checkSticky.checkCooldown.dryRun = gx.dryRun :=
    dryRun_checkSticky gx
  unfold check
  dsimp only
  rw [if_pos (by rw [hdry, h])]
  exact ⟨by rw [hdry, h], rfl⟩

theorem commit_dry {fx : Effects} (h : fx.dryRun = true) (selected : List Entry)
    (vars : Variables) : fx.commit selected vars = (fx, vars) := by
  rw [commit, if_pos h]

end Dry

section Store

variable {clock : Int} {entries selected : List Entry} {k : EffectKind} {rs s c : Table Json}
  {state : Json} {vars : Variables} {fx : Effects}

theorem ahead_of_mem_staying {r : Bytes × Json} (h : r ∈ staying clock entries k rs) :
    Ahead clock r.2 := by
  rw [staying_eq] at h
  exact ahead_of_keeps (List.mem_filter.mp h).2

theorem ahead_foldl_begun (hi : clock < Bounded.max) (hes : ∀ e ∈ selected, e.Lasting)
    (hrs : ∀ r ∈ rs, Ahead clock r.2) :
    ∀ r ∈ selected.foldl (begun clock k) rs, Ahead clock r.2 := by
  refine List.foldlRecOn (motive := fun rs : Table Json => ∀ r ∈ rs, Ahead clock r.2) _ _ hrs ?_
  intro rs hrs e he
  unfold begun
  split
  · exact hrs
  next n hn =>
  split
  · exact hrs
  · intro r hr
    rcases Table.eq_or_mem_of_mem_insert hr with rfl | hr
    · exact ahead_record hi ((hes e he).positive k n hn) false
    · exact hrs r hr

theorem active_cooldown_iff {e : Entry} (lo : Bounded.min ≤ clock) (hi : clock < Bounded.max)
    (hcool : CoolsDown entries) (hs : Kept (Utf8.isValid · = true) s)
    (hc : Kept (Utf8.isValid · = true) c) (he : e ∈ entries) :
    e.key ∈ ((overdue clock entries .sticky s).filter (·.cooldown.isSome)).map (·.key)
        ++ running clock entries .cooldown (handed clock entries s c) ↔
      Table.contains e.key (staying clock entries .cooldown (handed clock entries s c)) = true := by
  rw [contains_staying he (hs.handed lo (Int.le_of_lt hi) hc).ordered, List.mem_append,
    or_iff_right_of_imp]
  -- A sticky effect that is over gives way to a cooldown that is active at once.
  intro hkey
  obtain ⟨f, hf, hk⟩ := List.mem_map.mp hkey
  obtain ⟨hf, hsome⟩ := List.mem_filter.mp hf
  rw [← hk]
  exact mem_running_handed lo hi hcool hs hc hf hsome

/-- What a commit adds to the records of a state and what it leaves there. -/
structure Extends (clock : Int) (selected : List Entry) (state state' : Json) : Prop where
  keeps : ∀ k key data, Table.get? key (records state k) = some data →
    Table.get? key (records state' k) = some data
  adds : ∀ k key data, Table.get? key (records state' k) = some data →
    Table.get? key (records state k) = some data ∨
      Table.get? key (records state k) = none ∧ (∃ e ∈ selected, e.key = key) ∧
        recordInt data (lit "start") = clock ∧ clock < recordInt data (lit "end")

theorem extends_begun (lo : Bounded.min ≤ clock) (hi : clock < Bounded.max)
    (hes : ∀ e ∈ selected, e.Lasting) (hobj : state.isObject = true) :
    Extends clock selected (withRecords state s c)
      (withRecords state (selected.foldl (begun clock .sticky) s)
        (selected.foldl (begun clock .cooldown) c)) := by
  have hadds (k : EffectKind) (rs : Table Json) (key : Bytes) (data : Json)
      (h : Table.get? key (selected.foldl (begun clock k) rs) = some data) :
      Table.get? key rs = some data ∨ Table.get? key rs = none ∧ (∃ e ∈ selected, e.key = key) ∧
        recordInt data (lit "start") = clock ∧ clock < recordInt data (lit "end") := by
    refine (get?_foldl_begun_cases h).imp_right ?_
    rintro ⟨hnone, e, he, hk, n, hn, rfl⟩
    exact ⟨hnone, ⟨e, he, hk⟩, recordInt_start lo (Int.le_of_lt hi) n false,
      (ahead_record hi ((hes e he).positive k n hn) false).2⟩
  have hpick (k : EffectKind) : k.pick (selected.foldl (begun clock .sticky) s)
      (selected.foldl (begun clock .cooldown) c) = selected.foldl (begun clock k) (k.pick s c) := by
    cases k <;> rfl
  refine ⟨fun k key data h => ?_, fun k key data h => ?_⟩
  · rw [records_withRecords hobj] at h ⊢
    rw [hpick]
    exact get?_foldl_begun_of_some h
  · rw [records_withRecords hobj] at h ⊢
    rw [hpick] at h
    exact hadds k _ key data h

/-- Whatever is stored under a key that is not blank, a check stores a state in the current format.
All its records have time ahead of them, and an entry that takes part has one for just the effects
that are active. A commit stores this state with records of selected entries that had none, which
begin now. A dry run stores nothing. -/
theorem check_sanitizes (clock : Int) (entries : List Entry) (vars : Variables)
    (stateKey : Bytes) :
    (Bytes.isBlank stateKey = false → Bounded.min ≤ clock → clock < Bounded.max →
      (∀ e ∈ entries, e.Lasting) → ∃ slot fx warnings, Variables.key stateKey = .ok slot ∧
        start clock entries vars stateKey false = .ok (fx, warnings) ∧
        ∃ state, Stores (fx.check vars).2 slot state ∧ Sanitized clock state ∧
          (∀ k, ∀ e ∈ entries,
            Table.contains e.key (records state k) = (fx.check vars).1.active k e.key) ∧
          ∀ selected, (∀ e ∈ selected, e.Lasting) →
            let committed := (fx.check vars).1.commit selected (fx.check vars).2
            ∃ state', Stores committed.2 slot state' ∧ Sanitized clock state' ∧
              Extends clock selected state state' ∧
              ∀ k key, committed.1.active k key = (fx.check vars).1.active k key) ∧
    ∀ fx warnings, start clock entries vars stateKey true = .ok (fx, warnings) →
      (fx.check vars).2 = vars ∧
        ∀ selected, ((fx.check vars).1.commit selected (fx.check vars).2).2 = vars := by
  constructor
  · intro hblank lo hi hentries
    have hslot := Variables.key_of_not_blank hblank
    generalize Bytes.trim stateKey = slot at hslot
    refine ⟨slot, _, _, hslot, start_of_key hslot, ?_⟩
    have hobj := isObject_loadState stateKey (Table.get? slot vars)
    have hlegible := legible_loadState stateKey (Table.get? slot vars)
    generalize (loadState stateKey (Table.get? slot vars)).1 = state at hobj hlegible
    have hi' := Int.le_of_lt hi
    have hcool : CoolsDown entries := fun e he n hn => (hentries e he).positive .cooldown n hn
    have hs : Kept (Utf8.isValid · = true) (records state .sticky) :=
      .records hlegible (fun _ hk => hk) .sticky
    have hc : Kept (Utf8.isValid · = true) (records state .cooldown) :=
      .records hlegible (fun _ hk => hk) .cooldown
    have hs' : Kept (Utf8.isValid · = true)
        (staying clock entries .sticky (records state .sticky)) := hs.staying .sticky
    have hc' : Kept (Utf8.isValid · = true) (staying clock entries .cooldown
        (handed clock entries (records state .sticky) (records state .cooldown))) :=
      (hs.handed lo hi' hc).staying .cooldown
    have hobj' : (state.setField (lit "format") format).isObject = true := by simpa using hobj
    rw [check_eq hobj rfl, checkedState, setField_withRecords]
    refine ⟨_, stores_insert hlegible hs' hc', sanitized_withRecords hobj
      (fun _ => ahead_of_mem_staying) (fun _ => ahead_of_mem_staying), fun k e he => ?_,
      fun selected hsel => ?_⟩
    · rw [records_withRecords hobj']
      cases k with
      | sticky =>
        rw [EffectKind.pick_sticky, Bool.eq_iff_iff, contains_staying he hs.ordered]
        simp [active, stickyActive]
      | cooldown =>
        rw [EffectKind.pick_cooldown, Bool.eq_iff_iff, ← active_cooldown_iff lo hi hcool hs hc he]
        simp only [active, cooldownActive, decide_eq_true_eq]
    · have hkeys : ∀ e ∈ selected, Utf8.isValid e.key = true := fun e he => (hsel e he).key
      rw [commit_eq hobj' rfl rfl]
      dsimp only
      rw [setField_setField]
      refine ⟨_, stores_insert hlegible (hs'.begun lo hi' hkeys .sticky)
        (hc'.begun lo hi' hkeys .cooldown), ?_, extends_begun lo hi hsel hobj', fun k key => ?_⟩
      · exact sanitized_withRecords hobj
          (ahead_foldl_begun hi hsel fun _ => ahead_of_mem_staying)
          (ahead_foldl_begun hi hsel fun _ => ahead_of_mem_staying)
      · cases k <;> rfl
  · intro fx warnings hstart
    obtain ⟨hdry, hvars⟩ := check_dry (state_of_start hstart).2.2.1 vars
    refine ⟨hvars, fun selected => ?_⟩
    rw [commit_dry hdry, hvars]

def untidyVars : Variables :=
  [(defaultKey,
    lit "\x7b\"sticky\":\x7b\"unknown:unnamed.1\":\x7b\"end\":\"12\"\x7d,\"x\":5\x7d,"
      ++ lit "\"cooldown\":7\x7d")]

theorem check_sanitizes_untidyVars :
    let e : Entry := { uid := lit "1", sticky := some 20 }
    ∃ slot fx warnings state,
      start 5 [e] untidyVars defaultKey false = .ok (fx, warnings) ∧
      Stores (fx.check untidyVars).2 slot state ∧ Sanitized 5 state ∧
      Table.contains e.key (records state .sticky) = true := by
  intro e
  have hlasting : ∀ e' ∈ [e], e'.Lasting := by
    simp only [List.mem_singleton, forall_eq]
    refine ⟨by decide, fun k n hn => ?_⟩
    cases k with
    | sticky =>
      cases hn
      decide
    | cooldown => cases hn
  obtain ⟨slot, fx, warnings, _, hstart, state, hstores, hsane, hagree, _⟩ :=
    (check_sanitizes 5 [e] untidyVars defaultKey).1 (by decide) (by decide) (by decide) hlasting
  have hcheck : (start 5 [e] untidyVars defaultKey false).toOption.any
      (fun p => (p.1.check untidyVars).1.active .sticky e.key) = true := by decide +kernel
  rw [hstart] at hcheck
  refine ⟨slot, fx, warnings, state, hstart, hstores, hsane, ?_⟩
  rw [hagree .sticky e List.mem_cons_self]
  exact hcheck

end Store

end Effects
end Lorebook
