import Lorebook.Effects
import Lorebook.Proofs.Tables

set_option autoImplicit false

/-!
The records of timed effects apart from the rest of a stored state. A check and a commit each turn
one pair of tables into another, and leave whatever else the state holds as it is.
-/

namespace Lorebook

def EffectKind.pick {α : Type} (k : EffectKind) (s c : α) : α :=
  match k with
  | sticky => s
  | cooldown => c

@[simp] theorem EffectKind.pick_sticky {α : Type} (s c : α) : sticky.pick s c = s := rfl

@[simp] theorem EffectKind.pick_cooldown {α : Type} (s c : α) : cooldown.pick s c = c := rfl

namespace Effects

def withRecords (state : Json) (sticky cooldown : Table Json) : Json :=
  setRecords (setRecords state .sticky sticky) .cooldown cooldown

section State

variable {state : Json} {s c : Table Json}

theorem name_sticky_ne : EffectKind.sticky.name ≠ EffectKind.cooldown.name := by decide

theorem name_ne_format (k : EffectKind) : k.name ≠ lit "format" := by cases k <;> decide

theorem records_setRecords_self (h : state.isObject = true) (k : EffectKind) (rs : Table Json) :
    records (setRecords state k rs) k = rs := by
  cases state <;> cases h
  simp [records, setRecords, Json.setField, Json.get?, Json.fields]

theorem records_setRecords_of_ne {k k' : EffectKind} (h : k ≠ k') (rs : Table Json) :
    records (setRecords state k rs) k' = records state k' := by
  have hne : k.name ≠ k'.name := by
    cases k <;> cases k' <;> first | exact absurd rfl h | decide
  cases state with
  | obj fs =>
    simp [records, setRecords, Json.setField, Json.get?, Json.fields, Table.get?_insert_of_ne hne]
  | _ => rfl

theorem setRecords_setRecords (k : EffectKind) (rs rs' : Table Json) :
    setRecords (setRecords state k rs') k rs = setRecords state k rs := by
  cases state with
  | obj fs => simp [setRecords, Json.setField]
  | _ => rfl

theorem setField_comm {k k' : Bytes} (h : k ≠ k') (state x y : Json) :
    (state.setField k x).setField k' y = (state.setField k' y).setField k x := by
  cases state with
  | obj fs => simp [Json.setField, Table.insert_comm h]
  | _ => rfl

@[simp] theorem setField_setField (k : Bytes) (state x y : Json) :
    (state.setField k x).setField k y = state.setField k y := by
  cases state with
  | obj fs => simp [Json.setField]
  | _ => rfl

@[simp] theorem isObject_setField (k : Bytes) (x : Json) :
    (state.setField k x).isObject = state.isObject := by
  cases state <;> rfl

@[simp] theorem isObject_setRecords (k : EffectKind) (rs : Table Json) :
    (setRecords state k rs).isObject = state.isObject := isObject_setField _ _

@[simp] theorem isObject_withRecords : (withRecords state s c).isObject = state.isObject := by
  simp [withRecords]

theorem records_withRecords (h : state.isObject = true) (k : EffectKind) (s c : Table Json) :
    records (withRecords state s c) k = k.pick s c := by
  cases k with
  | sticky => rw [withRecords, records_setRecords_of_ne (by decide), records_setRecords_self h,
      EffectKind.pick_sticky]
  | cooldown => exact records_setRecords_self (by simpa using h) _ _

theorem setRecords_withRecords (k : EffectKind) (rs : Table Json) :
    setRecords (withRecords state s c) k rs = withRecords state (k.pick rs s) (k.pick c rs) := by
  cases k with
  | sticky =>
    rw [withRecords, setRecords, setRecords, setField_comm name_sticky_ne.symm]
    exact congrArg (setRecords · .cooldown c) (setRecords_setRecords .sticky rs s)
  | cooldown => exact setRecords_setRecords .cooldown rs c

theorem setRecords_pick (k : EffectKind) :
    setRecords (withRecords state s c) k (k.pick s c) = withRecords state s c := by
  rw [setRecords_withRecords]
  cases k <;> rfl

@[simp] theorem withRecords_withRecords (s' c' : Table Json) :
    withRecords (withRecords state s c) s' c' = withRecords state s' c' := by
  rw [withRecords, setRecords_withRecords, setRecords_withRecords]
  rfl

theorem setField_withRecords (x : Json) :
    (withRecords state s c).setField (lit "format") x
      = withRecords (state.setField (lit "format") x) s c := by
  simp only [withRecords, setRecords]
  rw [setField_comm (name_ne_format .cooldown), setField_comm (name_ne_format .sticky)]

theorem withTables_eq (state : Json) :
    withTables state = withRecords state (records state .sticky) (records state .cooldown) := by
  rw [withTables, withRecords, records_setRecords_of_ne (by decide)]

theorem withTables_withRecords (h : state.isObject = true) (s c : Table Json) :
    withTables (withRecords state s c) = withRecords state s c := by
  rw [withTables_eq, records_withRecords h, records_withRecords h]
  exact withRecords_withRecords s c

end State

section Start

variable {clock : Int} {entries : List Entry} {vars : Variables} {stateKey : Bytes} {dryRun : Bool}
  {fx : Effects} {warnings : List Bytes}

theorem isObject_loadState (stateKey : Bytes) (stored : Option Bytes) :
    (loadState stateKey stored).1.isObject = true := by
  unfold loadState
  repeat' split
  all_goals rfl

theorem start_eq_ok (h : start clock entries vars stateKey dryRun = .ok (fx, warnings)) :
    ∃ slot, Variables.key stateKey = .ok slot ∧
      warnings = (loadState stateKey (Table.get? slot vars)).2 ∧
      fx = { clock, entries, stateKey, slot, dryRun,
             state := (loadState stateKey (Table.get? slot vars)).1 } := by
  unfold start at h
  cases hk : Variables.key stateKey with
  | error f =>
    rw [hk] at h
    cases h
  | ok slot =>
    rw [hk] at h
    cases h
    exact ⟨slot, rfl, rfl, rfl⟩

theorem start_of_key {slot : Bytes} (h : Variables.key stateKey = .ok slot) :
    start clock entries vars stateKey dryRun
      = .ok ({ clock, entries, stateKey, slot, dryRun,
               state := (loadState stateKey (Table.get? slot vars)).1 },
             (loadState stateKey (Table.get? slot vars)).2) := by
  simp only [start, h, Except.map]

theorem slot_of_start (h : start clock entries vars stateKey dryRun = .ok (fx, warnings)) :
    Variables.key stateKey = .ok fx.slot := by
  obtain ⟨slot, hslot, _, rfl⟩ := start_eq_ok h
  exact hslot

theorem state_of_start (h : start clock entries vars stateKey dryRun = .ok (fx, warnings)) :
    fx.clock = clock ∧ fx.entries = entries ∧ fx.dryRun = dryRun ∧ fx.state.isObject = true ∧
      fx.state = (loadState stateKey (Table.get? fx.slot vars)).1 := by
  obtain ⟨slot, _, _, rfl⟩ := start_eq_ok h
  exact ⟨rfl, rfl, rfl, isObject_loadState _ _, rfl⟩

theorem start_entries (entries' : List Entry) :
    start clock entries' vars stateKey dryRun
      = (start clock entries vars stateKey dryRun).map fun (fx, warnings) =>
          ({ fx with entries := entries' }, warnings) := by
  unfold start
  cases Variables.key stateKey <;> rfl

end Start

section Check

variable (clock : Int) (entries : List Entry)

def verdicts (k : EffectKind) (rs : Table Json) : List (Bytes × Json × Verdict) :=
  rs.map fun (key, data) => (key, data, judge clock entries k key data)

def overdue (k : EffectKind) (rs : Table Json) : List Entry :=
  (verdicts clock entries k rs).filterMap fun (_, _, v) => v.endedEntry?

def staying (k : EffectKind) (rs : Table Json) : Table Json := kept (verdicts clock entries k rs)

def running (k : EffectKind) (rs : Table Json) : List Bytes :=
  activeKeys (verdicts clock entries k rs)

def cooled (rs : Table Json) (e : Entry) : Table Json :=
  match e.cooldown with
  | none => rs
  | some n => Table.insert e.key (record clock n true) rs

/-- The cooldown records once the cooldowns of ended sticky effects are among them. -/
def handed (s c : Table Json) : Table Json :=
  (overdue clock entries .sticky s).foldl (cooled clock) c

/-- Begins an effect of an entry unless it has a record. -/
def begun (k : EffectKind) (rs : Table Json) (e : Entry) : Table Json :=
  match k.duration e with
  | none => rs
  | some n =>
    if Table.contains e.key rs then rs else Table.insert e.key (record clock n false) rs

variable {clock entries}

def checkedState (clock : Int) (entries : List Entry) (state : Json) : Json :=
  let s := records state .sticky
  let c := handed clock entries s (records state .cooldown)
  withRecords state (staying clock entries .sticky s) (staying clock entries .cooldown c)

theorem coolDown_foldl {fx : Effects} {state : Json} {s c : Table Json} (es : List Entry)
    (h : state.isObject = true) (hfx : fx.state = withRecords state s c) :
    es.foldl coolDown fx = { fx with
      state := withRecords state s (es.foldl (cooled fx.clock) c)
      activeCooldown := fx.activeCooldown
        ++ (es.filter (·.cooldown.isSome)).map (·.key) } := by
  induction es generalizing fx c with
  | nil => simp [← hfx]
  | cons e es ih =>
    rw [List.foldl_cons, List.foldl_cons]
    cases hn : e.cooldown with
    | none =>
      have hsame : fx.coolDown e = fx := by simp [coolDown, hn]
      have hc : cooled fx.clock c e = c := by simp [cooled, hn]
      rw [hsame, hc, ih hfx]
      simp [hn]
    | some n =>
      have hone : fx.coolDown e = { fx with
          state := withRecords state s (cooled fx.clock c e)
          activeCooldown := fx.activeCooldown ++ [e.key] } := by
        simp only [coolDown, hn, cooled, hfx, records_withRecords h, setRecords_withRecords,
          EffectKind.pick_cooldown]
      rw [hone, ih rfl]
      simp [hn]

theorem check_eq {fx : Effects} (hobj : fx.state.isObject = true) (hdry : fx.dryRun = false)
    (vars : Variables) :
    fx.check vars = ({ fx with
        state := (checkedState fx.clock fx.entries fx.state).setField (lit "format") format
        activeSticky := running fx.clock fx.entries .sticky (records fx.state .sticky)
        activeCooldown :=
          ((overdue fx.clock fx.entries .sticky (records fx.state .sticky)).filter
            (·.cooldown.isSome)).map (·.key)
          ++ running fx.clock fx.entries .cooldown
            (handed fx.clock fx.entries (records fx.state .sticky)
              (records fx.state .cooldown)) },
      Table.insert fx.slot
        (stored ((checkedState fx.clock fx.entries fx.state).setField (lit "format") format))
        vars) := by
  have hrows : judged { fx with
        state := withTables fx.state, activeSticky := [], activeCooldown := [] } .sticky
      = verdicts fx.clock fx.entries .sticky (records fx.state .sticky) := by
    rw [judged]
    dsimp only
    rw [withTables_eq, records_withRecords hobj]
    rfl
  have hsticky : checkSticky { fx with
        state := withTables fx.state, activeSticky := [], activeCooldown := [] } =
      { fx with
        state := withRecords fx.state
          (staying fx.clock fx.entries .sticky (records fx.state .sticky))
          (handed fx.clock fx.entries (records fx.state .sticky) (records fx.state .cooldown))
        activeSticky := running fx.clock fx.entries .sticky (records fx.state .sticky)
        activeCooldown :=
          ((overdue fx.clock fx.entries .sticky (records fx.state .sticky)).filter
            (·.cooldown.isSome)).map (·.key) } := by
    unfold checkSticky
    dsimp only
    rw [hrows]
    rw [withTables_eq, setRecords_withRecords, coolDown_foldl _ hobj rfl]
    rfl
  unfold check
  dsimp only
  rw [hsticky]
  simp only [checkCooldown, judged, records_withRecords hobj, setRecords_withRecords,
    EffectKind.pick_cooldown, save, hdry, Bool.false_eq_true, if_false]
  rfl

/-- Effects of different entries may begin in either order. -/
theorem begun_comm {e e' : Entry} (h : e.key ≠ e'.key) (k : EffectKind) (rs : Table Json) :
    begun clock k (begun clock k rs e) e' = begun clock k (begun clock k rs e') e := by
  unfold begun
  cases k.duration e with
  | none => rfl
  | some n =>
    cases k.duration e' with
    | none => rfl
    | some n' =>
      simp only [Table.contains_eq]
      by_cases hk : (Table.get? e.key rs).isSome = true <;>
        by_cases hk' : (Table.get? e'.key rs).isSome = true <;>
          simp [hk, hk', Table.get?_insert_of_ne h, Table.get?_insert_of_ne h.symm,
            Table.insert_comm h]

theorem foldl_begun_perm {es es' : List Entry} (hp : es.Perm es') (hn : (es.map (·.key)).Nodup)
    (k : EffectKind) (rs : Table Json) :
    es.foldl (begun clock k) rs = es'.foldl (begun clock k) rs := by
  refine hp.foldl_eq' (fun e he e' he' rs => ?_) rs
  by_cases hk : e.key = e'.key
  · rw [List.inj_on_of_nodup_map hn he he' hk]
  · exact begun_comm hk k rs

theorem started_withRecords {state : Json} (h : state.isObject = true) (k : EffectKind)
    (s c : Table Json) (e : Entry) : started clock k (withRecords state s c) e
      = setRecords (withRecords state s c) k (begun clock k (k.pick s c) e) := by
  unfold started begun
  rw [records_withRecords h]
  cases k.duration e with
  | none => exact (setRecords_pick k).symm
  | some n =>
    dsimp only
    split
    · exact (setRecords_pick k).symm
    · rfl

theorem commit_eq {fx : Effects} {state : Json} {s c : Table Json} (hobj : state.isObject = true)
    (hstate : fx.state = withRecords state s c) (hdry : fx.dryRun = false) (selected : List Entry)
    (vars : Variables) :
    fx.commit selected vars =
      ({ fx with
          state := withRecords (state.setField (lit "format") format)
            (selected.foldl (begun fx.clock .sticky) s)
            (selected.foldl (begun fx.clock .cooldown) c) },
        Table.insert fx.slot (stored (withRecords (state.setField (lit "format") format)
          (selected.foldl (begun fx.clock .sticky) s)
          (selected.foldl (begun fx.clock .cooldown) c))) vars) := by
  have hfold (es : List Entry) (s c : Table Json) :
      es.foldl (fun state e =>
        started fx.clock .cooldown (started fx.clock .sticky state e) e) (withRecords state s c)
        = withRecords state (es.foldl (begun fx.clock .sticky) s)
          (es.foldl (begun fx.clock .cooldown) c) := by
    induction es generalizing s c with
    | nil => rfl
    | cons e es ih =>
      simp only [List.foldl_cons, started_withRecords hobj, setRecords_withRecords,
        EffectKind.pick_sticky, EffectKind.pick_cooldown, ih]
  unfold commit
  rw [hdry, hstate, withTables_withRecords hobj, hfold]
  simp only [save, setField_withRecords, Bool.false_eq_true, if_false]

def renewed (clock : Int) (entries : List Entry) (k : EffectKind) (selected : List Entry)
    (rs : Table Json) : Table Json :=
  selected.foldl (begun clock k) (staying clock entries k rs)

/-- What a check and a commit store. -/
theorem commit_check {fx : Effects} (hobj : fx.state.isObject = true) (hdry : fx.dryRun = false)
    (selected : List Entry) (vars : Variables) :
    ((fx.check vars).1.commit selected (fx.check vars).2).2
      = Table.insert fx.slot (stored (withRecords (fx.state.setField (lit "format") format)
          (renewed fx.clock fx.entries .sticky selected (records fx.state .sticky))
          (renewed fx.clock fx.entries .cooldown selected
            (handed fx.clock fx.entries (records fx.state .sticky)
              (records fx.state .cooldown))))) vars := by
  have hformat : (fx.state.setField (lit "format") format).isObject = true := by simpa using hobj
  rw [check_eq hobj hdry, checkedState, setField_withRecords, commit_eq hformat rfl (by exact hdry),
    setField_setField, Table.insert_insert_self]
  rfl

end Check
end Effects
end Lorebook
