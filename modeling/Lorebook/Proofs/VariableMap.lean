import Lorebook.Proofs.Tables
import Lorebook.Proofs.Trimming
import Lorebook.Variables.Call
import Mathlib.Data.Finmap

set_option autoImplicit false

/-!
A variable store is a finite map from trimmed keys. After any calls it answers as the map does and
holds what the map holds, under keys that are trimmed and not blank; so what it dumps is loaded back
as it is.
-/

namespace Lorebook

namespace Table

variable {β : Type} {t : Table β}

theorem Ordered.erase (h : Ordered t) (k : Bytes) : Ordered (erase k t) :=
  h.sublist List.filter_sublist

theorem Ordered.get?_erase (h : Ordered t) (k k' : Bytes) :
    get? k (Table.erase k' t) = if k' = k then none else get? k t := by
  rw [Table.erase, h.get?_filter]
  cases get? k t with
  | none => simp
  | some v =>
    by_cases hk : k' = k
    · simp [hk]
    · simp [hk, Ne.symm hk]

end Table

abbrev VariableMap := Finmap fun _ : Bytes => Bytes

namespace VariableMap

/-- What is done under a key is done under the key as trimmed; a blank key is a fault. -/
def atKey (m : VariableMap) (k : Bytes) (f : Bytes → VariableAnswer × VariableMap) :
    VariableAnswer × VariableMap :=
  if Bytes.isBlank k then (.fault .blankVariableKey, m) else f (Bytes.trim k)

def keyed (v : Json) : List (Bytes × Json) := v.fields.filter (!Bytes.isBlank ·.1)

def enter (m : VariableMap) (r : Bytes × Json) : VariableMap :=
  m.insert (Bytes.trim r.1) (Variables.textOf r.2)

/-- The answer to a call, and the map afterwards. Loading enters one field after another, as far as
their values can be written out. -/
def run (m : VariableMap) : VariableCall → VariableAnswer × VariableMap
  | .set k v => m.atKey k fun t => (.flag true, m.insert t v)
  | .get k => m.atKey k fun t => (.text (m.lookup t), m)
  | .erase k => m.atKey k fun t => (.flag (t ∈ m), m.erase t)
  | .contains k => m.atKey k fun t => (.flag (t ∈ m), m)
  | .size => (.count m.keys.card, m)
  | .clear => (.flag true, ∅)
  | .load v => (.loaded ((keyed v).findSome? fun r => Variables.flaw? r.2),
      ((keyed v).takeWhile fun r => (Variables.flaw? r.2).isNone).foldl enter ∅)

theorem run_of_blank {m : VariableMap} {call : VariableCall} {k : Bytes}
    (hcall : call.key? = some k) (hk : Bytes.isBlank k = true) :
    m.run call = (.fault .blankVariableKey, m) := by
  cases call <;> cases hcall <;> simp [run, atKey, hk]

end VariableMap

namespace Variables

variable {vars : Variables}

def toMap (vars : Variables) : VariableMap :=
  (vars.map fun r => (⟨r.1, r.2⟩ : Sigma fun _ : Bytes => Bytes)).toFinmap

@[simp] theorem lookup_toMap (vars : Variables) (k : Bytes) :
    vars.toMap.lookup k = Table.get? k vars := by
  rw [toMap, Finmap.dlookup_list_toFinmap]
  induction vars with
  | nil => rfl
  | cons r vars ih =>
    obtain ⟨k', v⟩ := r
    by_cases h : k' = k
    · subst h
      simp [Table.get?]
    · rw [List.map_cons, List.dlookup_cons_ne _ _ (Ne.symm h), ih, Table.get?, if_neg h]

theorem mem_toMap {k : Bytes} : k ∈ vars.toMap ↔ k ∈ Table.keys vars := by
  rw [← Finmap.lookup_isSome, lookup_toMap, Table.isSome_get?_iff]

theorem toMap_insert (k v : Bytes) (vars : Variables) :
    toMap (Table.insert k v vars) = vars.toMap.insert k v := by
  refine Finmap.ext_lookup fun x => ?_
  rw [lookup_toMap, Table.get?_insert]
  by_cases h : k = x
  · subst h
    simp
  · rw [if_neg h, Finmap.lookup_insert_of_ne _ (Ne.symm h), lookup_toMap]

theorem toMap_erase (h : Table.Ordered vars) (k : Bytes) :
    toMap (Table.erase k vars) = vars.toMap.erase k := by
  refine Finmap.ext_lookup fun x => ?_
  rw [lookup_toMap, h.get?_erase]
  by_cases hx : k = x
  · subst hx
    simp
  · rw [if_neg hx, Finmap.lookup_erase_ne (Ne.symm hx), lookup_toMap]

theorem card_keys_toMap (h : Table.Ordered vars) : vars.toMap.keys.card = vars.size := by
  have hkeys : vars.toMap.keys = (Table.keys vars).toFinset := by
    ext k
    rw [Finmap.mem_keys, mem_toMap, List.mem_toFinset]
  rw [hkeys, List.toFinset_card_of_nodup h.nodup, Table.keys, List.length_map, size]

/-- Variables in the order of their keys, which are trimmed and not blank. -/
structure Kept (vars : Variables) : Prop where
  ordered : Table.Ordered vars
  tidy : KeyList.Tidy (Table.keys vars)

namespace Kept

theorem nil : Kept [] := ⟨.nil, .nil⟩

theorem insert (h : Kept vars) {k : Bytes} (hk : Bytes.isBlank k = false) (v : Bytes) :
    Kept (Table.insert (Bytes.trim k) v vars) := by
  refine ⟨h.ordered.insert _ v, fun x hx => ?_⟩
  obtain ⟨r, hr, rfl⟩ := List.mem_map.mp hx
  rcases Table.eq_or_mem_of_mem_insert hr with rfl | hr
  · refine ⟨fun hnil => ?_, Bytes.trim_trim k⟩
    rw [(Bytes.trim_eq_nil_iff k).mp hnil] at hk
    cases hk
  · exact h.tidy r.1 (List.mem_map_of_mem hr)

theorem erase (h : Kept vars) (k : Bytes) : Kept (Table.erase k vars) := by
  refine ⟨h.ordered.erase k, fun x hx => ?_⟩
  obtain ⟨r, hr, rfl⟩ := List.mem_map.mp hx
  exact h.tidy r.1 (List.mem_map_of_mem (List.mem_filter.mp hr).1)

end Kept

/-- Setting the variables of fields one after another is entering them in the map. -/
theorem setFields_spec (h : Kept vars) (fs : List (Bytes × Json)) :
    let rows := fs.filter (!Bytes.isBlank ·.1)
    Kept (setFields vars fs).1 ∧
      (setFields vars fs).2 = rows.findSome? (fun r => flaw? r.2) ∧
      toMap (setFields vars fs).1
        = (rows.takeWhile fun r => (flaw? r.2).isNone).foldl VariableMap.enter vars.toMap := by
  induction fs generalizing vars with
  | nil => exact ⟨h, rfl, rfl⟩
  | cons r fs ih =>
    obtain ⟨k, x⟩ := r
    cases hk : Bytes.isBlank k with
    | true =>
      rw [setFields, key_of_blank hk]
      simpa [hk] using ih h
    | false =>
      rw [setFields, key_of_not_blank hk]
      cases hx : flaw? x with
      | some f => simpa [hk, hx] using h
      | none =>
        have hrest := ih (h.insert hk (textOf x))
        rw [toMap_insert] at hrest
        simpa [hk, hx, VariableMap.enter] using hrest

theorem setFields_texts (vars : Variables) {rows : Variables}
    (hrows : KeyList.Tidy (Table.keys rows)) :
    setFields vars (rows.map fun r => (r.1, .str r.2))
      = (rows.foldl (fun t r => Table.insert r.1 r.2 t) vars, none) := by
  induction rows generalizing vars with
  | nil => rfl
  | cons r rows ih =>
    have hblank : Bytes.isBlank r.1 = false := hrows.isBlank_eq_false List.mem_cons_self
    obtain ⟨⟨_, htrim⟩, hrest⟩ := List.forall_mem_cons.mp hrows
    rw [List.map_cons, setFields, key_of_not_blank hblank, htrim]
    exact ih _ hrest

/-- What is dumped is loaded back. -/
theorem load_toJson (h : Kept vars) : load vars.toJson = (vars, none) := by
  rw [load, toJson, Json.fields, setFields_texts [] h.tidy]
  exact congrArg (·, none) h.ordered.ofRows_eq

end Variables

namespace VariableCall

variable {vars : Variables}

theorem run_of_blank {call : VariableCall} {k : Bytes} (hcall : call.key? = some k)
    (hk : Bytes.isBlank k = true) : call.run vars = (.fault .blankVariableKey, vars) := by
  have hkey := Variables.key_of_blank hk
  cases call <;> cases hcall <;>
    simp [run, Variables.set, Variables.get?, Variables.erase, Variables.contains, hkey,
      Except.map, orFault]

/-- A store and its map take a call alike. -/
theorem run_spec (h : vars.Kept) (call : VariableCall) :
    (call.run vars).2.Kept ∧
      vars.toMap.run call = ((call.run vars).1, (call.run vars).2.toMap) := by
  by_cases hblank : ∃ k, call.key? = some k ∧ Bytes.isBlank k = true
  · obtain ⟨k, hcall, hk⟩ := hblank
    rw [run_of_blank hcall hk, VariableMap.run_of_blank hcall hk]
    exact ⟨h, rfl⟩
  have hkey : ∀ k, call.key? = some k → Bytes.isBlank k = false := by simpa using hblank
  cases call with
  | set k v =>
    have hk := hkey k rfl
    have hrun : run vars (.set k v) = (.flag true, Table.insert (Bytes.trim k) v vars) := by
      simp [run, Variables.set, Variables.key_of_not_blank hk, Except.map, orFault]
    rw [hrun]
    refine ⟨h.insert hk v, ?_⟩
    simp [VariableMap.run, VariableMap.atKey, hk, Variables.toMap_insert]
  | get k =>
    have hk := hkey k rfl
    have hrun : run vars (.get k) = (.text (Table.get? (Bytes.trim k) vars), vars) := by
      simp [run, Variables.get?, Variables.key_of_not_blank hk, Except.map, orFault]
    rw [hrun]
    refine ⟨h, ?_⟩
    simp [VariableMap.run, VariableMap.atKey, hk]
  | erase k =>
    have hk := hkey k rfl
    have hrun : run vars (.erase k)
        = (.flag (Table.contains (Bytes.trim k) vars), Table.erase (Bytes.trim k) vars) := by
      simp [run, Variables.erase, Variables.key_of_not_blank hk, Except.map, orFault]
    rw [hrun]
    refine ⟨h.erase _, ?_⟩
    simp [VariableMap.run, VariableMap.atKey, hk, Variables.toMap_erase h.ordered,
      Variables.mem_toMap, Table.contains_eq, ← Table.isSome_get?_iff]
  | contains k =>
    have hk := hkey k rfl
    have hrun : run vars (.contains k) = (.flag (Table.contains (Bytes.trim k) vars), vars) := by
      simp [run, Variables.contains, Variables.get?, Variables.key_of_not_blank hk, Except.map,
        orFault, Table.contains_eq]
    rw [hrun]
    refine ⟨h, ?_⟩
    simp [VariableMap.run, VariableMap.atKey, hk, Variables.mem_toMap, Table.contains_eq,
      ← Table.isSome_get?_iff]
  | size =>
    refine ⟨h, ?_⟩
    rw [VariableMap.run, Variables.card_keys_toMap h.ordered]
    rfl
  | clear => exact ⟨.nil, rfl⟩
  | load v =>
    obtain ⟨hkept, hfailure, hmap⟩ := Variables.setFields_spec .nil v.fields
    refine ⟨hkept, Prod.ext ?_ ?_⟩
    · exact congrArg VariableAnswer.loaded hfailure.symm
    · exact hmap.symm

def replay {σ : Type} (step : σ → VariableCall → VariableAnswer × σ) (s : σ) :
    List VariableCall → List VariableAnswer × σ
  | [] => ([], s)
  | call :: calls =>
    let (answer, s) := step s call
    let (answers, s) := replay step s calls
    (answer :: answers, s)

theorem replay_spec (h : vars.Kept) (calls : List VariableCall) :
    (replay run vars calls).2.Kept ∧
      replay VariableMap.run vars.toMap calls
        = ((replay run vars calls).1, (replay run vars calls).2.toMap) := by
  induction calls generalizing vars with
  | nil => exact ⟨h, rfl⟩
  | cons call calls ih =>
    obtain ⟨hkept, hrun⟩ := run_spec h call
    obtain ⟨hrest, hanswers⟩ := ih hkept
    refine ⟨hrest, ?_⟩
    simp only [replay, hrun, hanswers]

/-- A store that has taken any calls, from an empty one on. -/
theorem replay_refines (calls : List VariableCall) :
    let vars := (replay run [] calls).2
    replay VariableMap.run ∅ calls = ((replay run [] calls).1, vars.toMap) ∧
    (∀ k ∈ Table.keys vars, Bytes.trim k = k ∧ Bytes.isBlank k = false) ∧
    (∀ call k, key? call = some k → Bytes.isBlank k = true →
      call.run vars = (.fault .blankVariableKey, vars)) ∧
    Fault.isBookFault .blankVariableKey = false ∧
    ∀ other, run other (.load vars.toJson) = (.loaded none, vars) := by
  intro vars
  obtain ⟨hkept, hmap⟩ := replay_spec .nil calls
  refine ⟨hmap, fun k hk => ?_, fun call k => run_of_blank, rfl, fun other => ?_⟩
  · exact ⟨(hkept.tidy k hk).2, hkept.tidy.isBlank_eq_false hk⟩
  · rw [run, Variables.load_toJson hkept]

theorem replay_refines_colliding :
    let calls := [.set (lit " a ") (lit "1"), .load (.object [(lit "b", .int 2),
      (lit " b", .str (lit "x")), (lit "\t", .null)]), .set (lit "c\n") (lit "3"), .erase (lit "a")]
    let vars := (replay run [] calls).2
    (replay run [] calls).1 = [.flag true, .loaded none, .flag true, .flag false] ∧
      vars = [(lit "b", lit "2"), (lit "c", lit "3")] ∧
      replay VariableMap.run ∅ calls = ((replay run [] calls).1, vars.toMap) ∧
      (∀ k ∈ Table.keys vars, Bytes.trim k = k ∧ Bytes.isBlank k = false) ∧
      key? (.get (lit " ")) = some (lit " ") ∧ Bytes.isBlank (lit " ") = true ∧
      run vars (.get (lit " ")) = (.fault .blankVariableKey, vars) ∧
      Fault.isBookFault .blankVariableKey = false ∧
      ∀ other, run other (.load vars.toJson) = (.loaded none, vars) := by
  intro calls vars
  obtain ⟨hmap, hkeys, hblank, hfault, hload⟩ := replay_refines calls
  have hk : Bytes.isBlank (lit " ") = true := by decide +kernel
  exact ⟨by decide +kernel, by decide +kernel, hmap, hkeys, rfl, hk,
    hblank (.get (lit " ")) (lit " ") rfl hk, hfault, hload⟩

end VariableCall
end Lorebook
