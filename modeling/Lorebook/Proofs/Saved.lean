import Lorebook.Proofs.Legible
import Lorebook.Proofs.Records

set_option autoImplicit false

/-!
States that are stored and loaded again. The records come back as they were, but under repaired
keys; of several records whose keys become the same, the last one is left.
-/

namespace Lorebook

namespace Json

theorem Legible.repaired_tidy {v : Json} (h : Legible v) : v.repaired.tidy = v := by
  rw [repaired_of_writable v h.1, h.2]

theorem repaired_tidy_obj (fs : List (Bytes × Json)) : (obj fs).repaired.tidy
    = .obj (Table.ofRows (fs.map fun r => (Utf8.repair r.1, r.2.repaired.tidy))) := by
  rw [repaired, tidy, repairedFields_eq, tidyFields_eq, List.map_map]
  rfl

theorem writable_repaired_obj {fs : List (Bytes × Json)} (h : ∀ r ∈ fs, Writable r.2.repaired) :
    Writable (obj fs).repaired := by
  rw [repaired, Writable, repairedFields_eq, writableFields_iff]
  intro r hr
  obtain ⟨r', hr', rfl⟩ := List.mem_map.mp hr
  exact ⟨Utf8.isValid_repair _, h r' hr'⟩

theorem Legible.setField {v x : Json} {k : Bytes} (h : Legible v) (hk : Utf8.isValid k = true)
    (hx : Legible x) : Legible (v.setField k x) := by
  cases v with
  | obj fs =>
    obtain ⟨hord, hrows⟩ := legible_obj.mp h
    refine legible_obj.mpr ⟨hord.insert k x, fun r hr => ?_⟩
    rcases Table.eq_or_mem_of_mem_insert hr with rfl | hr
    · exact ⟨hk, hx⟩
    · exact hrows r hr
  | _ => exact h

end Json

namespace Effects

open Json

def reloaded (rs : Table Json) : Table Json :=
  Table.ofRows (rs.map fun r => (Utf8.repair r.1, r.2))

theorem legible_format : Legible format := by
  refine legible_arr.mpr fun v hv => ?_
  simp only [List.mem_cons, List.not_mem_nil, or_false] at hv
  rcases hv with rfl | rfl <;> exact ⟨⟨by decide, by decide⟩, rfl⟩

theorem legible_emptyState : Legible emptyState := by
  have hnone : Legible (.obj []) := legible_obj.mpr ⟨.nil, nofun⟩
  refine legible_object fun r hr => ?_
  simp only [List.mem_cons, List.not_mem_nil, or_false] at hr
  rcases hr with rfl | rfl | rfl
  · exact ⟨by decide, legible_format⟩
  · exact ⟨by decide, hnone⟩
  · exact ⟨by decide, hnone⟩

theorem legible_loadState (stateKey : Bytes) (stored : Option Bytes) :
    Legible (loadState stateKey stored).1 := by
  unfold loadState
  split
  · exact legible_emptyState
  split
  · exact legible_emptyState
  split
  · next fs hread =>
    have hfs := legible_of_read? hread
    split
    · exact hfs
    split
    · exact hfs
    · exact legible_emptyState
  · exact legible_emptyState

theorem isValid_name (k : EffectKind) : Utf8.isValid k.name = true := by cases k <;> decide

theorem legible_record {clock : Int} (lo : Bounded.min ≤ clock) (hi : clock ≤ Bounded.max)
    (n : Int) (isProtected : Bool) : Legible (record clock n isProtected) := by
  have hmax : Bounded.max ≤ 18446744073709551615 := by decide
  have hend := Bounded.clamp_le_max (clock + n)
  refine legible_object fun r hr => ?_
  simp only [List.mem_cons, List.not_mem_nil, or_false] at hr
  rcases hr with rfl | rfl | rfl
  · exact ⟨show Utf8.isValid (lit "start") = true by decide, ⟨lo, by omega⟩, rfl⟩
  · exact ⟨show Utf8.isValid (lit "end") = true by decide,
      ⟨Bounded.min_le_clamp _, Int.le_trans hend hmax⟩, rfl⟩
  · exact ⟨show Utf8.isValid (lit "protected") = true by decide, trivial, rfl⟩

structure Kept (p : Bytes → Prop) (rs : Table Json) : Prop where
  ordered : Table.Ordered rs
  keys : ∀ r ∈ rs, p r.1
  legible : ∀ r ∈ rs, Legible r.2

namespace Kept

variable {p : Bytes → Prop} {rs s c : Table Json} {clock : Int} {entries es : List Entry}

theorem records {state : Json} (h : Legible state) (hp : ∀ k, Utf8.isValid k = true → p k)
    (k : EffectKind) : Kept p (records state k) := by
  unfold Effects.records
  split
  · next rs hget =>
    cases state with
    | obj fs =>
      have hrow := Table.mem_row_of_get? hget
      obtain ⟨hord, hrows⟩ := legible_obj.mp ((legible_obj.mp h).2 _ hrow).2
      exact ⟨hord, fun r hr => hp _ (hrows r hr).1, fun r hr => (hrows r hr).2⟩
    | _ => cases hget
  · exact ⟨.nil, nofun, nofun⟩

theorem insert {k : Bytes} {v : Json} (h : Kept p rs) (hk : p k) (hv : Legible v) :
    Kept p (Table.insert k v rs) := by
  refine ⟨h.ordered.insert k v, fun r hr => ?_, fun r hr => ?_⟩
  · rcases Table.eq_or_mem_of_mem_insert hr with rfl | hr
    · exact hk
    · exact h.keys r hr
  · rcases Table.eq_or_mem_of_mem_insert hr with rfl | hr
    · exact hv
    · exact h.legible r hr

theorem sublist (h : Kept p rs) (hs : s.Sublist rs) : Kept p s :=
  ⟨h.ordered.sublist hs, fun r hr => h.keys r (hs.subset hr),
    fun r hr => h.legible r (hs.subset hr)⟩

end Kept

theorem reloaded_eq {rs : Table Json} (h : Table.Ordered rs)
    (hvalid : ∀ r ∈ rs, Utf8.isValid r.1 = true) : reloaded rs = rs := by
  have hmap : (rs.map fun r => (Utf8.repair r.1, r.2)) = rs := by
    conv_rhs => rw [← List.map_id' rs]
    refine List.map_congr_left fun r hr => ?_
    rw [Utf8.repair_of_valid (hvalid r hr)]
  rw [reloaded, hmap, h.ofRows_eq]

section Stored

variable {p : Bytes → Prop} {state : Json} {s c rs : Table Json}

theorem Kept.repaired_tidy (h : Kept p rs) :
    (Json.obj rs).repaired.tidy = .obj (reloaded rs) := by
  have hmap : (rs.map fun r => (Utf8.repair r.1, r.2.repaired.tidy))
      = rs.map fun r => (Utf8.repair r.1, r.2) :=
    List.map_congr_left fun r hr => by rw [(h.legible r hr).repaired_tidy]
  rw [repaired_tidy_obj, hmap, reloaded]

theorem Kept.writable_repaired (h : Kept p rs) : Writable (Json.obj rs).repaired := by
  refine writable_repaired_obj fun r hr => ?_
  have hr := (h.legible r hr).1
  rwa [repaired_of_writable _ hr]

theorem read?_stored (h : Legible state) (hs : Kept p s) (hc : Kept p c) :
    read? (stored (withRecords state s c))
      = some (withRecords state (reloaded s) (reloaded c)) := by
  cases state with
  | obj fs =>
    obtain ⟨hord, hrows⟩ := legible_obj.mp h
    have hwith (s c : Table Json) : withRecords (.obj fs) s c
        = .obj (Table.insert EffectKind.cooldown.name (.obj c)
          (Table.insert EffectKind.sticky.name (.obj s) fs)) := rfl
    have hall (r : Bytes × Json) (hr : r ∈ Table.insert EffectKind.cooldown.name (.obj c)
        (Table.insert EffectKind.sticky.name (.obj s) fs)) :
        Utf8.isValid r.1 = true ∧ Writable r.2.repaired := by
      rcases Table.eq_or_mem_of_mem_insert hr with rfl | hr
      · exact ⟨isValid_name .cooldown, hc.writable_repaired⟩
      rcases Table.eq_or_mem_of_mem_insert hr with rfl | hr
      · exact ⟨isValid_name .sticky, hs.writable_repaired⟩
      · obtain ⟨hk, hv⟩ := hrows r hr
        exact ⟨hk, by rw [repaired_of_writable _ hv.1]; exact hv.1⟩
    -- The two tables of records are new; every other field comes back as it is.
    have hfs : (fs.map fun r => (r.1, r.2.repaired.tidy)) = fs := by
      conv_rhs => rw [← List.map_id' fs]
      exact List.map_congr_left fun r hr => by rw [(hrows r hr).2.repaired_tidy]
    let back (v : Json) : Json := v.repaired.tidy
    have hkeys (t : Table Json) (ht : ∀ r ∈ t, Utf8.isValid r.1 = true) :
        (t.map fun r => (Utf8.repair r.1, r.2.repaired.tidy))
          = t.map fun r => (r.1, back r.2) :=
      List.map_congr_left fun r hr => by rw [Utf8.repair_of_valid (ht r hr)]
    rw [hwith, stored, read?_compact (writable_repaired_obj fun r hr => (hall r hr).2),
      repaired_tidy_obj, hkeys _ fun r hr => (hall r hr).1, Table.map_insert back,
      Table.map_insert back, show fs.map (fun r => (r.1, back r.2)) = fs from hfs,
      show back (.obj s) = _ from hs.repaired_tidy,
      show back (.obj c) = _ from hc.repaired_tidy, ((hord.insert _ _).insert _ _).ofRows_eq, hwith]
  | _ => exact (congrArg (read? ∘ compact) (repaired_of_writable _ h.1)).trans h.read?_compact

theorem get?_format (hobj : state.isObject = true) :
    (withRecords (state.setField (lit "format") format) s c).get? (lit "format")
      = some format := by
  cases state with
  | obj fs =>
    simp only [withRecords, setRecords, Json.setField, Json.get?, Json.fields]
    rw [Table.get?_insert_of_ne (name_ne_format _), Table.get?_insert_of_ne (name_ne_format _),
      Table.get?_insert_self]
  | _ => cases hobj

theorem isBlank_stored (hobj : state.isObject = true) : Bytes.isBlank (stored state) = false := by
  cases state with
  | obj fs =>
    rw [stored, repaired, compact]
    rfl
  | _ => cases hobj

theorem loadState_of_read? {text : Bytes} {state : Json} (stateKey : Bytes)
    (hblank : Bytes.isBlank text = false) (hread : read? text = some state)
    (hobj : state.isObject = true)
    (hformat : state.get? (lit "format") = some format) :
    loadState stateKey (some text) = (state, []) := by
  cases state with
  | obj fs =>
    unfold loadState
    dsimp only
    rw [hblank, hread]
    dsimp only
    rw [show Table.get? (lit "format") fs = some format from hformat]
    rfl
  | _ => cases hobj

theorem loadState_stored (stateKey : Bytes) (hobj : state.isObject = true) (h : Legible state)
    (hs : Kept p s) (hc : Kept p c) :
    loadState stateKey
        (some (stored (withRecords (state.setField (lit "format") format) s c)))
      = (withRecords (state.setField (lit "format") format) (reloaded s) (reloaded c), []) :=
  loadState_of_read? stateKey (isBlank_stored (by simpa using hobj))
    (read?_stored (h.setField (k := lit "format") (by decide) legible_format) hs hc)
    (by simpa using hobj) (get?_format hobj)

theorem start_stored (clock : Int) (entries : List Entry) (vars : Variables)
    {stateKey slot : Bytes} (hslot : Variables.key stateKey = .ok slot)
    (hobj : state.isObject = true) (h : Legible state) (hs : Kept p s) (hc : Kept p c) :
    let state := state.setField (lit "format") format
    start clock entries (Table.insert slot (stored (withRecords state s c)) vars) stateKey false
      = .ok ({ clock, entries, stateKey, slot, dryRun := false,
               state := withRecords state (reloaded s) (reloaded c) }, []) := by
  have hload := loadState_stored stateKey hobj h hs hc
  simp only [start, hslot, Except.map, Table.get?_insert_self, hload]

end Stored
end Effects
end Lorebook
