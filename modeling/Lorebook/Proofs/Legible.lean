import Lorebook.Proofs.JsonText

set_option autoImplicit false

/-!
What reading can return. Such values can be written again, and come back as they are.
-/

namespace Lorebook

namespace Binary64

theorem isFinite_ofMagnitude (negative : Bool) {m : Nat} (h : m < 2047 * hidden) :
    (ofMagnitude negative m).isFinite = true := by
  have hm : (ofMagnitude negative m).magnitude = m := by
    unfold hidden at h
    simp only [magnitude, ofMagnitude, UInt64.toNat_ofNat']
    split <;> omega
  have hdiv : m / hidden < 2047 := (Nat.div_lt_iff_lt_mul (by decide)).mpr h
  simpa [isFinite, biased, hm] using hdiv

theorem isFinite_of_ofDecimal? {negative : Bool} {m : Nat} {e : Int} {d : Binary64}
    (h : ofDecimal? negative m e = some d) : d.isFinite = true := by
  have hzero : (ofMagnitude negative 0).isFinite = true :=
    isFinite_ofMagnitude negative (by decide)
  unfold ofDecimal? at h
  dsimp only at h
  split at h
  · cases h
    exact hzero
  split at h
  · cases h
  split at h
  · cases h
    exact hzero
  unfold nearest? at h
  dsimp only at h
  split at h
  · next hm =>
    cases h
    exact isFinite_ofMagnitude negative hm
  · cases h

end Binary64

namespace Json

/-- A value as readers make it. -/
def Legible (v : Json) : Prop := Writable v ∧ v.tidy = v

section Members

variable {v : Json} {vs : List Json} {fs : List (Bytes × Json)}

theorem writableItems_iff : WritableItems vs ↔ ∀ v ∈ vs, Writable v := by
  induction vs with
  | nil => simp [WritableItems]
  | cons v vs ih => simp [WritableItems, ih]

theorem writableFields_iff :
    WritableFields fs ↔ ∀ r ∈ fs, Utf8.isValid r.1 = true ∧ Writable r.2 := by
  induction fs with
  | nil => simp [WritableFields]
  | cons r fs ih => simp [WritableFields, ih, and_assoc]

theorem tidyItems_eq (vs : List Json) : tidyItems vs = vs.map tidy := by
  induction vs with
  | nil => rfl
  | cons v vs ih => rw [tidyItems, ih, List.map_cons]

theorem tidyFields_eq (fs : List (Bytes × Json)) :
    tidyFields fs = fs.map fun r => (r.1, r.2.tidy) := by
  induction fs with
  | nil => rfl
  | cons r fs ih => rw [tidyFields, ih, List.map_cons]

theorem repairedFields_eq (fs : List (Bytes × Json)) :
    repairedFields fs = fs.map fun r => (Utf8.repair r.1, r.2.repaired) := by
  induction fs with
  | nil => rfl
  | cons r fs ih => rw [repairedFields, ih, List.map_cons]

theorem legible_arr : Legible (.arr vs) ↔ ∀ v ∈ vs, Legible v := by
  have hid : tidyItems vs = vs ↔ ∀ v ∈ vs, v.tidy = v := by
    rw [tidyItems_eq, ← List.map_inj_left, List.map_id']
  simp only [Legible, Writable, tidy, arr.injEq, writableItems_iff, hid]
  exact forall₂_and.symm

theorem legible_obj : Legible (.obj fs) ↔
    Table.Ordered fs ∧ ∀ r ∈ fs, Utf8.isValid r.1 = true ∧ Legible r.2 := by
  have hkeys : (tidyFields fs).map (·.1) = fs.map (·.1) := by
    rw [tidyFields_eq, List.map_map]
    rfl
  have hmap : tidyFields fs = fs ↔ ∀ r ∈ fs, r.2.tidy = r.2 := by
    rw [tidyFields_eq]
    conv_lhs => rw [← List.map_id' fs]
    simp only [List.map_map, List.map_inj_left]
    exact forall₂_congr fun r _ => by simp [Prod.ext_iff]
  have hid : Table.ofRows (tidyFields fs) = fs ↔
      Table.Ordered fs ∧ ∀ r ∈ fs, r.2.tidy = r.2 := by
    constructor
    · intro h
      have hord : Table.Ordered fs := h ▸ Table.Ordered.ofRows _
      have htidy : Table.Ordered (tidyFields fs) := by
        unfold Table.Ordered
        rw [Table.keys, hkeys]
        exact hord
      rw [htidy.ofRows_eq, hmap] at h
      exact ⟨hord, h⟩
    · rintro ⟨hord, h⟩
      rw [hmap.mpr h, hord.ofRows_eq]
  simp only [Legible, Writable, tidy, obj.injEq, writableFields_iff, hid]
  constructor
  · rintro ⟨hw, hord, ht⟩
    exact ⟨hord, fun r hr => ⟨(hw r hr).1, (hw r hr).2, ht r hr⟩⟩
  · rintro ⟨hord, h⟩
    exact ⟨fun r hr => ⟨(h r hr).1, (h r hr).2.1⟩, hord, fun r hr => (h r hr).2.2⟩

mutual

theorem repaired_of_writable : ∀ v : Json, Writable v → v.repaired = v
  | .null, _ | .bool _, _ | .int _, _ | .float _, _ => rfl
  | .str s, h => by rw [repaired, Utf8.repair_of_valid h]
  | .arr vs, h => by rw [repaired, repairedItems_of_writable vs h]
  | .obj fs, h => by rw [repaired, repairedFields_of_writable fs h]

theorem repairedItems_of_writable : ∀ vs : List Json, WritableItems vs → repairedItems vs = vs
  | [], _ => rfl
  | v :: vs, h => by
    rw [repairedItems, repaired_of_writable v h.1, repairedItems_of_writable vs h.2]

theorem repairedFields_of_writable :
    ∀ fs : List (Bytes × Json), WritableFields fs → repairedFields fs = fs
  | [], _ => rfl
  | (k, v) :: fs, h => by
    rw [repairedFields, Utf8.repair_of_valid h.1, repaired_of_writable v h.2.1,
      repairedFields_of_writable fs h.2.2]

end

end Members

section Read

variable {fuel : Nat} {s rest : Bytes} {v : Json}

theorem legible_ofInteger? {negative : Bool} {n : Nat} (h : ofInteger? negative n = some v) :
    Legible v := by
  have hfloat {negative : Bool} {m : Nat} {e : Int}
      (h : (Binary64.ofDecimal? negative m e).map .float = some v) : Legible v := by
    obtain ⟨d, hd, rfl⟩ := Option.map_eq_some_iff.mp h
    exact ⟨Binary64.isFinite_of_ofDecimal? hd, rfl⟩
  unfold ofInteger? at h
  split at h <;> split at h
  · cases h
    refine ⟨?_, rfl⟩
    unfold Writable InRange Bounded.min
    omega
  · exact hfloat h
  · cases h
    refine ⟨?_, rfl⟩
    unfold Writable InRange Bounded.min
    omega
  · exact hfloat h

theorem legible_number? (h : number? s = some (v, rest)) : Legible v := by
  unfold number? at h
  dsimp only at h
  split at h
  all_goals
    split at h
    · cases h
    simp only [Option.bind_eq_bind, Option.bind_eq_some_iff] at h
    obtain ⟨⟨frac, s₁⟩, _, ⟨exp, s₂⟩, _, h⟩ := h
    dsimp only at h
    split at h
    · obtain ⟨v', hv, heq⟩ := Option.map_eq_some_iff.mp h
      cases heq
      exact legible_ofInteger? hv
    · obtain ⟨d, hd, heq⟩ := Option.bind_eq_some_iff.mp h
      cases heq
      exact ⟨Binary64.isFinite_of_ofDecimal? hd, rfl⟩

theorem isValid_of_string? {t : Bytes} (h : string? s = some (t, rest)) :
    Utf8.isValid t = true := by
  unfold string? at h
  split at h
  · split at h
    · next hv =>
      cases h
      exact hv
    · cases h
  · cases h

theorem legible_keyword? {word : Bytes} {v' : Json} (hv : Legible v)
    (h : keyword? word v s = some (v', rest)) : Legible v' := by
  unfold keyword? at h
  split at h
  · cases h
    exact hv
  · cases h

theorem legible_object {fs : List (Bytes × Json)}
    (h : ∀ r ∈ fs, Utf8.isValid r.1 = true ∧ Legible r.2) : Legible (object fs) := by
  refine legible_obj.mpr ⟨.ofRows _, fun r hr => h r ?_⟩
  exact Table.mem_of_mem_ofRows hr

theorem legible_of_fuel (fuel : Nat) :
    (∀ s v rest, value? fuel s = some (v, rest) → Legible v) ∧
    (∀ s vs rest, items? fuel s = some (vs, rest) → ∀ v ∈ vs, Legible v) ∧
    (∀ s fs rest, members? fuel s = some (fs, rest) →
      ∀ r ∈ fs, Utf8.isValid r.1 = true ∧ Legible r.2) := by
  induction fuel with
  | zero =>
    refine ⟨fun s v rest h => ?_, fun s vs rest h => ?_, fun s fs rest h => ?_⟩
    all_goals cases h
  | succ fuel ih =>
    obtain ⟨ihv, ihi, ihm⟩ := ih
    refine ⟨fun s v rest h => ?_, fun s vs rest h => ?_, fun s fs rest h => ?_⟩
    · rw [value?] at h
      split at h
      · cases h
      split at h
      · obtain ⟨⟨t, r⟩, ht, heq⟩ := Option.map_eq_some_iff.mp h
        cases heq
        exact ⟨isValid_of_string? ht, rfl⟩
      split at h
      · split at h
        · cases h
          exact legible_arr.mpr (List.forall_mem_nil _)
        · obtain ⟨⟨vs, r⟩, hvs, heq⟩ := Option.map_eq_some_iff.mp h
          cases heq
          exact legible_arr.mpr (ihi _ _ _ hvs)
      split at h
      · split at h
        · cases h
          exact legible_obj.mpr ⟨.nil, List.forall_mem_nil _⟩
        · obtain ⟨⟨fs, r⟩, hfs, heq⟩ := Option.map_eq_some_iff.mp h
          cases heq
          exact legible_object (ihm _ _ _ hfs)
      split at h
      · exact legible_keyword? (v := .null) ⟨trivial, rfl⟩ h
      split at h
      · exact legible_keyword? (v := .bool true) ⟨trivial, rfl⟩ h
      split at h
      · exact legible_keyword? (v := .bool false) ⟨trivial, rfl⟩ h
      · exact legible_number? h
    · rw [items?] at h
      split at h
      · cases h
      next v r hv =>
      have hv := ihv _ _ _ hv
      split at h
      · obtain ⟨⟨vs, r⟩, hvs, heq⟩ := Option.map_eq_some_iff.mp h
        cases heq
        exact List.forall_mem_cons.mpr ⟨hv, ihi _ _ _ hvs⟩
      · cases h
        exact List.forall_mem_cons.mpr ⟨hv, List.forall_mem_nil _⟩
      · cases h
    · rw [members?] at h
      split at h
      · split at h
        · cases h
        next k r hk =>
        split at h
        · split at h
          · cases h
          next v r hv =>
          have hrow := And.intro (isValid_of_string? hk) (ihv _ _ _ hv)
          split at h
          · obtain ⟨⟨fs, r⟩, hfs, heq⟩ := Option.map_eq_some_iff.mp h
            cases heq
            exact List.forall_mem_cons.mpr ⟨hrow, ihm _ _ _ hfs⟩
          · cases h
            exact List.forall_mem_cons.mpr ⟨hrow, List.forall_mem_nil _⟩
          · cases h
        · cases h
      · cases h

theorem legible_of_read? (h : read? s = some v) : Legible v := by
  unfold read? at h
  dsimp only at h
  split at h
  · next v' rest hv =>
    split at h
    · cases h
      exact (legible_of_fuel _).1 _ _ _ hv
    · cases h
  · cases h

theorem Legible.read?_compact (h : Legible v) : read? v.compact = some v := by
  rw [Json.read?_compact h.1, h.2]

end Read
end Json
end Lorebook
