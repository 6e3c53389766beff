import Lorebook.KeyList
import Mathlib.Data.List.DropRight

set_option autoImplicit false

/-!
Trimmed texts. Trimming twice is trimming once, and lists of keys are read trimmed, without blank
ones.
-/

namespace Lorebook

namespace Bytes

theorem dropWhile_dropEnding {p : UInt8 → Bool} {s : Bytes} (h : s.dropWhile p = s) :
    (dropEnding p s).dropWhile p = dropEnding p s := by
  have hpre : dropEnding p s <+: s := List.rdropWhile_prefix p s
  rw [List.dropWhile_eq_self_iff] at h ⊢
  intro hne
  rw [hpre.getElem hne]
  exact h (Nat.lt_of_lt_of_le hne hpre.length_le)

theorem dropWhile_trim (s : Bytes) : (trim s).dropWhile isPad = trim s :=
  dropWhile_dropEnding (List.dropWhile_idempotent isPad s)

@[simp] theorem trim_trim (s : Bytes) : trim (trim s) = trim s := by
  have hdrop : dropEnding isPad (trim s) = trim s :=
    List.rdropWhile_idempotent isPad (s.dropWhile isPad)
  rw [trim, dropWhile_trim, hdrop]

theorem trim_of_unpadded {s : Bytes} (h : ∀ b ∈ s, isPad b = false) : trim s = s := by
  have hstart : s.dropWhile isPad = s := by
    rw [List.dropWhile_eq_self_iff]
    intro hl
    simp [h _ (List.getElem_mem hl)]
  have hend : dropEnding isPad s = s := by
    refine List.rdropWhile_eq_self_iff.mpr fun hl => ?_
    simp [h _ (List.getLast_mem hl)]
  rw [trim, hstart, hend]

theorem isPad_of_isDigit {b : UInt8} (h : isDigit b = true) : isPad b = false := by
  simp [isDigit, isPad, isSpace, UInt8.le_iff_toNat_le, ← UInt8.toNat_inj] at h ⊢
  omega

theorem not_isPad_of_trim {b : UInt8} {s : Bytes} (h : trim (b :: s) = b :: s) :
    isPad b = false := by
  have hstart := dropWhile_trim (b :: s)
  rw [h, List.dropWhile_eq_self_iff] at hstart
  simpa using hstart (Nat.zero_lt_succ _)

end Bytes

namespace KeyList

def Tidy (keys : List Bytes) : Prop := ∀ k ∈ keys, k ≠ [] ∧ Bytes.trim k = k

theorem tidy_of_tidy {keys : List Bytes} (h : Tidy keys) : tidy keys = keys := by
  have hmap : keys.map Bytes.trim = keys := by
    rw [List.map_congr_left fun k hk => (h k hk).2, List.map_id']
  rw [tidy, hmap, List.filter_eq_self]
  intro k hk
  simpa using (h k hk).1

theorem Tidy.tidy (keys : List Bytes) : Tidy (tidy keys) := by
  intro k hk
  obtain ⟨hk, hne⟩ := List.mem_filter.mp hk
  obtain ⟨k', _, rfl⟩ := List.mem_map.mp hk
  exact ⟨by simpa using hne, Bytes.trim_trim k'⟩

theorem Tidy.nil : Tidy [] := fun _ hk => absurd hk List.not_mem_nil

theorem Tidy.isBlank_eq_false {keys : List Bytes} (h : Tidy keys) {k : Bytes} (hk : k ∈ keys) :
    Bytes.isBlank k = false := by
  obtain ⟨hne, htrim⟩ := h k hk
  by_contra hblank
  rw [Bool.not_eq_false, ← Bytes.trim_eq_nil_iff, htrim] at hblank
  exact hne hblank

theorem Tidy.trimmedPieces (delim : UInt8) (s : Bytes) : Tidy (Bytes.trimmedPieces delim s) :=
  .tidy (Bytes.pieces delim s)

theorem Tidy.ofJson (v : Json) : Tidy (ofJson v) := by
  cases v with
  | null => exact .nil
  | bool b => exact .tidy _
  | int n => exact .tidy _
  | float d => exact .tidy _
  | str s => exact .tidy _
  | arr vs => exact .tidy _
  | obj fs => exact .tidy _

theorem ofJson_texts {keys : List Bytes} (h : Tidy keys) : ofJson (.texts keys) = keys := by
  have hitems : (keys.map Json.str).filterMap ofItem? = keys := by
    rw [List.filterMap_map]
    exact List.filterMap_some
  rw [Json.texts, ofJson, hitems, tidy_of_tidy h]

end KeyList
end Lorebook
