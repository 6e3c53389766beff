import Lorebook.Proofs.CodePoints

set_option autoImplicit false

/-!
What scrubbing makes of a text. It keeps the sequences and puts the filler for every byte at which
none starts, so its result is scrubbed for good; but it is UTF-8 only if the sequences that it keeps
are, for scrubbing does not look at their code points.
-/

namespace Lorebook.Utf8

/-- One piece of a text: a sequence, or a byte at which none starts. -/
inductive Piece where
  | sequence (q : Bytes)
  | stray (b : UInt8)
  deriving DecidableEq, Repr

def Piece.scrubbed (filler : Bytes) : Piece → Bytes
  | .sequence q => q
  | .stray _ => filler

inductive Splits : Bytes → List Piece → Prop
  | nil : Splits [] []
  | sequence {q t : Bytes} {ps : List Piece} :
      Sequence q → Splits t ps → Splits (q ++ t) (.sequence q :: ps)
  | stray {b : UInt8} {t : Bytes} {ps : List Piece} :
      (∀ q, q <+: b :: t → ¬Sequence q) → Splits t ps → Splits (b :: t) (.stray b :: ps)

variable {s t filler : Bytes} {b : UInt8} {ps : List Piece}

theorem Sequence.ne_nil {q : Bytes} (h : Sequence q) : q ≠ [] := by
  obtain ⟨_, _, rfl, _⟩ := h
  exact List.cons_ne_nil _ _

theorem exists_sequence (h : sequenceLength (b :: t) ≠ 0) :
    ∃ q u, Sequence q ∧ q ++ u = b :: t := by
  unfold sequenceLength at h
  dsimp only at h
  split at h
  · exact absurd rfl h
  split at h
  · next hannounced hrest =>
    refine ⟨b :: t.take (announced b - 1), t.drop (announced b - 1), ⟨b, _, rfl, ?_, ?_⟩, ?_⟩
    · rw [hrest.1]
      omega
    · simpa using hrest.2
    · rw [List.cons_append, List.take_append_drop]
  · exact absurd rfl h

theorem sequenceLength_eq_zero_iff :
    sequenceLength (b :: t) = 0 ↔ ∀ q, q <+: b :: t → ¬Sequence q := by
  constructor
  · rintro h q ⟨u, hu⟩ hq
    rw [← hu, sequenceLength_append hq] at h
    exact hq.ne_nil (List.length_eq_zero_iff.mp h)
  · intro h
    by_contra hne
    obtain ⟨q, u, hq, hu⟩ := exists_sequence hne
    exact h q ⟨u, hu⟩ hq

theorem exists_splits (s : Bytes) : ∃ ps, Splits s ps := by
  induction hn : s.length using Nat.strongRecOn generalizing s with
  | ind n ih =>
    cases s with
    | nil => exact ⟨[], .nil⟩
    | cons b t =>
      by_cases hzero : sequenceLength (b :: t) = 0
      · obtain ⟨ps, hps⟩ := ih t.length (by simp [← hn]) t rfl
        exact ⟨_, .stray (sequenceLength_eq_zero_iff.mp hzero) hps⟩
      · obtain ⟨q, u, hq, hu⟩ := exists_sequence hzero
        have hpos := List.length_pos_of_ne_nil hq.ne_nil
        rw [← hu, List.length_append] at hn
        obtain ⟨ps, hps⟩ := ih u.length (by omega) u rfl
        rw [← hu]
        exact ⟨_, .sequence hq hps⟩

theorem scrub_stray (h : sequenceLength (b :: t) = 0) (filler : Bytes) :
    scrub (b :: t) filler = filler ++ scrub t filler := by
  rw [scrub, scrubFrom, h]
  rfl

namespace Splits

theorem scrub_eq (h : Splits s ps) (filler : Bytes) :
    scrub s filler = ps.flatMap (·.scrubbed filler) := by
  induction h with
  | nil => rfl
  | sequence hq _ ih => rw [scrub_sequence hq, ih, List.flatMap_cons, Piece.scrubbed]
  | stray hb _ ih =>
    rw [scrub_stray (sequenceLength_eq_zero_iff.mpr hb), ih, List.flatMap_cons, Piece.scrubbed]

/-- A scrubbed text is UTF-8 if the sequences are that have been kept. -/
theorem isValid_iff (h : Splits s ps) (hf : isValid filler = true) :
    isValid (ps.flatMap (·.scrubbed filler)) = true ↔
      ∀ q, Piece.sequence q ∈ ps → WellFormed q := by
  induction h with
  | nil => simp [isValid, isValidFrom]
  | sequence hq _ ih =>
    rw [List.flatMap_cons, Piece.scrubbed, hq.isValid_append, ih]
    simp
  | stray _ _ ih =>
    rw [List.flatMap_cons, Piece.scrubbed, isValid_append hf, ih]
    simp

theorem scrub_scrubbed (h : Splits s ps) (hf : isValid filler = true) :
    scrub (ps.flatMap (·.scrubbed filler)) filler = ps.flatMap (·.scrubbed filler) := by
  induction h with
  | nil => rfl
  | sequence hq _ ih => rw [List.flatMap_cons, Piece.scrubbed, scrub_sequence hq, ih]
  | stray _ _ ih => rw [List.flatMap_cons, Piece.scrubbed, scrub_append_of_valid hf, ih]

end Splits

/-- What scrubbing with a valid filler gives, and when this is valid. -/
theorem scrub_spec (hf : isValid filler = true) (s : Bytes) :
    ∃ ps, Splits s ps ∧ scrub s filler = ps.flatMap (·.scrubbed filler) ∧
      (isValid (scrub s filler) = true ↔ ∀ q, Piece.sequence q ∈ ps → WellFormed q) ∧
      (isValid s = true → scrub s filler = s) ∧
      scrub (scrub s filler) filler = scrub s filler := by
  obtain ⟨ps, hps⟩ := exists_splits s
  have hscrub := hps.scrub_eq filler
  refine ⟨ps, hps, hscrub, ?_, fun hs => scrub_of_valid hs filler, ?_⟩
  · rw [hscrub]
    exact hps.isValid_iff hf
  · rw [hscrub]
    exact hps.scrub_scrubbed hf

theorem scrub_spec_stray :
    isValid replacement = true ∧ scrub [0x61, 0xFF] replacement = [0x61, 0xEF, 0xBF, 0xBD] ∧
      ∃ ps, Splits [0x61, 0xFF] ps ∧
        scrub [0x61, 0xFF] replacement = ps.flatMap (·.scrubbed replacement) ∧
        (isValid (scrub [0x61, 0xFF] replacement) = true ↔
          ∀ q, Piece.sequence q ∈ ps → WellFormed q) ∧
        (isValid [0x61, 0xFF] = true → scrub [0x61, 0xFF] replacement = [0x61, 0xFF]) ∧
        scrub (scrub [0x61, 0xFF] replacement) replacement = scrub [0x61, 0xFF] replacement := by
  have hvalid : isValid replacement = true := by decide +kernel
  exact ⟨hvalid, by decide +kernel, scrub_spec hvalid [0x61, 0xFF]⟩

/-- An overlong null is kept as it is. -/
theorem not_isValid_scrub_overlong :
    isValid [] = true ∧ scrub [0xC0, 0x80] [] = [0xC0, 0x80] ∧
      isValid (scrub [0xC0, 0x80] []) = false := by
  decide +kernel

end Lorebook.Utf8
