import Lorebook.KeyMatch
import Lorebook.Proofs.Sequences
import Mathlib.Data.List.Infix

set_option autoImplicit false

/-!
Keywords in a text. A whole word is an occurrence with an end of the text or no word byte on each
side. Lower-casing keeps word bytes and blanks what they are, and can be done piece by piece where
characters meet; so what occurs as it is written occurs without regard to case too.
-/

namespace Lorebook

namespace Bytes

section Occurrences

variable {needle hay before after : Bytes}

theorem contains_iff : contains needle hay = true ↔ needle <:+: hay := by
  induction hay with
  | nil => simp [contains]
  | cons b r ih => simp [contains, ih, List.infix_cons_iff]

/-- Whether a word may start after a text; `start` says so of the empty one. -/
def wordStartsAfter (start : Bool) (s : Bytes) : Bool := s.foldl (fun _ b => !isWord b) start

theorem wordStartsAfter_iff (s : Bytes) :
    wordStartsAfter true s = true ↔ ∀ b ∈ s.getLast?, isWord b = false := by
  induction s using List.reverseRecOn with
  | nil => simp [wordStartsAfter]
  | append_singleton s b => simp [wordStartsAfter]

theorem wordEndsBefore_iff (s : Bytes) :
    wordEndsBefore s = true ↔ ∀ b ∈ s.head?, isWord b = false := by
  cases s <;> simp [wordEndsBefore]

theorem containsWordFrom_iff (hne : needle ≠ []) (start : Bool) (hay : Bytes) :
    containsWordFrom needle start hay = true ↔ ∃ before after, hay = before ++ needle ++ after ∧
      wordStartsAfter start before = true ∧ wordEndsBefore after = true := by
  induction hay generalizing start with
  | nil => simp [containsWordFrom, hne]
  | cons b r ih =>
    simp only [containsWordFrom, Bool.or_eq_true, Bool.and_eq_true, List.isPrefixOf_iff_prefix, ih]
    constructor
    · rintro (⟨⟨hstart, after, hafter⟩, hend⟩ | ⟨before, after, rfl, hstart, hend⟩)
      · refine ⟨[], after, by simpa using hafter.symm, hstart, ?_⟩
        rw [← hafter] at hend
        simpa using hend
      · exact ⟨b :: before, after, rfl, hstart, hend⟩
    · rintro ⟨before, after, hsplit, hstart, hend⟩
      cases before with
      | nil =>
        left
        rw [List.nil_append] at hsplit
        refine ⟨⟨hstart, after, hsplit.symm⟩, ?_⟩
        rw [hsplit]
        simpa using hend
      | cons b' before =>
        right
        simp only [List.cons_append, List.cons.injEq] at hsplit
        obtain ⟨rfl, rfl⟩ := hsplit
        exact ⟨before, after, rfl, hstart, hend⟩

def OccursAsWord (needle hay : Bytes) : Prop :=
  ∃ before after, hay = before ++ needle ++ after ∧
    (∀ b ∈ before.getLast?, isWord b = false) ∧ ∀ b ∈ after.head?, isWord b = false

theorem containsWord_iff :
    containsWord needle hay = true ↔ needle = [] ∨ OccursAsWord needle hay := by
  by_cases hne : needle = []
  · simp [containsWord, hne]
  · simp only [containsWord, List.isEmpty_iff, Bool.or_eq_true, hne, false_or,
      containsWordFrom_iff hne, wordStartsAfter_iff, wordEndsBefore_iff, OccursAsWord]

theorem contains_of_containsWord (h : containsWord needle hay = true) :
    contains needle hay = true := by
  rw [contains_iff]
  rcases containsWord_iff.mp h with rfl | ⟨before, after, hsplit, _⟩
  · exact List.nil_infix
  · exact ⟨before, after, hsplit.symm⟩

end Occurrences

section Lowering

variable {p : UInt8 → Bool} {s t : Bytes}

theorem lowerCodePoint_lt {c : Nat} (h : c < 0x800) : lowerCodePoint c < 0x800 := by
  unfold lowerCodePoint
  repeat' split
  all_goals omega

theorem isContinuation_of_range : ∀ b : UInt8, 0x80 ≤ b ∧ b ≤ 0xBF → Utf8.isContinuation b = true := by
  decide +kernel

theorem le_lowered {a b : UInt8} (ha : 0xC2 ≤ a ∧ a ≤ 0xDF) (hb : 0x80 ≤ b ∧ b ≤ 0xBF) :
    let c := lowerCodePoint ((a.toNat - 0xC0) * 64 + (b.toNat - 0x80))
    0x80 ≤ UInt8.ofNat (0xC0 + c / 64) ∧ 0x80 ≤ UInt8.ofNat (0x80 + c % 64) := by
  intro c
  have ha' : a.toNat ≤ 0xDF := ha.2
  have hb' : b.toNat ≤ 0xBF := hb.2
  have hc : c < 0x800 := lowerCodePoint_lt (by omega)
  simp only [UInt8.le_iff_toNat_le, UInt8.toNat_ofNat']
  constructor <;> simp <;> omega

/-- What lower-casing an ASCII letter does not change and no other byte has stays with each byte. -/
theorem map_toLowerText (hlower : ∀ b, p (toLowerByte b) = p b)
    (hhigh : ∀ b, 0x80 ≤ b → p b = false) (s : Bytes) : (toLowerText s).map p = s.map p := by
  fun_induction toLowerText s with
  | case1 => rfl
  | case2 b => simp [hlower]
  | case3 a b r hrange c ih =>
    have hbytes := le_lowered ⟨hrange.1, hrange.2.1⟩ hrange.2.2
    have ha : 0x80 ≤ a := UInt8.le_trans (by decide) hrange.1
    rw [List.map_cons, List.map_cons, ih, hhigh _ hbytes.1, hhigh _ hbytes.2, List.map_cons,
      List.map_cons, hhigh a ha, hhigh b hrange.2.2.1]
  | case4 a b r _ ih => simpa [hlower] using ih

theorem map_isWord_toLowerText (s : Bytes) : (toLowerText s).map isWord = s.map isWord :=
  map_toLowerText (by decide +kernel) (by decide +kernel) s

theorem map_isSpace_toLowerText (s : Bytes) : (toLowerText s).map isSpace = s.map isSpace :=
  map_toLowerText (by decide +kernel) (by decide +kernel) s

theorem wordStartsAfter_toLowerText (start : Bool) (s : Bytes) :
    wordStartsAfter start (toLowerText s) = wordStartsAfter start s := by
  have hmap (s : Bytes) :
      wordStartsAfter start s = (s.map isWord).foldl (fun _ w => !w) start := by
    simp [wordStartsAfter, List.foldl_map]
  rw [hmap, hmap, map_isWord_toLowerText]

theorem wordEndsBefore_toLowerText (s : Bytes) :
    wordEndsBefore (toLowerText s) = wordEndsBefore s := by
  have hmap (s : Bytes) : wordEndsBefore s = !(s.map isWord).headD false := by
    cases s <;> simp [wordEndsBefore]
  rw [hmap, hmap, map_isWord_toLowerText]

theorem hasSpace_trimEnd_toLowerText (s : Bytes) :
    hasSpace (trimEnd (toLowerText s)) = hasSpace (trimEnd s) := by
  have hmap (s : Bytes) :
      hasSpace (trimEnd s) = ((s.map isSpace).reverse.dropWhile id).any id := by
    simp [hasSpace, trimEnd, dropEnding, ← List.map_reverse, List.dropWhile_map, List.any_map]
  rw [hmap, hmap, map_isSpace_toLowerText]

theorem toLowerText_append (s : Bytes) (ht : ∀ b ∈ t.head?, Utf8.isContinuation b = false) :
    toLowerText (s ++ t) = toLowerText s ++ toLowerText t := by
  fun_induction toLowerText s with
  | case1 => rfl
  | case2 b =>
    cases t with
    | nil => rfl
    | cons c t =>
      have hc : ¬(0xC2 ≤ b ∧ b ≤ 0xDF ∧ 0x80 ≤ c ∧ c ≤ 0xBF) := by
        intro h
        have hcont := isContinuation_of_range c h.2.2
        simp [ht c rfl] at hcont
      simp [toLowerText, hc]
  | case3 a b r hrange c ih => simp [toLowerText, hrange, ih, c]
  | case4 a b r hrange ih =>
    have hpair : toLowerText (a :: b :: (r ++ t)) = toLowerByte a :: toLowerText (b :: r ++ t) := by
      rw [toLowerText, if_neg hrange]
      rfl
    rw [List.cons_append, List.cons_append, hpair, ih, List.cons_append]

end Lowering

section Split

variable {needle before after : Bytes}

theorem isValid_of_append {b : UInt8} {s : Bytes} (h : Utf8.isValid (before ++ b :: s) = true)
    (hb : Utf8.isContinuation b = false) : Utf8.isValid (b :: s) = true := by
  obtain ⟨cs, t, hdrop, _, hcs, _, ht⟩ := Utf8.exists_cut h (n := before.length) (by simp)
  rw [List.drop_left] at hdrop
  cases cs with
  | nil => rwa [hdrop]
  | cons c cs =>
    simp only [List.cons_append, List.cons.injEq] at hdrop
    have hc := hcs c (by simp)
    simp [← hdrop.1, hb] at hc

theorem toLowerText_split (hne : needle ≠ []) (hneedle : Utf8.isValid needle = true)
    (hhay : Utf8.isValid (before ++ needle ++ after) = true) :
    toLowerText (before ++ needle ++ after)
      = toLowerText before ++ toLowerText needle ++ toLowerText after := by
  obtain ⟨b, s, rfl⟩ := List.exists_cons_of_ne_nil hne
  have hb := Utf8.head_of_valid hneedle
  rw [List.append_assoc] at hhay ⊢
  have hrest : Utf8.isValid (b :: s ++ after) = true := isValid_of_append hhay hb
  rw [Utf8.isValid_append hneedle] at hrest
  have hafter : ∀ x ∈ after.head?, Utf8.isContinuation x = false := by
    cases after with
    | nil => simp
    | cons x after => simpa using Utf8.head_of_valid hrest
  rw [toLowerText_append before (by simpa using hb), toLowerText_append (b :: s) hafter,
    List.append_assoc]

end Split
end Bytes

namespace KeyMatch

open Bytes

variable {o : KeyOptions} {key text : Bytes}

theorem keywordOccurs_of_caseSensitive (hne : key ≠ []) (hkey : Utf8.isValid key = true)
    (htext : Utf8.isValid text = true)
    (h : keywordOccurs { o with caseSensitive := true } key text = true) :
    keywordOccurs { o with caseSensitive := false } key text = true := by
  simp only [keywordOccurs, if_true, id, Bool.false_eq_true, if_false,
    hasSpace_trimEnd_toLowerText] at h ⊢
  split at h
  · next hplain =>
    rw [if_pos hplain, contains_iff]
    obtain ⟨before, after, rfl⟩ := contains_iff.mp h
    exact ⟨toLowerText before, toLowerText after, (toLowerText_split hne hkey htext).symm⟩
  · next hword =>
    have hlowered : toLowerText key ≠ [] := by
      intro hnil
      have hlength := length_toLowerText key
      rw [hnil] at hlength
      exact hne (List.length_eq_zero_iff.mp hlength.symm)
    rw [if_neg hword]
    simp only [containsWord, List.isEmpty_iff, hne, hlowered, Bool.or_eq_true, false_or,
      containsWordFrom_iff hne, containsWordFrom_iff hlowered] at h ⊢
    obtain ⟨before, after, rfl, hstart, hend⟩ := h
    refine ⟨toLowerText before, toLowerText after, toLowerText_split hne hkey htext, ?_, ?_⟩
    · rwa [wordStartsAfter_toLowerText]
    · rwa [wordEndsBefore_toLowerText]

theorem keywordOccurs_of_wholeWords
    (h : keywordOccurs { o with wholeWords := true } key text = true) :
    keywordOccurs { o with wholeWords := false } key text = true := by
  simp only [keywordOccurs, Bool.not_true, Bool.false_or, Bool.not_false, Bool.true_or] at h ⊢
  generalize (if o.caseSensitive = true then id else toLowerText) = fold at h ⊢
  split at h
  · exact h
  · exact contains_of_containsWord h

theorem keyMatches_mono {o o' : KeyOptions} (h : keyMatches o key text = true)
    (hmono : key ≠ [] → keywordOccurs o key text = true → keywordOccurs o' key text = true)
    (hregex : o.useRegex = false) (hregex' : o'.useRegex = false) :
    keyMatches o' key text = true := by
  unfold keyMatches at h ⊢
  split at h
  · cases h
  · next hblank =>
    have hne : key ≠ [] := by
      rintro rfl
      exact hblank rfl
    rw [if_neg hblank]
    split at h
    · exact h
    · simp only [hregex, hregex', Bool.false_eq_true, if_false] at h ⊢
      exact hmono hne h

/-- A word is found where it stands alone, and no key is lost by heeding case or word boundaries
less. -/
theorem keywords_relaxed (hregex : o.useRegex = false) (hkey : Utf8.isValid key = true)
    (htext : Utf8.isValid text = true) :
    (∀ needle hay, containsWord needle hay = true ↔ needle = [] ∨ OccursAsWord needle hay) ∧
    (keyMatches { o with caseSensitive := true } key text = true →
      keyMatches { o with caseSensitive := false } key text = true) ∧
    (keyMatches { o with wholeWords := true } key text = true →
      keyMatches { o with wholeWords := false } key text = true) := by
  refine ⟨fun _ _ => containsWord_iff, ?_, ?_⟩
  · intro h
    exact keyMatches_mono h (fun hne => keywordOccurs_of_caseSensitive hne hkey htext) hregex hregex
  · intro h
    exact keyMatches_mono h (fun _ => keywordOccurs_of_wholeWords) hregex hregex

theorem keywords_relaxed_eclair :
    let key : Bytes := [0xC3, 0x89] ++ lit "CLAIR"
    let text : Bytes := lit "un " ++ key ++ lit "!"
    Bytes.OccursAsWord key text ∧ keyMatches { caseSensitive := false } key text = true ∧
      keyMatches { caseSensitive := true, wholeWords := false } key text = true := by
  intro key text
  have h := @keywords_relaxed { caseSensitive := true } key text rfl (by decide +kernel)
    (by decide +kernel)
  refine ⟨?_, h.2.1 (by decide +kernel), h.2.2 (by decide +kernel)⟩
  have hword : containsWord key text = true := by decide +kernel
  exact ((h.1 key text).mp hword).resolve_left (by decide +kernel)

end KeyMatch
end Lorebook
