import Lorebook.Proofs.Trimming

set_option autoImplicit false

/-!
Keys joined by commas. What a text of keys is read as can be joined and is read back, and so can any
keys of which none hides or makes up a comma. A key is followed through the places of its reader:
trimming takes only padding off it, and padding neither opens nor closes a pattern.
-/

namespace Lorebook

theorem Bytes.exists_padding (s : Bytes) : ∃ lead trail : Bytes,
    s = lead ++ trim s ++ trail ∧ (∀ b ∈ lead, isPad b = true) ∧ ∀ b ∈ trail, isPad b = true := by
  refine ⟨s.takeWhile isPad, (s.dropWhile isPad).rtakeWhile isPad, ?_, ?_, ?_⟩
  · have htrim : trim s = (s.dropWhile isPad).rdropWhile isPad := rfl
    rw [List.append_assoc, htrim, List.rdropWhile_append_rtakeWhile,
      List.takeWhile_append_dropWhile]
  · exact List.all_eq_true.mp List.all_takeWhile
  · exact fun b hb => List.mem_rtakeWhile_imp hb

theorem Bytes.ne_of_isPad : ∀ b, isPad b = true → b ≠ 44 ∧ b ≠ 47 ∧ b ≠ 92 := by
  decide +kernel

namespace KeyList

/-- The place after more bytes of a key, whose bytes so far are `seen`, latest first; none if a
comma ends the key within them. -/
def Place.after? (p : Place) (seen : Bytes) : Bytes → Option Place
  | [] => some p
  | b :: r =>
    if b = 44 ∧ p.splits = true then none else (p.next seen b).after? (b :: seen) r

section Reading

variable {p q : Place} {seen s t : Bytes}

theorem Place.after?_append (p : Place) (seen s t : Bytes) :
    p.after? seen (s ++ t) = (p.after? seen s).bind (·.after? (s.reverse ++ seen) t) := by
  induction s generalizing p seen with
  | nil => rfl
  | cons b s ih =>
    simp only [List.cons_append, after?]
    split
    · rfl
    · rw [ih, List.reverse_cons, List.append_assoc]
      rfl

theorem Place.after?_congr {seen' : Bytes} (h : Bytes.isBlank seen = Bytes.isBlank seen') :
    p.after? seen s = p.after? seen' s := by
  induction s generalizing p seen seen' with
  | nil => rfl
  | cons b s ih =>
    have hnext : p.next seen b = p.next seen' b := by
      cases p <;> simp only [next, h]
    have hblank : Bytes.isBlank (b :: seen) = Bytes.isBlank (b :: seen') := by
      simp only [Bytes.isBlank, List.all_cons] at h ⊢
      rw [h]
    rw [after?, after?, hnext, ih hblank]

theorem Place.next_of_isPad {b : UInt8} (p : Place) (seen : Bytes) (h : Bytes.isPad b = true) :
    (p.next seen b).splits = p.splits := by
  obtain ⟨_, hslash, hback⟩ := Bytes.ne_of_isPad b h
  cases p <;> simp [next, splits, hslash, hback]

theorem Place.after?_padding (p : Place) (seen : Bytes) (h : ∀ b ∈ s, Bytes.isPad b = true) :
    ∃ q, p.after? seen s = some q ∧ q.splits = p.splits := by
  induction s generalizing p seen with
  | nil => exact ⟨p, rfl, rfl⟩
  | cons b s ih =>
    obtain ⟨hb, hs⟩ := List.forall_mem_cons.mp h
    have hcomma : ¬(b = 44 ∧ p.splits = true) := fun hc => (Bytes.ne_of_isPad b hb).1 hc.1
    obtain ⟨q, hq, hsplits⟩ := ih (p.next seen b) (b :: seen) hs
    refine ⟨q, ?_, hsplits.trans (p.next_of_isPad seen hb)⟩
    rw [after?, if_neg hcomma, hq]

theorem Place.plain_after?_padding (seen : Bytes) (h : ∀ b ∈ s, Bytes.isPad b = true) :
    plain.after? seen s = some plain := by
  induction s generalizing seen with
  | nil => rfl
  | cons b s ih =>
    obtain ⟨hb, hs⟩ := List.forall_mem_cons.mp h
    obtain ⟨hcomma, hslash, _⟩ := Bytes.ne_of_isPad b hb
    simp only [after?, hcomma, false_and, if_false, next, hslash]
    exact ih (b :: seen) hs

/-- Trimming a key changes nothing for the comma that may follow it. -/
theorem after?_trim {k : Bytes} (h : Place.plain.after? [] k = some q) :
    ∃ q', Place.plain.after? [] (Bytes.trim k) = some q' ∧ q'.splits = q.splits := by
  obtain ⟨lead, trail, hk, hlead, htrail⟩ := Bytes.exists_padding k
  have hseen : Bytes.isBlank (lead.reverse ++ []) = Bytes.isBlank [] := by
    simpa [Bytes.isBlank] using hlead
  rw [hk, Place.after?_append, Place.after?_append, Place.plain_after?_padding [] hlead,
    Option.bind_some, Place.after?_congr hseen] at h
  obtain ⟨q', hq', htail⟩ := Option.bind_eq_some_iff.mp h
  obtain ⟨q'', hq'', hsplits⟩ :=
    q'.after?_padding ((lead ++ Bytes.trim k).reverse ++ []) htrail
  rw [htail] at hq''
  cases hq''
  exact ⟨q', hq', hsplits.symm⟩

theorem rawKeys_of_after? (h : p.after? seen s = some q) :
    rawKeys p seen s = [seen.reverse ++ s] := by
  induction s generalizing p seen with
  | nil => simp [rawKeys]
  | cons b s ih =>
    rw [Place.after?] at h
    rw [rawKeys]
    split at h
    · cases h
    · next hcomma =>
      rw [if_neg hcomma, ih h]
      simp

theorem rawKeys_comma (h : p.after? seen s = some q) (hq : q.splits = true) (t : Bytes) :
    rawKeys p seen (s ++ 44 :: t) = (seen.reverse ++ s) :: rawKeys .plain [] t := by
  induction s generalizing p seen with
  | nil =>
    cases h
    rw [List.nil_append, List.append_nil, rawKeys, if_pos ⟨rfl, hq⟩]
  | cons b s ih =>
    rw [Place.after?] at h
    rw [List.cons_append, rawKeys]
    split at h
    · cases h
    · next hcomma =>
      rw [if_neg hcomma, ih h]
      simp

end Reading

/-- Keys as they can stand in one text: no comma ends one of them early, and all but the last can
be ended by a comma. -/
inductive InRow : List Bytes → Prop
  | nil : InRow []
  | last {k : Bytes} {q : Place} : Place.plain.after? [] k = some q → InRow [k]
  | cons {k : Bytes} {q : Place} {ks : List Bytes} : Place.plain.after? [] k = some q →
      q.splits = true → InRow ks → InRow (k :: ks)

section Rows

variable {ks : List Bytes}

theorem inRow_rawKeys {p : Place} {seen : Bytes}
    (h : Place.plain.after? [] seen.reverse = some p) (s : Bytes) :
    InRow (rawKeys p seen s) := by
  induction s generalizing p seen with
  | nil => exact .last h
  | cons b s ih =>
    rw [rawKeys]
    split
    · next hb => exact .cons h hb.2 (ih rfl)
    · next hb =>
      apply ih
      rw [List.reverse_cons, Place.after?_append, h]
      simp [Place.after?, hb]

theorem tidy_cons (k : Bytes) (ks : List Bytes) :
    tidy (k :: ks) = if Bytes.trim k = [] then tidy ks else Bytes.trim k :: tidy ks := by
  by_cases h : Bytes.trim k = [] <;> simp [tidy, h]

theorem InRow.tidy (h : InRow ks) : InRow (tidy ks) := by
  induction h with
  | nil => exact .nil
  | last hk =>
    obtain ⟨q, hq, _⟩ := after?_trim hk
    rw [tidy_cons]
    split
    · exact .nil
    · exact .last hq
  | cons hk hsplits _ ih =>
    obtain ⟨q, hq, hsame⟩ := after?_trim hk
    rw [tidy_cons]
    split
    · exact ih
    · exact .cons hq (hsame.trans hsplits) ih

theorem InRow.rawKeys_join (h : InRow ks) (hne : ks ≠ []) :
    rawKeys .plain [] (Bytes.join (lit ",") ks) = ks := by
  induction h with
  | nil => exact absurd rfl hne
  | @last k _ hk =>
    have hone : Bytes.join (lit ",") [k] = k := by simp [Bytes.join_cons]
    rw [hone, rawKeys_of_after? hk]
    rfl
  | @cons k _ ks hk hsplits _ ih =>
    rw [Bytes.join_cons]
    by_cases hks : ks = []
    · rw [if_pos hks, List.append_nil, rawKeys_of_after? hk, hks]
      rfl
    · have hsep : lit "," ++ Bytes.join (lit ",") ks = 44 :: Bytes.join (lit ",") ks := rfl
      rw [if_neg hks, hsep, rawKeys_comma hk hsplits, ih hks]
      rfl

theorem InRow.reads_back (h : InRow ks) (htidy : Tidy ks) :
    ofText (Bytes.join (lit ",") ks) = ks := by
  by_cases hne : ks = []
  · subst hne
    rfl
  · rw [ofText, h.rawKeys_join hne, tidy_of_tidy htidy]

end Rows

/-- The inside of a pattern literal: each slash in it stands behind a backslash, which keeps the
byte that follows it, whatever that is. -/
inductive PatternBody : Bytes → Prop
  | nil : PatternBody []
  | escape (b : UInt8) {r : Bytes} : PatternBody r → PatternBody (92 :: b :: r)
  | plain {b : UInt8} {r : Bytes} : b ≠ 92 → b ≠ 47 → PatternBody r → PatternBody (b :: r)

/-- A key that other keys may follow: one that neither starts like a pattern nor has a comma, or a
pattern literal that is closed and has no comma among its flags. -/
inductive Separable : Bytes → Prop
  | plain {k : Bytes} : 44 ∉ k → k.head? ≠ some 47 → Separable k
  | literal {body flags : Bytes} : PatternBody body → 44 ∉ flags →
      Separable (47 :: body ++ 47 :: flags)

section Separable

variable {seen s : Bytes}

theorem flags_after? (h : 44 ∉ s) : Place.flags.after? seen s = some .flags := by
  induction s generalizing seen with
  | nil => rfl
  | cons b s ih =>
    rw [List.mem_cons, not_or] at h
    have hb : ¬(b = 44 ∧ Place.flags.splits = true) := fun hc => h.1 hc.1.symm
    rw [Place.after?, if_neg hb]
    exact ih h.2

theorem plain_after? (h : 44 ∉ s) (hseen : Bytes.isBlank seen = false) :
    Place.plain.after? seen s = some .plain := by
  induction s generalizing seen with
  | nil => rfl
  | cons b s ih =>
    rw [List.mem_cons, not_or] at h
    have hb : ¬(b = 44 ∧ Place.plain.splits = true) := fun hc => h.1 hc.1.symm
    have hblank : Bytes.isBlank (b :: seen) = false := by
      simp only [Bytes.isBlank, List.all_cons] at hseen ⊢
      rw [hseen, Bool.and_false]
    simp only [Place.after?, if_neg hb, Place.next, hseen, Bool.false_eq_true, and_false, if_false]
    exact ih h.2 hblank

theorem pattern_after? (h : PatternBody s) : Place.pattern.after? seen s = some .pattern := by
  induction h generalizing seen with
  | nil => rfl
  | escape b _ ih => simp [Place.after?, Place.next, Place.splits, ih]
  | plain hback hslash _ ih => simp [Place.after?, Place.next, Place.splits, hback, hslash, ih]

theorem literal_after? {body flags : Bytes} (hbody : PatternBody body) (hflags : 44 ∉ flags) :
    Place.plain.after? [] (47 :: body ++ 47 :: flags) = some .flags := by
  have hopen : Place.plain.next [] 47 = .pattern := rfl
  have hclose (seen : Bytes) : Place.pattern.next seen 47 = .flags := rfl
  rw [List.cons_append, Place.after?, if_neg (by decide), hopen, Place.after?_append,
    pattern_after? hbody, Option.bind_some, Place.after?, if_neg (by decide), hclose,
    flags_after? hflags]

theorem Separable.after? {k : Bytes} (h : Separable k) (hk : Bytes.trim k = k) :
    ∃ q, Place.plain.after? [] k = some q ∧ q.splits = true := by
  cases h with
  | literal hbody hflags => exact ⟨.flags, literal_after? hbody hflags, rfl⟩
  | plain hcomma hslash =>
    refine ⟨.plain, ?_, rfl⟩
    cases k with
    | nil => rfl
    | cons b k =>
      rw [List.mem_cons, not_or] at hcomma
      have hb : ¬(b = 44 ∧ Place.plain.splits = true) := fun hc => hcomma.1 hc.1.symm
      have hnext : Place.plain.next [] b = .plain := if_neg fun hc => hslash (congrArg some hc.1)
      -- The first byte of a trimmed key is no padding, so that no later slash opens a pattern.
      have hblank : Bytes.isBlank [b] = false := by
        simp [Bytes.isBlank, Bytes.not_isPad_of_trim hk]
      rw [Place.after?, if_neg hb, hnext, plain_after? hcomma.2 hblank]

theorem inRow_of_separable {ks : List Bytes} (htidy : Tidy ks) (h : ∀ k ∈ ks, Separable k) :
    InRow ks := by
  induction ks with
  | nil => exact .nil
  | cons k ks ih =>
    obtain ⟨hk, hks⟩ := List.forall_mem_cons.mp h
    obtain ⟨htrim, htidy⟩ := List.forall_mem_cons.mp htidy
    obtain ⟨q, hq, hsplits⟩ := hk.after? htrim.2
    exact .cons hq hsplits (ih htidy hks)

end Separable

/-- Reading keys and joining them by commas undo each other: on every text, the keys it is read as
are those of their joined text; and keys that other keys may follow are read back from theirs. -/
theorem ofText_join :
    (∀ s, ofText (Bytes.join (lit ",") (ofText s)) = ofText s) ∧
    ∀ ks, Tidy ks → (∀ k ∈ ks, Separable k) → ofText (Bytes.join (lit ",") ks) = ks := by
  refine ⟨fun s => ?_, fun ks htidy h => (inRow_of_separable htidy h).reads_back htidy⟩
  have hrow : InRow (rawKeys .plain [] s) := inRow_rawKeys rfl s
  exact hrow.tidy.reads_back (.tidy _)

theorem ofText_join_literal :
    let ks := [lit "wyrm", lit "/a,b\\/c/i", lit "dragon"]
    Tidy ks ∧ (∀ k ∈ ks, Separable k) ∧ ofText (Bytes.join (lit ",") ks) = ks := by
  intro ks
  have hplain {b : UInt8} {r : Bytes} (h : PatternBody r) (hb : b ≠ 92 ∧ b ≠ 47) :
      PatternBody (b :: r) := .plain hb.1 hb.2 h
  have hbody : PatternBody (lit "a,b\\/c") := by
    refine hplain (hplain (hplain ?_ (by decide)) (by decide)) (by decide)
    exact .escape 47 (hplain .nil (by decide))
  have hliteral : Separable (47 :: lit "a,b\\/c" ++ 47 :: lit "i") := .literal hbody (by decide)
  have htidy : Tidy ks := by
    unfold Tidy
    decide
  have hseparable : ∀ k ∈ ks, Separable k := by
    simp only [ks, List.forall_mem_cons]
    exact ⟨.plain (by decide) (by decide), hliteral, .plain (by decide) (by decide), by simp⟩
  exact ⟨htidy, hseparable, ofText_join.2 ks htidy hseparable⟩

end KeyList
end Lorebook
