import Lorebook.Proofs.Sequences

set_option autoImplicit false

/-!
The code points of sequences. A sequence, as scrubbing looks at it, is a character of RFC 3629 if it
is as short as its code point allows and this is a scalar value; so of what scrubbing keeps, the
overlong forms, the surrogates and the numbers above U+10FFFF are no UTF-8.
-/

namespace Lorebook.Utf8

def codePoint : Bytes → Nat
  | [b] => b.toNat
  | [b, x] => b.toNat % 32 * 64 + x.toNat % 64
  | [b, x, y] => (b.toNat % 16 * 64 + x.toNat % 64) * 64 + y.toNat % 64
  | [b, x, y, z] => ((b.toNat % 8 * 64 + x.toNat % 64) * 64 + y.toNat % 64) * 64 + z.toNat % 64
  | _ => 0

def least : Nat → Nat
  | 2 => 0x80
  | 3 => 0x800
  | 4 => 0x10000
  | _ => 0

/-- A sequence is no longer than its number needs, and the number is that of a character. -/
structure WellFormed (q : Bytes) : Prop where
  shortest : least q.length ≤ codePoint q
  scalar : (codePoint q).isValidChar

section Bytes

theorem announced_ranges : ∀ b,
    (announced b = 1 ↔ b.toNat < 0x80) ∧
    (announced b = 2 ↔ 0xC0 ≤ b.toNat ∧ b.toNat < 0xE0) ∧
    (announced b = 3 ↔ 0xE0 ≤ b.toNat ∧ b.toNat < 0xF0) ∧
    (announced b = 4 ↔ 0xF0 ≤ b.toNat ∧ b.toNat < 0xF8) ∧ announced b ≤ 4 := by
  decide +kernel

theorem isContinuation_iff : ∀ b, isContinuation b = true ↔ 0x80 ≤ b.toNat ∧ b.toNat < 0xC0 := by
  decide +kernel

theorem first_eq : ∀ b, first b =
    if b.toNat < 0x80 then .complete else if b.toNat < 0xC2 then .refused
    else if b.toNat < 0xE0 then .more ⟨1, 0x80, 0xBF⟩
    else if b.toNat = 0xE0 then .more ⟨2, 0xA0, 0xBF⟩
    else if b.toNat = 0xED then .more ⟨2, 0x80, 0x9F⟩
    else if b.toNat < 0xF0 then .more ⟨2, 0x80, 0xBF⟩
    else if b.toNat = 0xF0 then .more ⟨3, 0x90, 0xBF⟩
    else if b.toNat < 0xF4 then .more ⟨3, 0x80, 0xBF⟩
    else if b.toNat = 0xF4 then .more ⟨3, 0x80, 0x8F⟩ else .refused := by
  decide +kernel

end Bytes

def Progress.Admits : Progress → Bytes → Prop
  | .complete, [] => True
  | .more o, x :: _ => o.low.toNat ≤ x.toNat ∧ x.toNat ≤ o.high.toNat
  | _, _ => False

section Sequences

variable {b x : UInt8} {cs q t : Bytes}

theorem isValidFrom_owed {o : Owed} (hbytes : o.bytes = cs.length + 1)
    (hcs : ∀ y ∈ cs, isContinuation y = true) (t : Bytes) :
    isValidFrom (some o) (x :: (cs ++ t)) = true ↔
      (Progress.more o).Admits (x :: cs) ∧ isValid t = true := by
  induction cs generalizing o x with
  | nil =>
    by_cases hx : o.low.toNat ≤ x.toNat ∧ x.toNat ≤ o.high.toNat
    · simp [isValidFrom, step, next, Progress.Admits, UInt8.le_iff_toNat_le, hx, hbytes, isValid]
    · simp [isValidFrom, step, next, Progress.Admits, UInt8.le_iff_toNat_le, hx]
  | cons y cs ih =>
    obtain ⟨hy, hcs⟩ := List.forall_mem_cons.mp hcs
    have hplain : (Progress.more ⟨cs.length + 1, 0x80, 0xBF⟩).Admits (y :: cs) := by
      have hrange := (isContinuation_iff y).mp hy
      exact ⟨hrange.1, Nat.le_of_lt_succ hrange.2⟩
    by_cases hx : o.low.toNat ≤ x.toNat ∧ x.toNat ≤ o.high.toNat
    · have hmore : next o x = .more ⟨cs.length + 1, 0x80, 0xBF⟩ := by
        simp [next, UInt8.le_iff_toNat_le, hx, hbytes]
      have hrest := @ih y ⟨cs.length + 1, 0x80, 0xBF⟩ rfl hcs
      rw [isValidFrom, step, hmore]
      exact hrest.trans (and_congr_left' (iff_of_true hplain hx))
    · simp [isValidFrom, step, next, Progress.Admits, UInt8.le_iff_toNat_le, hx]

theorem isValid_sequence (hb : announced b = cs.length + 1)
    (hcs : ∀ y ∈ cs, isContinuation y = true) (t : Bytes) :
    isValid (b :: (cs ++ t)) = true ↔ (first b).Admits cs ∧ isValid t = true := by
  have hopens := opens_first b
  rw [isValid, isValidFrom, step]
  cases hfirst : first b with
  | complete =>
    rw [hfirst, Opens, hb] at hopens
    obtain rfl : cs = [] := List.length_eq_zero_iff.mp (by omega)
    simp [Progress.Admits, isValid]
  | more o =>
    rw [hfirst] at hopens
    have hbytes : o.bytes = cs.length := by
      have hsum := hopens.2.symm.trans hb
      omega
    cases cs with
    | nil => exact absurd hopens.1.1 (by simp [hbytes])
    | cons x cs => exact isValidFrom_owed hbytes (List.forall_mem_cons.mp hcs).2 t
  | refused => cases cs <;> simp [Progress.Admits]

theorem wellFormed_iff :
    WellFormed q ↔ least q.length ≤ codePoint q ∧ (codePoint q).isValidChar :=
  ⟨fun h => ⟨h.shortest, h.scalar⟩, fun h => ⟨h.1, h.2⟩⟩

/-- The ranges of RFC 3629 are those of the code points. -/
theorem admits_iff (hb : announced b = cs.length + 1)
    (hcs : ∀ y ∈ cs, isContinuation y = true) :
    (first b).Admits cs ↔ WellFormed (b :: cs) := by
  obtain ⟨hone, htwo, hthree, hfour, hle⟩ := announced_ranges b
  rw [wellFormed_iff, first_eq]
  simp only [isContinuation_iff] at hcs
  rcases cs with _ | ⟨x, _ | ⟨y, _ | ⟨z, _ | ⟨w, cs⟩⟩⟩⟩
  · have hlt := hone.mp hb
    rw [if_pos hlt]
    exact iff_of_true trivial ⟨Nat.zero_le _, .inl (show b.toNat < 0xD800 by omega)⟩
  · obtain ⟨hlow, hhigh⟩ := htwo.mp hb
    have hx := hcs x (by simp)
    simp only [codePoint, least, List.length_cons, List.length_nil, Nat.isValidChar]
    split_ifs <;> simp [Progress.Admits] <;> omega
  · obtain ⟨hlow, hhigh⟩ := hthree.mp hb
    have hx := hcs x (by simp)
    have hy := hcs y (by simp)
    simp only [codePoint, least, List.length_cons, List.length_nil, Nat.isValidChar]
    split_ifs <;> simp [Progress.Admits] <;> omega
  · obtain ⟨hlow, hhigh⟩ := hfour.mp hb
    have hx := hcs x (by simp)
    have hy := hcs y (by simp)
    have hz := hcs z (by simp)
    simp only [codePoint, least, List.length_cons, List.length_nil, Nat.isValidChar]
    split_ifs <;> simp [Progress.Admits] <;> omega
  · simp only [List.length_cons] at hb
    omega

theorem Sequence.isValid_append (h : Sequence q) (t : Bytes) :
    isValid (q ++ t) = true ↔ WellFormed q ∧ isValid t = true := by
  obtain ⟨b, cs, rfl, hb, hcs⟩ := h
  rw [List.cons_append, isValid_sequence hb hcs, admits_iff hb hcs]

theorem character_iff : Character q ↔ Sequence q ∧ WellFormed q := by
  constructor
  · intro h
    exact ⟨h.sequence, ((h.sequence.isValid_append []).mp (h.isValid_append [])).1⟩
  · rintro ⟨hq, hwell⟩
    obtain ⟨b, cs, rfl, hb, hcs⟩ := id hq
    have hle := (announced_ranges b).2.2.2.2
    refine ⟨⟨b, cs, rfl, hb, by omega, hcs⟩, fun t => ?_⟩
    rw [Bool.eq_iff_iff, hq.isValid_append, and_iff_right hwell]

end Sequences

section Encoding

theorem map_utf8EncodeChar (c : Char) : (String.utf8EncodeChar c).map UInt8.toNat =
    if c.toNat < 0x80 then [c.toNat]
    else if c.toNat < 0x800 then [0xC0 + c.toNat / 64, 0x80 + c.toNat % 64]
    else if c.toNat < 0x10000 then
      [0xE0 + c.toNat / 4096, 0x80 + c.toNat / 64 % 64, 0x80 + c.toNat % 64]
    else [0xF0 + c.toNat / 262144, 0x80 + c.toNat / 4096 % 64, 0x80 + c.toNat / 64 % 64,
      0x80 + c.toNat % 64] := by
  have hvalid : c.toNat.isValidChar := c.valid
  have hval : c.val.toNat = c.toNat := rfl
  unfold String.utf8EncodeChar
  rw [hval]
  generalize c.toNat = n at hvalid
  dsimp only
  split_ifs
  all_goals first
    | omega
    | simp only [List.map_cons, List.map_nil, UInt8.toNat_ofNat', List.cons.injEq, and_true]
      omega

theorem eq_of_map_toNat {s t : Bytes} (h : s.map UInt8.toNat = t.map UInt8.toNat) : s = t :=
  List.map_injective_iff.mpr (fun _ _ => UInt8.toNat_inj.mp) h

theorem character_of_codePoint {q : Bytes} {n : Nat} (hq : Sequence q) (hn : codePoint q = n)
    (hleast : least q.length ≤ n) (hvalid : n.isValidChar) : Character q := by
  subst hn
  exact character_iff.mpr ⟨hq, hleast, hvalid⟩

theorem character_utf8EncodeChar (c : Char) : Character (String.utf8EncodeChar c) := by
  have hvalid : c.toNat.isValidChar := c.valid
  have hmap := map_utf8EncodeChar c
  generalize c.toNat = n, String.utf8EncodeChar c = q at hvalid hmap
  split_ifs at hmap <;> simp only [List.map_eq_cons_iff, List.map_eq_nil_iff] at hmap
  · obtain ⟨b, _, rfl, hb, rfl⟩ := hmap
    have hq : Sequence [b] := ⟨b, [], rfl, (announced_ranges b).1.mpr (by omega), by simp⟩
    exact character_of_codePoint hq hb (Nat.zero_le n) hvalid
  · obtain ⟨b, _, rfl, hb, x, _, rfl, hx, rfl⟩ := hmap
    have hq : Sequence [b, x] := by
      refine ⟨b, [x], rfl, (announced_ranges b).2.1.mpr (by omega), ?_⟩
      simp only [List.forall_mem_singleton, isContinuation_iff]
      omega
    refine character_of_codePoint hq ?_ (show 0x80 ≤ n by omega) hvalid
    rw [codePoint]
    omega
  · obtain ⟨b, _, rfl, hb, x, _, rfl, hx, y, _, rfl, hy, rfl⟩ := hmap
    have hq : Sequence [b, x, y] := by
      refine ⟨b, [x, y], rfl, (announced_ranges b).2.2.1.mpr (by omega), ?_⟩
      simp only [List.mem_cons, List.not_mem_nil, or_false, forall_eq_or_imp, forall_eq,
        isContinuation_iff]
      omega
    refine character_of_codePoint hq ?_ (show 0x800 ≤ n by omega) hvalid
    rw [codePoint]
    omega
  · obtain ⟨b, _, rfl, hb, x, _, rfl, hx, y, _, rfl, hy, z, _, rfl, hz, rfl⟩ := hmap
    have hq : Sequence [b, x, y, z] := by
      refine ⟨b, [x, y, z], rfl, (announced_ranges b).2.2.2.1.mpr (by omega), ?_⟩
      simp only [List.mem_cons, List.not_mem_nil, or_false, forall_eq_or_imp, forall_eq,
        isContinuation_iff]
      omega
    refine character_of_codePoint hq ?_ (show 0x10000 ≤ n by omega) hvalid
    rw [codePoint]
    omega

theorem exists_char {q : Bytes} (h : Character q) : ∃ c : Char, q = String.utf8EncodeChar c := by
  obtain ⟨⟨b, cs, rfl, hb, hcs⟩, hwell⟩ := character_iff.mp h
  obtain ⟨hone, htwo, hthree, hfour, hle⟩ := announced_ranges b
  obtain ⟨hshort, hvalid⟩ := hwell
  refine ⟨Char.ofNatAux _ hvalid, eq_of_map_toNat ?_⟩
  have hchar : (Char.ofNatAux _ hvalid).toNat = codePoint (b :: cs) := rfl
  rw [map_utf8EncodeChar, hchar]
  clear hchar hvalid
  simp only [isContinuation_iff] at hcs
  -- As many bytes as are there, for fewer would not do for the code point.
  rcases cs with _ | ⟨x, _ | ⟨y, _ | ⟨z, _ | ⟨w, cs⟩⟩⟩⟩
  · rw [if_pos (show codePoint [b] < 0x80 from hone.mp hb)]
    rfl
  · obtain ⟨hlow, hhigh⟩ := htwo.mp hb
    have hx := hcs x (by simp)
    have hn : codePoint [b, x] = b.toNat % 32 * 64 + x.toNat % 64 := rfl
    have hleast : 0x80 ≤ codePoint [b, x] := hshort
    generalize codePoint [b, x] = n at hn hleast
    rw [if_neg (by omega), if_pos (by omega)]
    simp only [List.map_cons, List.map_nil, List.cons.injEq, and_true]
    omega
  · obtain ⟨hlow, hhigh⟩ := hthree.mp hb
    have hx := hcs x (by simp)
    have hy := hcs y (by simp)
    have hn : codePoint [b, x, y] = (b.toNat % 16 * 64 + x.toNat % 64) * 64 + y.toNat % 64 := rfl
    have hleast : 0x800 ≤ codePoint [b, x, y] := hshort
    generalize codePoint [b, x, y] = n at hn hleast
    rw [if_neg (by omega), if_neg (by omega), if_pos (by omega)]
    simp only [List.map_cons, List.map_nil, List.cons.injEq, and_true]
    omega
  · obtain ⟨hlow, hhigh⟩ := hfour.mp hb
    have hx := hcs x (by simp)
    have hy := hcs y (by simp)
    have hz := hcs z (by simp)
    have hn : codePoint [b, x, y, z] =
        ((b.toNat % 8 * 64 + x.toNat % 64) * 64 + y.toNat % 64) * 64 + z.toNat % 64 := rfl
    have hleast : 0x10000 ≤ codePoint [b, x, y, z] := hshort
    generalize codePoint [b, x, y, z] = n at hn hleast
    rw [if_neg (by omega), if_neg (by omega), if_neg (by omega)]
    simp only [List.map_cons, List.map_nil, List.cons.injEq, and_true]
    omega
  · simp only [List.length_cons] at hb
    omega

theorem isValid_iff_chars {s : Bytes} :
    isValid s = true ↔ ∃ cs : List Char, s = cs.flatMap String.utf8EncodeChar := by
  rw [isValid_iff_characters]
  constructor
  · intro h
    induction h with
    | nil => exact ⟨[], rfl⟩
    | cons hc _ ih =>
      obtain ⟨c, rfl⟩ := exists_char hc
      obtain ⟨cs, rfl⟩ := ih
      exact ⟨c :: cs, rfl⟩
  · rintro ⟨cs, rfl⟩
    induction cs with
    | nil => exact .nil
    | cons c cs ih => exact .cons (character_utf8EncodeChar c) ih

end Encoding
end Lorebook.Utf8
