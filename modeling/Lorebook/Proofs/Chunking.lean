import Lorebook.Proofs.CodePoints
import Lorebook.Tokens

set_option autoImplicit false

/-!
Counting and cutting agree. Of any text the tokens put together are the text; of a valid one they
are as many as the count says, and each holds whole characters, four of them but for the last.
-/

namespace Lorebook

namespace Utf8

def encodeAll (cs : List Char) : Bytes := cs.flatMap String.utf8EncodeChar

@[simp] theorem encodeAll_nil : encodeAll [] = [] := rfl

@[simp] theorem encodeAll_cons (c : Char) (cs : List Char) :
    encodeAll (c :: cs) = String.utf8EncodeChar c ++ encodeAll cs := rfl

@[simp] theorem encodeAll_append (cs ds : List Char) :
    encodeAll (cs ++ ds) = encodeAll cs ++ encodeAll ds := List.flatMap_append

theorem exists_lead (c : Char) : ∃ b r, String.utf8EncodeChar c = b :: r ∧
    isContinuation b = false ∧ ∀ x ∈ r, isContinuation x = true := by
  obtain ⟨b, r, hc, hb, _, hr⟩ := (character_utf8EncodeChar c).shape
  refine ⟨b, r, hc, ?_, hr⟩
  by_contra hcont
  rw [announced_of_continuation b (by simpa using hcont)] at hb
  omega

theorem encodeAll_eq_nil_iff {cs : List Char} : encodeAll cs = [] ↔ cs = [] := by
  cases cs with
  | nil => simp
  | cons c cs =>
    obtain ⟨b, r, hc, _⟩ := exists_lead c
    simp [hc]

theorem codePoints_encodeAll (cs : List Char) : codePoints (encodeAll cs) = cs.length := by
  induction cs with
  | nil => rfl
  | cons c cs ih =>
    obtain ⟨b, r, hc, hb, hr⟩ := exists_lead c
    have hrest : r.countP (!isContinuation ·) = 0 := by
      rw [List.countP_eq_zero]
      intro x hx
      simp [hr x hx]
    rw [codePoints] at ih ⊢
    rw [encodeAll_cons, List.countP_append, ih, hc, List.countP_cons, hrest]
    simp [hb, Nat.add_comm]

end Utf8

/-- The text of a token is that of so many whole characters. -/
def Token.Holds (n : Nat) (t : Token) : Prop :=
  ∃ cs : List Char, cs.length = n ∧ t.text = Utf8.encodeAll cs

namespace Tokens

open Utf8 (encodeAll)

section Texts

variable {id n : Nat} {seen : Bytes}

theorem flatten_tokenizeFrom (id n : Nat) (seen s : Bytes) :
    ((tokenizeFrom id n seen s).map (·.text)).flatten = seen.reverse ++ s := by
  induction s generalizing id n seen with
  | nil => by_cases h : seen = [] <;> simp [tokenizeFrom, h]
  | cons b r ih =>
    rw [tokenizeFrom]
    split
    · simp [ih]
    · split <;> simp [ih]

theorem ids_tokenizeFrom (id n : Nat) (seen s : Bytes) :
    (tokenizeFrom id n seen s).map (·.id)
      = List.range' id (tokenizeFrom id n seen s).length := by
  induction s generalizing id n seen with
  | nil => by_cases h : seen = [] <;> simp [tokenizeFrom, h]
  | cons b r ih =>
    rw [tokenizeFrom]
    split
    · exact ih id n _
    · split
      · simp [ih, List.range'_succ]
      · exact ih id _ _

theorem tokenizeFrom_continuations {r : Bytes} (hr : ∀ x ∈ r, Utf8.isContinuation x = true)
    (t : Bytes) : tokenizeFrom id n seen (r ++ t) = tokenizeFrom id n (r.reverse ++ seen) t := by
  induction r generalizing seen with
  | nil => rfl
  | cons x r ih =>
    obtain ⟨hx, hr⟩ := List.forall_mem_cons.mp hr
    rw [List.cons_append, tokenizeFrom, if_pos hx, ih hr]
    simp

/-- A character ends a full token, and goes into the one that follows, or into one that is not
full. -/
theorem tokenizeFrom_char (c : Char) (t : Bytes) :
    tokenizeFrom id n seen (String.utf8EncodeChar c ++ t) =
      if n = 4 then
        ⟨id, seen.reverse⟩ :: tokenizeFrom (id + 1) 1 (String.utf8EncodeChar c).reverse t
      else tokenizeFrom id (n + 1) ((String.utf8EncodeChar c).reverse ++ seen) t := by
  obtain ⟨b, r, hc, hb, hr⟩ := Utf8.exists_lead c
  rw [hc, List.cons_append, tokenizeFrom, if_neg (by simp [hb])]
  split
  · rw [tokenizeFrom_continuations hr]
    simp
  · rw [tokenizeFrom_continuations hr]
    simp

end Texts

/-- Groups of four, but for the last, which may be smaller. -/
inductive Quartets : List (List Char) → Prop
  | nil : Quartets []
  | last {g : List Char} : 1 ≤ g.length → g.length ≤ 4 → Quartets [g]
  | cons {g : List Char} {gs : List (List Char)} :
    g.length = 4 → gs ≠ [] → Quartets gs → Quartets (g :: gs)

namespace Quartets

variable {gs : List (List Char)}

theorem length_eq (h : Quartets gs) : gs.length = (gs.flatten.length + 3) / 4 := by
  induction h with
  | nil => rfl
  | last hlow hhigh =>
    simp
    omega
  | cons hg _ _ ih =>
    rw [List.length_cons, ih, List.flatten_cons, List.length_append, hg]
    omega

theorem length_of_mem_dropLast (h : Quartets gs) : ∀ g ∈ gs.dropLast, g.length = 4 := by
  induction h with
  | nil => simp
  | last => simp
  | cons hg hne _ ih =>
    rw [List.dropLast_cons_of_ne_nil hne]
    exact List.forall_mem_cons.mpr ⟨hg, ih⟩

theorem length_of_getLast? (h : Quartets gs) :
    ∀ g ∈ gs.getLast?, 1 ≤ g.length ∧ g.length ≤ 4 := by
  induction h with
  | nil => simp
  | last hlow hhigh => simp [hlow, hhigh]
  | @cons g gs _ hne _ ih =>
    obtain ⟨g', gs', rfl⟩ := List.exists_cons_of_ne_nil hne
    rw [List.getLast?_cons_cons]
    exact ih

end Quartets

theorem exists_quartets (id : Nat) {ds : List Char} (hds : ds.length ≤ 4) (cs : List Char) :
    ∃ gs, Quartets gs ∧ gs.flatten = ds ++ cs ∧
      (tokenizeFrom id ds.length (encodeAll ds).reverse (encodeAll cs)).map (·.text)
        = gs.map encodeAll := by
  -- The induction is on the characters to come; those begun are at most four and whole.
  induction cs generalizing id ds with
  | nil =>
    by_cases h : ds = []
    · subst h
      exact ⟨[], .nil, rfl, rfl⟩
    · have hpos := List.length_pos_of_ne_nil h
      refine ⟨[ds], .last hpos hds, by simp, ?_⟩
      simp [tokenizeFrom, Utf8.encodeAll_eq_nil_iff, h]
  | cons c cs ih =>
    rw [Utf8.encodeAll_cons, tokenizeFrom_char]
    by_cases hfull : ds.length = 4
    · obtain ⟨gs, hgs, hflat, htexts⟩ := @ih (id + 1) [c] (by simp)
      have hne : gs ≠ [] := by
        rintro rfl
        simp at hflat
      refine ⟨ds :: gs, .cons hfull hne hgs, by simp [hflat], ?_⟩
      rw [if_pos hfull, List.map_cons, List.map_cons, List.reverse_reverse]
      simpa using htexts
    · have hlt : (ds ++ [c]).length ≤ 4 := by
        rw [List.length_append, List.length_singleton]
        omega
      obtain ⟨gs, hgs, hflat, htexts⟩ := ih id hlt
      refine ⟨gs, hgs, by simp [hflat], ?_⟩
      rw [if_neg hfull]
      simpa using htexts

theorem tokenize_counts (s : Bytes) :
    (chunks s).flatten = s ∧
    (tokenize s).map (·.id) = List.range (tokenize s).length ∧
    (Utf8.isValid s = true →
      (tokenize s).length = estimate s ∧
      (∀ t ∈ (tokenize s).dropLast, t.Holds 4) ∧
      ∀ t ∈ (tokenize s).getLast?, ∃ n, 1 ≤ n ∧ n ≤ 4 ∧ t.Holds n) := by
  refine ⟨flatten_tokenizeFrom 0 0 [] s, ?_, fun hvalid => ?_⟩
  · rw [List.range_eq_range']
    exact ids_tokenizeFrom 0 0 [] s
  obtain ⟨cs, hs⟩ := Utf8.isValid_iff_chars.mp hvalid
  obtain ⟨gs, hgs, hflat, htexts⟩ := @exists_quartets 0 [] (Nat.zero_le 4) cs
  have hchunks : (tokenize s).map (·.text) = gs.map encodeAll := hs ▸ htexts
  refine ⟨?_, fun t ht => ?_, fun t ht => ?_⟩
  · have hlength : (tokenize s).length = gs.length := by
      simpa using congrArg List.length hchunks
    have hcount : Utf8.codePoints s = cs.length := hs ▸ Utf8.codePoints_encodeAll cs
    rw [hlength, hgs.length_eq, hflat, List.nil_append, estimate, hcount]
    simp
  · have ht : t.text ∈ (gs.map encodeAll).dropLast := by
      rw [← hchunks, ← List.map_dropLast]
      exact List.mem_map_of_mem ht
    rw [← List.map_dropLast] at ht
    obtain ⟨g, hg, htext⟩ := List.mem_map.mp ht
    exact ⟨g, hgs.length_of_mem_dropLast g hg, htext.symm⟩
  · have ht : t.text ∈ (gs.map encodeAll).getLast? := by
      rw [← hchunks, List.getLast?_map]
      exact Option.mem_map_of_mem _ ht
    rw [List.getLast?_map] at ht
    obtain ⟨g, hg, htext⟩ := Option.map_eq_some_iff.mp ht
    obtain ⟨hlow, hhigh⟩ := hgs.length_of_getLast? g hg
    exact ⟨g.length, hlow, hhigh, g, rfl, htext.symm⟩

theorem tokenize_counts_mixed :
    let s : Bytes := [0x61, 0xC3, 0xA9, 0xE2, 0x82, 0xAC, 0xF0, 0x9F, 0x98, 0x80, 0x62]
    Utf8.isValid s = true ∧ estimate s = 2 ∧
      tokenize s = [⟨0, [0x61, 0xC3, 0xA9, 0xE2, 0x82, 0xAC, 0xF0, 0x9F, 0x98, 0x80]⟩, ⟨1, [0x62]⟩] ∧
      (tokenize s).length = estimate s ∧
      (∀ t ∈ (tokenize s).dropLast, t.Holds 4) ∧
      ∀ t ∈ (tokenize s).getLast?, ∃ n, 1 ≤ n ∧ n ≤ 4 ∧ t.Holds n := by
  intro s
  have hvalid : Utf8.isValid s = true := by decide +kernel
  exact ⟨hvalid, by decide +kernel, by decide +kernel, (tokenize_counts s).2.2 hvalid⟩

end Tokens
end Lorebook
