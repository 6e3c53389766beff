import Lorebook.Bytes.Utf8
import Mathlib.Data.List.Basic

set_option autoImplicit false

/-!
UTF-8 texts as rows of characters. A cut anywhere in such a text goes through one character at most,
of which at most three continuation bytes are left on the far side; these are the bytes that scrubbing
removes. So the tail of a text is its longest ending that starts with a whole character and is within
the limit, and what a tail has lost never matters for the tail of a longer text.
-/

namespace Lorebook.Utf8

section Bytes

def Owed.Sane (o : Owed) : Prop :=
  0 < o.bytes ∧ o.bytes ≤ 3 ∧ ∀ b, o.low ≤ b → b ≤ o.high → isContinuation b = true

def Opens (b : UInt8) : Progress → Prop
  | .complete => announced b = 1
  | .more o => o.Sane ∧ announced b = o.bytes + 1
  | .refused => True

instance (b : UInt8) : (p : Progress) → Decidable (Opens b p)
  | .complete => inferInstanceAs (Decidable (_ = _))
  | .more _ => inferInstanceAs (Decidable ((_ ∧ _ ∧ ∀ _, _) ∧ _))
  | .refused => inferInstanceAs (Decidable True)

theorem opens_first : ∀ b, Opens b (first b) := by
  decide +kernel

theorem announced_of_continuation : ∀ b, isContinuation b = true → announced b = 0 := by
  decide +kernel

theorem sane_next {o o' : Owed} {b : UInt8} (ho : o.Sane) (h : next o b = .more o') :
    o'.Sane ∧ o.bytes = o'.bytes + 1 ∧ isContinuation b = true := by
  obtain ⟨_, hle, hrange⟩ := ho
  have hcont : ∀ b, (0x80 : UInt8) ≤ b → b ≤ 0xBF → isContinuation b = true := by decide +kernel
  unfold next at h
  split at h
  · next hb =>
    split at h
    · cases h
    · next hmore =>
      cases h
      refine ⟨⟨?_, ?_, hcont⟩, ?_, hrange b hb.1 hb.2⟩ <;> dsimp only <;> omega
  · cases h

theorem next_eq_complete {o : Owed} {b : UInt8} (ho : o.Sane) (h : next o b = .complete) :
    o.bytes = 1 ∧ isContinuation b = true := by
  obtain ⟨hpos, _, hrange⟩ := ho
  unfold next at h
  split at h
  · next hb =>
    split at h
    · exact ⟨by omega, hrange b hb.1 hb.2⟩
    · cases h
  · cases h

end Bytes

def Sequence (q : Bytes) : Prop :=
  ∃ b cs, q = b :: cs ∧ announced b = cs.length + 1 ∧ ∀ x ∈ cs, isContinuation x = true

/-- One whole sequence: a first byte and the continuation bytes that it announces, after which any
text may follow. -/
structure Character (c : Bytes) : Prop where
  shape : ∃ b cs, c = b :: cs ∧ announced b = cs.length + 1 ∧ cs.length ≤ 3 ∧
    ∀ x ∈ cs, isContinuation x = true
  isValid_append : ∀ t, isValid (c ++ t) = isValid t

inductive Characters : Bytes → Prop
  | nil : Characters []
  | cons {c t : Bytes} : Character c → Characters t → Characters (c ++ t)

section Valid

variable {s t : Bytes}

theorem owed_of_valid {o : Owed} (ho : o.Sane) (h : isValidFrom (some o) s = true) :
    ∃ cs t, s = cs ++ t ∧ cs.length = o.bytes ∧ (∀ x ∈ cs, isContinuation x = true) ∧
      isValid t = true ∧ ∀ t', isValidFrom (some o) (cs ++ t') = isValid t' := by
  induction s generalizing o with
  | nil => cases h
  | cons b s ih =>
    rw [isValidFrom] at h
    cases hstep : next o b with
    | complete =>
      obtain ⟨hone, hb⟩ := next_eq_complete ho hstep
      refine ⟨[b], s, rfl, hone.symm, by simpa using hb, ?_, fun t' => ?_⟩
      · simpa [step, hstep, isValid] using h
      · simp [isValidFrom, step, hstep, isValid]
    | more o' =>
      obtain ⟨ho', hbytes, hb⟩ := sane_next ho hstep
      have hs : isValidFrom (some o') s = true := by simpa [step, hstep] using h
      obtain ⟨cs, t, rfl, hlen, hcs, ht, hany⟩ := ih ho' hs
      refine ⟨b :: cs, t, rfl, by simp [hlen, hbytes], by simpa [hb] using hcs, ht, fun t' => ?_⟩
      simp [isValidFrom, step, hstep, hany]
    | refused => simp [step, hstep] at h

theorem exists_character (h : isValid s = true) (hne : s ≠ []) :
    ∃ c t, s = c ++ t ∧ Character c ∧ isValid t = true := by
  obtain ⟨b, s, rfl⟩ := List.exists_cons_of_ne_nil hne
  have hopens := opens_first b
  rw [isValid, isValidFrom] at h
  cases hstep : first b with
  | complete =>
    rw [hstep] at hopens
    refine ⟨[b], s, rfl, ⟨⟨b, [], rfl, hopens, by simp, by simp⟩, fun t => ?_⟩, ?_⟩
    · simp [isValid, isValidFrom, step, hstep]
    · simpa [step, hstep, isValid] using h
  | more o =>
    rw [hstep] at hopens
    have hs : isValidFrom (some o) s = true := by simpa [step, hstep] using h
    obtain ⟨cs, t, rfl, hlen, hcs, ht, hany⟩ := owed_of_valid hopens.1 hs
    refine ⟨b :: cs, t, rfl, ⟨⟨b, cs, rfl, ?_, ?_, hcs⟩, fun t' => ?_⟩, ht⟩
    · rw [hopens.2, hlen]
    · exact hlen ▸ hopens.1.2.1
    · simp [isValid, isValidFrom, step, hstep, hany]
  | refused => simp [step, hstep] at h

theorem Character.sequence {c : Bytes} (h : Character c) : Sequence c := by
  obtain ⟨b, cs, rfl, hannounced, _, hcs⟩ := h.shape
  exact ⟨b, cs, rfl, hannounced, hcs⟩

theorem Character.ne_nil {c : Bytes} (h : Character c) : c ≠ [] := by
  obtain ⟨_, _, rfl, _⟩ := h.shape
  exact List.cons_ne_nil _ _

theorem isValid_iff_characters : isValid s = true ↔ Characters s := by
  constructor
  · intro h
    induction hn : s.length using Nat.strongRecOn generalizing s with
    | ind n ih =>
      by_cases hne : s = []
      · subst hne
        exact .nil
      · obtain ⟨c, t, rfl, hc, ht⟩ := exists_character h hne
        have hpos := List.length_pos_of_ne_nil hc.ne_nil
        rw [List.length_append] at hn
        exact .cons hc (ih t.length (by omega) ht rfl)
  · intro h
    induction h with
    | nil => rfl
    | cons hc _ ih => rw [hc.isValid_append, ih]

/-- After whole characters a text goes on as it would begin. -/
theorem isValid_append (h : isValid s = true) (t : Bytes) : isValid (s ++ t) = isValid t := by
  rw [isValid_iff_characters] at h
  induction h with
  | nil => rfl
  | cons hc _ ih => rw [List.append_assoc, hc.isValid_append, ih]

theorem head_of_valid {b : UInt8} (h : isValid (b :: s) = true) : isContinuation b = false := by
  obtain ⟨c, t, hs, hc, _⟩ := exists_character h (List.cons_ne_nil b s)
  obtain ⟨b', cs, rfl, hannounced, _⟩ := hc.shape
  obtain ⟨rfl, _⟩ := List.cons.inj hs
  by_contra hb
  rw [announced_of_continuation b (by simpa using hb)] at hannounced
  omega

end Valid

section Scrub

variable {s t cs : Bytes}

theorem scrubFrom_owed (filler : Bytes) (cs t : Bytes) :
    scrubFrom filler cs.length (cs ++ t) = cs ++ scrub t filler := by
  induction cs with
  | nil => rfl
  | cons b cs ih => rw [List.length_cons, List.cons_append, scrubFrom, ih, List.cons_append]

theorem sequenceLength_append {q : Bytes} (h : Sequence q) (t : Bytes) :
    sequenceLength (q ++ t) = q.length := by
  obtain ⟨b, cs, rfl, hannounced, hcs⟩ := h
  simpa [sequenceLength, hannounced] using hcs

theorem scrub_sequence {q : Bytes} (h : Sequence q) (t filler : Bytes) :
    scrub (q ++ t) filler = q ++ scrub t filler := by
  have hlength := sequenceLength_append h t
  obtain ⟨b, cs, rfl, _⟩ := h
  rw [List.cons_append, List.length_cons] at hlength
  rw [scrub, List.cons_append, scrubFrom, hlength]
  dsimp only
  rw [scrubFrom_owed, List.cons_append]

theorem scrub_append_of_valid (h : isValid s = true) (t filler : Bytes) :
    scrub (s ++ t) filler = s ++ scrub t filler := by
  rw [isValid_iff_characters] at h
  induction h with
  | nil => rfl
  | cons hc _ ih => rw [List.append_assoc, scrub_sequence hc.sequence, ih, List.append_assoc]

theorem scrub_of_valid (h : isValid s = true) (filler : Bytes) : scrub s filler = s := by
  have happend := scrub_append_of_valid h [] filler
  have hnil : scrub [] filler = [] := rfl
  rwa [List.append_nil, hnil, List.append_nil] at happend

theorem scrub_continuation (h : ∀ x ∈ cs, isContinuation x = true) (t : Bytes) :
    scrub (cs ++ t) [] = scrub t [] := by
  induction cs with
  | nil => rfl
  | cons b cs ih =>
    obtain ⟨hb, hcs⟩ := List.forall_mem_cons.mp h
    have hlength : sequenceLength (b :: (cs ++ t)) = 0 := by
      simp [sequenceLength, announced_of_continuation b hb]
    rw [scrub, List.cons_append, scrubFrom, hlength]
    exact ih hcs

theorem length_scrubFrom_le (n : Nat) (s : Bytes) : (scrubFrom [] n s).length ≤ s.length := by
  induction s generalizing n with
  | nil => cases n <;> exact Nat.le_refl 0
  | cons b s ih =>
    cases n with
    | zero =>
      rw [scrubFrom]
      split
      · exact Nat.le_succ_of_le (ih 0)
      · exact Nat.succ_le_succ (ih _)
    | succ n => exact Nat.succ_le_succ (ih n)

end Scrub

section Tail

variable {s t v : Bytes} {limit : Nat}

/-- Not even of a text that is not valid is more kept than the limit allows. -/
theorem length_tail_le (s : Bytes) (limit : Nat) : (tail s limit).length ≤ limit := by
  unfold tail
  split
  · assumption
  · have hscrub := length_scrubFrom_le 0 (s.drop (s.length - limit))
    rw [List.length_drop] at hscrub
    exact Nat.le_trans hscrub (by omega)

/-- A cut through a valid text leaves at most three bytes of a character on its far side. -/
theorem exists_cut (h : isValid s = true) {n : Nat} (hn : n ≤ s.length) :
    ∃ cs t, s.drop n = cs ++ t ∧ cs.length ≤ 3 ∧ (∀ x ∈ cs, isContinuation x = true) ∧
      isValid (s.take n ++ cs) = true ∧ isValid t = true := by
  rw [isValid_iff_characters] at h
  induction h generalizing n with
  | nil => exact ⟨[], [], by simp, by simp, by simp, by simp [isValid, isValidFrom], rfl⟩
  | @cons c t hc ht ih =>
    have hvalid : isValid t = true := isValid_iff_characters.mpr ht
    rw [List.length_append] at hn
    rcases Nat.lt_or_ge c.length n with hlt | hle
    · obtain ⟨cs, u, hdrop, hlen, hcs, htake, hu⟩ := @ih (n - c.length) (by omega)
      refine ⟨cs, u, ?_, hlen, hcs, ?_, hu⟩
      · rw [List.drop_append, List.drop_eq_nil_of_le (by omega), hdrop, List.nil_append]
      · rw [List.take_append, List.take_of_length_le (by omega), List.append_assoc,
          hc.isValid_append, htake]
    · -- The cut goes through the first character, or before it.
      obtain ⟨b, cs, rfl, _, hlen, hcs⟩ := hc.shape
      cases n with
      | zero =>
        refine ⟨[], b :: cs ++ t, by simp, by simp, by simp, by simp [isValid, isValidFrom], ?_⟩
        rw [hc.isValid_append, hvalid]
      | succ n =>
        have hn : n ≤ cs.length := by simpa using hle
        refine ⟨cs.drop n, t, ?_, ?_, fun x hx => hcs x (List.mem_of_mem_drop hx), ?_, hvalid⟩
        · rw [List.cons_append, List.drop_succ_cons, List.drop_append_of_le_length hn]
        · rw [List.length_drop]
          omega
        · have hwhole : (b :: cs ++ t).take (n + 1) ++ cs.drop n = b :: cs ++ [] := by
            simp [List.take_append_of_le_length hn]
          rw [hwhole, hc.isValid_append]
          rfl

/-- An ending of a text that starts where a character does and is within a limit. -/
structure Fits (s : Bytes) (limit : Nat) (v : Bytes) : Prop where
  boundary : ∃ p, s = p ++ v ∧ isValid p = true
  length_le : v.length ≤ limit

theorem tail_eq (hs : isValid s = true) (hlong : ¬s.length ≤ limit) :
    ∃ p cs, s = p ++ cs ++ tail s limit ∧ isValid (p ++ cs) = true ∧ isValid (tail s limit) = true ∧
      (cs ++ tail s limit).length = limit ∧ cs.length ≤ 3 ∧ ∀ x ∈ cs, isContinuation x = true := by
  obtain ⟨cs, t, hdrop, hlen, hcs, hp, ht⟩ := exists_cut hs (n := s.length - limit) (by omega)
  have htail : tail s limit = t := by
    rw [tail, if_neg hlong, hdrop, scrub_continuation hcs, scrub_of_valid ht]
  have hlimit := congrArg List.length hdrop
  rw [List.length_drop] at hlimit
  refine ⟨s.take (s.length - limit), cs, ?_, hp, htail ▸ ht, ?_, hlen, hcs⟩
  · rw [htail, List.append_assoc, ← hdrop, List.take_append_drop]
  · rw [htail, ← hlimit]
    omega

theorem tail_of_le (h : s.length ≤ limit) : tail s limit = s := if_pos h

theorem isValid_tail (hs : isValid s = true) (limit : Nat) : isValid (tail s limit) = true := by
  by_cases hlong : s.length ≤ limit
  · rwa [tail_of_le hlong]
  · obtain ⟨_, _, _, _, h, _⟩ := tail_eq hs hlong
    exact h

theorem fits_tail (hs : isValid s = true) (limit : Nat) : Fits s limit (tail s limit) := by
  refine ⟨?_, length_tail_le s limit⟩
  by_cases hlong : s.length ≤ limit
  · exact ⟨[], by rw [tail_of_le hlong, List.nil_append], rfl⟩
  · obtain ⟨p, cs, hsplit, hp, _⟩ := tail_eq hs hlong
    exact ⟨p ++ cs, hsplit, hp⟩

theorem Fits.length_le_tail (h : Fits s limit v) (hs : isValid s = true) :
    v.length ≤ (tail s limit).length := by
  by_cases hlong : s.length ≤ limit
  · obtain ⟨p, rfl, _⟩ := h.boundary
    rw [tail_of_le hlong, List.length_append]
    omega
  obtain ⟨p, cs, hsplit, _, _, hlimit, _, hcs⟩ := tail_eq hs hlong
  obtain ⟨q, hq, hqvalid⟩ := h.boundary
  have hv : isValid v = true := by rwa [← isValid_append hqvalid, ← hq]
  by_contra hlt
  -- A longer one would start within the bytes that the cut has left of a character.
  have hsuffix : v <:+ cs ++ tail s limit := by
    have hv : v <:+ s := ⟨q, hq.symm⟩
    have hcut : cs ++ tail s limit <:+ s := ⟨p, by rw [← List.append_assoc, ← hsplit]⟩
    apply List.suffix_of_suffix_length_le hv hcut
    rw [hlimit]
    exact h.length_le
  obtain ⟨y, rfl⟩ : tail s limit <:+ v :=
    List.suffix_of_suffix_length_le (List.suffix_append cs _) hsuffix (by omega)
  obtain ⟨x, hx⟩ := hsuffix
  rw [← List.append_assoc] at hx
  obtain rfl : x ++ y = cs := List.append_cancel_right hx
  cases y with
  | nil => exact hlt (Nat.le_refl _)
  | cons b y =>
    have hb := hcs b (by simp)
    rw [head_of_valid hv] at hb
    cases hb

theorem Fits.eq_tail (h : Fits s limit v) (hs : isValid s = true)
    (hle : (tail s limit).length ≤ v.length) : v = tail s limit := by
  obtain ⟨p, hp, _⟩ := h.boundary
  obtain ⟨q, hq, _⟩ := (fits_tail hs limit).boundary
  have hlen : v.length = (tail s limit).length := Nat.le_antisymm (h.length_le_tail hs) hle
  exact (List.append_inj' (hp.symm.trans hq) hlen).2

theorem tail_ne_nil (hs : isValid s = true) (hne : s ≠ []) (hlimit : 4 ≤ limit) :
    tail s limit ≠ [] := by
  by_cases hlong : s.length ≤ limit
  · rwa [tail_of_le hlong]
  · obtain ⟨_, cs, _, _, _, hlength, hcs, _⟩ := tail_eq hs hlong
    intro hnil
    rw [hnil, List.append_nil] at hlength
    omega

/-- What a tail has lost is lost from the tail of every longer text. -/
theorem tail_append_tail (hs : isValid s = true) (ht : isValid t = true) (limit : Nat) :
    tail (tail s limit ++ t) limit = tail (s ++ t) limit := by
  have hst : isValid (s ++ t) = true := by rwa [isValid_append hs]
  have hrest : isValid (tail s limit ++ t) = true := by rwa [isValid_append (isValid_tail hs limit)]
  obtain ⟨p, hp, hpvalid⟩ := (fits_tail hs limit).boundary
  have hsplit : s ++ t = p ++ (tail s limit ++ t) := by rw [← List.append_assoc, ← hp]
  obtain ⟨q, hq, hqvalid⟩ := (fits_tail hrest limit).boundary
  have hfits : Fits (s ++ t) limit (tail (tail s limit ++ t) limit) := by
    refine ⟨⟨p ++ q, ?_, ?_⟩, length_tail_le _ _⟩
    · rw [hsplit, List.append_assoc, ← hq]
    · rwa [isValid_append hpvalid]
  refine hfits.eq_tail hst ?_
  obtain ⟨r, hr, hrvalid⟩ := (fits_tail hst limit).boundary
  have hlimit := length_tail_le (s ++ t) limit
  generalize tail (s ++ t) limit = v at hr hlimit
  by_cases hle : v.length ≤ (tail s limit ++ t).length
  · obtain ⟨r', hr'⟩ : v <:+ tail s limit ++ t :=
      List.suffix_of_suffix_length_le ⟨r, hr.symm⟩ ⟨p, hsplit.symm⟩ hle
    have hrr : r = p ++ r' := by
      rw [← hr', ← List.append_assoc, hr] at hsplit
      exact List.append_cancel_right hsplit
    have hvalid : isValid r' = true := by rwa [hrr, isValid_append hpvalid] at hrvalid
    exact Fits.length_le_tail ⟨⟨r', hr'.symm, hvalid⟩, hlimit⟩ hrest
  · -- Then the tail of `s` alone could have been longer.
    obtain ⟨y, rfl⟩ : tail s limit ++ t <:+ v :=
      List.suffix_of_suffix_length_le ⟨p, hsplit.symm⟩ ⟨r, hr.symm⟩ (by omega)
    have hs' : s = r ++ (y ++ tail s limit) := by
      simp only [← List.append_assoc] at hr
      rw [← List.append_assoc]
      exact List.append_cancel_right hr
    have hshort : (y ++ tail s limit).length ≤ limit := by
      simp only [List.length_append] at hlimit ⊢
      omega
    have hy := Fits.length_le_tail ⟨⟨r, hs', hrvalid⟩, hshort⟩ hs
    simp only [List.length_append] at hy hle
    omega

end Tail
end Lorebook.Utf8
