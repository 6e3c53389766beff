import Lorebook.Pattern.Parser

set_option autoImplicit false

/-!
Names between brackets. Only known names are read by the parser of patterns, and they are made of
letters and hyphens.
-/

namespace Lorebook.Pattern

def Token.name? : Token → Option Bytes
  | .named n => .some n
  | .namedClass n => .some n
  | .equivalent n => .some n
  | _ => none

/-- The token is no name, or a name without a closing bracket and a backslash. -/
def Token.Known (t : Token) : Prop := ∀ n ∈ t.name?, 92 ∉ n ∧ 93 ∉ n

section Names

theorem plain_of_byteOfName? {n : Bytes} {b : UInt8} (h : byteOfName? n = some b) :
    92 ∉ n ∧ 93 ∉ n := by
  have hplain : ∀ m ∈ byteNames, 92 ∉ lit m ∧ 93 ∉ lit m := by decide +kernel
  obtain ⟨i, hi, _⟩ := Option.map_eq_some_iff.mp h
  obtain ⟨hlt, hname, _⟩ := List.findIdx?_eq_some_iff_getElem.mp hi
  rw [← beq_iff_eq.mp hname]
  exact hplain _ (List.getElem_mem hlt)

theorem plain_of_ofName? {n : Bytes} {c : ByteClass} (h : ByteClass.ofName? n = some c) :
    92 ∉ n ∧ 93 ∉ n := by
  have hlower : 92 ∉ Bytes.toLower n ∧ 93 ∉ Bytes.toLower n := by
    unfold ByteClass.ofName? at h
    obtain ⟨row, hrow, hname⟩ := List.exists_of_findSome?_eq_some h
    have hplain : 92 ∉ lit row.1 ∧ 93 ∉ lit row.1 := by
      clear hname
      revert row
      decide +kernel
    obtain ⟨m, d⟩ := row
    dsimp only at hname hplain
    split at hname
    · next heq => rwa [heq] at hplain
    · cases hname
  exact ⟨fun hn => hlower.1 (List.mem_map.mpr ⟨92, hn, rfl⟩),
    fun hn => hlower.2 (List.mem_map.mpr ⟨93, hn, rfl⟩)⟩

end Names

section Parser

variable {ts rest : List Token}

def AllKnown (ts : List Token) : Prop := ∀ t ∈ ts, t.Known

@[simp] theorem allKnown_nil : AllKnown [] := by simp [AllKnown]

@[simp] theorem allKnown_cons {t : Token} : AllKnown (t :: ts) ↔ t.Known ∧ AllKnown ts := by
  simp [AllKnown]

theorem known_of_setItems? {pending : Pending} {items found : List SetItem}
    (h : setItems? pending items ts = some (found, rest)) (hrest : AllKnown rest) :
    AllKnown ts := by
  fun_induction setItems? pending items ts <;>
    simp_all [Token.Known, Token.name?]
  · exact plain_of_byteOfName? ‹_›
  · exact plain_of_byteOfName? ‹_›
  · exact plain_of_ofName? ‹_›

theorem known_of_reluctant (h : AllKnown (reluctant ts).2) : AllKnown ts := by
  unfold reluctant at h
  split at h <;> simp_all [Token.Known, Token.name?]

theorem known_of_count? {m : Nat} {n? : Option Nat} (h : count? ts = some (m, n?, rest))
    (hrest : AllKnown rest) : AllKnown ts := by
  unfold count? at h
  repeat' split at h
  all_goals simp_all [Token.Known, Token.name?]

theorem known_of_quantified? {fuel : Nat} {p p' : Progress} {a a' : Node}
    (h : quantified? fuel p a ts = some (a', p', rest)) (hrest : AllKnown rest) :
    AllKnown ts := by
  induction fuel generalizing p a ts with
  | zero => cases h
  | succ fuel ih =>
    unfold quantified? at h
    split at h
    · have hts := known_of_reluctant (ih h)
      simpa [Token.Known, Token.name?] using hts
    · have hts := known_of_reluctant (ih h)
      simpa [Token.Known, Token.name?] using hts
    · have hts := known_of_reluctant (ih h)
      simpa [Token.Known, Token.name?] using hts
    · split at h
      · cases h
      · next hcount =>
        dsimp only at h
        split at h
        · cases h
        · have hts := known_of_count? hcount (known_of_reluctant (ih h))
          simpa [Token.Known, Token.name?] using hts
    · cases h
      exact hrest

/-- What the parser has read of the tokens are known names or no names. -/
structure ReadsKnown (fuel : Nat) : Prop where
  alternatives : ∀ p ts a p' rest, alternatives? fuel p ts = some (a, p', rest) →
    AllKnown rest → AllKnown ts
  further : ∀ p b ts a p' rest, further? fuel p b ts = some (a, p', rest) →
    AllKnown rest → AllKnown ts
  sequence : ∀ p ts a p' rest, sequence? fuel p ts = some (a, p', rest) →
    AllKnown rest → AllKnown ts
  term : ∀ p t ts a p' rest, term? fuel p t ts = some (a, p', rest) →
    AllKnown rest → AllKnown (t :: ts)

section Step

variable {fuel : Nat} {p p' : Progress} {a b : Node} {t : Token}

theorem ReadsKnown.zero : ReadsKnown 0 := by
  constructor
  · intro p ts a p' rest h
    unfold alternatives? at h
    cases h
  · intro p b ts a p' rest h
    unfold further? at h
    cases h
  · intro p ts a p' rest h
    unfold sequence? at h
    cases h
  · intro p t ts a p' rest h
    cases h

theorem known_of_name?_eq_none (h : t.name? = none) : t.Known := by simp [Token.Known, h]

theorem ReadsKnown.alternatives_succ (ih : ReadsKnown fuel)
    (h : alternatives? (fuel + 1) p ts = some (a, p', rest)) (hrest : AllKnown rest) :
    AllKnown ts := by
  unfold alternatives? at h
  split at h
  · cases h
  · next hsequence => exact ih.sequence _ _ _ _ _ hsequence (ih.further _ _ _ _ _ _ h hrest)

theorem ReadsKnown.further_succ (ih : ReadsKnown fuel)
    (h : further? (fuel + 1) p b ts = some (a, p', rest)) (hrest : AllKnown rest) :
    AllKnown ts := by
  rw [further?.eq_def] at h
  dsimp only at h
  split at h
  · split at h
    · cases h
    · next hsequence =>
      have hts := ih.sequence _ _ _ _ _ hsequence (ih.further _ _ _ _ _ _ h hrest)
      exact allKnown_cons.mpr ⟨known_of_name?_eq_none rfl, hts⟩
  · cases h
    exact hrest

theorem ReadsKnown.sequence_succ (ih : ReadsKnown fuel)
    (h : sequence? (fuel + 1) p ts = some (a, p', rest)) (hrest : AllKnown rest) :
    AllKnown ts := by
  unfold sequence? at h
  split at h
  · exact allKnown_nil
  · cases h
    exact hrest
  · cases h
    exact hrest
  · split at h
    · cases h
    · next hterm =>
      split at h
      · cases h
      · next hsequence =>
        cases h
        exact ih.term _ _ _ _ _ _ hterm (ih.sequence _ _ _ _ _ hsequence hrest)

theorem ReadsKnown.group (ih : ReadsKnown fuel)
    (h : alternatives? fuel p ts = some (a, p', .close :: rest)) (hrest : AllKnown rest) :
    AllKnown ts :=
  ih.alternatives _ _ _ _ _ h (allKnown_cons.mpr ⟨known_of_name?_eq_none rfl, hrest⟩)

theorem ReadsKnown.term_succ (ih : ReadsKnown fuel)
    (h : term? (fuel + 1) p t ts = some (a, p', rest)) (hrest : AllKnown rest) :
    AllKnown (t :: ts) := by
  have hcons (ht : t.name? = none) (hts : AllKnown ts) : AllKnown (t :: ts) :=
    allKnown_cons.mpr ⟨known_of_name?_eq_none ht, hts⟩
  have hatom (q : Progress) (c : Node)
      (h : quantified? (ts.length + 1) q c ts = some (a, p', rest)) : AllKnown ts :=
    known_of_quantified? h hrest
  cases t with
  | byte b => exact hcons rfl (hatom (p.grow 1) (.byte b) h)
  | any => exact hcons rfl (hatom (p.grow 1) .any h)
  | cls c negated => exact hcons rfl (hatom (p.grow 1) (.set negated [.cls c]) h)
  | lineStart =>
    cases h
    exact hcons rfl hrest
  | lineEnd =>
    cases h
    exact hcons rfl hrest
  | wordEdge negated =>
    cases h
    exact hcons rfl hrest
  | same g =>
    have h : (if g < p.groups ∧ g ∉ p.openGroups then
        quantified? (ts.length + 1) (p.grow 1) (.same g) ts else none)
        = some (a, p', rest) := h
    split at h
    · exact hcons rfl (hatom _ _ h)
    · cases h
  -- The equations of `term?` are too deep for `unfold`, so its value is computed.
  | openSet negated =>
    conv at h => lhs; whnf
    split at h
    · cases h
    · next hitems => exact hcons rfl (known_of_setItems? hitems (known_of_quantified? h hrest))
  | openAhead negated =>
    conv at h => lhs; whnf
    split at h
    · next hbody =>
      cases h
      exact hcons rfl (ih.group hbody hrest)
    · cases h
  | openPlain =>
    conv at h => lhs; whnf
    split at h
    · next hbody => exact hcons rfl (ih.group hbody (known_of_quantified? h hrest))
    · cases h
  | openGroup =>
    conv at h => lhs; whnf
    split at h
    · next hbody => exact hcons rfl (ih.group hbody (known_of_quantified? h hrest))
    · cases h
  | _ => cases h

end Step

theorem readsKnown (fuel : Nat) : ReadsKnown fuel := by
  induction fuel with
  | zero => exact .zero
  | succ fuel ih =>
    exact ⟨fun _ _ _ _ _ => ih.alternatives_succ, fun _ _ _ _ _ _ => ih.further_succ,
      fun _ _ _ _ _ => ih.sequence_succ, fun _ _ _ _ _ _ => ih.term_succ⟩

theorem allKnown_of_compile? {o : PatternOptions} {source : Bytes} {p : Pattern}
    (h : compile? o source = some p) : ∃ ts, tokens? source = some ts ∧ AllKnown ts := by
  unfold compile? at h
  split at h
  · cases h
  · next ts hts =>
    refine ⟨ts, hts, ?_⟩
    split at h
    · next hroot => exact (readsKnown _).alternatives _ _ _ _ _ hroot allKnown_nil
    · cases h

end Parser
end Lorebook.Pattern
