import Lorebook.Proofs.Directives

set_option autoImplicit false

/-!
The directive block at the top of a content, line by line. The block ends before the first line that
is neither blank nor a directive, and the content from there on is kept as it is. Of the directives
in the block those with two marks and those with three are recorded apart from each other, each name
where it comes first and with the value that it has last.
-/

namespace Lorebook

/-- Lines of a text: each ends with the only line feed in it, but that the last may have none. -/
inductive Bytes.FullLines : List Bytes → Prop
  | nil : FullLines []
  | last {l : Bytes} : l ≠ [] → newline ∉ l → FullLines [l]
  | cons {l : Bytes} {ls : List Bytes} : newline ∉ l → FullLines ls →
      FullLines ((l ++ [newline]) :: ls)

theorem Bytes.fullLines_cut (s : Bytes) : FullLines (fullLines s) := by
  induction s with
  | nil => exact .nil
  | cons b s ih =>
    rw [fullLines]
    split
    · next hb =>
      subst hb
      exact .cons (l := []) List.not_mem_nil ih
    · next hb =>
      generalize fullLines s = lines at ih
      cases ih with
      | nil => exact .last (List.cons_ne_nil b []) (by simpa [eq_comm] using hb)
      | last hne hl => exact .last (List.cons_ne_nil b _) (by simpa [hl, eq_comm] using hb)
      | @cons l ls hl hls => exact .cons (l := b :: l) (by simpa [hl, eq_comm] using hb) hls

theorem Bytes.not_isWord_of_isSpace : ∀ b, isSpace b = true → isWord b = false := by
  decide +kernel

namespace Directive

/-- A directive without its marks: a name of word bytes, then nothing, or a space and a text. -/
def Spells (s name text : Bytes) : Prop :=
  ∃ written rest : Bytes, s = written ++ rest ∧ written ≠ [] ∧
    (∀ b ∈ written, Bytes.isWord b = true) ∧ (∀ b ∈ rest.head?, Bytes.isSpace b = true) ∧
    name = Bytes.toLower written ∧ text = Bytes.trim rest

/-- A line that is a directive with so many marks, but for padding around it. -/
def Bears (marks : Nat) (line name text : Bytes) : Prop :=
  ∃ s, Bytes.trim line = List.replicate marks 64 ++ s ∧ Spells s name text

section Lines

variable {l s n t n' t' : Bytes} {marks : Nat}

theorem body?_eq_some_iff : body? s = some (n, t) ↔ Spells s n t := by
  constructor
  · intro h
    unfold body? at h
    dsimp only at h
    split at h
    · cases h
    next hne =>
    rw [List.isEmpty_iff] at hne
    refine ⟨s.takeWhile Bytes.isWord, s.dropWhile Bytes.isWord,
      List.takeWhile_append_dropWhile.symm, hne, List.all_eq_true.mp List.all_takeWhile, ?_⟩
    split at h
    · next hrest =>
      cases h
      rw [hrest]
      exact ⟨by simp, rfl, rfl⟩
    · next b r hrest =>
      split at h
      · next hb =>
        cases h
        rw [hrest]
        exact ⟨by simpa using hb, rfl, rfl⟩
      · cases h
  · rintro ⟨written, rest, rfl, hne, hword, hrest, rfl, rfl⟩
    cases rest with
    | nil =>
      have htake : written.takeWhile Bytes.isWord = written := List.takeWhile_eq_self_iff.mpr hword
      have hdrop : written.dropWhile Bytes.isWord = [] := List.dropWhile_eq_nil_iff.mpr hword
      simp only [body?, List.append_nil, htake, hdrop, List.isEmpty_iff, if_neg hne]
      rfl
    | cons b r =>
      have hb : Bytes.isSpace b = true := hrest b rfl
      have hstop : Bytes.isWord b = false := Bytes.not_isWord_of_isSpace b hb
      have htake : (written ++ b :: r).takeWhile Bytes.isWord = written := by
        rw [List.takeWhile_append_of_pos hword]
        simp [hstop]
      have hdrop : (written ++ b :: r).dropWhile Bytes.isWord = b :: r := by
        rw [List.dropWhile_append_of_pos hword]
        simp [hstop]
      simp only [body?, htake, hdrop, List.isEmpty_iff, if_neg hne, hb, if_true]

theorem Spells.head? (h : Spells s n t) : s.head? ≠ some 64 := by
  obtain ⟨written, rest, rfl, hne, hword, _⟩ := h
  cases written with
  | nil => exact absurd rfl hne
  | cons b w =>
    intro hb
    obtain rfl : b = 64 := Option.some.inj hb
    exact absurd (hword 64 List.mem_cons_self) (by decide)

theorem line?_of_standard (hs : Bytes.trim l = 64 :: 64 :: s) (h : s.head? ≠ some 64) :
    line? l = (body? s).map fun (n, t) => .standard n t := by
  unfold line?
  rw [hs]
  cases s with
  | nil => rfl
  | cons b s =>
    have hb : b ≠ 64 := fun hb => h (congrArg some hb)
    split
    · next heq => cases heq
    · next heq =>
      cases heq
      exact absurd rfl hb
    · next heq =>
      cases heq
      rfl
    · next hno => exact absurd rfl (hno (b :: s))

theorem line?_of_fallback (hs : Bytes.trim l = 64 :: 64 :: 64 :: s) :
    line? l = (body? s).map fun (n, t) => .fallback n t := by
  unfold line?
  rw [hs]
  rfl

theorem line?_eq_blank : line? l = some .blank ↔ Bytes.isBlank l = true := by
  rw [← Bytes.trim_eq_nil_iff]
  constructor
  · intro h
    unfold line? at h
    split at h
    · assumption
    · obtain ⟨_, _, hd⟩ := Option.map_eq_some_iff.mp h
      cases hd
    · obtain ⟨_, _, hd⟩ := Option.map_eq_some_iff.mp h
      cases hd
    · cases h
  · intro h
    unfold line?
    rw [h]

theorem line?_eq_standard : line? l = some (.standard n t) ↔ Bears 2 l n t := by
  constructor
  · intro h
    unfold line? at h
    split at h
    · cases h
    · obtain ⟨_, _, hd⟩ := Option.map_eq_some_iff.mp h
      cases hd
    · next s _ hs =>
      obtain ⟨_, hbody, hd⟩ := Option.map_eq_some_iff.mp h
      cases hd
      exact ⟨s, hs, body?_eq_some_iff.mp hbody⟩
    · cases h
  · rintro ⟨s, hs, hspells⟩
    have hs : Bytes.trim l = 64 :: 64 :: s := hs
    rw [line?_of_standard hs hspells.head?, body?_eq_some_iff.mpr hspells]
    rfl

theorem line?_eq_fallback : line? l = some (.fallback n t) ↔ Bears 3 l n t := by
  constructor
  · intro h
    unfold line? at h
    split at h
    · cases h
    · next s hs =>
      obtain ⟨_, hbody, hd⟩ := Option.map_eq_some_iff.mp h
      cases hd
      exact ⟨s, hs, body?_eq_some_iff.mp hbody⟩
    · obtain ⟨_, _, hd⟩ := Option.map_eq_some_iff.mp h
      cases hd
    · cases h
  · rintro ⟨s, hs, hspells⟩
    have hs : Bytes.trim l = 64 :: 64 :: 64 :: s := hs
    rw [line?_of_fallback hs, body?_eq_some_iff.mpr hspells]
    rfl

theorem Bears.unique (h : Bears marks l n t) (h' : Bears marks l n' t') : n = n' ∧ t = t' := by
  obtain ⟨s, hs, hspells⟩ := h
  obtain ⟨s', hs', hspells'⟩ := h'
  obtain rfl : s = s' := List.append_cancel_left (hs.symm.trans hs')
  rw [← body?_eq_some_iff] at hspells hspells'
  rw [hspells] at hspells'
  cases hspells'
  exact ⟨rfl, rfl⟩

theorem not_bears_both (l n t n' t' : Bytes) : ¬(Bears 2 l n t ∧ Bears 3 l n' t') := by
  rintro ⟨hstandard, hfallback⟩
  rw [← line?_eq_standard] at hstandard
  rw [← line?_eq_fallback, hstandard] at hfallback
  cases hfallback

def Belongs (l : Bytes) : Prop :=
  Bytes.isBlank l = true ∨ ∃ n t, Bears 2 l n t ∨ Bears 3 l n t

theorem line?_isSome : (line? l).isSome = true ↔ Belongs l := by
  constructor
  · intro h
    obtain ⟨d, hd⟩ := Option.isSome_iff_exists.mp h
    cases d with
    | blank => exact .inl (line?_eq_blank.mp hd)
    | standard n t => exact .inr ⟨n, t, .inl (line?_eq_standard.mp hd)⟩
    | fallback n t => exact .inr ⟨n, t, .inr (line?_eq_fallback.mp hd)⟩
  · rintro (h | ⟨n, t, h | h⟩)
    · rw [line?_eq_blank.mpr h]
      rfl
    · rw [line?_eq_standard.mpr h]
      rfl
    · rw [line?_eq_fallback.mpr h]
      rfl

end Lines

def Named (marks : Nat) (block : List Bytes) (n : Bytes) : Prop :=
  ∃ l ∈ block, ∃ t, Bears marks l n t

/-- The last of the lines that is a directive of this name has this value. -/
def SaidLast (marks : Nat) (block : List Bytes) (n : Bytes) (v : Json) : Prop :=
  ∃ before l after t, block = before ++ l :: after ∧ Bears marks l n t ∧ v = value n t ∧
    ¬Named marks after n

def Precedes (marks : Nat) (block : List Bytes) (n n' : Bytes) : Prop :=
  ∃ before after, block = before ++ after ∧ Named marks before n ∧ ¬Named marks before n'

/-- A table of what the directives in a block say: of each name the last value, the names in the
order in which they come up first. -/
structure Recorded (marks : Nat) (block : List Bytes) (table : Table Json) : Prop where
  last : ∀ n v, Table.get? n table = some v ↔ SaidLast marks block n v
  ordered : (Table.keys table).Pairwise (Precedes marks block)

section Record

variable {marks : Nat} {block : List Bytes} {l n n' t : Bytes} {v : Json} {table : Table Json}

theorem SaidLast.named (h : SaidLast marks block n v) : Named marks block n := by
  obtain ⟨before, l, after, t, rfl, hl, _, _⟩ := h
  exact ⟨l, by simp, t, hl⟩

theorem saidLast_snoc (h : Bears marks l n t) :
    SaidLast marks (block ++ [l]) n v ↔ v = value n t := by
  constructor
  · rintro ⟨before, l', after, t', heq, hl', rfl, hafter⟩
    rcases List.eq_nil_or_concat after with rfl | ⟨after, x, rfl⟩
    · obtain ⟨_, heq⟩ := List.append_inj' heq rfl
      obtain rfl : l = l' := by simpa using heq
      rw [(h.unique hl').2]
    · -- The last line would come after the last one of this name.
      have hsplit : block ++ [l] = (before ++ l' :: after) ++ [x] := by simpa using heq
      obtain ⟨_, hx⟩ := List.append_inj' hsplit rfl
      obtain rfl : l = x := by simpa using hx
      exact absurd ⟨l, by simp, t, h⟩ hafter
  · rintro rfl
    exact ⟨block, l, [], t, rfl, h, rfl, by simp [Named]⟩

theorem saidLast_snoc_of_not (h : ∀ t, ¬Bears marks l n t) :
    SaidLast marks (block ++ [l]) n v ↔ SaidLast marks block n v := by
  constructor
  · rintro ⟨before, l', after, t', heq, hl', hv, hafter⟩
    rcases List.eq_nil_or_concat after with rfl | ⟨after, x, rfl⟩
    · obtain ⟨_, heq⟩ := List.append_inj' heq rfl
      obtain rfl : l = l' := by simpa using heq
      exact absurd hl' (h t')
    · have hsplit : block ++ [l] = (before ++ l' :: after) ++ [x] := by simpa using heq
      obtain ⟨rfl, _⟩ := List.append_inj' hsplit rfl
      refine ⟨before, l', after, t', rfl, hl', hv, fun hn => hafter ?_⟩
      obtain ⟨y, hy, hny⟩ := hn
      exact ⟨y, by simp [hy], hny⟩
  · rintro ⟨before, l', after, t', rfl, hl', hv, hafter⟩
    refine ⟨before, l', after ++ [l], t', by simp, hl', hv, ?_⟩
    rintro ⟨y, hy, t, hny⟩
    rcases List.mem_append.mp hy with hy | hy
    · exact hafter ⟨y, hy, t, hny⟩
    · obtain rfl : y = l := by simpa using hy
      exact h t hny

theorem Named.exists_saidLast (h : Named marks block n) : ∃ v, SaidLast marks block n v := by
  induction block using List.reverseRecOn with
  | nil =>
    obtain ⟨_, hl, _⟩ := h
    cases hl
  | append_singleton block l ih =>
    by_cases hl : ∃ t, Bears marks l n t
    · obtain ⟨t, ht⟩ := hl
      exact ⟨value n t, (saidLast_snoc ht).mpr rfl⟩
    · rw [not_exists] at hl
      obtain ⟨y, hy, t, hny⟩ := h
      have hblock : Named marks block n := by
        rcases List.mem_append.mp hy with hy | hy
        · exact ⟨y, hy, t, hny⟩
        · obtain rfl : y = l := by simpa using hy
          exact absurd hny (hl t)
      obtain ⟨v, hv⟩ := ih hblock
      exact ⟨v, (saidLast_snoc_of_not hl).mpr hv⟩

theorem Precedes.snoc (h : Precedes marks block n n') (l : Bytes) :
    Precedes marks (block ++ [l]) n n' := by
  obtain ⟨before, after, rfl, hn, hn'⟩ := h
  exact ⟨before, after ++ [l], by simp, hn, hn'⟩

theorem Recorded.mem_keys (h : Recorded marks block table) :
    n ∈ Table.keys table ↔ Named marks block n := by
  constructor
  · intro hk
    obtain ⟨v, hv⟩ := Option.ne_none_iff_exists'.mp fun hnone => Table.get?_eq_none_iff.mp hnone hk
    exact ((h.last n v).mp hv).named
  · intro hn
    obtain ⟨v, hv⟩ := hn.exists_saidLast
    by_contra hk
    rw [← Table.get?_eq_none_iff, (h.last n v).mpr hv] at hk
    cases hk

theorem recorded_nil (marks : Nat) : Recorded marks [] [] := by
  refine ⟨fun n v => ?_, .nil⟩
  constructor
  · intro h
    cases h
  · rintro ⟨before, l, after, t, heq, _⟩
    simp at heq

theorem Recorded.skip (h : Recorded marks block table) (hl : ∀ n t, ¬Bears marks l n t) :
    Recorded marks (block ++ [l]) table := by
  refine ⟨fun n v => ?_, h.ordered.imp fun hn => hn.snoc l⟩
  rw [h.last, saidLast_snoc_of_not (hl n)]

theorem Recorded.put (h : Recorded marks block table) (hl : Bears marks l n t) :
    Recorded marks (block ++ [l]) (Table.put n (value n t) table) := by
  refine ⟨fun m v => ?_, ?_⟩
  · rw [Table.get?_put]
    split
    · next hm =>
      subst hm
      rw [saidLast_snoc hl, Option.some_inj, eq_comm]
    · next hm =>
      rw [h.last, saidLast_snoc_of_not fun t' ht' => hm (hl.unique ht').1]
  · have hold := h.ordered.imp fun {a b} (hab : Precedes marks block a b) => hab.snoc l
    rw [Table.keys_put]
    split
    · exact hold
    · next hn =>
      -- The new name comes after all lines before its own.
      refine List.pairwise_append.mpr ⟨hold, List.pairwise_singleton _ _, fun m hm n' hn' => ?_⟩
      obtain rfl : n' = n := by simpa using hn'
      exact ⟨block, [l], rfl, h.mem_keys.mp hm, fun hblock => hn (h.mem_keys.mpr hblock)⟩

end Record

/-- What a content holds, cut into the lines of its directive block and those after it. -/
structure BlockOf (block rest : List Bytes) (p : Parsed) : Prop where
  belongs : ∀ l ∈ block, Belongs l
  ends : ∀ l ∈ rest.head?, ¬Belongs l
  content : p.content = rest.flatten
  standard : Recorded 2 block p.standard
  fallback : Recorded 3 block p.fallback

theorem BlockOf.add {block : List Bytes} {p : Parsed} (h : BlockOf block [] p) {l : Bytes}
    {d : Line} (hl : line? l = some d) : BlockOf (block ++ [l]) [] (p.add d) := by
  have hbelongs : ∀ l' ∈ block ++ [l], Belongs l' := by
    intro l' hl'
    rcases List.mem_append.mp hl' with hl' | hl'
    · exact h.belongs l' hl'
    · obtain rfl : l' = l := by simpa using hl'
      exact line?_isSome.mp (by simp [hl])
  cases d with
  | blank =>
    refine ⟨hbelongs, h.ends, h.content, h.standard.skip ?_, h.fallback.skip ?_⟩
    · intro n t ht
      rw [← line?_eq_standard, hl] at ht
      cases ht
    · intro n t ht
      rw [← line?_eq_fallback, hl] at ht
      cases ht
  | standard n t =>
    have hl := line?_eq_standard.mp hl
    refine ⟨hbelongs, h.ends, h.content, h.standard.put hl, h.fallback.skip ?_⟩
    exact fun n' t' ht' => not_bears_both l n t n' t' ⟨hl, ht'⟩
  | fallback n t =>
    have hl := line?_eq_fallback.mp hl
    refine ⟨hbelongs, h.ends, h.content, h.standard.skip ?_, h.fallback.put hl⟩
    exact fun n' t' ht' => not_bears_both l n' t' n t ⟨ht', hl⟩

/-- Each line that is read either joins the block or ends it. -/
theorem blockOf_parseLines {block : List Bytes} {p : Parsed} (h : BlockOf block [] p)
    (ls : List Bytes) : ∃ more rest, ls = more ++ rest ∧
      BlockOf (block ++ more) rest (parseLines p ls) := by
  induction ls generalizing block p with
  | nil => exact ⟨[], [], rfl, by simpa [parseLines] using h⟩
  | cons l ls ih =>
    rw [parseLines]
    cases hl : line? l with
    | some d =>
      obtain ⟨more, rest, rfl, hmore⟩ := ih (h.add hl)
      exact ⟨l :: more, rest, rfl, by simpa using hmore⟩
    | none =>
      refine ⟨[], l :: ls, rfl, ?_⟩
      have hends : ¬Belongs l := by simp [← line?_isSome, hl]
      rw [List.append_nil]
      exact ⟨h.belongs, by simpa using hends, rfl, h.standard, h.fallback⟩

/-- A content is cut before its first line that is neither blank nor a directive. The directives
before the cut are recorded, those of one kind apart from those of the other, and those behind it
are not looked at: what stands there is kept byte for byte, and begins with no block of its own. -/
theorem parse_cuts (s : Bytes) :
    (∃ block rest, Bytes.FullLines (block ++ rest) ∧ (block ++ rest).flatten = s ∧
      BlockOf block rest (parse s)) ∧
    (∀ l n t n' t', ¬(Bears 2 l n t ∧ Bears 3 l n' t')) ∧
    parse (parse s).content = { content := (parse s).content } := by
  refine ⟨?_, not_bears_both, parse_content s⟩
  have hbegin : BlockOf [] [] {} := by
    refine ⟨?_, ?_, rfl, recorded_nil 2, recorded_nil 3⟩
    · simp
    · simp
  obtain ⟨block, rest, hlines, hblock⟩ := blockOf_parseLines hbegin (Bytes.fullLines s)
  refine ⟨block, rest, ?_, ?_, hblock⟩
  · rw [← hlines]
    exact Bytes.fullLines_cut s
  · rw [← hlines, Bytes.flatten_fullLines]

example : parse (lit "@@depth 2\n \n@@@depth 3\n@@Depth 4\r\nBody\n@@depth 5") =
    { standard := [(lit "depth", .int 4)], fallback := [(lit "depth", .int 3)],
      content := lit "Body\n@@depth 5" } := by
  decide +kernel

end Directive
end Lorebook
