import Lorebook.KeyMatch
import Lorebook.Proofs.PatternNames

set_option autoImplicit false

/-!
Dots under the flag `s`. `dotAll` finds the brackets of a pattern by hand: a closing bracket ends
them, and escapes are skipped in pairs. The grammar reads names such as `[:digit:]` between
brackets, whose own closing bracket ends the outer ones for `dotAll` only. So the dots that it
widens are those that the grammar reads as any byte, but for a bare dot that stands behind a name
within brackets.
-/

namespace Lorebook.Pattern

structure Span where
  token : Token
  text : Bytes
  deriving DecidableEq

/-- The tokens of a pattern from a place on, each with its bytes. -/
inductive Reading : Place → Bytes → List Span → Prop
  | nil : Reading .open [] []
  | cons {place next : Place} {b : UInt8} {r text rest : Bytes} {t : Token} {xs : List Span} :
    token? place b r = some (t, next, rest) → b :: r = text ++ rest → Reading next rest xs →
      Reading place (b :: r) (⟨t, text⟩ :: xs)

/-- The bytes `. [ ] \`, by which `dotAll` finds its way. -/
def guides : Bytes := [46, 91, 93, 92]

section Shapes

def Token.isQuiet : Token → Bool
  | .any => false
  | .openSet _ => false
  | .closeSet => false
  | t => t.name?.isNone

/-- What the bytes of a token look like, by the places before and after it. -/
inductive Shape : Place → Span → Place → Prop
  | any : Shape .open ⟨.any, [46]⟩ .open
  | openSet {negated : Bool} {text : Bytes} :
    text = [91] ∨ text = [91, 94] → Shape .open ⟨.openSet negated, text⟩ .set
  | closeSet : Shape .set ⟨.closeSet, [93]⟩ .open
  | stray : Shape .open ⟨.byte 93, [93]⟩ .open
  | dot : Shape .set ⟨.byte 46, [46]⟩ .set
  | bracket : Shape .set ⟨.byte 91, [91]⟩ .set
  | name {t : Token} {mark : UInt8} {name : Bytes} : t.name? = some name →
    mark = 46 ∨ mark = 58 ∨ mark = 61 → Shape .set ⟨t, 91 :: mark :: (name ++ [mark, 93])⟩ .set
  | control {place : Place} {t : Token} {c : UInt8} : t.isQuiet = true →
    Shape place ⟨t, [92, 99, c]⟩ place
  | escape {place : Place} {t : Token} {c : UInt8} {tail : Bytes} : t.isQuiet = true →
    (∀ x ∈ tail, x ∉ guides) → Shape place ⟨t, 92 :: c :: tail⟩ place
  | plain {place next : Place} {t : Token} {text : Bytes} : t.isQuiet = true → text ≠ [] →
    (∀ x ∈ text, x ∉ guides) → (place = .set ↔ next = .set) → Shape place ⟨t, text⟩ next

variable {place next : Place} {b : UInt8} {r rest : Bytes} {t : Token}

theorem not_guide_of_isDigit : ∀ b, Bytes.isDigit b = true → b ∉ guides := by decide +kernel

theorem not_guide_of_hexDigit? : ∀ b, (Json.hexDigit? b).isSome = true → b ∉ guides := by
  decide +kernel

theorem isQuiet_of_letterEscape? {b : UInt8} {t : Token} (h : letterEscape? b = some t) :
    t.isQuiet = true := by
  have hall : ∀ b, ((letterEscape? b).all Token.isQuiet) = true := by decide +kernel
  simpa [h] using hall b

theorem isSome_of_mapM {digits : Bytes} {ds : List Nat} (h : digits.mapM Json.hexDigit? = some ds) :
    ∀ b ∈ digits, (Json.hexDigit? b).isSome = true := by
  induction digits generalizing ds with
  | nil => simp
  | cons b digits ih =>
    simp only [List.mapM_cons, Option.bind_eq_bind, Option.bind_eq_some_iff] at h
    obtain ⟨d, hd, ds', hds, _⟩ := h
    simpa [hd] using ih hds

theorem shape_hexEscape? {n : Nat} {c : UInt8} (h : hexEscape? place n r = some (t, next, rest)) :
    ∃ text, 92 :: c :: r = text ++ rest ∧ Shape place ⟨t, text⟩ next := by
  unfold hexEscape? at h
  split at h
  · cases hbyte : hexByte? (r.take n) with
    | none => simp [hbyte] at h
    | some x =>
      simp only [hbyte, Option.map_some, Option.some.injEq, Prod.mk.injEq] at h
      obtain ⟨rfl, rfl, rfl⟩ := h
      refine ⟨92 :: c :: r.take n, by simp, .escape rfl ?_⟩
      simp only [hexByte?, Option.map_eq_some_iff] at hbyte
      obtain ⟨ds, hds, _⟩ := hbyte
      exact fun y hy => not_guide_of_hexDigit? y (isSome_of_mapM hds y hy)
  · cases h

theorem shape_escape? (h : escape? place r = some (t, next, rest)) :
    ∃ text, 92 :: r = text ++ rest ∧ Shape place ⟨t, text⟩ next := by
  cases r with
  | nil => simp [escape?] at h
  | cons c r =>
    have hpair {t : Token} (ht : t.isQuiet = true) :
        ∃ text, 92 :: c :: r = text ++ r ∧ Shape place ⟨t, text⟩ place :=
      ⟨[92, c], rfl, .escape ht (by simp)⟩
    simp only [escape?] at h
    split at h
    · next t' hletter =>
      cases h
      exact hpair (isQuiet_of_letterEscape? hletter)
    split at h
    · cases h
      apply hpair
      split <;> rfl
    split at h
    · next hc =>
      subst hc
      cases r with
      | nil => simp at h
      | cons x r =>
        simp only [Option.some.injEq, Prod.mk.injEq] at h
        obtain ⟨rfl, rfl, rfl⟩ := h
        exact ⟨[92, 99, x], rfl, .control rfl⟩
    split at h
    · exact shape_hexEscape? h
    split at h
    · exact shape_hexEscape? h
    split at h
    · next hdigit =>
      simp only [Option.some.injEq, Prod.mk.injEq] at h
      obtain ⟨rfl, rfl, rfl⟩ := h
      refine ⟨92 :: c :: r.takeWhile Bytes.isDigit, by simp [hdigit], .escape rfl ?_⟩
      intro x hx
      exact not_guide_of_isDigit x (List.all_eq_true.mp List.all_takeWhile x hx)
    · cases h
      exact hpair rfl

theorem shape_byte {b : UInt8} (ht : t.isQuiet = true) (hb : b ∉ guides)
    (hnext : place = .set ↔ next = .set) (r : Bytes) :
    ∃ text, b :: r = text ++ r ∧ Shape place ⟨t, text⟩ next :=
  ⟨[b], rfl, .plain ht (by simp) (by simpa using hb) hnext⟩

theorem shape_parenthesis? (h : parenthesis? r = some (t, next, rest)) :
    ∃ text, 40 :: r = text ++ rest ∧ Shape .open ⟨t, text⟩ next := by
  unfold parenthesis? at h
  split at h
  · cases h
    exact ⟨[40, 63, 58], rfl, .plain rfl (by simp) (by simp [guides]) (by simp)⟩
  · cases h
    exact ⟨[40, 63, 61], rfl, .plain rfl (by simp) (by simp [guides]) (by simp)⟩
  · cases h
    exact ⟨[40, 63, 33], rfl, .plain rfl (by simp) (by simp [guides]) (by simp)⟩
  · cases h
  · cases h
    exact shape_byte rfl (by simp [guides]) (by simp) _

theorem openToken?_alone (h : openToken? b r = some (t, next, rest)) (hslash : b ≠ 92)
    (hparenthesis : b ≠ 40) (hopen : b ≠ 91) (hdot : b ≠ 46) :
    t.isQuiet = true ∧ next ≠ .set ∧ rest = r ∧ (b = 93 → t = .byte 93 ∧ next = .open) := by
  simp only [openToken?, if_neg hslash, if_neg hparenthesis, if_neg hopen, if_neg hdot] at h
  repeat' split at h
  all_goals
    cases h
    simp_all [Token.isQuiet, Token.name?]

theorem shape_openToken? (h : openToken? b r = some (t, next, rest)) :
    ∃ text, b :: r = text ++ rest ∧ Shape .open ⟨t, text⟩ next := by
  by_cases hslash : b = 92
  · unfold openToken? at h
    rw [if_pos hslash] at h
    exact hslash ▸ shape_escape? h
  by_cases hparenthesis : b = 40
  · unfold openToken? at h
    rw [if_neg hslash, if_pos hparenthesis] at h
    exact hparenthesis ▸ shape_parenthesis? h
  by_cases hopen : b = 91
  · subst hopen
    unfold openToken? at h
    rw [if_neg (by decide), if_neg (by decide), if_neg (by decide), if_pos rfl] at h
    split at h
    · cases h
      exact ⟨[91, 94], rfl, .openSet (.inr rfl)⟩
    · cases h
      exact ⟨[91], rfl, .openSet (.inl rfl)⟩
  by_cases hdot : b = 46
  · subst hdot
    have hany : openToken? 46 r = some (.any, .open, r) := rfl
    rw [hany] at h
    cases h
    exact ⟨[46], rfl, .any⟩
  obtain ⟨ht, hnext, rfl, hclose⟩ := openToken?_alone h hslash hparenthesis hopen hdot
  by_cases hb : b = 93
  · obtain ⟨rfl, rfl⟩ := hclose hb
    subst hb
    exact ⟨[93], rfl, .stray⟩
  · exact shape_byte ht (by simp [guides, hslash, hopen, hdot, hb]) (by simp [hnext]) _

theorem shape_bracketName? {mark : UInt8} {f : Bytes → Token}
    (hf : ∀ n, (f n).name? = some n) (hmark : mark = 46 ∨ mark = 58 ∨ mark = 61)
    (h : (bracketName? mark r).map (fun (n, r) => (f n, Place.set, r)) = some (t, next, rest)) :
    ∃ text, 91 :: mark :: r = text ++ rest ∧ Shape .set ⟨t, text⟩ next := by
  unfold bracketName? at h
  split at h
  · next c rest' hdrop =>
    simp only [Option.map_some, Option.some.injEq, Prod.mk.injEq] at h
    obtain ⟨rfl, rfl, rfl⟩ := h
    have hc : c = mark := by
      have hhead := List.head?_dropWhile_not (· != mark) r
      rw [hdrop] at hhead
      simpa using hhead
    subst hc
    have hsplit : r.takeWhile (· != c) ++ c :: 93 :: rest' = r := by
      rw [← hdrop, List.takeWhile_append_dropWhile]
    refine ⟨_, ?_, .name (hf _) hmark⟩
    refine (congrArg (fun s => 91 :: c :: s) hsplit).symm.trans ?_
    simp
  · simp at h

theorem shape_setToken? (h : setToken? b r = some (t, next, rest)) :
    ∃ text, b :: r = text ++ rest ∧ Shape .set ⟨t, text⟩ next := by
  unfold setToken? at h
  split at h
  · next hb =>
    cases h
    exact shape_byte rfl (by simp [hb, guides]) (by simp) _
  split at h
  · next hb =>
    cases h
    exact hb ▸ ⟨[93], rfl, .closeSet⟩
  split at h
  · next hb => exact hb ▸ shape_escape? h
  split at h
  · next hb =>
    subst hb
    split at h
    · cases h
    split at h
    · next hc => exact shape_bracketName? (fun _ => rfl) (.inl hc) h
    split at h
    · next hc => exact shape_bracketName? (fun _ => rfl) (.inr (.inl hc)) h
    split at h
    · next hc => exact shape_bracketName? (fun _ => rfl) (.inr (.inr hc)) h
    · cases h
      exact ⟨[91], rfl, .bracket⟩
  next _ hclose hslash hopen =>
  cases h
  by_cases hdot : b = 46
  · subst hdot
    exact ⟨[46], rfl, .dot⟩
  · exact shape_byte rfl (by simp [guides, hslash, hopen, hdot, hclose]) (by simp) _

theorem shape_countToken? (h : countToken? b r = some (t, next, rest)) :
    ∃ text, b :: r = text ++ rest ∧ Shape .count ⟨t, text⟩ next := by
  unfold countToken? at h
  split at h
  · next hdigit =>
    simp only [Option.some.injEq, Prod.mk.injEq] at h
    obtain ⟨rfl, rfl, rfl⟩ := h
    refine ⟨(b :: r).takeWhile Bytes.isDigit, by simp, .plain rfl (by simp [hdigit]) ?_ (by simp)⟩
    intro x hx
    exact not_guide_of_isDigit x (List.all_eq_true.mp List.all_takeWhile x hx)
  split at h
  · next hb =>
    cases h
    exact shape_byte rfl (by simp [hb, guides]) (by simp) _
  split at h
  · next hb =>
    cases h
    exact shape_byte rfl (by simp [hb, guides]) (by simp) _
  · cases h

theorem shape_token? (h : token? place b r = some (t, next, rest)) :
    ∃ text, b :: r = text ++ rest ∧ Shape place ⟨t, text⟩ next := by
  cases place with
  | «open» => exact shape_openToken? h
  | set => exact shape_setToken? h
  | count => exact shape_countToken? h

theorem shape_of_token? {text : Bytes} (h : token? place b r = some (t, next, rest))
    (htext : b :: r = text ++ rest) : Shape place ⟨t, text⟩ next := by
  obtain ⟨text', htext', hshape⟩ := shape_token? h
  rw [htext, List.append_cancel_right_eq] at htext'
  exact htext' ▸ hshape

theorem Shape.text_ne_nil {x : Span} (h : Shape place x next) : x.text ≠ [] := by
  cases h with
  | openSet htext => rcases htext with rfl | rfl <;> simp
  | plain _ hne => exact hne
  | _ => simp

end Shapes

section Readings

variable {place : Place} {s : Bytes} {xs : List Span}

theorem exists_reading {fuel : Nat} {ts : List Token} (h : tokensFrom fuel place s = some ts) :
    ∃ xs, Reading place s xs ∧ xs.map Span.token = ts := by
  induction fuel generalizing place s ts with
  | zero =>
    cases s with
    | nil => cases place <;> simp_all [tokensFrom, Reading.nil]
    | cons b r => simp [tokensFrom] at h
  | succ fuel ih =>
    cases s with
    | nil => cases place <;> simp_all [tokensFrom, Reading.nil]
    | cons b r =>
      rw [tokensFrom] at h
      split at h
      · cases h
      · next t next rest htoken =>
        obtain ⟨ts', hrest, rfl⟩ := Option.map_eq_some_iff.mp h
        obtain ⟨xs, hxs, rfl⟩ := ih hrest
        obtain ⟨text, htext, _⟩ := shape_token? htoken
        exact ⟨⟨t, text⟩ :: xs, .cons htoken htext hxs, rfl⟩

theorem Reading.tokensFrom_eq (h : Reading place s xs) {fuel : Nat} (hfuel : s.length ≤ fuel) :
    tokensFrom fuel place s = some (xs.map Span.token) := by
  induction h generalizing fuel with
  | nil => cases fuel <;> rfl
  | @cons place next b r text rest t xs htoken htext _ ih =>
    obtain ⟨fuel, rfl⟩ : ∃ n, fuel = n + 1 := Nat.exists_eq_add_one.mpr (Nat.zero_lt_of_lt hfuel)
    have hlength := congrArg List.length htext
    have hpos := List.length_pos_iff.mpr (shape_of_token? htoken htext).text_ne_nil
    simp only [List.length_append, List.length_cons] at hlength hfuel hpos
    rw [tokensFrom, htoken]
    dsimp only
    rw [ih (by omega), Option.map_some, List.map_cons]

/-- Nothing of the pattern is lost between its tokens. -/
theorem Reading.flatten (h : Reading place s xs) : xs.flatMap Span.text = s := by
  induction h with
  | nil => rfl
  | cons _ htext _ ih => rw [List.flatMap_cons, ih, htext]

end Readings

/-- The bytes of a token, where a dot that is any byte matches line ends too. -/
def Span.widened (x : Span) : Bytes := if x.token = .any then lit "[\\s\\S]" else x.text

def Span.isStrayControl (x : Span) : Bool := guides.any fun c => x.text == [92, 99, c]

/-- A bare dot comes before the brackets close, and before another bracket. -/
def dotAhead : List Span → Bool
  | [] => false
  | x :: xs =>
    if x.token = .closeSet ∨ x.text = [91] then false else x.text == [46] || dotAhead xs

/-- A bare dot stands behind a name within the same brackets, and no bracket between them. -/
def dotBehindName : List Span → Bool
  | [] => false
  | x :: xs => (x.token.name?.isSome && dotAhead xs) || dotBehindName xs

section Tracking

open Literal

variable {inSet : Bool} {b c : UInt8} {s text : Bytes}

theorem dotAllFrom_cons (hb : b ∉ guides) :
    dotAllFrom inSet (b :: s) = b :: dotAllFrom inSet s := by
  simp only [guides, List.mem_cons, List.not_mem_nil, or_false, not_or] at hb
  have hclose : (b != 93) = true := by simpa using hb.2.2.1
  cases s <;> cases inSet <;> simp [dotAllFrom, hb, hclose]

theorem dotAllFrom_append (h : ∀ x ∈ text, x ∉ guides) :
    dotAllFrom inSet (text ++ s) = text ++ dotAllFrom inSet s := by
  induction text with
  | nil => rfl
  | cons b text ih =>
    obtain ⟨hb, htext⟩ := List.forall_mem_cons.mp h
    rw [List.cons_append, dotAllFrom_cons hb, ih htext, List.cons_append]

theorem dotAllFrom_escape :
    dotAllFrom inSet (92 :: c :: s) = 92 :: c :: dotAllFrom inSet s := by
  simp [dotAllFrom]

theorem dotAllFrom_bracket : dotAllFrom inSet (91 :: s) = 91 :: dotAllFrom true s := by
  cases s <;> cases inSet <;> simp [dotAllFrom]

theorem dotAllFrom_close : dotAllFrom inSet (93 :: s) = 93 :: dotAllFrom false s := by
  cases s <;> cases inSet <;> simp [dotAllFrom]

theorem dotAllFrom_dot : dotAllFrom true (46 :: s) = 46 :: dotAllFrom true s := by
  cases s <;> simp [dotAllFrom]

theorem dotAllFrom_any : dotAllFrom false (46 :: s) = lit "[\\s\\S]" ++ dotAllFrom false s := by
  cases s <;> simp [dotAllFrom]

theorem dotAllFrom_within (h : 92 ∉ text ∧ 93 ∉ text) :
    dotAllFrom true (text ++ s) = text ++ dotAllFrom true s := by
  induction text with
  | nil => rfl
  | cons b text ih =>
    simp only [List.mem_cons, not_or] at h
    rw [List.cons_append, List.cons_append]
    by_cases hdot : b = 46
    · rw [hdot, dotAllFrom_dot, ih ⟨h.1.2, h.2.2⟩]
    by_cases hopen : b = 91
    · rw [hopen, dotAllFrom_bracket, ih ⟨h.1.2, h.2.2⟩]
    have hb : b ∉ guides := by
      simp [guides, hdot, hopen, Ne.symm h.1.1, Ne.symm h.2.1]
    rw [dotAllFrom_cons hb, ih ⟨h.1.2, h.2.2⟩]

/-- A name ends brackets for `dotAll`. -/
theorem dotAllFrom_name {mark : UInt8} (hmark : mark = 46 ∨ mark = 58 ∨ mark = 61)
    (h : 92 ∉ text ∧ 93 ∉ text) :
    dotAllFrom inSet (91 :: mark :: (text ++ [mark, 93]) ++ s)
      = 91 :: mark :: (text ++ [mark, 93]) ++ dotAllFrom false s := by
  have hname : 92 ∉ mark :: (text ++ [mark]) ∧ 93 ∉ mark :: (text ++ [mark]) := by
    rcases hmark with rfl | rfl | rfl <;> simp [h]
  have hcut (t : Bytes) :
      91 :: mark :: (text ++ [mark, 93]) ++ t = 91 :: (mark :: (text ++ [mark]) ++ 93 :: t) := by
    simp
  rw [hcut, hcut, dotAllFrom_bracket, dotAllFrom_within hname, dotAllFrom_close]

end Tracking

section Main

variable {place : Place} {s : Bytes} {xs : List Span} {inSet : Bool}

theorem eq_iff_of_quiet {t : Token} {text : Bytes} (ht : t.isQuiet = true) (hdot : text ≠ [46])
    (hopen : text ≠ [91])
    (hcopied : Literal.dotAllFrom inSet (text ++ s) = text ++ Literal.dotAllFrom inSet s)
    (hrest : Literal.dotAllFrom inSet s = xs.flatMap Span.widened ↔
      dotBehindName xs = false ∧ (place = .set → inSet = false → dotAhead xs = false)) :
    Literal.dotAllFrom inSet (text ++ s) = (⟨t, text⟩ :: xs).flatMap Span.widened ↔
      dotBehindName (⟨t, text⟩ :: xs) = false ∧
        (place = .set → inSet = false → dotAhead (⟨t, text⟩ :: xs) = false) := by
  have hwidened : Span.widened ⟨t, text⟩ = text := by
    cases t <;> simp_all [Span.widened, Token.isQuiet]
  have hbehind : dotBehindName (⟨t, text⟩ :: xs) = dotBehindName xs := by
    cases t <;> simp_all [dotBehindName, Token.name?, Token.isQuiet]
  have hahead : dotAhead (⟨t, text⟩ :: xs) = dotAhead xs := by
    cases t <;> simp_all [dotAhead, Token.isQuiet]
  rw [List.flatMap_cons, hwidened, hbehind, hahead, hcopied, List.append_cancel_left_eq, hrest]

theorem dotAllFrom_eq_iff (h : Reading place s xs) (hknown : AllKnown (xs.map Span.token))
    (hcontrol : ∀ x ∈ xs, x.isStrayControl = false) (hplace : place ≠ .set → inSet = false) :
    Literal.dotAllFrom inSet s = xs.flatMap Span.widened ↔
      dotBehindName xs = false ∧ (place = .set → inSet = false → dotAhead xs = false) := by
  induction h generalizing inSet with
  | nil => simp [Literal.dotAllFrom, dotBehindName, dotAhead]
  | @cons place next b r text rest t xs htoken htext _ ih =>
    obtain ⟨ht, hts⟩ := allKnown_cons.mp hknown
    obtain ⟨hx, hxs⟩ := List.forall_mem_cons.mp hcontrol
    replace ih {inSet : Bool} (h : next ≠ .set → inSet = false) := @ih inSet hts hxs h
    have hshape := shape_of_token? htoken htext
    rw [htext]
    cases hshape with
    | any =>
      obtain rfl := hplace (by simp)
      have hrest := @ih false (by simp)
      simp [dotAllFrom_any, hrest, Span.widened, dotBehindName, Token.name?]
    | openSet htext =>
      obtain rfl := hplace (by simp)
      have hrest := @ih true (by simp)
      have hmark : (94 : UInt8) ∉ guides := by simp [guides]
      rcases htext with rfl | rfl <;>
        simp [dotAllFrom_bracket, dotAllFrom_cons hmark, hrest, Span.widened, dotBehindName,
          Token.name?]
    | closeSet =>
      have hrest := @ih false (by simp)
      simp [dotAllFrom_close, hrest, Span.widened, dotBehindName, dotAhead, Token.name?]
    | stray =>
      have hrest := @ih false (by simp)
      simp [dotAllFrom_close, hrest, Span.widened, dotBehindName, Token.name?]
    | dot =>
      cases inSet with
      | true =>
        have hrest := @ih true (by simp)
        simp [dotAllFrom_dot, hrest, Span.widened, dotBehindName, Token.name?]
      | false =>
        -- The dot is widened, which the grammar reads between brackets.
        simp [dotAllFrom_any, Span.widened, dotAhead, lit]
    | bracket =>
      have hrest := @ih true (by simp)
      simp [dotAllFrom_bracket, hrest, Span.widened, dotBehindName, dotAhead, Token.name?]
    | @name _ mark name hname hmark =>
      have hrest := @ih false (by simp)
      have hwidened : t ≠ .any := by
        rintro rfl
        cases hname
      have hends : t ≠ .closeSet := by
        rintro rfl
        cases hname
      have hbehind : dotBehindName (⟨t, 91 :: mark :: (name ++ [mark, 93])⟩ :: xs)
          = (dotAhead xs || dotBehindName xs) := by simp [dotBehindName, hname]
      have hahead : dotAhead (⟨t, 91 :: mark :: (name ++ [mark, 93])⟩ :: xs) = dotAhead xs := by
        simp [dotAhead, hends]
      rw [dotAllFrom_name hmark (ht _ hname), List.flatMap_cons, Span.widened, if_neg hwidened,
        List.append_cancel_left_eq, hrest, hbehind, hahead, Bool.or_eq_false_iff]
      constructor
      · rintro ⟨hbehind, hahead⟩
        exact ⟨⟨hahead rfl rfl, hbehind⟩, fun _ _ => hahead rfl rfl⟩
      · rintro ⟨⟨hahead, hbehind⟩, _⟩
        exact ⟨hbehind, fun _ _ => hahead⟩
    | @control _ _ c hquiet =>
      have hc : c ∉ guides := by
        intro hc
        simp only [Span.isStrayControl, List.any_eq_false] at hx
        exact hx c hc (beq_self_eq_true _)
      refine eq_iff_of_quiet hquiet ?_ ?_ ?_ (ih hplace)
      · simp
      · simp
      · simp [dotAllFrom_escape, dotAllFrom_cons hc]
    | escape hquiet htail =>
      refine eq_iff_of_quiet hquiet ?_ ?_ ?_ (ih hplace)
      · simp
      · simp
      · simp [dotAllFrom_escape, dotAllFrom_append htail]
    | plain hquiet _ hnone hnext =>
      rw [ne_eq, hnext] at hplace
      rw [hnext]
      refine eq_iff_of_quiet hquiet ?_ ?_ (dotAllFrom_append hnone) (ih hplace)
      · rintro rfl
        simp [guides] at hnone
      · rintro rfl
        simp [guides] at hnone

/-- The dots that the flag `s` widens are those that the grammar reads as any byte, if and only if
no bare dot stands behind a name within brackets, with no bracket between them. -/
theorem dotAll_widens {o : PatternOptions} {body : Bytes} {p : Pattern}
    (h : compile? o body = some p) :
    (∃ xs, Reading .open body xs) ∧ ∀ xs, Reading .open body xs →
      tokens? body = some (xs.map Span.token) ∧ xs.flatMap Span.text = body ∧
      ((∀ x ∈ xs, x.isStrayControl = false) →
        (Literal.dotAll body = xs.flatMap Span.widened ↔ dotBehindName xs = false)) := by
  obtain ⟨ts, hts, hknown⟩ := allKnown_of_compile? h
  constructor
  · obtain ⟨xs, hxs, _⟩ := exists_reading hts
    exact ⟨xs, hxs⟩
  · intro xs hxs
    have htokens := hxs.tokensFrom_eq (Nat.le_refl _)
    refine ⟨htokens, hxs.flatten, ?_⟩
    intro hcontrol
    obtain rfl : ts = xs.map Span.token := Option.some.inj (hts.symm.trans htokens)
    rw [Literal.dotAll, dotAllFrom_eq_iff hxs hknown hcontrol fun _ => rfl]
    simp

theorem dotAll_widens_digits :
    let body := lit "[[:digit:]].[.]"
    ∃ xs, Reading .open body xs ∧ dotBehindName xs = false ∧
      Literal.dotAll body = xs.flatMap Span.widened := by
  intro body
  have hcompile : (compile? {} body).isSome = true := by decide +kernel
  obtain ⟨p, hp⟩ := Option.isSome_iff_exists.mp hcompile
  obtain ⟨⟨xs, hxs⟩, hall⟩ := dotAll_widens hp
  let spans : List Span := [⟨.openSet false, lit "["⟩, ⟨.namedClass (lit "digit"), lit "[:digit:]"⟩,
    ⟨.closeSet, lit "]"⟩, ⟨.any, lit "."⟩, ⟨.openSet false, lit "["⟩, ⟨.byte 46, lit "."⟩,
    ⟨.closeSet, lit "]"⟩]
  have hspans : Reading .open body spans :=
    .cons rfl rfl (.cons rfl rfl (.cons rfl rfl (.cons rfl rfl (.cons rfl rfl (.cons rfl rfl
      (.cons rfl rfl .nil))))))
  obtain ⟨_, _, hiff⟩ := hall spans hspans
  have hbehind : dotBehindName spans = false := by decide +kernel
  exact ⟨spans, hspans, hbehind, (hiff (by decide +kernel)).mpr hbehind⟩

/-- The dot behind the class is widened, though it stands between brackets, so the key no longer
matches a dot. -/
theorem not_dotAll_widens_digits :
    let body := lit "[[:digit:].]"
    (∃ xs, Reading .open body xs ∧ Literal.dotAll body ≠ xs.flatMap Span.widened) ∧
      KeyMatch.keyMatches {} (lit "/[[:digit:].]/") (lit ".") = true ∧
      KeyMatch.keyMatches {} (lit "/[[:digit:].]/s") (lit ".") = false := by
  refine ⟨⟨[⟨.openSet false, lit "["⟩, ⟨.namedClass (lit "digit"), lit "[:digit:]"⟩,
    ⟨.byte 46, lit "."⟩, ⟨.closeSet, lit "]"⟩], ?_, ?_⟩, ?_, ?_⟩
  · exact .cons rfl rfl (.cons rfl rfl (.cons rfl rfl (.cons rfl rfl .nil)))
  · decide +kernel
  · decide +kernel
  · decide +kernel

end Main
end Lorebook.Pattern
