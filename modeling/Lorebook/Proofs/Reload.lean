import Lorebook.Book
import Lorebook.Proofs.Digits
import Lorebook.Proofs.Reading

set_option autoImplicit false

/-!
Written entries and books are read back. What is not written, and what only directives set, is lost;
everything else comes back as it was.
-/

namespace Lorebook

section Words

theorem Position.ofJson_name (p : Position) : ofJson (.str p.name) = p := by
  cases p <;> decide

theorem Role.ofJson_name (fallback r : Role) : ofJson fallback (.str r.name) = r := by
  cases r <;> rfl

theorem SelectiveLogic.ofJson_name (l : SelectiveLogic) : ofJson (.str l.name) = .ok l := by
  cases l <;> rfl

theorem GenerationType.ofName?_name (g : GenerationType) : ofName? g.name = some g := by
  cases g <;> decide

theorem foldl_append_of_nodup {α : Type} {f : List α → α → List α}
    (hf : ∀ out a, a ∉ out → f out a = out ++ [a]) {out as : List α} (h : (out ++ as).Nodup) :
    as.foldl f out = out ++ as := by
  induction as generalizing out with
  | nil => simp
  | cons a as ih =>
    have ha : a ∉ out := fun ha => (List.nodup_append.mp h).2.2 a ha a List.mem_cons_self rfl
    rw [List.foldl_cons, hf out a ha, ih (by simpa using h)]
    simp

theorem GenerationType.ofJson_names {gs : List GenerationType} (h : gs.Nodup) :
    ofJson (.texts (gs.map name)) = gs := by
  have hnames : namesIn (.texts (gs.map name)) = gs.map name := by
    rw [Json.texts, namesIn, List.filterMap_map]
    exact List.filterMap_some
  rw [ofJson, hnames, List.foldl_map]
  refine foldl_append_of_nodup (fun out g hg => ?_) h
  rw [ofName?_name]
  exact if_neg hg

theorem Bytes.toLower_trim_ofNat (n : Nat) : toLower (trim (ofNat n)) = ofNat n := by
  have htrim : trim (ofNat n) = ofNat n :=
    trim_of_unpadded fun b hb => isPad_of_isDigit (isDigit_of_mem_ofNat hb)
  have hupper {b : UInt8} (h : isDigit b = true) : isUpper b = false := by
    simp [isDigit, isUpper, UInt8.le_iff_toNat_le] at h ⊢
    omega
  rw [htrim]
  refine (List.map_congr_left fun b hb => ?_).trans (List.map_id _)
  rw [toLowerByte, hupper (isDigit_of_mem_ofNat hb)]
  rfl

theorem Entry.recursionLevel_toJson {n : Int} (h : 0 ≤ n ∧ n ≤ Bounded.max) :
    recursionLevelOfJson? (recursionLevelToJson (some n)) = some n := by
  obtain ⟨hlow, hhigh⟩ := h
  by_cases hzero : n = 0
  · subst hzero
    rfl
  have hwithin : Bounded.Within n := ⟨Int.le_trans (by decide) hlow, hhigh⟩
  have hword : Bytes.toLower (Bytes.trim (Json.int n).toText) = Bytes.ofNat n.natAbs := by
    rw [Json.toText, Bounded.wrap_of_mem hwithin.1 hwithin.2, Bytes.ofInt, if_neg (by omega),
      Bytes.toLower_trim_ofNat]
  have hdigits {w : Bytes} {b : UInt8} (hb : b ∈ w) (hno : Bytes.isDigit b = false) :
      Bytes.ofNat n.natAbs ≠ w := by
    rintro rfl
    rw [Bytes.isDigit_of_mem_ofNat hb] at hno
    cases hno
  have hfirst : Bytes.ofNat n.natAbs ≠ lit "0" := by
    intro heq
    apply Bytes.head?_ofNat (show n.natAbs ≠ 0 by omega)
    rw [heq]
    rfl
  rw [recursionLevelToJson, if_neg hzero, recursionLevelOfJson?, hword, if_neg, if_neg]
  · rw [Json.toInt?, hwithin.clamp, Fields.positive?, Option.filter_some, if_pos (by simp; omega)]
  · exact hdigits (b := 116) (by decide) (by decide)
  · rw [not_or]
    exact ⟨hdigits (b := 102) (by decide) (by decide), hfirst⟩
  · intro hnull
    cases hnull
  · intro b hbool
    cases hbool

end Words

theorem Json.get?_object (k : Bytes) (rows : List (Bytes × Json)) :
    (object rows).get? k = (obj rows.reverse).get? k := Table.get?_ofRows_eq k rows

namespace Fields

variable {v : Json} {names : List Bytes} {ext : Bytes}

theorem int?_of_at? {o : Option Int} (h : at? v names ext = o.map .int)
    (ho : ∀ n, o = some n → Bounded.Within n) : int? v names ext = o := by
  rw [int?, h]
  cases o with
  | none => rfl
  | some n => rw [Option.map_some, Option.bind_some, Json.toInt?, (ho n rfl).clamp]

theorem positiveInt?_of_at? {o : Option Int} (h : at? v names ext = o.map .int)
    (ho : ∀ n, o = some n → Bounded.Within n) : positiveInt? v names ext = positive? o := by
  rw [positiveInt?, int?_of_at? h ho]

theorem int_of_at? {n : Int} (h : at? v names ext = some (.int n)) (hn : Bounded.Within n)
    (fallback : Int) : int v names ext fallback = n := by
  have hsome : ∀ m, some n = some m → Bounded.Within m := fun m hm => Option.some.inj hm ▸ hn
  rw [int, int?_of_at? (o := some n) h hsome, Option.getD_some]

theorem positiveInt?_of_span {o : Option Int} (h : at? v names ext = o.map .int)
    (ho : ∀ n, o = some n → 0 < n ∧ n ≤ Bounded.max) : positiveInt? v names ext = o := by
  rw [positiveInt?_of_at? h fun n hn =>
    ⟨Int.le_trans (by decide) (Int.le_of_lt (ho n hn).1), (ho n hn).2⟩]
  cases o with
  | none => rfl
  | some n => simp [positive?, (ho n rfl).1]

theorem bool?_of_at? {o : Option Bool} (h : at? v names ext = o.map .bool) :
    bool? v names ext = o := by
  rw [bool?, h]
  cases o <;> rfl

theorem nonBlank?_of_at? {s : Bytes}
    (h : at? v names ext = if s.isEmpty then none else some (.str s))
    (hs : Bytes.trim s = s) : (nonBlank? v names ext).getD [] = s := by
  rw [nonBlank?, h]
  cases s with
  | nil => rfl
  | cons b r =>
    rw [List.isEmpty_cons, if_neg Bool.false_ne_true, Option.bind_some, scalarText?, Json.toText,
      Option.map_some, hs]
    · rfl
    · exact fun _ => nofun
    · exact fun _ => nofun

theorem find?_object (rows : List (Bytes × Json)) (names : List Bytes) :
    find? (Json.object rows) names = find? (.obj rows.reverse) names := by
  induction names with
  | nil => rfl
  | cons n names ih => rw [find?, find?, ih, Json.get?_object]

theorem at?_object (rows : List (Bytes × Json)) (names : List Bytes) (ext : Bytes) :
    at? (Json.object rows) names ext = at? (.obj rows.reverse) names ext := by
  rw [at?, at?, extension?, extension?, find?_object, Json.get?_object]

end Fields

namespace Entry

theorem undirected_object (rows : List (Bytes × Json)) (uid source bookName : Bytes)
    (logic : SelectiveLogic) : undirected (Json.object rows) uid source bookName logic =
      { undirected (.obj rows.reverse) uid source bookName logic with
        raw := Json.object rows } := by
  simp only [undirected, contextFlags, Fields.text, Fields.bool, Fields.bool?, Fields.int,
    Fields.int?, Fields.positiveInt?, Fields.nonBlank?, Fields.at?_object, Fields.find?_object]
  rfl

def reloaded (e : Entry) : Entry :=
  { e with
    raw := e.toJson
    fallbackDirectives := []
    dontActivate := false
    ignoreOnMaxContext := false
    activateOnlyAfter := none
    activateOnlyEvery := none
    scanDepth := Fields.positive? e.scanDepth }

attribute [ext] Entry

theorem inRange_of_mem {low high n : Int} (h : low ≤ n ∧ n ≤ high) : inRange low high n = n := by
  unfold inRange
  split
  · omega
  · split <;> omega

theorem atLeast_of_le {low n : Int} (h : low ≤ n) : atLeast low n = n := by
  unfold atLeast
  split <;> omega

theorem undirected_toJson {e : Entry} (h : e.WellRead) :
    undirected e.toJson e.uid e.source e.bookName e.selectiveLogic = e.reloaded := by
  have hprobability : Bounded.Within e.probability :=
    ⟨Int.le_trans (by decide) h.probability.1, Int.le_trans h.probability.2 (by decide)⟩
  have hweight : Bounded.Within e.groupWeight :=
    ⟨Int.le_trans (by decide) h.groupWeight.1, h.groupWeight.2⟩
  rw [toJson, undirected_object]
  unfold undirected reloaded
  apply Entry.ext
  all_goals dsimp only
  case keys => exact KeyList.ofJson_texts h.keys
  case secondaryKeys => exact KeyList.ofJson_texts h.secondaryKeys
  case excludeKeys => exact KeyList.ofJson_texts h.excludeKeys
  case caseSensitive =>
    exact Fields.bool?_of_at? (o := e.caseSensitive) (by cases e.caseSensitive <;> rfl)
  case matchWholeWords =>
    exact Fields.bool?_of_at? (o := e.matchWholeWords) (by cases e.matchWholeWords <;> rfl)
  case position => exact Position.ofJson_name e.position
  case depth => exact Fields.int_of_at? (by rfl) h.depth 0
  case role => exact Role.ofJson_name .system e.role
  case insertionOrder => exact Fields.int_of_at? (by rfl) h.insertionOrder 0
  case scanDepth =>
    have hat : ∀ n, e.scanDepth = some n → Bounded.Within n := h.scanDepth
    exact Fields.positiveInt?_of_at? (by cases e.scanDepth <;> rfl) hat
  case triggers => exact GenerationType.ofJson_names h.triggers
  case probability =>
    refine (congrArg (inRange 0 100) ?_).trans (inRange_of_mem h.probability)
    exact Fields.int_of_at? (by rfl) hprobability 100
  case group => exact Fields.nonBlank?_of_at? (s := e.group) (by cases e.group <;> rfl) h.group
  case groupWeight =>
    refine (congrArg (atLeast 1) ?_).trans (atLeast_of_le h.groupWeight.1)
    exact Fields.int_of_at? (by rfl) hweight 100
  case useGroupScoring => cases e.useGroupScoring <;> rfl
  case sticky =>
    exact Fields.positiveInt?_of_span (o := e.sticky) (by cases e.sticky <;> rfl) h.sticky
  case cooldown =>
    exact Fields.positiveInt?_of_span (o := e.cooldown) (by cases e.cooldown <;> rfl) h.cooldown
  case delay =>
    exact Fields.positiveInt?_of_span (o := e.delay) (by cases e.delay <;> rfl) h.delay
  case delayUntilRecursion =>
    have hlevel := h.delayUntilRecursion
    revert hlevel
    cases e.delayUntilRecursion with
    | none => exact fun _ => rfl
    | some n =>
      intro hlevel
      have hread := recursionLevel_toJson (hlevel n rfl)
      generalize recursionLevelToJson (some n) = x at hread ⊢
      cases x with
      | null => cases hread
      | _ => exact hread
  all_goals rfl

theorem find?_toJson (e : Entry) :
    Fields.find? e.toJson [lit "selective_logic", lit "selectiveLogic", lit "selective_logic_mode"]
        = some (.str e.selectiveLogic.name) ∧
      ownUid? e.toJson = some e.uid ∧ Book.declaredUid? e.toJson = some e.uid := by
  rw [ownUid?, Book.declaredUid?, toJson, Fields.find?_object, Fields.find?_object,
    Json.get?_object, Json.get?_object]
  exact ⟨rfl, rfl, rfl⟩

theorem afterDirectives_of_plain {e : Entry}
    (h : Directive.parse e.content = { content := e.content }) :
    e.afterDirectives = { e with fallbackDirectives := [] } := by
  rw [afterDirectives, h]
  rfl

theorem ofJson_toJson {e : Entry} (h : e.WellRead) {uid? : Option Bytes}
    (hu : uid?.or (some e.uid) = some e.uid) (fresh : Bytes) :
    ofJson e.toJson uid? fresh e.source e.bookName = .ok e.reloaded := by
  obtain ⟨hlogic, hown, _⟩ := e.find?_toJson
  have hplain : Directive.parse e.reloaded.content = { content := e.reloaded.content } := h.content
  rw [ofJson, logicOfJson, hlogic, hown, hu]
  dsimp only
  rw [SelectiveLogic.ofJson_name, Except.map, Option.getD_some, undirected_toJson h,
    afterDirectives_of_plain hplain]
  rfl

end Entry

namespace Book

theorem numbered_map_toJson (i : Nat) (es : List Entry) :
    numbered i (es.map Entry.toJson) = es.map fun e => (e.uid, e.toJson) := by
  induction es generalizing i with
  | nil => rfl
  | cons e es ih =>
    rw [List.map_cons, numbered, ih, e.find?_toJson.2.2]
    rfl

theorem readEntries_map_toJson {source name : Bytes} {es : List Entry}
    (h : ∀ e ∈ es, e.WellRead ∧ e.source = source ∧ e.bookName = name) :
    readEntries source name (es.map fun e => (e.uid, e.toJson)) =
      .ok (es.map Entry.reloaded) := by
  induction es with
  | nil => rfl
  | cons e es ih =>
    obtain ⟨⟨hread, rfl, rfl⟩, hes⟩ := List.forall_mem_cons.mp h
    rw [List.map_cons, readEntries, Entry.ofJson_toJson hread rfl, ih hes]
    rfl

theorem isObject_toJson (b : Book) : b.toJson.isObject = true := rfl

theorem cardData?_toJson (b : Book) : cardData? b.toJson = none := by
  rw [cardData?, toJson, Json.get?_object]
  rfl

theorem find?_entries_toJson (b : Book) :
    Fields.find? b.toJson [lit "entries"] = some (.arr (b.entries.map Entry.toJson)) := by
  rw [toJson, Fields.find?_object]
  rfl

theorem settings_object (rows : List (Bytes × Json)) (source : Bytes) :
    settings (Json.object rows) source = settings (.obj rows.reverse) source := by
  simp only [settings, Fields.has, Fields.bool, Fields.bool?, Fields.int?, Fields.at?_object,
    Fields.find?_object, Json.get?_object]
  rfl

attribute [ext] Book

theorem settings_toJson {b : Book} (h : b.WellRead) :
    settings b.toJson b.source = { b with entries := [] } := by
  rw [toJson, settings_object]
  unfold settings
  apply Book.ext
  all_goals dsimp only
  case scanDepth => exact Fields.int?_of_at? (by cases b.scanDepth <;> rfl) h.scanDepth
  case tokenBudget => exact Fields.int?_of_at? (by cases b.tokenBudget <;> rfl) h.tokenBudget
  case extensions =>
    have hobj := h.extensions
    revert hobj
    cases b.extensions with
    | obj fs => exact fun _ => rfl
    | _ => exact nofun
  all_goals rfl

theorem ofJson_toJson {b : Book} (h : b.WellRead) :
    ofJson b.toJson b.source = .ok { b with entries := b.entries.map Entry.reloaded } := by
  rw [ofJson_of_plain b.isObject_toJson b.cardData?_toJson, ofObject, find?_entries_toJson,
    settings_toJson h]
  dsimp only
  rw [indexed, numbered_map_toJson]
  dsimp only
  rw [readEntries_map_toJson h.entries]
  rfl

end Book

/-- Every entry and every book that has been read can be written and read again. The uid of an entry
comes back without being given, that of an entry of a book as the one it is given. -/
theorem read_reloads :
    (∀ v uid? fresh source bookName e, Entry.ofJson v uid? fresh source bookName = .ok e →
      ∀ fresh', Entry.ofJson e.toJson none fresh' e.source e.bookName = .ok e.reloaded) ∧
    ∀ v source b, Book.ofJson v source = .ok b →
      Book.ofJson b.toJson b.source = .ok { b with entries := b.entries.map Entry.reloaded } := by
  constructor
  · intro v uid? fresh source bookName e h fresh'
    exact Entry.ofJson_toJson (Entry.wellRead_of_ofJson h) rfl fresh'
  · intro v source b h
    exact Book.ofJson_toJson (Book.wellRead_of_ofJson h)

theorem read_reloads_wyrm :
    let v : Json := .obj [(lit "uid", .int 7), (lit "key", .str (lit " dragon, wyrm")),
      (lit "content", .str (lit "@@depth 2\n@@@position outlet\nDragons.")),
      (lit "delay_until_recursion", .str (lit "true")), (lit "group", .str (lit " beasts "))]
    let book : Json := .obj [(lit "name", .str (lit "Beasts")), (lit "entries", .arr [v])]
    ∃ e b, Entry.ofJson v none [] [] (lit "Beasts") = .ok e ∧ e.depth = 2 ∧
      e.fallbackDirectives ≠ [] ∧
      Entry.ofJson e.toJson none [] e.source e.bookName = .ok e.reloaded ∧
      Book.ofJson book [] = .ok b ∧ b.entries = [e] ∧
      Book.ofJson b.toJson b.source = .ok { b with entries := [e.reloaded] } := by
  intro v book
  have hcheck : (Entry.ofJson v none [] [] (lit "Beasts")).toOption.any (fun e =>
      e.depth == 2 && e.fallbackDirectives != [] &&
        (Book.ofObject book []).toOption.any (·.entries == [e])) = true := by
    decide +kernel
  rw [← Book.ofJson_of_plain (v := book) rfl (by decide +kernel)] at hcheck
  cases he : Entry.ofJson v none [] [] (lit "Beasts") with
  | error f =>
    rw [he] at hcheck
    cases hcheck
  | ok e =>
    cases hb : Book.ofJson book [] with
    | error f => simp [he, hb, Except.toOption] at hcheck
    | ok b =>
      simp only [he, hb, Except.toOption, Option.any_some, Bool.and_eq_true, beq_iff_eq,
        bne_iff_ne] at hcheck
      obtain ⟨⟨hdepth, hfallback⟩, hentries⟩ := hcheck
      obtain ⟨hreload, hbook⟩ := read_reloads
      have hwritten := hbook book [] b hb
      rw [hentries] at hwritten
      exact ⟨e, b, rfl, hdepth, hfallback, hreload v none [] [] _ e he [], rfl, hentries,
        hwritten⟩

end Lorebook
