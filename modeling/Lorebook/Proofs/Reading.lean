import Lorebook.Book
import Lorebook.Proofs.Directives
import Lorebook.Scan.Setup
import Mathlib.Data.List.Forall2
import Mathlib.Data.List.Nodup

set_option autoImplicit false

/-!
What holds of every entry and of every book that is read, whatever it is read from: numbers are in
their ranges, keys are tidy, and no directives are left in the content.
-/

namespace Lorebook

namespace Bounded

def Within (n : Int) : Prop := min ≤ n ∧ n ≤ max

theorem within_clamp (n : Int) : Within (clamp n) := ⟨min_le_clamp n, clamp_le_max n⟩

theorem within_wrap (n : Int) : Within (wrap n) := by
  have hlow : -(18446744073709551616 / 2 : Int) ≤ wrap n := Int.le_bmod (by decide)
  have hhigh : wrap n < (18446744073709551616 + 1) / 2 := Int.bmod_lt (by decide)
  constructor
  · unfold min
    omega
  · unfold max
    omega

theorem Within.clamp {n : Int} (h : Within n) : clamp n = n := clamp_of_mem h.1 h.2

end Bounded

open Bounded (Within)

section Numbers

theorem Bytes.leadingDigits_le {n : Nat} (h : (n : Int) ≤ Bounded.max) (s : Bytes) :
    (leadingDigits n s : Int) ≤ Bounded.max := by
  induction s generalizing n with
  | nil => exact h
  | cons b r ih =>
    rw [leadingDigits]
    split
    · next hb =>
      apply ih
      have hdigit : digitValue b ≤ 9 := by
        have hb' := hb.1
        simp only [isDigit, Bool.and_eq_true, decide_eq_true_eq, UInt8.le_iff_toNat_le] at hb'
        have h57 : (57 : UInt8).toNat = 57 := rfl
        rw [digitValue]
        omega
      have hlimit := hb.2
      unfold leadingIntLimit at hlimit
      unfold Bounded.max
      omega
    · exact h

theorem Bytes.within_leadingInt (s : Bytes) : Within (leadingInt s) := by
  have hle (r : Bytes) : (leadingDigits 0 r : Int) ≤ Bounded.max :=
    leadingDigits_le (by decide) r
  have hplus (r : Bytes) : Within (leadingDigits 0 r) :=
    ⟨Int.le_trans (by decide) (Int.natCast_nonneg _), hle r⟩
  unfold leadingInt
  split
  · next r _ =>
    have hr := hle r
    constructor
    · unfold Bounded.min
      unfold Bounded.max at hr
      omega
    · unfold Bounded.max
      omega
  · exact hplus _
  · exact hplus _

theorem Binary64.within_of_toInt? {d : Binary64} {n : Int} (h : d.toInt? = some n) : Within n := by
  unfold toInt? at h
  split at h
  · cases h
  split at h
  · rw [← Option.some.inj h]
    exact Bounded.within_clamp _
  · rw [← Option.some.inj h]
    split
    · exact ⟨Int.le_refl _, by decide⟩
    · exact ⟨by decide, Int.le_refl _⟩

theorem Json.within_of_toInt? {v : Json} {n : Int} (h : v.toInt? = some n) : Within n := by
  cases v with
  | null => cases h
  | bool b =>
    cases h
    cases b <;> exact ⟨by decide, by decide⟩
  | int m =>
    cases h
    exact Bounded.within_clamp m
  | float d => exact Binary64.within_of_toInt? h
  | str s =>
    simp only [toInt?] at h
    split at h
    · split at h
      · rw [← Option.some.inj h]
        exact Bytes.within_leadingInt _
      · cases h
    · cases h
  | arr vs => cases h
  | obj fs => cases h

theorem Json.within_of_directiveInt? {v : Json} {n : Int} (h : v.directiveInt? = some n) :
    Within n := by
  cases v with
  | int m =>
    cases h
    exact Bounded.within_wrap m
  | _ => cases h

end Numbers

namespace Fields

variable {v : Json} {names : List Bytes} {ext : Bytes} {n : Int}

theorem within_of_int? (h : int? v names ext = some n) : Within n := by
  obtain ⟨x, _, hx⟩ := Option.bind_eq_some_iff.mp h
  exact Json.within_of_toInt? hx

theorem within_int (v : Json) (names : List Bytes) (ext : Bytes) {fallback : Int}
    (h : Within fallback) : Within (int v names ext fallback) := by
  unfold int
  cases hn : int? v names ext with
  | none => exact h
  | some n => exact within_of_int? hn

theorem positive?_eq_some {o : Option Int} (h : positive? o = some n) : o = some n ∧ 0 < n := by
  simpa using Option.filter_eq_some_iff.mp h

theorem positiveInt?_eq_some (h : positiveInt? v names ext = some n) : 0 < n ∧ n ≤ Bounded.max := by
  obtain ⟨hn, hpos⟩ := positive?_eq_some h
  exact ⟨hpos, (within_of_int? hn).2⟩

theorem trim_nonBlank? (v : Json) (names : List Bytes) (ext : Bytes) :
    Bytes.trim ((nonBlank? v names ext).getD []) = (nonBlank? v names ext).getD [] := by
  unfold nonBlank?
  cases (at? v names ext).bind scalarText? with
  | none => rfl
  | some s =>
    rw [Option.map_some, Option.filter_some]
    split
    · exact Bytes.trim_trim s
    · rfl

end Fields

theorem GenerationType.nodup_ofJson (v : Json) : (ofJson v).Nodup := by
  unfold ofJson
  refine List.foldlRecOn (namesIn v) _ List.nodup_nil ?_
  intro out hout name _
  split
  · next g _ =>
    split
    · exact hout
    · next hg => exact hout.append (List.nodup_singleton g) (by simpa using hg)
  · exact hout

namespace Entry

theorem recursionLevel_bounds {v : Json} {n : Int} (h : recursionLevelOfJson? v = some n) :
    0 ≤ n ∧ n ≤ Bounded.max := by
  have hword {v : Json} (h : (if Bytes.toLower (Bytes.trim v.toText) = lit "false" ∨
        Bytes.toLower (Bytes.trim v.toText) = lit "0" then some 0
      else if Bytes.toLower (Bytes.trim v.toText) = lit "true" then some 1
      else Fields.positive? v.toInt?) = some n) : 0 ≤ n ∧ n ≤ Bounded.max := by
    split at h
    · cases h
      decide
    split at h
    · cases h
      decide
    · obtain ⟨hn, hpos⟩ := Fields.positive?_eq_some h
      exact ⟨Int.le_of_lt hpos, (Json.within_of_toInt? hn).2⟩
  cases v with
  | null => cases h
  | bool b =>
    cases h
    cases b <;> decide
  | int m => exact hword h
  | float d => exact hword h
  | str s => exact hword h
  | arr vs => exact hword h
  | obj fs => exact hword h

theorem inRange_bounds {low high : Int} (h : low ≤ high) (n : Int) :
    low ≤ inRange low high n ∧ inRange low high n ≤ high := by
  unfold inRange
  split
  · omega
  split <;> omega

theorem atLeast_bounds {low high n : Int} (hlow : low ≤ high) (hn : n ≤ high) :
    low ≤ atLeast low n ∧ atLeast low n ≤ high := by
  unfold atLeast
  split <;> omega

structure Orderly (e : Entry) : Prop where
  keys : KeyList.Tidy e.keys
  secondaryKeys : KeyList.Tidy e.secondaryKeys
  excludeKeys : KeyList.Tidy e.excludeKeys
  depth : Within e.depth
  insertionOrder : Within e.insertionOrder
  scanDepth : ∀ n, e.scanDepth = some n → Within n
  triggers : e.triggers.Nodup
  probability : 0 ≤ e.probability ∧ e.probability ≤ 100
  group : Bytes.trim e.group = e.group
  groupWeight : 1 ≤ e.groupWeight ∧ e.groupWeight ≤ Bounded.max
  sticky : ∀ n, e.sticky = some n → 0 < n ∧ n ≤ Bounded.max
  cooldown : ∀ n, e.cooldown = some n → 0 < n ∧ n ≤ Bounded.max
  delay : ∀ n, e.delay = some n → 0 < n ∧ n ≤ Bounded.max
  delayUntilRecursion : ∀ n, e.delayUntilRecursion = some n → 0 ≤ n ∧ n ≤ Bounded.max

theorem orderly_undirected (v : Json) (uid source bookName : Bytes) (logic : SelectiveLogic) :
    (undirected v uid source bookName logic).Orderly := by
  have hkeys (names : List Bytes) :
      KeyList.Tidy (((Fields.find? v names).map KeyList.ofJson).getD []) := by
    cases Fields.find? v names with
    | none => exact .nil
    | some x => exact .ofJson x
  refine ⟨hkeys _, hkeys _, hkeys _, ?_, ?_, fun n hn => ?_, ?_, ?_, ?_, ?_, fun n hn => ?_,
    fun n hn => ?_, fun n hn => ?_, fun n hn => ?_⟩
  · exact Fields.within_int _ _ _ ⟨by decide, by decide⟩
  · exact Fields.within_int _ _ _ ⟨by decide, by decide⟩
  · obtain ⟨hpos, hmax⟩ := Fields.positiveInt?_eq_some hn
    exact ⟨Int.le_trans (by decide) (Int.le_of_lt hpos), hmax⟩
  · unfold undirected
    dsimp only
    cases Fields.at? v [lit "triggers"] (lit "triggers") with
    | none => exact List.nodup_nil
    | some x => exact GenerationType.nodup_ofJson x
  · exact inRange_bounds (by decide) _
  · exact Fields.trim_nonBlank? _ _ _
  · exact atLeast_bounds (by decide) (Fields.within_int _ _ _ ⟨by decide, by decide⟩).2
  · exact Fields.positiveInt?_eq_some hn
  · exact Fields.positiveInt?_eq_some hn
  · exact Fields.positiveInt?_eq_some hn
  · obtain ⟨x, _, hx⟩ := Option.bind_eq_some_iff.mp hn
    exact recursionLevel_bounds hx

theorem tidy_addKeys {keys new : List Bytes} (hkeys : KeyList.Tidy keys)
    (hnew : KeyList.Tidy new) : KeyList.Tidy (addKeys keys new) := by
  refine List.foldlRecOn new _ hkeys ?_
  intro ks hks k hk
  split
  · exact hks
  · intro x hx
    rcases List.mem_append.mp hx with hx | hx
    · exact hks x hx
    · rw [List.mem_singleton.mp hx]
      exact hnew k hk

theorem Orderly.directed {e : Entry} (h : e.Orderly) (name : Bytes) {v : Json} (hv : v.KeysTidy) :
    (e.directed name v).Orderly := by
  have hkeys {old : List Bytes} (hold : KeyList.Tidy old) :
      KeyList.Tidy (v.textItems?.getD old) := by
    cases hks : v.textItems? with
    | none => exact hold
    | some ks => exact hv ks hks
  have hdepth : Within (v.directiveInt?.getD e.depth) := by
    cases hn : v.directiveInt? with
    | none => exact h.depth
    | some n => exact Json.within_of_directiveInt? hn
  have hscan : ∀ n, v.directiveInt?.or e.scanDepth = some n → Within n := by
    intro n hn
    rcases Option.or_eq_some_iff.mp hn with hn | ⟨_, hn⟩
    · exact Json.within_of_directiveInt? hn
    · exact h.scanDepth n hn
  unfold Entry.directed
  refine iteInduction (fun _ => { h with depth := hdepth }) fun _ => ?_
  refine iteInduction (fun _ => { h with scanDepth := hscan }) fun _ => ?_
  -- Most directives set what has no range.
  refine iteInduction (fun _ => { h with }) fun _ => ?_
  refine iteInduction (fun _ => { h with }) fun _ => ?_
  refine iteInduction (fun _ => ?_) fun _ => ?_
  · cases v with
    | str s => exact { h with }
    | _ => exact h
  refine iteInduction (fun _ => ?_) fun _ => ?_
  · cases v with
    | str s => exact { h with }
    | _ => exact h
  iterate 6 refine iteInduction (fun _ => { h with }) fun _ => ?_
  refine iteInduction (fun _ => { h with keys := tidy_addKeys h.keys (hkeys .nil) }) fun _ => ?_
  exact iteInduction (fun _ => { h with excludeKeys := hkeys h.excludeKeys }) fun _ => h

theorem Orderly.withDirectives {e : Entry} (h : e.Orderly) {ds : Table Json}
    (hds : ∀ d ∈ ds, d.2.KeysTidy) : (e.withDirectives ds).Orderly :=
  List.foldlRecOn ds _ h fun _ he d hd => he.directed d.1 (hds d hd)

structure WellRead (e : Entry) : Prop extends Orderly e where
  content : Directive.parse e.content = { content := e.content }

theorem Orderly.afterDirectives {e : Entry} (h : e.Orderly) : e.afterDirectives.WellRead where
  toOrderly := { h.withDirectives (Directive.typed_parse e.content).standard with }
  content := Directive.parse_content e.content

theorem ofJson_eq_ok {v : Json} {uid? : Option Bytes} {fresh source bookName : Bytes} {e : Entry}
    (h : ofJson v uid? fresh source bookName = .ok e) : ∃ logic, e =
      (undirected v ((uid?.or (ownUid? v)).getD fresh) source bookName logic).afterDirectives := by
  unfold ofJson at h
  cases hl : logicOfJson v with
  | error f =>
    rw [hl] at h
    cases h
  | ok logic =>
    rw [hl] at h
    exact ⟨logic, (Except.ok.inj h).symm⟩

theorem wellRead_of_ofJson {v : Json} {uid? : Option Bytes} {fresh source bookName : Bytes}
    {e : Entry} (h : ofJson v uid? fresh source bookName = .ok e) : e.WellRead := by
  obtain ⟨logic, rfl⟩ := ofJson_eq_ok h
  exact (orderly_undirected v _ source bookName logic).afterDirectives

theorem sameIdentity_afterDirectives (e : Entry) : SameIdentity e e.afterDirectives :=
  have hbeyond := beyond_withDirectives e (Directive.parse e.content).standard
  ⟨hbeyond.uid, hbeyond.bookName, hbeyond.source⟩

theorem origin_of_ofJson {v : Json} {uid? : Option Bytes} {fresh source bookName : Bytes}
    {e : Entry} (h : ofJson v uid? fresh source bookName = .ok e) :
    e.source = source ∧ e.bookName = bookName := by
  obtain ⟨logic, rfl⟩ := ofJson_eq_ok h
  have hsame := sameIdentity_afterDirectives
    (undirected v ((uid?.or (ownUid? v)).getD fresh) source bookName logic)
  exact ⟨hsame.source, hsame.bookName⟩

end Entry

namespace Book

theorem readEntries_eq_ok_iff {source name : Bytes} {items : List (Bytes × Json)}
    {es : List Entry} : readEntries source name items = .ok es ↔
      List.Forall₂ (fun r e => Entry.ofJson r.2 (some r.1) [] source name = .ok e) items es := by
  induction items generalizing es with
  | nil => cases es <;> simp [readEntries]
  | cons r items ih =>
    rw [readEntries]
    cases hr : Entry.ofJson r.2 (some r.1) [] source name with
    | error f => cases es <;> simp [hr]
    | ok e =>
      cases hrest : readEntries source name items with
      | error f => cases es <;> simp [hr, ← ih, hrest, Except.map]
      | ok rest => cases es <;> simp [hr, ← ih, hrest, Except.map]

theorem mem_readEntries {source name : Bytes} {items : List (Bytes × Json)} {es : List Entry}
    (h : readEntries source name items = .ok es) {e : Entry} (he : e ∈ es) :
    ∃ r ∈ items, Entry.ofJson r.2 (some r.1) [] source name = .ok e := by
  have hread := readEntries_eq_ok_iff.mp h
  clear h
  induction hread with
  | nil => cases he
  | cons hr _ ih =>
    rcases List.mem_cons.mp he with rfl | he
    · exact ⟨_, List.mem_cons_self, hr⟩
    · obtain ⟨r', hr', hread⟩ := ih he
      exact ⟨r', List.mem_cons_of_mem _ hr', hread⟩

structure WellRead (b : Book) : Prop where
  scanDepth : ∀ n, b.scanDepth = some n → Within n
  tokenBudget : ∀ n, b.tokenBudget = some n → Within n
  extensions : b.extensions.isObject = true
  entries : ∀ e ∈ b.entries, e.WellRead ∧ e.source = b.source ∧ e.bookName = b.name

theorem wellRead_empty (source : Bytes) : WellRead { source } :=
  ⟨nofun, nofun, rfl, fun _ he => absurd he List.not_mem_nil⟩

theorem wellRead_settings (v : Json) (source : Bytes) : (settings v source).WellRead where
  scanDepth _ := Fields.within_of_int?
  tokenBudget _ := Fields.within_of_int?
  extensions := by
    unfold settings
    dsimp only
    split <;> rfl
  entries _ he := absurd he List.not_mem_nil

theorem ofObject_eq_ok {v : Json} {source : Bytes} {b : Book} (h : ofObject v source = .ok b) :
    ∃ es, b = { settings v source with entries := es } ∧ ∀ e ∈ es, ∃ w uid,
      Entry.ofJson w (some uid) [] source (settings v source).name = .ok e := by
  unfold ofObject at h
  dsimp only at h
  split at h
  · cases h
    exact ⟨[], rfl, fun _ he => absurd he List.not_mem_nil⟩
  split at h
  · cases h
  next items _ =>
  cases hes : readEntries source (settings v source).name items with
  | error f =>
    rw [hes] at h
    cases h
  | ok es =>
    rw [hes] at h
    cases h
    refine ⟨es, rfl, fun e he => ?_⟩
    obtain ⟨r, _, hread⟩ := mem_readEntries hes he
    exact ⟨r.2, r.1, hread⟩

theorem wellRead_of_ofObject {v : Json} {source : Bytes} {b : Book}
    (h : ofObject v source = .ok b) : b.WellRead := by
  obtain ⟨es, rfl, hes⟩ := ofObject_eq_ok h
  refine { wellRead_settings v source with entries := fun e he => ?_ }
  obtain ⟨w, uid, hread⟩ := hes e he
  exact ⟨Entry.wellRead_of_ofJson hread, Entry.origin_of_ofJson hread⟩

theorem ofJson_of_plain {v : Json} {source : Bytes} (hobj : v.isObject = true)
    (hcard : cardData? v = none) : ofJson v source = ofObject v source := by
  rw [ofJson, if_pos hobj]
  split
  · rfl
  next data hdata =>
    rw [hcard] at hdata
    cases hdata

/-- A book that is read is empty, or is read from an object that is no card. -/
theorem ofJson_cases {v : Json} {source : Bytes} {b : Book} (h : ofJson v source = .ok b) :
    b = { source } ∨ ∃ w, ofObject w source = .ok b := by
  fun_induction ofJson v source with
  | case1 v _ _ => exact .inr ⟨v, h⟩
  | case2 v _ data _ _ => exact .inl (Except.ok.inj h).symm
  | case3 v _ data _ b' _ _ => exact .inl (Except.ok.inj h).symm
  | case4 v _ data _ b' _ _ ih => exact ih h
  | case5 v _ => cases h

theorem wellRead_of_ofJson {v : Json} {source : Bytes} {b : Book} (h : ofJson v source = .ok b) :
    b.WellRead := by
  rcases ofJson_cases h with rfl | ⟨w, hw⟩
  · exact wellRead_empty source
  · exact wellRead_of_ofObject hw

theorem exists_reading {v : Json} {source : Bytes} {b : Book} (h : ofJson v source = .ok b)
    {e : Entry} (he : e ∈ b.entries) :
    ∃ w uid, Entry.ofJson w (some uid) [] b.source b.name = .ok e := by
  rcases ofJson_cases h with rfl | ⟨w, hw⟩
  · cases he
  · obtain ⟨es, rfl, hes⟩ := ofObject_eq_ok hw
    exact hes e he

theorem exists_reading_of_triggered {books : List Book} {g : GenerationType} {e : Entry}
    (h : ∀ b ∈ books, ∃ v source, ofJson v source = .ok b)
    (he : e ∈ Scan.triggeredEntries books g) :
    ∃ w uid source bookName, Entry.ofJson w (some uid) [] source bookName = .ok e := by
  obtain ⟨b, hb, heb⟩ := List.mem_flatMap.mp (List.mem_filter.mp he).1
  obtain ⟨v, source, hread⟩ := h b hb
  obtain ⟨w, uid, hentry⟩ := exists_reading hread heb
  exact ⟨w, uid, _, _, hentry⟩

end Book
end Lorebook
