import Lorebook.Proofs.JsonText
import Lorebook.Proofs.Records

set_option autoImplicit false

/-!
The version under which timed effects are stored. A stored object is taken up if it names no version
or one that can be read, and dropped otherwise. A version is read with its numbers narrowed to 32
bits, so it is taken for the one they are congruent to.
-/

namespace Lorebook

namespace Json

theorem number?_eq_none {b : UInt8} (hdigit : Bytes.isDigit b = false) (hminus : b ≠ 45)
    (r : Bytes) : number? (b :: r) = none := by
  unfold number?
  split
  next heq =>
  split at heq
  · next h => exact absurd (List.cons.inj h).1 hminus
  · cases heq
    simp [hdigit]

theorem pad_starts_nothing : ∀ b : UInt8, Bytes.isPad b = true →
    (b ≠ 34 ∧ b ≠ 91 ∧ b ≠ 123 ∧ b ≠ 110 ∧ b ≠ 116 ∧ b ≠ 102) ∧ b ≠ 45 ∧ b ≠ 239 ∧
      Bytes.isDigit b = false := by
  decide +kernel

theorem value?_of_blank {s : Bytes} (h : Bytes.isBlank s = true) (fuel : Nat) :
    value? fuel s = none := by
  cases fuel with
  | zero => rfl
  | succ fuel =>
    rw [value?]
    split
    · rfl
    · next b r hs =>
      have hb : b ∈ skipBlanks s := hs ▸ List.mem_cons_self
      have hpad := List.all_eq_true.mp h b ((List.dropWhile_sublist _).subset hb)
      obtain ⟨⟨h34, h91, h123, h110, h116, h102⟩, h45, -, hdigit⟩ := pad_starts_nothing b hpad
      rw [if_neg h34, if_neg h91, if_neg h123, if_neg h110, if_neg h116, if_neg h102,
        number?_eq_none hdigit h45]

theorem read?_of_blank {s : Bytes} (h : Bytes.isBlank s = true) : read? s = none := by
  have hmark : withoutMark s = s := by
    unfold withoutMark
    split
    · have hpad := List.all_eq_true.mp h 239 List.mem_cons_self
      exact absurd rfl (pad_starts_nothing 239 hpad).2.2.1
    · rfl
  rw [read?, hmark, value?_of_blank h]

end Json

namespace Effects

/-- The versions that can be read: 1.0, or an older 1. -/
def Readable (major minor : Int) : Prop := major = 1 ∧ minor ≤ 0

/-- The versions that are taken for one of them. -/
def Taken (major minor : Int) : Prop := Readable (Bounded.wrap32 major) (Bounded.wrap32 minor)

instance (major minor : Int) : Decidable (Readable major minor) :=
  inferInstanceAs (Decidable (_ ∧ _))

instance (major minor : Int) : Decidable (Taken major minor) :=
  inferInstanceAs (Decidable (_ ∧ _))

section Gate

variable {p q : Int → Int → Prop} {fs : List (Bytes × Json)} {text : Bytes} {state : Json}

/-- An object names no version, or one that passes. -/
def Admits (p : Int → Int → Prop) (fs : List (Bytes × Json)) : Prop :=
  ∀ f, Table.get? (lit "format") fs = some f →
    ∃ major minor, f = .arr [.int major, .int minor] ∧ p major minor

/-- The state with which a stored text begins: its object where the version passes, the empty state
in all other cases. -/
inductive Begins (p : Int → Int → Prop) (text : Bytes) : Json → Prop
  | taken {fs : List (Bytes × Json)} (hread : Json.read? text = some (.obj fs))
    (hadmits : Admits p fs) : Begins p text (.obj fs)
  | fresh (h : ∀ fs, Json.read? text = some (.obj fs) → ¬ Admits p fs) : Begins p text emptyState

theorem formatReadable_iff (f : Json) :
    formatReadable f = true ↔
      ∃ major minor, f = .arr [.int major, .int minor] ∧ Taken major minor := by
  unfold formatReadable
  split
  · simp [compatible, Taken, Readable]
  · next hne =>
    refine ⟨fun h => Bool.noConfusion h, ?_⟩
    rintro ⟨major, minor, hf, -⟩
    exact absurd hf (hne major minor)

theorem begins_loadState (stateKey text : Bytes) :
    Begins Taken text (loadState stateKey (some text)).1 ∧
      ((loadState stateKey (some text)).2 = [] ↔
        Bytes.isBlank text = true ∨ ∃ fs, Json.read? text = some (.obj fs) ∧ Admits Taken fs) := by
  unfold loadState
  dsimp only
  split
  · next hblank =>
    have hnone := Json.read?_of_blank hblank
    exact ⟨.fresh fun fs h => by simp [hnone] at h, iff_of_true rfl (.inl hblank)⟩
  next hblank =>
  split
  · next fs hread =>
    have hsame {fs' : List (Bytes × Json)} (h : Json.read? text = some (.obj fs')) : fs' = fs := by
      rw [hread, Option.some.injEq, Json.obj.injEq] at h
      exact h.symm
    split
    · next hformat =>
      have hadmits : Admits Taken fs := fun f hf => by simp [hformat] at hf
      exact ⟨.taken hread hadmits, iff_of_true rfl (.inr ⟨fs, hread, hadmits⟩)⟩
    · next f hformat =>
      have hadmits : Admits Taken fs ↔ formatReadable f = true := by
        rw [formatReadable_iff]
        refine ⟨fun h => h f hformat, fun h f' hf' => ?_⟩
        rwa [← Option.some.inj (hformat.symm.trans hf')]
      split
      · next hok =>
        exact ⟨.taken hread (hadmits.mpr hok), iff_of_true rfl (.inr ⟨fs, hread, hadmits.mpr hok⟩)⟩
      · next hbad =>
        refine ⟨.fresh fun fs' h => ?_, iff_of_false (List.cons_ne_nil _ _) ?_⟩
        · rw [hsame h, hadmits]
          exact hbad
        · rintro (h | ⟨fs', h, hfs'⟩)
          · exact hblank h
          · rw [hsame h, hadmits] at hfs'
            exact hbad hfs'
  · next hother =>
    refine ⟨.fresh fun fs h => absurd h (hother fs), iff_of_false (List.cons_ne_nil _ _) ?_⟩
    rintro (h | ⟨fs, h, -⟩)
    · exact hblank h
    · exact hother fs h

theorem Begins.admits_of (hp : Begins p text state) (hq : Begins q text state) (hone : q 1 0)
    (hread : Json.read? text = some (.obj fs)) (hadmits : Admits p fs) : Admits q fs := by
  cases hp with
  | fresh h => exact absurd hadmits (h fs hread)
  | taken hread' _ =>
    rw [hread', Option.some.injEq, Json.obj.injEq] at hread
    subst hread
    -- The object is also what the second one begins with: taken up as well, or the empty state.
    generalize hstate : Json.obj _ = state at hq
    cases hq with
    | taken _ hadmits' => rwa [Json.obj.inj hstate]
    | fresh _ =>
      have hformat : Table.get? (lit "format") (Json.fields emptyState) = some format := by
        decide +kernel
      rw [← hstate] at hformat
      intro f hf
      refine ⟨1, 0, ?_, hone⟩
      exact Option.some.inj (hf.symm.trans hformat)

def Names (text : Bytes) (major minor : Int) : Prop :=
  ∃ fs, Json.read? text = some (.obj fs) ∧
    Table.get? (lit "format") fs = some (.arr [.int major, .int minor])

theorem Admits.of_names (h : Admits p fs) (hread : Json.read? text = some (.obj fs))
    (hpq : ∀ major minor, Names text major minor → p major minor → q major minor) :
    Admits q fs := by
  intro f hf
  obtain ⟨major, minor, rfl, hp⟩ := h f hf
  exact ⟨major, minor, rfl, hpq major minor ⟨fs, hread, hf⟩ hp⟩

theorem admits_iff {major minor : Int}
    (hformat : Table.get? (lit "format") fs = some (.arr [.int major, .int minor])) :
    Admits p fs ↔ p major minor := by
  constructor
  · intro h
    obtain ⟨a, b, hf, hp⟩ := h _ hformat
    cases hf
    exact hp
  · intro hp f hf
    exact ⟨major, minor, Option.some.inj (hf.symm.trans hformat), hp⟩

/-- An object is taken up if and only if it should be, unless the difference is made by the version
that it names. -/
theorem Begins.readable_iff (h : Begins Taken text state) :
    Begins Readable text state ↔
      ∀ major minor, Names text major minor → (Taken major minor ↔ Readable major minor) := by
  constructor
  · rintro hexact major minor ⟨fs, hread, hformat⟩
    have htaken : Taken 1 0 := by decide
    have hreadable : Readable 1 0 := by decide
    rw [← admits_iff (p := Taken) hformat, ← admits_iff (p := Readable) hformat]
    exact ⟨h.admits_of hexact hreadable hread, hexact.admits_of h htaken hread⟩
  · intro hagree
    cases h with
    | taken hread hadmits =>
      exact .taken hread (hadmits.of_names hread fun a b hab => (hagree a b hab).mp)
    | fresh hnone =>
      refine .fresh fun fs hread hadmits => hnone fs hread ?_
      exact hadmits.of_names hread fun a b hab => (hagree a b hab).mpr

def Within32 (n : Int) : Prop := -2147483648 ≤ n ∧ n ≤ 2147483647

theorem wrap32_of_within {n : Int} (h : Within32 n) : Bounded.wrap32 n = n :=
  Int.bmod_eq_of_le (by have := h.1; omega) (by have := h.2; omega)

end Gate

section Start

variable {clock : Int} {entries : List Entry} {vars : Variables} {stateKey slot text : Bytes}
  {dryRun : Bool}

/-- Whatever text is stored, timed effects begin with its object or with the empty state, and only a
blank text is dropped in silence. They begin as the version demands if and only if the numbers that
the object names as its version pass narrowed as they pass by themselves, so with any numbers of 32
bits. -/
theorem start_begins (hslot : Variables.key stateKey = .ok slot)
    (hstored : Table.get? slot vars = some text) :
    ∃ fx warnings, start clock entries vars stateKey dryRun = .ok (fx, warnings) ∧
      Begins Taken text fx.state ∧
      (warnings = [] ↔
        Bytes.isBlank text = true ∨ ∃ fs, Json.read? text = some (.obj fs) ∧ Admits Taken fs) ∧
      (Begins Readable text fx.state ↔
        ∀ major minor, Names text major minor → (Taken major minor ↔ Readable major minor)) ∧
      ((∀ major minor, Names text major minor → Within32 major ∧ Within32 minor) →
        Begins Readable text fx.state) := by
  obtain ⟨hbegins, hwarnings⟩ := begins_loadState stateKey text
  rw [← hstored] at hbegins hwarnings
  refine ⟨_, _, start_of_key hslot, hbegins, hwarnings, hbegins.readable_iff, fun hsmall => ?_⟩
  rw [hbegins.readable_iff]
  intro major minor hnames
  obtain ⟨hmajor, hminor⟩ := hsmall major minor hnames
  rw [Taken, wrap32_of_within hmajor, wrap32_of_within hminor]

def versionText (major minor : Int) : Bytes :=
  (Json.obj [(lit "format", .arr [.int major, .int minor])]).compact

theorem read?_versionText {major minor : Int} (hmajor : Json.InRange major)
    (hminor : Json.InRange minor) :
    Json.read? (versionText major minor)
      = some (.obj [(lit "format", .arr [.int major, .int minor])]) := by
  have hname : Utf8.isValid (lit "format") = true := by decide +kernel
  have hwritable : Json.Writable (.obj [(lit "format", .arr [.int major, .int minor])]) :=
    ⟨hname, ⟨hmajor, hminor, trivial⟩, trivial⟩
  exact Json.read?_compact hwritable

theorem names_versionText_iff {major minor a b : Int} (hmajor : Json.InRange major)
    (hminor : Json.InRange minor) :
    Names (versionText major minor) a b ↔ major = a ∧ minor = b := by
  rw [Names, read?_versionText hmajor hminor]
  constructor
  · rintro ⟨fs, hfs, hformat⟩
    cases hfs
    cases hformat
    exact ⟨rfl, rfl⟩
  · rintro ⟨rfl, rfl⟩
    exact ⟨_, rfl, rfl⟩

theorem start_begins_older :
    ∃ fx warnings, start 5 [] [(defaultKey, versionText 1 (-3))] defaultKey false
        = .ok (fx, warnings) ∧
      warnings = [] ∧ Begins Readable (versionText 1 (-3)) fx.state := by
  have hone : Json.InRange 1 := ⟨by decide, by decide⟩
  have hminus : Json.InRange (-3) := ⟨by decide, by decide⟩
  have hadmits : Admits Taken [(lit "format", .arr [.int 1, .int (-3)])] :=
    (admits_iff rfl).mpr (by decide)
  obtain ⟨fx, warnings, hstart, -, hwarnings, -, hexact⟩ :=
    @start_begins 5 [] [(defaultKey, versionText 1 (-3))] defaultKey defaultKey _ false
      (by decide +kernel) rfl
  refine ⟨fx, warnings, hstart, ?_, hexact fun major minor hnames => ?_⟩
  · exact hwarnings.mpr (.inr ⟨_, read?_versionText hone hminus, hadmits⟩)
  · obtain ⟨rfl, rfl⟩ := (names_versionText_iff hone hminus).mp hnames
    exact ⟨⟨by decide, by decide⟩, by decide, by decide⟩

/-- A foreign version that is congruent to 1.0 is taken up. -/
theorem not_start_begins_foreign :
    Names (versionText 4294967297 0) 4294967297 0 ∧ ¬ Readable 4294967297 0 ∧
      ∃ fx, start 5 [] [(defaultKey, versionText 4294967297 0)] defaultKey false = .ok (fx, []) ∧
        fx.state = .obj [(lit "format", .arr [.int 4294967297, .int 0])] ∧
        ¬ Begins Readable (versionText 4294967297 0) fx.state := by
  have hmajor : Json.InRange 4294967297 := ⟨by decide, by decide⟩
  have hzero : Json.InRange 0 := ⟨by decide, by decide⟩
  have hnames : Names (versionText 4294967297 0) 4294967297 0 :=
    (names_versionText_iff hmajor hzero).mpr ⟨rfl, rfl⟩
  have hload : loadState defaultKey (some (versionText 4294967297 0))
      = (.obj [(lit "format", .arr [.int 4294967297, .int 0])], []) := by decide +kernel
  obtain ⟨hbegins, -⟩ := begins_loadState defaultKey (versionText 4294967297 0)
  rw [hload] at hbegins
  have hstart := @start_of_key 5 [] [(defaultKey, versionText 4294967297 0)] defaultKey false
    defaultKey (by decide +kernel)
  have hget : Table.get? defaultKey [(defaultKey, versionText 4294967297 0)]
      = some (versionText 4294967297 0) := rfl
  rw [hget, hload] at hstart
  refine ⟨hnames, by decide, _, hstart, rfl, fun hexact => ?_⟩
  have hagree := hbegins.readable_iff.mp hexact _ _ hnames
  exact absurd (hagree.mp (by decide)) (by decide)

end Start
end Effects
end Lorebook
