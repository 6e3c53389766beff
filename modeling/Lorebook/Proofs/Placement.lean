import Lorebook.Proofs.Prompt
import Mathlib.Data.List.Perm.Basic

set_option autoImplicit false

/-!
Where the selected entries stand in the prompt. Each stands in the group of its position and nowhere
else, and a group is arranged by places, in which the strategy has one part. What an outlet gets is
read off the group of the outlets, since sorting commutes with picking the entries of one name.
-/

namespace Lorebook

theorem perm_flatMap_filter {α κ : Type} [DecidableEq κ] (f : α → κ) {ks : List κ} (hn : ks.Nodup)
    (l : List α) : (ks.flatMap fun k => l.filter (f · = k)).Perm (l.filter (f · ∈ ks)) := by
  induction ks with
  | nil => simp
  | cons k ks ih =>
    obtain ⟨hk, hn⟩ := List.nodup_cons.mp hn
    have hhere : (l.filter (f · ∈ k :: ks)).filter (f · = k) = l.filter (f · = k) := by
      rw [List.filter_filter]
      refine List.filter_congr fun a _ => ?_
      by_cases ha : f a = k <;> simp [ha]
    have hrest : (l.filter (f · ∈ k :: ks)).filter (fun a => !decide (f a = k)) =
        l.filter (f · ∈ ks) := by
      rw [List.filter_filter]
      refine List.filter_congr fun a _ => ?_
      by_cases ha : f a = k <;> simp [ha, hk]
    have hsplit := List.filter_append_perm (f · = k) (l.filter (f · ∈ k :: ks))
    rw [hhere, hrest] at hsplit
    rw [List.flatMap_cons]
    exact ((ih hn).append_left _).trans hsplit

namespace InsertionStrategy

variable {s : InsertionStrategy} {a b : Entry} {es : List Entry}

/-- What an entry is placed by: source, strategy, insertion order, book and uid, in this order. -/
def place (s : InsertionStrategy) (e : Entry) : Nat × Nat × Int × Bytes × Bytes :=
  (e.sourceRank, s.rank e, e.insertionOrder, e.bookName, e.uid)

def Precedes (s : InsertionStrategy) (a b : Entry) : Prop :=
  Prod.Lex (· < ·) (Prod.Lex (· < ·) (Prod.Lex (· < ·) (Prod.Lex (· < ·) (· < ·))))
    (s.place a) (s.place b)

/-- A list of entries is in the order of their places, those with one place as they were. -/
structure Arranges (s : InsertionStrategy) (es arranged : List Entry) : Prop where
  perm : arranged.Perm es
  sorted : arranged.Pairwise fun a b => ¬s.Precedes b a
  stable : ∀ e : Entry, arranged.filter (s.place · = s.place e) = es.filter (s.place · = s.place e)

theorem le_iff : s.le a b = true ↔ ¬s.Precedes b a := by
  have huid : decide (a.uid ≤ b.uid) = true ↔ ¬b.uid < a.uid := by simp
  rw [s.le_eq, Precedes]
  simp only [place, Prod.lex_def]
  exact Sorts.keyThen_iff (Sorts.keyThen_iff (Sorts.keyThen_iff (Sorts.keyThen_iff huid)))

theorem not_precedes_of_place_eq (h : s.place a = s.place b) : ¬s.Precedes a b := by
  have hself : ¬s.Precedes b b := le_iff.mp ((s.sorts.total b b).elim id id)
  rwa [Precedes, h]

theorem arranges_sortBy (s : InsertionStrategy) (es : List Entry) :
    s.Arranges es (sortBy s.le es) where
  perm := sortBy_perm s.le es
  sorted := (s.sorts.sortBy_pairwise es).imp le_iff.mp
  stable e := by
    rw [s.sorts.filter_sortBy]
    refine Sorts.sortBy_of_ties fun a ha b hb => le_iff.mpr (not_precedes_of_place_eq ?_)
    have hplace {x : Entry} (hx : x ∈ es.filter (s.place · = s.place e)) :
        s.place x = s.place e := by
      simpa using (List.mem_filter.mp hx).2
    rw [hplace ha, hplace hb]

end InsertionStrategy

namespace Outcome

variable (out : Outcome) (s : InsertionStrategy)

def occupied : List Position :=
  Position.all.filter fun p => out.selectedEntries.any (·.position = p)

/-- Groups hold every selected entry once, under its position and arranged by a strategy. -/
structure Grouped (groups : List (Position × List Entry)) : Prop where
  complete : (groups.flatMap (·.2)).Perm out.selectedEntries
  positions : (groups.map (·.1)).Nodup
  nonempty : ∀ g ∈ groups, g.2 ≠ []
  arranged : ∀ g ∈ groups, s.Arranges (out.selectedEntries.filter (·.position = g.1)) g.2

variable {out s}

theorem mem_occupied {p : Position} :
    p ∈ out.occupied ↔ ∃ e ∈ out.selectedEntries, e.position = p := by
  have hall : p ∈ Position.all := by cases p <;> decide
  simp [occupied, hall]

theorem nodup_occupied (out : Outcome) : out.occupied.Nodup := List.Nodup.filter _ (by decide)

theorem atPosition_eq_nil {p : Position} : out.atPosition s p = [] ↔ p ∉ out.occupied := by
  rw [mem_occupied, atPosition, ← List.length_eq_zero_iff, length_sortBy, List.length_eq_zero_iff,
    List.filter_eq_nil_iff]
  simp

theorem byPosition_eq : out.byPosition s = out.occupied.map fun p => (p, out.atPosition s p) := by
  rw [byPosition, List.filter_map]
  refine congrArg _ (List.filter_congr fun p hp => ?_)
  have hoccupied : out.selectedEntries.any (·.position = p) = true ↔ p ∈ out.occupied := by
    rw [occupied, List.mem_filter]
    exact ⟨fun h => ⟨hp, h⟩, fun h => h.2⟩
  rw [Bool.eq_iff_iff, hoccupied]
  simp [atPosition_eq_nil]

theorem grouped_byPosition (out : Outcome) (s : InsertionStrategy) :
    out.Grouped s (out.byPosition s) where
  complete := by
    have heach : (out.occupied.flatMap (out.atPosition s)).Perm
        (out.occupied.flatMap fun p => out.selectedEntries.filter (·.position = p)) :=
      List.Perm.flatMap_left _ fun p _ => sortBy_perm s.le _
    have hall : out.selectedEntries.filter (·.position ∈ out.occupied) = out.selectedEntries := by
      refine List.filter_eq_self.mpr fun e he => ?_
      simpa using mem_occupied.mpr ⟨e, he, rfl⟩
    have hwhole := perm_flatMap_filter Entry.position (nodup_occupied out) out.selectedEntries
    rw [hall] at hwhole
    rw [byPosition_eq, List.flatMap_map]
    exact heach.trans hwhole
  positions := by simpa [byPosition_eq, Function.comp_def] using nodup_occupied out
  nonempty := by
    rw [byPosition_eq]
    intro g hg
    obtain ⟨p, hp, rfl⟩ := List.mem_map.mp hg
    exact fun hnil => atPosition_eq_nil.mp hnil hp
  arranged := by
    rw [byPosition_eq]
    intro g hg
    obtain ⟨p, _, rfl⟩ := List.mem_map.mp hg
    exact s.arranges_sortBy _

theorem byPosition_perm (out : Outcome) (s s' : InsertionStrategy) :
    List.Forall₂ (fun g g' => g.1 = g'.1 ∧ g.2.Perm g'.2)
      (out.byPosition s) (out.byPosition s') := by
  rw [byPosition_eq, byPosition_eq, List.forall₂_map_left_iff, List.forall₂_map_right_iff,
    List.forall₂_same]
  intro p _
  exact ⟨rfl, (sortBy_perm s.le _).trans (sortBy_perm s'.le _).symm⟩

theorem mem_outletEntries {e : Entry} :
    e ∈ out.outletEntries ↔
      e ∈ out.selectedEntries ∧ e.position = .outlet ∧ Bytes.isBlank e.outlet = false := by
  simp [outletEntries]

theorem mem_keys_outlets {name : Bytes} :
    name ∈ Table.keys out.outlets ↔ ∃ e ∈ out.outletEntries, e.outlet = name := by
  rw [← Table.isSome_get?_iff, outlets, Table.get?_ofRows_isSome]
  constructor
  · rintro ⟨_, hrow⟩
    obtain ⟨e, he, heq⟩ := List.mem_map.mp hrow
    exact ⟨e, he, congrArg Prod.fst heq⟩
  · rintro ⟨e, he, rfl⟩
    exact ⟨_, List.mem_map_of_mem he⟩

theorem outletContent_eq {name : Bytes} (hname : Bytes.isBlank name = false) :
    out.outletContent name =
      Bytes.joinLines
        (((out.atPosition out.strategy .outlet).filter (·.outlet = name)).map (·.content)) := by
  have hentries : (out.selectedEntries.filter (·.position = .outlet)).filter (·.outlet = name) =
      out.outletEntries.filter (·.outlet = name) := by
    rw [outletEntries, List.filter_filter, List.filter_filter]
    refine List.filter_congr fun e _ => ?_
    by_cases he : e.outlet = name <;> simp [he, hname]
  rw [outletContent, atPosition, out.strategy.sorts.filter_sortBy, hentries]

theorem of_mem_outlets {name content : Bytes} (h : (name, content) ∈ out.outlets) :
    ∃ es, (.outlet, es) ∈ out.byPosition out.strategy ∧
      content = Bytes.joinLines ((es.filter (·.outlet = name)).map (·.content)) := by
  obtain ⟨e, he, heq⟩ := List.mem_map.mp (Table.mem_of_mem_ofRows h)
  obtain ⟨rfl, rfl⟩ := Prod.mk.inj heq
  obtain ⟨hsel, hpos, hblank⟩ := mem_outletEntries.mp he
  refine ⟨out.atPosition out.strategy .outlet, ?_, outletContent_eq hblank⟩
  rw [byPosition_eq]
  exact List.mem_map_of_mem (mem_occupied.mpr ⟨e, hsel, hpos⟩)

/-- The groups by position and the contents by outlet are views of one selection. -/
theorem views_agree (out : Outcome) (s s' : InsertionStrategy) :
    out.Grouped s (out.byPosition s) ∧
    List.Forall₂ (fun g g' => g.1 = g'.1 ∧ g.2.Perm g'.2) (out.byPosition s) (out.byPosition s') ∧
    Table.Ordered out.outlets ∧
    (∀ name, name ∈ Table.keys out.outlets ↔ ∃ e ∈ out.selectedEntries,
      e.position = .outlet ∧ Bytes.isBlank e.outlet = false ∧ e.outlet = name) ∧
    ∀ name content, (name, content) ∈ out.outlets →
      ∃ es, (.outlet, es) ∈ out.byPosition out.strategy ∧
        content = Bytes.joinLines ((es.filter (·.outlet = name)).map (·.content)) := by
  refine ⟨grouped_byPosition out s, byPosition_perm out s s', Table.Ordered.ofRows _, ?_,
    fun _ _ => of_mem_outlets⟩
  intro name
  simp only [mem_keys_outlets, mem_outletEntries, and_assoc]

end Outcome
end Lorebook
