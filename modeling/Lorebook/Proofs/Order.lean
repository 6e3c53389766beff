import Lorebook.Proofs.Activation

set_option autoImplicit false

/-!
Boolean orders that compare one key after another, that sorting by them gives a sorted list, and the
order of a pass as one of them.
-/

namespace Lorebook

variable {α β κ : Type}

structure Sorts (le : α → α → Bool) : Prop where
  total : ∀ a b, le a b = true ∨ le b a = true
  trans : ∀ a b c, le a b = true → le b c = true → le a c = true

namespace Sorts

variable {le : α → α → Bool}

theorem insertBy_pairwise (h : Sorts le) (a : α) {l : List α}
    (hl : l.Pairwise fun x y => le x y = true) :
    (insertBy le a l).Pairwise fun x y => le x y = true := by
  induction l with
  | nil => simp [insertBy]
  | cons b l ih =>
    obtain ⟨hb, hl⟩ := List.pairwise_cons.mp hl
    simp only [insertBy]
    split
    · next hab =>
      refine List.pairwise_cons.mpr ⟨?_, List.pairwise_cons.mpr ⟨hb, hl⟩⟩
      intro x hx
      rcases List.mem_cons.mp hx with rfl | hx
      · exact hab
      · exact h.trans a b x hab (hb x hx)
    · next hab =>
      have hba : le b a = true := (h.total a b).resolve_left hab
      refine List.pairwise_cons.mpr ⟨?_, ih hl⟩
      intro x hx
      rcases List.mem_cons.mp ((insertBy_perm le a l).mem_iff.mp hx) with rfl | hx
      · exact hba
      · exact hb x hx

theorem sortBy_pairwise (h : Sorts le) (l : List α) :
    (sortBy le l).Pairwise fun x y => le x y = true := by
  induction l with
  | nil => simp [sortBy]
  | cons a l ih => exact h.insertBy_pairwise a ih

/-- Without ties sorting forgets the order that it is given. -/
theorem sortBy_eq_of_perm (h : Sorts le) {l l' : List α} (hp : l.Perm l')
    (hties : ∀ a ∈ l, ∀ b ∈ l, le a b = true → le b a = true → a = b) :
    sortBy le l = sortBy le l' := by
  refine List.Perm.eq_of_pairwise ?_ (h.sortBy_pairwise l) (h.sortBy_pairwise l') ?_
  · intro a b ha hb
    exact hties a (mem_sortBy.mp ha) b (hp.mem_iff.mpr (mem_sortBy.mp hb))
  · exact (sortBy_perm le l).trans (hp.trans (sortBy_perm le l').symm)

theorem insertBy_of_le {a : α} {l : List α} (h : ∀ x ∈ l, le a x = true) :
    insertBy le a l = a :: l := by
  cases l with
  | nil => rfl
  | cons b l => rw [insertBy, if_pos (h b List.mem_cons_self)]

theorem sortBy_of_ties {l : List α} (h : ∀ a ∈ l, ∀ b ∈ l, le a b = true) : sortBy le l = l := by
  induction l with
  | nil => rfl
  | cons a l ih =>
    have hl : sortBy le l = l := ih fun x hx y hy =>
      h x (List.mem_cons_of_mem a hx) y (List.mem_cons_of_mem a hy)
    rw [sortBy, hl]
    exact insertBy_of_le fun x hx => h a List.mem_cons_self x (List.mem_cons_of_mem a hx)

theorem filter_insertBy (h : Sorts le) (p : α → Bool) (a : α) {l : List α}
    (hl : l.Pairwise fun x y => le x y = true) :
    (insertBy le a l).filter p = if p a then insertBy le a (l.filter p) else l.filter p := by
  induction l with
  | nil => by_cases hp : p a <;> simp [insertBy, hp]
  | cons b l ih =>
    obtain ⟨hb, hl⟩ := List.pairwise_cons.mp hl
    rw [insertBy]
    split
    · next hab =>
      -- What is sorted behind `b` may stand behind `a` too.
      have hall : ∀ x ∈ (b :: l).filter p, le a x = true := by
        intro x hx
        rcases List.mem_cons.mp (List.mem_filter.mp hx).1 with rfl | hx
        · exact hab
        · exact h.trans a b x hab (hb x hx)
      rw [insertBy_of_le hall, List.filter_cons]
    · next hab =>
      rw [List.filter_cons, List.filter_cons, ih hl]
      by_cases hpb : p b <;> by_cases hpa : p a <;> simp [hpa, hpb, insertBy, hab]

/-- Of a sorted list the elements that are asked for are those asked for, sorted. -/
theorem filter_sortBy (h : Sorts le) (p : α → Bool) (l : List α) :
    (sortBy le l).filter p = sortBy le (l.filter p) := by
  induction l with
  | nil => rfl
  | cons a l ih =>
    rw [sortBy, h.filter_insertBy p a (h.sortBy_pairwise l), ih, List.filter_cons]
    split <;> rfl

theorem comap (h : Sorts le) (f : β → α) : Sorts fun a b => le (f a) (f b) where
  total a b := h.total (f a) (f b)
  trans a b c := h.trans (f a) (f b) (f c)

section Keys

variable [LE κ] [Std.IsLinearOrder κ]

theorem byKey [DecidableLE κ] (f : α → κ) : Sorts fun a b => decide (f a ≤ f b) where
  total a b := by
    simp only [decide_eq_true_eq]
    exact Std.le_total
  trans a b c := by
    simp only [decide_eq_true_eq]
    exact Std.le_trans

variable [DecidableEq κ] [LT κ] [DecidableLT κ] [Std.LawfulOrderLT κ]

/-- A key before another order, which decides between equal keys only. -/
theorem keyThen (f : α → κ) (h : Sorts le) :
    Sorts fun a b => if f a ≠ f b then decide (f a < f b) else le a b where
  total a b := by
    by_cases heq : f a = f b
    · simpa [heq] using h.total a b
    · have hne : f b ≠ f a := fun h => heq h.symm
      simp only [heq, hne, ne_eq, not_false_eq_true, if_true, decide_eq_true_eq]
      rcases Std.le_total (a := f a) (b := f b) with hle | hle
      · exact .inl (Std.lt_of_le_of_ne hle heq)
      · exact .inr (Std.lt_of_le_of_ne hle hne)
  trans a b c hab hbc := by
    by_cases h₁ : f a = f b
    · by_cases h₂ : f b = f c
      · have h₃ : f a = f c := h₁.trans h₂
        simp only [h₁, h₂, ne_eq, not_true_eq_false, if_false] at hab hbc ⊢
        exact h.trans a b c hab hbc
      · simpa [h₁, h₂] using hbc
    · by_cases h₂ : f b = f c
      · rw [← h₂]
        simpa [h₁] using hab
      · simp only [h₁, h₂, ne_eq, not_false_eq_true, if_true, decide_eq_true_eq] at hab hbc
        have hlt : f a < f c := Std.lt_trans hab hbc
        have hne : f a ≠ f c := by
          intro heq
          rw [heq] at hlt
          exact Std.lt_irrefl hlt
        simpa [hne] using hlt

theorem eq_of_ties {x y : κ} {p q : Bool} (hp : (if x ≠ y then decide (x < y) else p) = true)
    (hq : (if y ≠ x then decide (y < x) else q) = true) : x = y ∧ p = true ∧ q = true := by
  by_cases heq : x = y
  · simp only [heq, ne_eq, not_true_eq_false, if_false] at hp hq
    exact ⟨heq, hp, hq⟩
  · simp only [heq, Ne.symm heq, ne_eq, not_false_eq_true, if_true, decide_eq_true_eq] at hp hq
    exact absurd (Std.lt_trans hp hq) Std.lt_irrefl

theorem place_of_ties {a b : Entry}
    (hab : (if a.bookName ≠ b.bookName then decide (a.bookName < b.bookName)
      else decide (a.uid ≤ b.uid)) = true)
    (hba : (if b.bookName ≠ a.bookName then decide (b.bookName < a.bookName)
      else decide (b.uid ≤ a.uid)) = true) : a.bookName = b.bookName ∧ a.uid = b.uid := by
  obtain ⟨hbook, hab, hba⟩ := eq_of_ties hab hba
  simp only [decide_eq_true_eq] at hab hba
  exact ⟨hbook, List.le_antisymm hab hba⟩

theorem keyThen_iff {x y : κ} {p : Bool} {q : Prop} (h : p = true ↔ ¬q) :
    (if x ≠ y then decide (x < y) else p) = true ↔ ¬(y < x ∨ y = x ∧ q) := by
  by_cases heq : x = y
  · subst heq
    have hirrefl : ¬x < x := Std.lt_irrefl
    simpa [hirrefl] using h
  · have hne : y ≠ x := fun h => heq h.symm
    simp only [heq, hne, ne_eq, not_false_eq_true, if_true, decide_eq_true_eq, false_and, or_false]
    constructor
    · intro hlt hgt
      exact Std.lt_irrefl (Std.lt_trans hlt hgt)
    · intro hnot
      rcases Std.le_total (a := x) (b := y) with hle | hle
      · exact Std.lt_of_le_of_ne hle heq
      · exact absurd (Std.lt_of_le_of_ne hle hne) hnot

end Keys
end Sorts

namespace Scan

def stickyRank (su : Setup) (e : Entry) : Nat := if su.stickyActive e.key then 0 else 1

theorem entryLe_eq (su : Setup) (a b : Entry) :
    entryLe su a b =
      if stickyRank su a ≠ stickyRank su b then decide (stickyRank su a < stickyRank su b)
      else if -a.insertionOrder ≠ -b.insertionOrder then
        decide (-a.insertionOrder < -b.insertionOrder)
      else if a.bookName ≠ b.bookName then decide (a.bookName < b.bookName)
      else decide (a.uid ≤ b.uid) := by
  unfold entryLe stickyRank
  cases su.stickyActive a.key <;> cases su.stickyActive b.key <;> simp

theorem sorts_entryLe (su : Setup) : Sorts (entryLe su) := by
  have heq := funext fun a => funext fun b => entryLe_eq su a b
  rw [heq]
  exact Sorts.keyThen (stickyRank su) (Sorts.keyThen (fun e => -e.insertionOrder)
    (Sorts.keyThen Entry.bookName (Sorts.byKey Entry.uid)))

theorem lineup_pairwise (su : Setup) (s : State) :
    (lineup su s).Pairwise fun k k' =>
      entryLe su ((enlisted su s).entryAt k) ((enlisted su s).entryAt k') = true := by
  have hsorted := ((sorts_entryLe su).comap Prod.snd).sortBy_pairwise
    ((activatedKeys su s).map fun k => (k, (enlisted su s).entryAt k))
  apply List.pairwise_map.mpr
  refine hsorted.imp_of_mem ?_
  rintro ⟨k, e⟩ ⟨k', e'⟩ hk hk' hle
  have hrow {row : Bytes × Entry} (h : row ∈ sortBy (fun a b => entryLe su a.2 b.2)
      ((activatedKeys su s).map fun k => (k, (enlisted su s).entryAt k))) :
      row.2 = (enlisted su s).entryAt row.1 := by
    obtain ⟨x, _, rfl⟩ := List.mem_map.mp (mem_sortBy.mp h)
    rfl
  have he := hrow hk
  have he' := hrow hk'
  dsimp only at he he' hle ⊢
  rw [← he, ← he']
  exact hle

end Scan
end Lorebook
