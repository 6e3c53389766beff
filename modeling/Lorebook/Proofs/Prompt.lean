import Lorebook.Outcome
import Lorebook.Proofs.Order
import Lorebook.Proofs.Tables

set_option autoImplicit false

/-!
The selected entries as they go into the prompt, by position and by outlet. Strategies sort by keys
that end in book and uid, so where these tell entries apart the order of the candidates is lost.
-/

namespace Lorebook

theorem InsertionStrategy.le_eq (s : InsertionStrategy) (a b : Entry) :
    s.le a b =
      if a.sourceRank ≠ b.sourceRank then decide (a.sourceRank < b.sourceRank)
      else if s.rank a ≠ s.rank b then decide (s.rank a < s.rank b)
      else if a.insertionOrder ≠ b.insertionOrder then decide (a.insertionOrder < b.insertionOrder)
      else if a.bookName ≠ b.bookName then decide (a.bookName < b.bookName)
      else decide (a.uid ≤ b.uid) := by
  unfold InsertionStrategy.le
  repeat' split
  all_goals rfl

theorem InsertionStrategy.sorts (s : InsertionStrategy) : Sorts s.le := by
  have heq := funext fun a => funext fun b => s.le_eq a b
  rw [heq]
  exact Sorts.keyThen Entry.sourceRank (Sorts.keyThen s.rank (Sorts.keyThen Entry.insertionOrder
    (Sorts.keyThen Entry.bookName (Sorts.byKey Entry.uid))))

theorem InsertionStrategy.place_of_le {s : InsertionStrategy} {a b : Entry}
    (hab : s.le a b = true) (hba : s.le b a = true) : a.bookName = b.bookName ∧ a.uid = b.uid := by
  rw [s.le_eq] at hab hba
  obtain ⟨_, hab, hba⟩ := Sorts.eq_of_ties hab hba
  obtain ⟨_, hab, hba⟩ := Sorts.eq_of_ties hab hba
  obtain ⟨_, hab, hba⟩ := Sorts.eq_of_ties hab hba
  exact Sorts.place_of_ties hab hba

namespace Outcome

variable {out out' : Outcome}

/-- Book and uid tell the selected entries apart. -/
def Placed (out : Outcome) : Prop :=
  ∀ a ∈ out.selectedEntries, ∀ b ∈ out.selectedEntries, a.bookName = b.bookName → a.uid = b.uid →
    a = b

theorem selectedEntries_perm (h : out'.candidates.Perm out.candidates) :
    out'.selectedEntries.Perm out.selectedEntries := (h.filter _).map _

theorem Placed.sortBy_eq (hp : out.Placed) {es es' : List Entry} (h : es'.Perm es)
    (hsel : ∀ e ∈ es, e ∈ out.selectedEntries) (s : InsertionStrategy) :
    sortBy s.le es' = sortBy s.le es := by
  refine (s.sorts.sortBy_eq_of_perm h.symm fun a ha b hb hab hba => ?_).symm
  obtain ⟨hbook, huid⟩ := InsertionStrategy.place_of_le hab hba
  exact hp a (hsel a ha) b (hsel b hb) hbook huid

theorem Placed.byPosition_eq (hp : out.Placed) (h : out'.candidates.Perm out.candidates)
    (s : InsertionStrategy) : out'.byPosition s = out.byPosition s := by
  have hat : out'.atPosition s = out.atPosition s := by
    funext p
    refine hp.sortBy_eq ((selectedEntries_perm h).filter _) (fun e he => ?_) s
    exact (List.mem_filter.mp he).1
  rw [byPosition, byPosition, hat]

theorem Placed.outlets_eq (hp : out.Placed) (h : out'.candidates.Perm out.candidates)
    (hs : out'.strategy = out.strategy) : out'.outlets = out.outlets := by
  have hentries : out'.outletEntries.Perm out.outletEntries := (selectedEntries_perm h).filter _
  have hcontent : out'.outletContent = out.outletContent := by
    funext name
    unfold outletContent
    rw [hs]
    dsimp only
    rw [hp.sortBy_eq (hentries.filter _)]
    intro e he
    exact (List.mem_filter.mp (List.mem_filter.mp he).1).1
  rw [outlets, outlets, hcontent]
  refine Table.ofRows_perm (hentries.map _) fun r hr r' hr' hk => ?_
  obtain ⟨e, _, rfl⟩ := List.mem_map.mp hr
  obtain ⟨e', _, rfl⟩ := List.mem_map.mp hr'
  exact congrArg out.outletContent hk

end Outcome
end Lorebook
