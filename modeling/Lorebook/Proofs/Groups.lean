import Lorebook.Proofs.GroupWinner
import Lorebook.Proofs.Pass
import Lorebook.Proofs.Tables

set_option autoImplicit false

/-!
What the resolution of groups does to the candidates of a pass: some of them are dropped, never a
sticky one, and of each group there remain sticky candidates only, or at most one.
-/

namespace Lorebook.Scan

section Draws

variable {su : Setup} {s : State} {keys : List Bytes} {d : Draw}

/-- What is dropped while the groups of some keys are resolved: some of those keys, none of them
sticky. -/
structure DrawnFrom (su : Setup) (s : State) (keys : List Bytes) (d : Draw) : Prop where
  mem : ∀ k ∈ d.removed, k ∈ keys
  notSticky : ∀ k ∈ d.removed, groupSticky su s k = false
  marks : ∃ reason, (∀ k, reason k ∈ groupReasons) ∧
    d.candidates = s.candidates.dropping reason d.removed

theorem DrawnFrom.drop (h : DrawnFrom su s keys d) {k : Bytes} (hk : k ∈ keys)
    (hs : groupSticky su s k = false) {r : DropReason} (hr : r ∈ groupReasons) :
    DrawnFrom su s keys (d.drop r k) := by
  unfold Draw.drop
  split
  · exact h
  · next hm =>
    obtain ⟨reason, hof, hreason⟩ := h.marks
    refine ⟨?_, ?_, fun x => if x = k then r else reason x, ?_, ?_⟩
    · intro x hx
      rcases List.mem_cons.mp hx with rfl | hx
      · exact hk
      · exact h.mem x hx
    · intro x hx
      rcases List.mem_cons.mp hx with rfl | hx
      · exact hs
      · exact h.notSticky x hx
    · intro x
      dsimp only
      split
      · exact hr
      · exact hof x
    · dsimp only
      rw [hreason, Candidates.setFate_dropping]

/-- What is left of a resolved group: sticky members only, or at most one member, and none if the
group had its winner in an earlier pass. -/
def Resolved (su : Setup) (s : State) (name : Bytes) (left : List Bytes) : Prop :=
  (∀ k ∈ left, groupSticky su s k = true) ∨
    (∀ k ∈ left, ∀ k' ∈ left, k = k') ∧ (name ∈ s.selectedGroups → left = [])

theorem Resolved.mono {name : Bytes} {left fewer : List Bytes} (h : Resolved su s name left)
    (hsub : ∀ k ∈ fewer, k ∈ left) : Resolved su s name fewer := by
  rcases h with h | ⟨h, hnone⟩
  · exact .inl fun k hk => h k (hsub k hk)
  · refine .inr ⟨fun k hk k' hk' => h k (hsub k hk) k' (hsub k' hk'), fun hn => ?_⟩
    rw [List.eq_nil_iff_forall_not_mem]
    intro k hk
    have hl := hsub k hk
    rw [hnone hn] at hl
    cases hl

theorem resolveGroup_of_sticky {name : Bytes} {all : List Bytes}
    (h : (d.alive all).any (groupSticky su s) = true) :
    resolveGroup su s d name all
      = d.dropAll .groupStickyLoser ((d.alive all).filter (!groupSticky su s ·)) := by
  have hne : (d.alive all).isEmpty = false := by
    obtain ⟨k, hk, _⟩ := List.any_eq_true.mp h
    exact List.isEmpty_eq_false_iff.mpr (List.ne_nil_of_mem hk)
  rw [resolveGroup_eq]
  dsimp only
  rw [hne, if_neg Bool.false_ne_true, if_pos h]

theorem resolveGroup_of_taken {name : Bytes} {all : List Bytes}
    (h : (d.alive all).any (groupSticky su s) = false) (htaken : name ∈ s.selectedGroups) :
    resolveGroup su s d name all = d.dropAll .groupAlreadyActivated (d.alive all) := by
  rw [resolveGroup_eq]
  dsimp only
  rw [h, if_neg Bool.false_ne_true, if_pos htaken]
  split
  · next hempty =>
    rw [List.isEmpty_iff.mp hempty]
    rfl
  · rfl

theorem resolveGroup_resolved (su : Setup) (s : State) (d : Draw) (name : Bytes)
    (all : List Bytes) : Resolved su s name ((resolveGroup su s d name all).alive all) := by
  have hkeep {k : Bytes} (hk : k ∈ (resolveGroup su s d name all).alive all) : k ∈ d.alive all := by
    obtain ⟨hall, hr⟩ := Draw.mem_alive.mp hk
    exact Draw.mem_alive.mpr ⟨hall, fun h => hr (mem_removed_resolveGroup h)⟩
  cases hsticky : (d.alive all).any (groupSticky su s) with
  | true =>
    -- The members that are not sticky go.
    left
    intro k hk
    by_contra hs
    apply (Draw.mem_alive.mp hk).2
    rw [resolveGroup_of_sticky hsticky, Draw.mem_removed_dropAll]
    exact .inr (List.mem_filter.mpr ⟨hkeep hk, by simpa using hs⟩)
  | false =>
    have hplain : ∀ k ∈ d.alive all, groupSticky su s k = false := by
      simpa [List.any_eq_false] using hsticky
    by_cases htaken : name ∈ s.selectedGroups
    · -- All members go.
      left
      intro k hk
      refine absurd ?_ (Draw.mem_alive.mp hk).2
      rw [resolveGroup_of_taken hsticky htaken, Draw.mem_removed_dropAll]
      exact .inr (hkeep hk)
    by_cases hne : d.alive all = []
    · left
      intro k hk
      have hk := hkeep hk
      rw [hne] at hk
      cases hk
    · -- All members but the winner go.
      obtain ⟨w, _, hleft⟩ := resolveGroup_prevails hne hplain htaken
      refine .inr ⟨fun k hk k' hk' => ?_, fun h => absurd h htaken⟩
      rw [(hleft k).mp hk, (hleft k').mp hk']

end Draws

section Table

theorem get?_addMember (key name n : Bytes) (t : Table (List Bytes)) :
    Table.get? n (addMember key name t) =
      if name = n then some ((Table.get? n t).getD [] ++ [key]) else Table.get? n t := by
  induction t with
  | nil => simp [addMember, Table.get?]
  | cons row t ih =>
    obtain ⟨m, ks⟩ := row
    by_cases hm : m = name
    · by_cases hn : name = n <;> simp [addMember, Table.get?, hm, hn]
    · simp only [addMember, if_neg hm, Table.get?, ih]
      by_cases hn : m = n
      · have hne : name ≠ n := fun h => hm (hn.trans h.symm)
        simp [hn, hne]
      · simp [hn]

def membersOf (n : Bytes) (t : Table (List Bytes)) : List Bytes := (Table.get? n t).getD []

theorem mem_membersOf_addMember {k n : Bytes} (key name : Bytes) (t : Table (List Bytes)) :
    k ∈ membersOf n (addMember key name t) ↔ k ∈ membersOf n t ∨ k = key ∧ name = n := by
  unfold membersOf
  rw [get?_addMember]
  by_cases hn : name = n <;> simp [hn]

theorem mem_membersOf_foldl {k n : Bytes} (key : Bytes) (names : List Bytes)
    (t : Table (List Bytes)) :
    k ∈ membersOf n (names.foldl (fun gs m => addMember key m gs) t) ↔
      k ∈ membersOf n t ∨ k = key ∧ n ∈ names := by
  induction names generalizing t with
  | nil => simp
  | cons m names ih =>
    rw [List.foldl_cons, ih, mem_membersOf_addMember, or_assoc, ← and_or_left, List.mem_cons,
      eq_comm (a := n)]

theorem mem_membersOf_groupsOf {s : State} {keys : List Bytes} {k n : Bytes} :
    k ∈ membersOf n (groupsOf s keys) ↔ k ∈ keys ∧ n ∈ (s.entryAt k).groupNames := by
  have hfold (t : Table (List Bytes)) : k ∈ membersOf n (keys.foldl
        (fun gs k => (s.entryAt k).groupNames.foldl (fun gs n => addMember k n gs) gs) t) ↔
      k ∈ membersOf n t ∨ k ∈ keys ∧ n ∈ (s.entryAt k).groupNames := by
    induction keys generalizing t with
    | nil => simp
    | cons key keys ih =>
      rw [List.foldl_cons, ih, mem_membersOf_foldl, or_assoc, List.mem_cons]
      constructor
      · rintro (h | ⟨rfl, h⟩ | h)
        · exact .inl h
        · exact .inr ⟨.inl rfl, h⟩
        · exact .inr ⟨.inr h.1, h.2⟩
      · rintro (h | ⟨rfl | h, hg⟩)
        · exact .inl h
        · exact .inr (.inl ⟨rfl, hg⟩)
        · exact .inr (.inr ⟨h, hg⟩)
  rw [groupsOf, hfold]
  simp [membersOf, Table.get?]

theorem keys_addMember (key name : Bytes) (t : Table (List Bytes)) :
    Table.keys (addMember key name t) = addOnce name (Table.keys t) := by
  induction t with
  | nil => rfl
  | cons row t ih =>
    obtain ⟨m, ks⟩ := row
    by_cases hm : m = name
    · simp [addMember, Table.keys, addOnce, hm]
    · have hne : name ≠ m := fun h => hm h.symm
      have hkeys : Table.keys (addMember key name ((m, ks) :: t))
          = m :: Table.keys (addMember key name t) := by
        rw [addMember, if_neg hm]
        rfl
      have hmem : name ∈ Table.keys ((m, ks) :: t) ↔ name ∈ Table.keys t := by
        simp [Table.keys, hne]
      rw [hkeys, ih, addOnce, addOnce, if_congr hmem rfl rfl]
      split <;> rfl

theorem nodup_keys_groupsOf (s : State) (keys : List Bytes) : (groupsOf s keys).keys.Nodup := by
  apply List.foldlRecOn keys (motive := fun t : Table (List Bytes) => t.keys.Nodup)
  · exact List.nodup_nil
  · intro t ht key _
    apply List.foldlRecOn (s.entryAt key).groupNames
      (motive := fun t : Table (List Bytes) => t.keys.Nodup)
    · exact ht
    · intro t' ht' name _
      rw [keys_addMember]
      exact nodup_addOnce ht'

theorem mem_groupsOf {s : State} {keys : List Bytes} {row : Bytes × List Bytes}
    (h : row ∈ groupsOf s keys) {k : Bytes} :
    k ∈ row.2 ↔ k ∈ keys ∧ row.1 ∈ (s.entryAt k).groupNames := by
  have hrow : membersOf row.1 (groupsOf s keys) = row.2 := by
    rw [membersOf, Table.get?_of_mem_of_nodup (nodup_keys_groupsOf s keys) h, Option.getD_some]
  rw [← hrow, mem_membersOf_groupsOf]

theorem mem_of_mem_groupsOf {s : State} {keys : List Bytes} {row : Bytes × List Bytes}
    (h : row ∈ groupsOf s keys) {k : Bytes} (hk : k ∈ row.2) : k ∈ keys :=
  ((mem_groupsOf h).mp hk).1

end Table

section Resolve

variable {su : Setup} {s : State}

def finalDraw (su : Setup) (s : State) (keys : List Bytes) : Draw :=
  (groupsOf s keys).foldl (fun d (name, members) => resolveGroup su s d name members)
    { candidates := s.candidates, random := s.random }

theorem drawnFrom_finalDraw (su : Setup) (s : State) (keys : List Bytes) :
    DrawnFrom su s keys (finalDraw su s keys) := by
  apply List.foldlRecOn (groupsOf s keys)
  · refine ⟨by simp, by simp, fun _ => .groupLoser, fun _ => by simp [groupReasons], ?_⟩
    simp [Candidates.dropping]
  · rintro d hd ⟨name, members⟩ hrow
    apply resolveGroup_keeps (P := DrawnFrom su s keys)
    · intro d' r hr k hk hs hd'
      exact hd'.drop (mem_of_mem_groupsOf hrow hk) hs hr
    · intro d' random hd'
      exact ⟨hd'.mem, hd'.notSticky, hd'.marks⟩
    · exact hd

/-- Resolving groups drops candidates and does nothing else to them. -/
theorem resolveGroups_dropping (su : Setup) (s : State) (keys : List Bytes) :
    ∃ reason, (resolveGroups su s keys).1.candidates
      = s.candidates.dropping reason (finalDraw su s keys).removed := by
  obtain ⟨reason, _, hmarks⟩ := (drawnFrom_finalDraw su s keys).marks
  exact ⟨reason, hmarks⟩

theorem resolved_finalDraw (su : Setup) (s : State) (keys : List Bytes) {name : Bytes}
    {all : List Bytes} (h : (name, all) ∈ groupsOf s keys) :
    Resolved su s name ((finalDraw su s keys).alive all) := by
  unfold finalDraw
  generalize ({ candidates := s.candidates, random := s.random } : Draw) = d
  generalize groupsOf s keys = rows at h
  induction rows generalizing d with
  | nil => cases h
  | cons row rows ih =>
    rw [List.foldl_cons]
    rcases List.mem_cons.mp h with rfl | h
    · -- The groups that come later only drop more.
      apply (resolveGroup_resolved su s d name all).mono
      intro k hk
      obtain ⟨hall, hkeep⟩ := Draw.mem_alive.mp hk
      refine Draw.mem_alive.mpr ⟨hall, fun hr => hkeep ?_⟩
      apply List.foldlRecOn rows (motive := fun d : Draw => k ∈ d.removed)
      · exact hr
      · rintro d' hd' ⟨name', all'⟩ _
        exact mem_removed_resolveGroup hd'
    · exact ih _ h

theorem mem_resolveGroups {keys : List Bytes} {k : Bytes} :
    k ∈ (resolveGroups su s keys).2 ↔ k ∈ keys ∧ k ∉ (finalDraw su s keys).removed :=
  Draw.mem_alive

/-- Of each group there remain sticky candidates only, or at most one candidate. -/
theorem resolveGroups_exclusive (su : Setup) (s : State) (keys : List Bytes) (name : Bytes) :
    let left := (resolveGroups su s keys).2.filter fun k => name ∈ (s.entryAt k).groupNames
    Resolved su s name left := by
  intro left
  have hleft {k : Bytes} (hk : k ∈ left) : k ∈ membersOf name (groupsOf s keys) := by
    obtain ⟨hk, hg⟩ := List.mem_filter.mp hk
    exact mem_membersOf_groupsOf.mpr ⟨(mem_resolveGroups.mp hk).1, by simpa using hg⟩
  cases hrow : Table.get? name (groupsOf s keys) with
  | none =>
    left
    intro k hk
    have hk := hleft hk
    simp [membersOf, hrow] at hk
  | some all =>
    apply (resolved_finalDraw su s keys (Table.mem_row_of_get? hrow)).mono
    intro k hk
    have hall : k ∈ all := by simpa [membersOf, hrow] using hleft hk
    exact Draw.mem_alive.mpr ⟨hall, (mem_resolveGroups.mp (List.mem_filter.mp hk).1).2⟩

end Resolve
end Lorebook.Scan
