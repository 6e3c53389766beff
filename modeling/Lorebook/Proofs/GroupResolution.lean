import Lorebook.Proofs.Evaluation
import Lorebook.Proofs.Groups

set_option autoImplicit false

/-!
What the groups of a pass leave of its candidates. Candidates without a group stay, and those that go
are marked with a reason. A group keeps sticky members or at most one other; if no candidate has two
groups, a group without sticky members keeps one, or none if it had its winner before.
-/

namespace Lorebook.Scan

section Rows

variable {su : Setup} {s : State} {d : Draw} {keys : List Bytes} {k : Bytes}

theorem mem_removed_foldl_of_not_mem {rows : Table (List Bytes)} (h : ∀ row ∈ rows, k ∉ row.2) :
    k ∈ (rows.foldl (fun d (name, members) => resolveGroup su s d name members) d).removed ↔
      k ∈ d.removed := by
  apply List.foldlRecOn rows (motive := fun d' : Draw => k ∈ d'.removed ↔ k ∈ d.removed)
  · exact Iff.rfl
  · rintro d' hd' ⟨name, members⟩ hrow
    rw [mem_removed_resolveGroup_of_not_mem (h _ hrow), hd']

theorem not_removed_of_ungrouped (h : (s.entryAt k).groupNames = []) :
    k ∉ (finalDraw su s keys).removed := by
  unfold finalDraw
  rw [mem_removed_foldl_of_not_mem]
  · exact List.not_mem_nil
  · intro row hrow hk
    have hname := ((mem_groupsOf hrow).mp hk).2
    rw [h] at hname
    cases hname

def OneGroupEach (s : State) (keys : List Bytes) : Prop :=
  ∀ k ∈ keys, ∀ g ∈ (s.entryAt k).groupNames, ∀ g' ∈ (s.entryAt k).groupNames, g = g'

/-- Where no candidate names two groups, the other groups leave the members of a group alone. -/
theorem finalDraw_prevails {g : Bytes} {all : List Bytes} (hone : OneGroupEach s keys)
    (hrow : (g, all) ∈ groupsOf s keys) (hne : all ≠ [])
    (hplain : ∀ k ∈ all, groupSticky su s k = false) (hopen : g ∉ s.selectedGroups) :
    ∃ w, Prevails su s all w ∧ ∀ k, k ∈ (finalDraw su s keys).alive all ↔ k = w := by
  obtain ⟨before, after, hrows⟩ := List.append_of_mem hrow
  have hnot : g ∉ Table.keys (before ++ after) := by
    have hperm : (Table.keys (groupsOf s keys)).Perm (Table.keys ((g, all) :: (before ++ after))) :=
      hrows ▸ List.perm_middle.map _
    exact (List.nodup_cons.mp (hperm.nodup_iff.mp (nodup_keys_groupsOf s keys))).1
  have hother : ∀ k ∈ all, ∀ row ∈ before ++ after, k ∉ row.2 := by
    intro k hk row hr hkr
    have hmem : row ∈ groupsOf s keys := by
      rw [hrows]
      rcases List.mem_append.mp hr with hr | hr
      · exact List.mem_append_left _ hr
      · exact List.mem_append_right _ (List.mem_cons_of_mem _ hr)
    obtain ⟨hkeys, hg⟩ := (mem_groupsOf hrow).mp hk
    have hname : g = row.1 := hone k hkeys g hg row.1 ((mem_groupsOf hmem).mp hkr).2
    exact hnot (hname ▸ List.mem_map_of_mem hr)
  unfold finalDraw
  rw [hrows, List.foldl_append, List.foldl_cons]
  generalize hd : before.foldl _ _ = d
  have hfresh : d.alive all = all := by
    refine List.filter_eq_self.mpr fun k hk => decide_eq_true fun hr => ?_
    rw [← hd, mem_removed_foldl_of_not_mem
      fun row hr => hother k hk row (List.mem_append_left _ hr)] at hr
    cases hr
  have hne : d.alive all ≠ [] := hfresh.symm ▸ hne
  have hplain : ∀ k ∈ d.alive all, groupSticky su s k = false := hfresh.symm ▸ hplain
  obtain ⟨w, hw, hleft⟩ := resolveGroup_prevails hne hplain hopen
  rw [hfresh] at hw
  refine ⟨w, hw, fun k => ?_⟩
  rw [← hleft, Draw.mem_alive, Draw.mem_alive]
  refine and_congr_right fun hk => not_congr (mem_removed_foldl_of_not_mem fun row hr => ?_)
  exact hother k hk row (List.mem_append_right _ hr)

end Rows

def groupMembers (s : State) (g : Bytes) (keys : List Bytes) : List Bytes :=
  keys.filter fun k => g ∈ (s.entryAt k).groupNames

/-- What the groups of some candidates make of the records and of the list of candidates. -/
structure GroupsResolved (su : Setup) (s : State) (keys : List Bytes) (cs : Candidates)
    (kept : List Bytes) : Prop where
  sublist : kept.Sublist keys
  ungrouped : ∀ k ∈ keys, (s.entryAt k).groupNames = [] → k ∈ kept
  recorded : ∀ k ∈ keys, k ∉ kept → k ∈ s.candidates.keys
  /-- Those that go are marked with one reason each; all other records stay. -/
  marks : ∃ reason, (∀ k, reason k ∈ groupReasons) ∧
    cs = s.candidates.dropping reason (keys.filter (· ∉ kept))
  exclusive : ∀ g, ((groupMembers s g kept).filter (!groupSticky su s ·)).length ≤ 1
  sticky : ∀ g, ∀ k ∈ groupMembers s g keys, groupSticky su s k = true →
    ∀ k' ∈ groupMembers s g kept, groupSticky su s k' = true
  taken : ∀ g ∈ s.selectedGroups, (∀ k ∈ groupMembers s g keys, groupSticky su s k = false) →
    groupMembers s g kept = []
  winner : OneGroupEach s keys → ∀ g ∉ s.selectedGroups, groupMembers s g keys ≠ [] →
    (∀ k ∈ groupMembers s g keys, groupSticky su s k = false) →
    ∃ w, groupMembers s g kept = [w] ∧ Prevails su s (groupMembers s g keys) w

section Pass

variable {su : Setup} {s : State} {keys : List Bytes} {g k : Bytes}

theorem mem_groupMembers :
    k ∈ groupMembers s g keys ↔ k ∈ keys ∧ g ∈ (s.entryAt k).groupNames := by
  simp [groupMembers]

theorem mem_removed_finalDraw : k ∈ (finalDraw su s keys).removed ↔
    k ∈ keys.filter (· ∉ (resolveGroups su s keys).2) := by
  rw [List.mem_filter, decide_eq_true_eq, mem_resolveGroups, not_and, not_not]
  exact ⟨fun h => ⟨(drawnFrom_finalDraw su s keys).mem k h, fun _ => h⟩, fun h => h.2 h.1⟩

theorem mem_resolveGroups_of_sticky (hk : k ∈ keys) (h : groupSticky su s k = true) :
    k ∈ (resolveGroups su s keys).2 := by
  refine mem_resolveGroups.mpr ⟨hk, fun hr => ?_⟩
  rw [(drawnFrom_finalDraw su s keys).notSticky k hr] at h
  cases h

theorem mem_keys_of_grouped (h : (s.entryAt k).groupNames ≠ []) : k ∈ s.candidates.keys := by
  by_contra hk
  rw [← Candidates.find?_eq_none_iff] at hk
  apply h
  rw [State.entryAt, hk]
  decide

theorem groupMembers_resolveGroups_sublist :
    (groupMembers s g (resolveGroups su s keys).2).Sublist (groupMembers s g keys) :=
  List.filter_sublist.filter _

/-- A group in which somebody is sticky keeps nobody else. -/
theorem sticky_of_mem_kept {k' : Bytes} (hk : k ∈ groupMembers s g keys)
    (hs : groupSticky su s k = true) (hk' : k' ∈ groupMembers s g (resolveGroups su s keys).2) :
    groupSticky su s k' = true := by
  obtain ⟨hkeys, hg⟩ := mem_groupMembers.mp hk
  have hkept : k ∈ groupMembers s g (resolveGroups su s keys).2 :=
    mem_groupMembers.mpr ⟨mem_resolveGroups_of_sticky hkeys hs, hg⟩
  rcases resolveGroups_exclusive su s keys g with hall | ⟨hone, _⟩
  · exact hall k' hk'
  · rw [hone k' hk' k hkept]
    exact hs

theorem length_plain_le_one (hn : keys.Nodup) :
    ((groupMembers s g (resolveGroups su s keys).2).filter (!groupSticky su s ·)).length ≤ 1 := by
  rcases resolveGroups_exclusive su s keys g with hall | ⟨hone, _⟩
  · have hnil : (groupMembers s g (resolveGroups su s keys).2).filter (!groupSticky su s ·) = [] :=
      List.filter_eq_nil_iff.mpr fun k hk => by simp [hall k hk]
    simp [hnil]
  · have hnodup : (groupMembers s g (resolveGroups su s keys).2).Nodup :=
      hn.sublist (groupMembers_resolveGroups_sublist.trans List.filter_sublist)
    rw [← List.toFinset_card_of_nodup (hnodup.filter _), Finset.card_le_one]
    intro k hk k' hk'
    rw [List.mem_toFinset, List.mem_filter] at hk hk'
    exact hone k hk.1 k' hk'.1

theorem groupMembers_eq_nil (hg : g ∈ s.selectedGroups)
    (hplain : ∀ k ∈ groupMembers s g keys, groupSticky su s k = false) :
    groupMembers s g (resolveGroups su s keys).2 = [] := by
  rcases resolveGroups_exclusive su s keys g with hall | ⟨_, hnone⟩
  · refine List.eq_nil_iff_forall_not_mem.mpr fun k hk => ?_
    have hk' := hall k hk
    rw [hplain k (groupMembers_resolveGroups_sublist.subset hk)] at hk'
    cases hk'
  · exact hnone hg

theorem exists_prevails (hn : keys.Nodup) (hone : OneGroupEach s keys) (hg : g ∉ s.selectedGroups)
    (hne : groupMembers s g keys ≠ [])
    (hplain : ∀ k ∈ groupMembers s g keys, groupSticky su s k = false) :
    ∃ w, groupMembers s g (resolveGroups su s keys).2 = [w] ∧
      Prevails su s (groupMembers s g keys) w := by
  obtain ⟨k, hk⟩ := List.exists_mem_of_ne_nil _ hne
  have hk : k ∈ membersOf g (groupsOf s keys) :=
    mem_membersOf_groupsOf.mpr (mem_groupMembers.mp hk)
  cases hget : Table.get? g (groupsOf s keys) with
  | none => simp [membersOf, hget] at hk
  | some all =>
    have hrow := Table.mem_row_of_get? hget
    have hall (k : Bytes) : k ∈ all ↔ k ∈ groupMembers s g keys := by
      rw [mem_groupsOf hrow, mem_groupMembers]
    have hne : all ≠ [] := List.ne_nil_of_mem (by simpa [membersOf, hget] using hk)
    obtain ⟨w, hw, hleft⟩ :=
      finalDraw_prevails hone hrow hne (fun k hk => hplain k ((hall k).mp hk)) hg
    refine ⟨w, ?_, hw.congr hall⟩
    have hnodup : (groupMembers s g (resolveGroups su s keys).2).Nodup :=
      hn.sublist (groupMembers_resolveGroups_sublist.trans List.filter_sublist)
    refine List.perm_singleton.mp
      ((List.perm_ext_iff_of_nodup hnodup (List.nodup_singleton w)).mpr fun k => ?_)
    rw [List.mem_singleton, ← hleft, mem_groupMembers, mem_resolveGroups, Draw.mem_alive,
      mem_groupsOf hrow, and_right_comm]

/-- Groups leave of the candidates of a pass what they are meant to, and mark the others. -/
theorem resolveGroups_resolves (su : Setup) (s : State) (hn : keys.Nodup) :
    GroupsResolved su s keys (resolveGroups su s keys).1.candidates (resolveGroups su s keys).2 where
  sublist := List.filter_sublist
  ungrouped k hk hg := mem_resolveGroups.mpr ⟨hk, not_removed_of_ungrouped hg⟩
  recorded k hk hgone := by
    refine mem_keys_of_grouped fun hg => hgone (mem_resolveGroups.mpr ⟨hk, ?_⟩)
    exact not_removed_of_ungrouped hg
  marks := by
    obtain ⟨reason, hof, hmarks⟩ := (drawnFrom_finalDraw su s keys).marks
    refine ⟨reason, hof, hmarks.trans ?_⟩
    exact Candidates.dropping_congr _ _ fun k => mem_removed_finalDraw
  exclusive g := length_plain_le_one hn
  sticky g k hk hs k' hk' := sticky_of_mem_kept hk hs hk'
  taken g hg hplain := groupMembers_eq_nil hg hplain
  winner hone g hg hne hplain := exists_prevails hn hone hg hne hplain

def contestBook : Book where
  entries := [
    { uid := lit "1", constant := true },
    { uid := lit "2", keys := [lit "wyrm", lit "gold"], group := lit "lore",
      useGroupScoring := some true },
    { uid := lit "3", keys := [lit "wyrm"], group := lit "lore", useGroupScoring := some true,
      groupOverride := true, insertionOrder := 900 },
    { uid := lit "4", keys := [lit "wyrm"], group := lit "lore", groupOverride := true,
      insertionOrder := 7 }]

/-- The third entry goes for its score, so the override of the fourth decides. -/
theorem resolveGroups_resolves_contestBook : ∃ su s,
    opening? .standard [contestBook] { text := some (lit "the wyrm hoards gold") } [] (.ofList [])
      = some (su, s) ∧
    (lineup su s).Nodup ∧
    kept su s = [lit "unknown:unnamed.4", lit "unknown:unnamed.1"] ∧
    GroupsResolved su (enlisted su s) (lineup su s) (resolved su s).candidates (kept su s) := by
  have hcheck : (opening? .standard [contestBook] { text := some (lit "the wyrm hoards gold") } []
      (.ofList [])).any (fun p => decide ((lineup p.1 p.2).Nodup) &&
        kept p.1 p.2 == [lit "unknown:unnamed.4", lit "unknown:unnamed.1"]) = true := by
    decide +kernel
  obtain ⟨⟨su, s⟩, hopen, hcheck⟩ := (Option.any_eq_true _ _).mp hcheck
  obtain ⟨hn, hkept⟩ := (Bool.and_eq_true _ _).mp hcheck
  have hn := of_decide_eq_true hn
  exact ⟨su, s, hopen, hn, eq_of_beq hkept, resolveGroups_resolves su (enlisted su s) hn⟩

end Pass
end Lorebook.Scan
