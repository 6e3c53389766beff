import Lorebook.Proofs.Candidates
import Lorebook.Scan.Groups

set_option autoImplicit false

/-!
What the resolution of one group drops: members of it that are not sticky, each with a reason.
-/

namespace Lorebook

def Candidates.dropping (cs : Candidates) (reason : Bytes → DropReason) (keys : List Bytes) :
    Candidates :=
  cs.map fun c => if c.key ∈ keys then { c with fate := .dropped (reason c.key) } else c

theorem Candidates.setFate_dropping (cs : Candidates) (reason : Bytes → DropReason)
    (keys : List Bytes) (k : Bytes) (r : DropReason) :
    (cs.dropping reason keys).setFate k (.dropped r)
      = cs.dropping (fun x => if x = k then r else reason x) (k :: keys) := by
  simp only [dropping, setFate, update, List.map_map]
  apply List.map_congr_left
  intro c _
  by_cases hk : c.key = k
  · subst hk
    by_cases hm : c.key ∈ keys <;> simp [hm]
  · by_cases hm : c.key ∈ keys <;> simp [hk, hm]

theorem Candidates.find?_dropping (cs : Candidates) (reason : Bytes → DropReason)
    (keys : List Bytes) (k : Bytes) : (cs.dropping reason keys).find? k =
      (cs.find? k).map fun c =>
        if c.key ∈ keys then { c with fate := .dropped (reason c.key) } else c :=
  find?_map (fun c => by split <;> rfl) cs k

theorem Candidates.dropping_congr (cs : Candidates) (reason : Bytes → DropReason)
    {keys keys' : List Bytes} (h : ∀ k, k ∈ keys ↔ k ∈ keys') :
    cs.dropping reason keys = cs.dropping reason keys' := by
  simp only [dropping, h]

namespace Scan

def groupReasons : List DropReason :=
  [.groupStickyLoser, .groupAlreadyActivated, .groupScoreLoser, .groupLoser]

variable {su : Setup} {s : State} {d : Draw}

@[simp] theorem Draw.mem_alive {ms : List Bytes} {k : Bytes} :
    k ∈ d.alive ms ↔ k ∈ ms ∧ k ∉ d.removed := by simp [Draw.alive]

theorem Draw.mem_removed_drop (d : Draw) (r : DropReason) {k x : Bytes} :
    x ∈ (d.drop r k).removed ↔ x ∈ d.removed ∨ x = k := by
  unfold Draw.drop
  split
  · next hk =>
    constructor
    · exact .inl
    · rintro (h | rfl)
      · exact h
      · exact hk
  · simp [or_comm]

theorem Draw.mem_removed_dropAll (d : Draw) (r : DropReason) {ks : List Bytes} {x : Bytes} :
    x ∈ (d.dropAll r ks).removed ↔ x ∈ d.removed ∨ x ∈ ks := by
  unfold Draw.dropAll
  induction ks generalizing d with
  | nil => simp
  | cons k ks ih => rw [List.foldl_cons, ih, Draw.mem_removed_drop, List.mem_cons, or_assoc]

theorem Draw.dropAll_keeps {P : Draw → Prop} {ks : List Bytes} (r : DropReason)
    (hdrop : ∀ d k, k ∈ ks → P d → P (d.drop r k)) (h : P d) : P (d.dropAll r ks) :=
  List.foldlRecOn ks _ h fun d hd k hk => hdrop d k hk hd

def Draw.scored (d : Draw) (su : Setup) (s : State) (members : List Bytes) : Draw :=
  if su.groupScoring || members.any fun k => (s.entryAt k).useGroupScoring.getD false then
    d.dropAll .groupScoreLoser (scoreLosers su s members)
  else d

theorem resolveGroup_eq (su : Setup) (s : State) (d : Draw) (name : Bytes) (all : List Bytes) :
    resolveGroup su s d name all =
      let members := d.alive all
      let left := (d.scored su s members).alive members
      let (best, random) := winner s.entryAt left (d.scored su s members).random
      if members.isEmpty then d
      else if members.any (groupSticky su s) then
        d.dropAll .groupStickyLoser (members.filter (!groupSticky su s ·))
      else if name ∈ s.selectedGroups then d.dropAll .groupAlreadyActivated members
      else if left.length ≤ 1 then d.scored su s members
      else { d.scored su s members with random }.dropAll .groupLoser (left.filter (· ≠ best)) :=
  rfl

/-- Resolving a group takes draws and drops members that are not sticky. -/
theorem resolveGroup_keeps {P : Draw → Prop} {name : Bytes} {all : List Bytes}
    (hdrop : ∀ d, ∀ r ∈ groupReasons, ∀ k ∈ all, groupSticky su s k = false → P d →
      P (d.drop r k))
    (hrandom : ∀ d random, P d → P { d with random }) (h : P d) :
    P (resolveGroup su s d name all) := by
  have hall {k : Bytes} (hk : k ∈ d.alive all) : k ∈ all := (Draw.mem_alive.mp hk).1
  have hscored (hplain : ∀ k ∈ d.alive all, groupSticky su s k = false) :
      P (d.scored su s (d.alive all)) := by
    unfold Draw.scored
    split
    · refine Draw.dropAll_keeps _ (fun d' k hk => ?_) h
      have hk' : k ∈ d.alive all := (List.mem_filter.mp hk).1
      exact hdrop d' _ (by decide) k (hall hk') (hplain k hk')
    · exact h
  rw [resolveGroup_eq]
  dsimp only
  split
  · exact h
  split
  · refine Draw.dropAll_keeps _ (fun d' k hk => ?_) h
    simp only [List.mem_filter, Bool.not_eq_true'] at hk
    exact hdrop d' _ (by decide) k (hall hk.1) hk.2
  next hsticky =>
  have hplain : ∀ k ∈ d.alive all, groupSticky su s k = false := by
    simpa only [List.any_eq_true, not_exists, not_and, Bool.not_eq_true] using hsticky
  split
  · refine Draw.dropAll_keeps _ (fun d' k hk => ?_) h
    exact hdrop d' _ (by decide) k (hall hk) (hplain k hk)
  split
  · exact hscored hplain
  · refine Draw.dropAll_keeps _ (fun d' k hk => ?_) (hrandom _ _ (hscored hplain))
    have hk' := (Draw.mem_alive.mp (List.mem_filter.mp hk).1).1
    exact hdrop d' _ (by decide) k (hall hk') (hplain k hk')

theorem mem_removed_resolveGroup {name : Bytes} {all : List Bytes} {k : Bytes}
    (h : k ∈ d.removed) : k ∈ (resolveGroup su s d name all).removed := by
  apply resolveGroup_keeps (P := fun d => k ∈ d.removed)
  · intro d' r _ x _ _ hd'
    exact (d'.mem_removed_drop r).mpr (.inl hd')
  · intro d' random hd'
    exact hd'
  · exact h

theorem mem_removed_resolveGroup_of_not_mem {name : Bytes} {all : List Bytes} {k : Bytes}
    (h : k ∉ all) :
    k ∈ (resolveGroup su s d name all).removed ↔ k ∈ d.removed := by
  apply resolveGroup_keeps (P := fun d' => k ∈ d'.removed ↔ k ∈ d.removed)
  · intro d' r _ x hx _ hd'
    have hne : k ≠ x := fun heq => h (heq ▸ hx)
    rw [Draw.mem_removed_drop, hd', or_iff_left hne]
  · intro d' random hd'
    exact hd'
  · exact Iff.rfl

end Scan
end Lorebook
