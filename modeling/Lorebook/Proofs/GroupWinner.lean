import Lorebook.Proofs.Draws
import Mathlib.Data.Finset.Max

set_option autoImplicit false

/-!
Who wins a group. A group without sticky members that has no winner yet keeps one member. If its
score counts, no member has a higher one; and it has an override if any of those has one that the
scores leave, with an insertion order that none of these exceeds.
-/

namespace Lorebook

theorem Scanner.score_nonneg (sc : Scanner) (e : Entry) (text : Bytes) : 0 ≤ sc.score e text := by
  unfold score
  dsimp only
  split
  · exact Int.le_refl 0
  split
  · exact Int.natCast_nonneg _
  · split
    · omega
    · split <;> omega
    all_goals exact Int.natCast_nonneg _

namespace Scan

section Scores

variable {su : Setup} {s : State} {members : List Bytes} {k : Bytes}

def scoreAt (su : Setup) (s : State) (k : Bytes) : Int :=
  su.scanner.score (s.entryAt k) (textFor su s (s.entryAt k))

def takesPart (su : Setup) (s : State) (k : Bytes) : Bool :=
  (s.entryAt k).useGroupScoring.getD su.groupScoring

/-- A candidate that takes part in scoring and scores less than some member. -/
def Outscored (su : Setup) (s : State) (members : List Bytes) (k : Bytes) : Prop :=
  takesPart su s k = true ∧ ∃ x ∈ members, scoreAt su s k < scoreAt su s x

theorem lt_foldl_best_iff (n b : Int) (xs : List Int) :
    n < xs.foldl (fun a b => if a < b then b else a) b ↔ n < b ∨ ∃ x ∈ xs, n < x := by
  induction xs generalizing b with
  | nil => simp
  | cons x xs ih =>
    have hstep : (n < if b < x then x else b) ↔ n < b ∨ n < x := by
      split <;> omega
    rw [List.foldl_cons, ih, hstep, or_assoc, List.exists_mem_cons_iff]

theorem mem_scoreLosers :
    k ∈ scoreLosers su s members ↔ k ∈ members ∧ Outscored su s members k := by
  have hpos : ¬scoreAt su s k < 0 := Int.not_lt.mpr (Scanner.score_nonneg _ _ _)
  have hbest : scoreAt su s k
        < (members.map (scoreAt su s)).foldl (fun a b => if a < b then b else a) 0 ↔
      ∃ x ∈ members, scoreAt su s k < scoreAt su s x := by
    rw [lt_foldl_best_iff, or_iff_right hpos]
    simp only [List.mem_map, exists_exists_and_eq_and]
  rw [scoreLosers, List.mem_filter, Bool.and_eq_true, decide_eq_true_eq]
  exact and_congr_right fun _ => and_congr_right fun _ => hbest

theorem exists_not_outscored (su : Setup) (s : State) (h : members ≠ []) :
    ∃ k ∈ members, ¬Outscored su s members k := by
  have hne : members.toFinset.Nonempty := List.toFinset_nonempty_iff members |>.mpr h
  obtain ⟨k, hk, hmax⟩ := members.toFinset.exists_max_image (scoreAt su s) hne
  refine ⟨k, List.mem_toFinset.mp hk, ?_⟩
  rintro ⟨_, x, hx, hlt⟩
  exact absurd hlt (Int.not_lt.mpr (hmax x (List.mem_toFinset.mpr hx)))

theorem Draw.mem_removed_scored {d : Draw} :
    k ∈ (d.scored su s members).removed ↔
      k ∈ d.removed ∨ k ∈ members ∧ Outscored su s members k := by
  unfold Draw.scored
  split
  · rw [Draw.mem_removed_dropAll, mem_scoreLosers]
  -- Where nothing asks for scoring nobody takes part in it.
  next hoff =>
  refine (or_iff_left ?_).symm
  rintro ⟨hk, hpart, _⟩
  simp only [Bool.or_eq_true, List.any_eq_true, not_or, not_exists, not_and] at hoff
  obtain ⟨hscan, hown⟩ := hoff
  have hk := hown k hk
  unfold takesPart at hpart
  cases huse : (s.entryAt k).useGroupScoring with
  | none => exact hscan (by simpa [huse] using hpart)
  | some b => exact hk (by simpa [huse] using hpart)

end Scores

section Overrides

variable {entry : Bytes → Entry} {members : List Bytes} {k w : Bytes}

def Overriding (entry : Bytes → Entry) (members : List Bytes) : Option Bytes → Prop
  | none => ∀ k ∈ members, (entry k).groupOverride = false
  | some w => w ∈ members ∧ (entry w).groupOverride = true ∧
      ∀ k ∈ members, (entry k).groupOverride = true →
        (entry k).insertionOrder ≤ (entry w).insertionOrder

theorem overriding_overrideWinner? (entry : Bytes → Entry) (members : List Bytes) :
    Overriding entry members (overrideWinner? entry members) := by
  induction members using List.reverseRecOn with
  | nil => exact fun k hk => absurd hk List.not_mem_nil
  | append_singleton ks k ih =>
    unfold overrideWinner? at ih ⊢
    rw [List.foldl_append, List.foldl_cons, List.foldl_nil]
    generalize List.foldl _ none ks = best at ih
    cases hk : (entry k).groupOverride with
    | false =>
      rw [Bool.not_false, if_pos rfl]
      cases best with
      | none => exact List.forall_mem_append.mpr ⟨ih, List.forall_mem_singleton.mpr hk⟩
      | some b =>
        obtain ⟨hb, ho, hmax⟩ := ih
        exact ⟨List.mem_append_left _ hb, ho, List.forall_mem_append.mpr ⟨hmax, by simp [hk]⟩⟩
    | true =>
      rw [Bool.not_true, if_neg Bool.false_ne_true]
      cases best with
      | none =>
        have hnone : ∀ x ∈ ks, (entry x).groupOverride = true →
            (entry x).insertionOrder ≤ (entry k).insertionOrder := by
          intro x hx hxo
          rw [ih x hx] at hxo
          cases hxo
        exact ⟨by simp, hk, List.forall_mem_append.mpr ⟨hnone, by simp⟩⟩
      | some b =>
        obtain ⟨hb, ho, hmax⟩ := ih
        dsimp only
        split
        · next hlt =>
          have hless : ∀ x ∈ ks, (entry x).groupOverride = true →
              (entry x).insertionOrder ≤ (entry k).insertionOrder :=
            fun x hx hxo => Int.le_of_lt (Int.lt_of_le_of_lt (hmax x hx hxo) hlt)
          exact ⟨by simp, hk, List.forall_mem_append.mpr ⟨hless, by simp⟩⟩
        · next hle =>
          have hk : (entry k).insertionOrder ≤ (entry b).insertionOrder := Int.not_lt.mp hle
          refine ⟨List.mem_append_left _ hb, ho, List.forall_mem_append.mpr ⟨hmax, ?_⟩⟩
          exact List.forall_mem_singleton.mpr fun _ => hk

theorem drawnMember_mem {weight : Bytes → Int} {roll running : Float} {last : Bytes}
    {ks : List Bytes} (hlast : last ∈ members) (hks : ks ⊆ members) :
    drawnMember weight roll running last ks ∈ members := by
  induction ks generalizing running with
  | nil => exact hlast
  | cons k ks ih =>
    obtain ⟨hk, hks⟩ := List.cons_subset.mp hks
    unfold drawnMember
    dsimp only
    split
    · exact hk
    · exact ih hks

theorem winner_mem (entry : Bytes → Entry) (r : Random) (h : members ≠ []) :
    (winner entry members r).1 ∈ members := by
  have hfirst : members.headD [] ∈ members := by
    obtain ⟨first, rest, rfl⟩ := List.exists_cons_of_ne_nil h
    exact List.mem_cons_self
  have hlast : members.getLastD (members.headD []) ∈ members := by
    have hor : members.getLastD (members.headD []) ∈ members.headD [] :: members :=
      List.getLastD_mem_cons
    rcases List.mem_cons.mp hor with hl | hl
    · rwa [hl]
    · exact hl
  have hspec := overriding_overrideWinner? entry members
  unfold winner
  dsimp only
  split
  · next w hw =>
    rw [hw] at hspec
    exact hspec.1
  split
  · exact drawnMember_mem hlast (List.Subset.refl members)
  · exact hfirst

theorem winner_overrides (r : Random) (hk : k ∈ members) (ho : (entry k).groupOverride = true) :
    (entry (winner entry members r).1).groupOverride = true ∧
      (entry k).insertionOrder ≤ (entry (winner entry members r).1).insertionOrder := by
  have hspec := overriding_overrideWinner? entry members
  unfold winner
  cases hw : overrideWinner? entry members with
  | none =>
    rw [hw] at hspec
    rw [hspec k hk] at ho
    cases ho
  | some w =>
    rw [hw] at hspec
    exact ⟨hspec.2.1, hspec.2.2 k hk ho⟩

end Overrides

section Winner

variable {su : Setup} {s : State} {d : Draw} {name : Bytes} {all : List Bytes}

structure Prevails (su : Setup) (s : State) (members : List Bytes) (w : Bytes) : Prop where
  mem : w ∈ members
  score : takesPart su s w = true → ∀ k ∈ members, scoreAt su s k ≤ scoreAt su s w
  /-- An override that the scores leave gives the group to the highest insertion order among such. -/
  override : ∀ k ∈ members, ¬Outscored su s members k → (s.entryAt k).groupOverride = true →
    (s.entryAt w).groupOverride = true ∧
      (s.entryAt k).insertionOrder ≤ (s.entryAt w).insertionOrder

theorem Prevails.congr {members members' : List Bytes} {w : Bytes}
    (h : ∀ k, k ∈ members ↔ k ∈ members') (hw : Prevails su s members w) :
    Prevails su s members' w where
  mem := (h w).mp hw.mem
  score hpart k hk := hw.score hpart k ((h k).mpr hk)
  override k hk hnot := by
    refine hw.override k ((h k).mpr hk) ?_
    simpa only [Outscored, h] using hnot

/-- A group that is open and has no sticky member keeps one of its members. -/
theorem resolveGroup_prevails (hne : d.alive all ≠ [])
    (hplain : ∀ k ∈ d.alive all, groupSticky su s k = false) (hopen : name ∉ s.selectedGroups) :
    ∃ w, Prevails su s (d.alive all) w ∧
      ∀ k, k ∈ (resolveGroup su s d name all).alive all ↔ k = w := by
  have hempty : (d.alive all).isEmpty = false := by simpa using hne
  have hsticky : (d.alive all).any (groupSticky su s) = false := by
    simpa [List.any_eq_false] using hplain
  rw [resolveGroup_eq]
  dsimp only
  rw [hempty, hsticky, if_neg Bool.false_ne_true, if_neg Bool.false_ne_true, if_neg hopen]
  generalize hms : d.alive all = ms at *
  generalize hd : d.scored su s ms = d'
  have hmem {k : Bytes} : k ∈ d'.alive ms ↔ k ∈ ms ∧ ¬Outscored su s ms k := by
    rw [Draw.mem_alive, ← hd, Draw.mem_removed_scored, ← hms, Draw.mem_alive]
    tauto
  have hall {k : Bytes} : k ∈ d'.alive all ↔ k ∈ d'.alive ms := by
    rw [hmem, Draw.mem_alive, ← hd, Draw.mem_removed_scored, ← hms, Draw.mem_alive]
    tauto
  have hprevails {w : Bytes} (hw : w ∈ d'.alive ms)
      (ho : ∀ k ∈ d'.alive ms, (s.entryAt k).groupOverride = true →
        (s.entryAt w).groupOverride = true ∧
          (s.entryAt k).insertionOrder ≤ (s.entryAt w).insertionOrder) : Prevails su s ms w := by
    obtain ⟨hw, hout⟩ := hmem.mp hw
    refine ⟨hw, fun hpart k hk => Int.not_lt.mp fun hlt => hout ⟨hpart, k, hk, hlt⟩, ?_⟩
    exact fun k hk hnot => ho k (hmem.mpr ⟨hk, hnot⟩)
  obtain ⟨x, hx, hxo⟩ := exists_not_outscored su s hne
  have hleft : x ∈ d'.alive ms := hmem.mpr ⟨hx, hxo⟩
  split
  · -- The scores leave one member.
    next hlen =>
    have hone {k : Bytes} (hk : k ∈ d'.alive ms) : k = x := by
      obtain ⟨y, hy⟩ := List.length_eq_one_iff.mp
        (Nat.le_antisymm hlen (List.length_pos_of_mem hleft))
      rw [hy] at hk hleft
      rw [List.mem_singleton.mp hk, List.mem_singleton.mp hleft]
    refine ⟨x, hprevails hleft fun k hk ho => ?_, fun k => ?_⟩
    · rw [hone hk] at ho ⊢
      exact ⟨ho, Int.le_refl _⟩
    · rw [hall]
      exact ⟨hone, fun h => h ▸ hleft⟩
  · -- An override or a draw picks one.
    have hbest := winner_mem s.entryAt d'.random (List.ne_nil_of_mem hleft)
    refine ⟨_, hprevails hbest fun k hk ho => winner_overrides _ hk ho, fun k => ?_⟩
    generalize winner s.entryAt (d'.alive ms) d'.random = best at hbest ⊢
    rw [Draw.mem_alive, Draw.mem_removed_dropAll, not_or, ← and_assoc]
    change (k ∈ all ∧ k ∉ d'.removed) ∧ _ ↔ _
    rw [← Draw.mem_alive, hall, List.mem_filter, decide_eq_true_eq]
    constructor
    · rintro ⟨hk, hnot⟩
      by_contra hne
      exact hnot ⟨hk, hne⟩
    · rintro rfl
      exact ⟨hbest, fun hk => hk.2 rfl⟩

end Winner
end Scan
end Lorebook
