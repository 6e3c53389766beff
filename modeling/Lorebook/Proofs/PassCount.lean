import Lorebook.Proofs.Acceptance
import Lorebook.Proofs.Activation
import Lorebook.Proofs.Evaluation
import Mathlib.Data.List.Dedup

set_option autoImplicit false

/-!
How many passes a scan makes. Each pass that is followed by another takes one of a fixed number of
recursion steps, opens one of the levels that entries wait for, or widens the window by a message;
so a rank goes down from pass to pass, and the bound that `run` is given is never used up.
-/

namespace Lorebook

theorem Bounded.le_of_clamp_le {n b : Int} (h : clamp n ≤ b) (hb : b < max) : n ≤ b := by
  unfold clamp at h
  split at h
  · omega
  · split at h <;> omega

namespace Scan

/-- From a state the scan makes `n` passes one after another, the last of which stops in `t`. -/
inductive Passes (su : Setup) : State → Nat → State → Prop
  | last {s t : State} : step su s = .stop t → Passes su s 1 t
  | more {s t u : State} {n : Nat} : step su s = .again t → Passes su t n u → Passes su s (n + 1) u

theorem Passes.run_eq {su : Setup} {s t : State} {n : Nat} (h : Passes su s n t) {fuel : Nat}
    (hf : n ≤ fuel) : run su fuel s = t := by
  induction h generalizing fuel with
  | last hst =>
    obtain ⟨fuel, rfl⟩ := Nat.exists_eq_add_of_le' hf
    simp [run, hst]
  | more hst _ ih =>
    obtain ⟨fuel, rfl⟩ := Nat.exists_eq_add_of_le' (Nat.le_of_add_left_le hf)
    rw [run, hst]
    exact ih (by omega)

/-- A rank that every pass lowers before another one bounds the number of passes. -/
theorem exists_passes {su : Setup} (rank : State → Nat)
    (hstep : ∀ s t, step su s = .again t → rank t < rank s) (s : State) :
    ∃ n t, Passes su s n t ∧ n ≤ 1 + rank s := by
  induction hr : rank s using Nat.strongRecOn generalizing s with
  | ind r ih =>
    cases hst : step su s with
    | stop t => exact ⟨1, t, .last hst, by omega⟩
    | again t =>
      have hlt := hstep s t hst
      obtain ⟨n, u, hn, hle⟩ := ih (rank t) (hr ▸ hlt) t rfl
      exact ⟨n + 1, u, .more hst hn, by omega⟩

structure SameReach (s t : State) : Prop where
  buffer : t.buffer = s.buffer
  recursionSteps : t.recursionSteps = s.recursionSteps
  widened : t.widened = s.widened
  level : t.level = s.level

namespace SameReach

variable {s t u : State}

theorem trans (h : SameReach s t) (h' : SameReach t u) : SameReach s u where
  buffer := h'.buffer.trans h.buffer
  recursionSteps := h'.recursionSteps.trans h.recursionSteps
  widened := h'.widened.trans h.widened
  level := h'.level.trans h.level

theorem note (su : Setup) (s : State) (line : Bytes) : SameReach s (s.note su line) := by
  unfold State.note
  split <;> exact ⟨rfl, rfl, rfl, rfl⟩

theorem enlist (s : State) (k : PassKind) (e : Entry) (tr : Trigger) :
    SameReach s (s.enlist k e tr) := by
  obtain ⟨_, _, h⟩ := s.enlist_frame k e tr
  rw [h]
  exact ⟨rfl, rfl, rfl, rfl⟩

theorem enlisted (su : Setup) (s : State) : SameReach s (enlisted su s) := by
  have hfold : SameReach s (activate su { s with passes := s.passes + 1 }).1 := by
    refine List.foldlRecOn (motive := SameReach s) (activated su s) _ ⟨rfl, rfl, rfl, rfl⟩ ?_
    rintro t ht ⟨e, tr⟩ _
    exact ht.trans (enlist t _ e tr)
  exact hfold.trans (note su _ _)

theorem acceptOne (su : Setup) (s : State) (c : Candidate) :
    SameReach s (acceptOne su s c).1 := by
  apply acceptOne_elim (P := fun r => SameReach s r.1)
  intro r hr
  cases hr <;> exact ⟨rfl, rfl, rfl, rfl⟩

theorem settled (su : Setup) (s : State) : SameReach s (settled su s) := by
  have hresolved : SameReach s (resolved su s) :=
    (enlisted su s).trans ⟨rfl, rfl, rfl, rfl⟩
  exact accept_keeps (P := SameReach s) (fun t _ c _ _ ht => ht.trans (acceptOne su t c)) hresolved

end SameReach

/-- The three ways in which another pass comes about. -/
inductive Continues (su : Setup) (s t : State) : Prop
  | fed : su.recursive = true → s.recursionSteps < su.scanner.maxRecursionSteps →
      t.recursionSteps = s.recursionSteps + 1 → s.level ≤ t.level → Continues su s t
  | raised : su.recursive = true → t.level ∈ su.levels → s.level < t.level →
      t.recursionSteps = s.recursionSteps → Continues su s t
  | wider : su.widens = true → (t.selectedKeys.length : Int) < su.minActivations →
      (0 < su.maxDepth → widerDepth su s ≤ su.maxDepth) →
      widerDepth su s ≤ su.sources.messages.length → t.widened = s.widened + 1 → Continues su s t

section Step

variable {su : Setup} {s t : State}

theorem feed_reach (su : Setup) (s : State) (fresh : Bytes) :
    (feed su s fresh).recursionSteps = s.recursionSteps + 1 ∧
      s.level ≤ (feed su s fresh).level := by
  have hnote (p : Prop) [Decidable p] (u : State) (line : Bytes) :
      SameReach u (if p then u.note su line else u) := by
    split
    · exact .note su u line
    · exact ⟨rfl, rfl, rfl, rfl⟩
  refine ⟨(hnote _ _ _).recursionSteps, ?_⟩
  dsimp only [feed]
  rw [(hnote _ _ _).level]
  dsimp only
  split <;> omega

theorem continues_widen (h : widen su s = .again t) : Continues su s t := by
  unfold widen at h
  split at h
  · next hcan =>
    cases h
    simp only [canWiden, Bool.and_eq_true, Bool.not_eq_true', decide_eq_true_eq,
      Bool.and_eq_false_iff, decide_eq_false_iff_not] at hcan
    obtain ⟨⟨⟨hw, hfew⟩, hmax⟩, hlen⟩ := hcan
    have hsame := SameDecisions.note su { s with widened := s.widened + 1 }
      (lit "widening scan window to " ++ Bytes.ofInt (widerDepth su s) ++ lit " messages")
    refine .wider hw ?_ (by omega) hlen (SameReach.note su _ _).widened
    rw [hsame.selectedKeys]
    exact hfew
  · cases h

theorem continues_escalate {accepted : List Bytes} (h : escalate su s accepted = .again t) :
    Continues su s t := by
  unfold escalate at h
  dsimp only at h
  split at h
  · next hfresh =>
    split at h
    · cases h
    · next hsteps =>
      cases h
      obtain ⟨hs, hl⟩ := feed_reach su s (freshContent s accepted)
      exact .fed (by simp_all) (by omega) hs hl
  · split at h
    · next level hlevel =>
      cases h
      split at hlevel
      · next hrec =>
        have hmem := List.mem_of_find?_eq_some hlevel
        have habove := List.find?_some hlevel
        simp only [Bool.and_eq_true, decide_eq_true_eq] at hrec habove
        exact .raised hrec.1 hmem habove rfl
      · cases hlevel
    · exact continues_widen h

/-- What a pass that is followed by another has done. -/
theorem continues_of_again (h : step su s = .again t) : Continues su s t := by
  rw [step_eq] at h
  split at h
  · cases h
  split at h
  · cases h
  have hreach := SameReach.settled su s
  have hwider : widerDepth su (settled su s) = widerDepth su s := by
    rw [widerDepth, widerDepth, hreach.widened]
  cases continues_escalate h with
  | fed hrec hlt hsteps hlevel =>
    rw [hreach.recursionSteps] at hlt hsteps
    rw [hreach.level] at hlevel
    exact .fed hrec hlt hsteps hlevel
  | raised hrec hmem hlevel hsteps =>
    rw [hreach.recursionSteps] at hsteps
    rw [hreach.level] at hlevel
    exact .raised hrec hmem hlevel hsteps
  | wider hw hfew hmax hlen hwidened =>
    rw [hwider] at hmax hlen
    rw [hreach.widened] at hwidened
    exact .wider hw hfew hmax hlen hwidened

end Step

section Rank

variable {su : Setup} {s t : State}

/-- The steps that are left to a recursive scan, and the levels that are still closed. -/
def stepsLeft (su : Setup) (s : State) : Nat :=
  su.scanner.maxRecursionSteps - s.recursionSteps + (su.levels.filter (s.level < ·)).length

theorem length_filter_lt_of_le (levels : List Int) {a b : Int} (h : a ≤ b) :
    (levels.filter (b < ·)).length ≤ (levels.filter (a < ·)).length := by
  apply List.Sublist.length_le
  apply List.monotone_filter_right
  intro n hn
  simp only [decide_eq_true_eq] at hn ⊢
  omega

theorem length_filter_lt_of_mem {levels : List Int} {a b : Int} (hb : b ∈ levels) (h : a < b) :
    (levels.filter (b < ·)).length < (levels.filter (a < ·)).length := by
  have hsub : (levels.filter (a < ·)).filter (b < ·) = levels.filter (b < ·) := by
    rw [List.filter_filter]
    apply List.filter_congr
    intro n _
    simp only [Bool.and_eq_decide]
    grind
  rw [← hsub]
  exact List.length_filter_lt_length_iff_exists.mpr ⟨b, by simp [hb, h], by simp⟩

theorem stepsLeft_again (hmin : su.widens = false) (h : step su s = .again t) :
    stepsLeft su t < stepsLeft su s := by
  unfold stepsLeft
  cases continues_of_again h with
  | fed _ hlt hsteps hlevel =>
    have hle := length_filter_lt_of_le su.levels hlevel
    omega
  | raised _ hmem hlevel hsteps =>
    have hlt := length_filter_lt_of_mem hmem hlevel
    omega
  | wider hw _ _ _ _ =>
    rw [hmin] at hw
    cases hw

def widest (su : Setup) : Int :=
  if 0 < su.maxDepth then min (su.sources.messages.length : Int) su.maxDepth
  else su.sources.messages.length

/-- The messages by which the window may still be widened. -/
def roomLeft (su : Setup) (s : State) : Nat := (widest su - su.baseDepth - s.widened).toNat

theorem roomLeft_again (hrec : su.recursive = false)
    (hM : (su.sources.messages.length : Int) < Bounded.max) (h : step su s = .again t) :
    roomLeft su t < roomLeft su s := by
  cases continues_of_again h with
  | fed hr _ _ _ =>
    rw [hrec] at hr
    cases hr
  | raised hr _ _ _ =>
    rw [hrec] at hr
    cases hr
  | wider _ _ hmax hlen hwidened =>
    have hwidest : widerDepth su s ≤ widest su := by
      unfold widest
      split <;> omega
    have hbelow : widest su < Bounded.max := by
      unfold widest
      split <;> omega
    -- Below the end of the range the sums are not pinned.
    have hone := Bounded.le_of_clamp_le hwidest hbelow
    have hbase : su.baseDepth + s.widened ≤ widest su - 1 :=
      Bounded.le_of_clamp_le (by rw [Bounded.add] at hone; omega) (by omega)
    unfold roomLeft
    omega

end Rank

section Levels

def levelsAwaited (entries : List Entry) : List Int :=
  ((entries.filterMap (·.delayUntilRecursion)).filter (0 < ·)).dedup

theorem map_recursionLevel (entries : List Entry) :
    (entries.filter (·.delaysUntilRecursion)).map (·.recursionLevel)
      = (entries.filterMap (·.delayUntilRecursion)).filter (0 < ·) := by
  induction entries with
  | nil => rfl
  | cons e entries ih =>
    have hlevel : e.recursionLevel = (e.delayUntilRecursion.filter (0 < ·)).getD 0 := rfl
    have hdelays : e.delaysUntilRecursion = decide (0 < e.recursionLevel) := rfl
    cases hd : e.delayUntilRecursion with
    | none =>
      have hno : e.delaysUntilRecursion = false := by simp [hdelays, hlevel, hd]
      rw [List.filter_cons_of_neg (by simp [hno]), List.filterMap_cons_none hd, ih]
    | some n =>
      rw [List.filterMap_cons_some hd]
      by_cases hn : 0 < n
      · have hl : e.recursionLevel = n := by
          simp [hlevel, hd, Option.filter_some, hn]
        have hyes : e.delaysUntilRecursion = true := by simp [hdelays, hl, hn]
        rw [List.filter_cons_of_pos hyes, List.map_cons, hl, ih,
          List.filter_cons_of_pos (by simpa using hn)]
      · have hno : e.delaysUntilRecursion = false := by
          simp [hdelays, hlevel, hd, Option.filter_some, hn]
        rw [List.filter_cons_of_neg (by simp [hno]), List.filter_cons_of_neg (by simpa using hn),
          ih]

theorem nodup_foldl_once (xs : List Int) {out : List Int} (h : out.Nodup) :
    (xs.foldl (fun out n => if n ∈ out then out else n :: out) out).Nodup ∧
      ∀ n, n ∈ xs.foldl (fun out n => if n ∈ out then out else n :: out) out ↔
        n ∈ xs ∨ n ∈ out := by
  induction xs generalizing out with
  | nil => simpa using h
  | cons x xs ih =>
    rw [List.foldl_cons]
    split
    · next hx =>
      obtain ⟨hn, hm⟩ := ih h
      refine ⟨hn, fun n => ?_⟩
      rw [hm, List.mem_cons]
      grind
    · next hx =>
      obtain ⟨hn, hm⟩ := ih (List.nodup_cons.mpr ⟨hx, h⟩)
      refine ⟨hn, fun n => ?_⟩
      rw [hm, List.mem_cons, List.mem_cons]
      grind

theorem mem_recursionLevels {entries : List Entry} {n : Int} : n ∈ recursionLevels entries ↔
    ∃ e ∈ entries, e.delaysUntilRecursion = true ∧ e.recursionLevel = n := by
  have hm := (nodup_foldl_once
    ((entries.filter (·.delaysUntilRecursion)).map (·.recursionLevel)) List.nodup_nil).2
  simp [recursionLevels, hm, and_assoc]

theorem length_recursionLevels (entries : List Entry) :
    (recursionLevels entries).length = (levelsAwaited entries).length := by
  obtain ⟨hn, hm⟩ := nodup_foldl_once
    ((entries.filter (·.delaysUntilRecursion)).map (·.recursionLevel)) List.nodup_nil
  rw [recursionLevels, length_sortBy]
  apply List.Perm.length_eq
  refine (List.perm_ext_iff_of_nodup hn (List.nodup_dedup _)).mpr fun n => ?_
  rw [hm, List.mem_dedup, map_recursionLevel]
  simp

end Levels

section Evaluate

variable {sc : Scanner} {books : List Book} {o : Options} {vars : Variables} {random : Random}
  {su : Setup} {s : State}

theorem step_of_plain (hrec : su.recursive = false) (hmin : su.widens = false) (s : State) :
    ∃ t, step su s = .stop t := by
  cases hst : step su s with
  | stop t => exact ⟨t, rfl⟩
  | again t =>
    cases continues_of_again hst with
    | fed h _ _ _ => simp [hrec] at h
    | raised h _ _ _ => simp [hrec] at h
    | wider h _ _ _ _ => simp [hmin] at h

theorem few_of_again (hrec : su.recursive = false) {u v : State} (h : step su u = .again v) :
    (v.selectedKeys.length : Int) < su.minActivations := by
  cases continues_of_again h with
  | fed h _ _ _ => simp [hrec] at h
  | raised h _ _ _ => simp [hrec] at h
  | wider _ hfew _ _ _ => exact hfew

theorem passes_of_recursive (hrec : su.recursive = true) (hmin : su.widens = false) (s : State) :
    ∃ n t, Passes su s n t ∧ n ≤ passBound su ∧
      n ≤ 1 + su.scanner.maxRecursionSteps + su.levels.length := by
  obtain ⟨n, t, hn, hle⟩ :=
    exists_passes (stepsLeft su) (fun _ _ huv => stepsLeft_again hmin huv) s
  have hleft : stepsLeft su s ≤ su.scanner.maxRecursionSteps + su.levels.length := by
    have hfilter := List.length_filter_le (s.level < ·) su.levels
    rw [stepsLeft]
    omega
  refine ⟨n, t, hn, ?_, by omega⟩
  rw [passBound, if_pos hrec]
  omega

theorem passes_of_widening (hrec : su.recursive = false)
    (hM : (su.sources.messages.length : Int) < Bounded.max) (hs : s.widened = 0) :
    ∃ n t, Passes su s n t ∧ n ≤ passBound su ∧
      (n : Int) ≤ 1 + max 0 (widest su - su.baseDepth) := by
  obtain ⟨n, t, hn, hle⟩ :=
    exists_passes (roomLeft su) (fun _ _ huv => roomLeft_again hrec hM huv) s
  have hroom : roomLeft su s = (widest su - su.baseDepth).toNat := by
    simp [roomLeft, hs]
  have hwidest : widest su ≤ su.sources.messages.length := by
    unfold widest
    split <;> omega
  refine ⟨n, t, hn, ?_, by omega⟩
  rw [passBound, hrec]
  simp only [Bool.false_eq_true, if_false]
  omega

theorem passes_of_plain (hrec : su.recursive = false) (hmin : su.widens = false) (s : State) :
    ∃ t, Passes su s 1 t ∧ 1 ≤ passBound su := by
  obtain ⟨t, ht⟩ := step_of_plain hrec hmin s
  refine ⟨t, .last ht, ?_⟩
  unfold passBound
  split <;> omega

theorem widens_setup {effects : Effects} :
    (setup sc books o effects).widens = decide (0 < o.minActivations) := by
  have hmin : 0 < (setup sc books o effects).minActivations ↔ 0 < o.minActivations := by
    dsimp only [setup]
    split <;> omega
  exact decide_eq_decide.mpr hmin

theorem recursive_setup {effects : Effects} :
    (setup sc books o effects).recursive = true ↔ o.minActivations ≤ 0 ∧
      0 < sc.maxRecursionSteps ∧ books.any (·.recursiveScanning) = true := by
  simp only [setup, Bool.and_eq_true, decide_eq_true_eq, and_assoc]
  split
  · simp
    omega
  · simp

theorem not_widening_of_recursive {effects : Effects}
    (h : (setup sc books o effects).recursive = true) : ¬0 < o.minActivations := by
  have hmin := (recursive_setup.mp h).1
  omega

theorem widest_setup {effects : Effects} :
    widest (setup sc books o effects) =
      if 0 < o.minActivationsDepth then min (o.chat.length : Int) o.minActivationsDepth
      else o.chat.length := by
  simp only [widest, setup]
  grind

/-- Every scan comes to its end by itself. A recursive one makes, after its first pass, one pass at
most for each recursion step and for each level that entries wait for; one with a minimum of
activations makes one for each message by which the window can grow, and only as long as the minimum
is not reached; any other makes a single pass. -/
theorem evaluate_passes (hM : (o.chat.length : Int) < Bounded.max)
    (h : opening? sc books o vars random = some (su, s)) :
    ∃ n t, Passes su s n t ∧
      (evaluate sc books o vars random).outcome = .ok (outcome books o t.used t.candidates) ∧
      (su.recursive = true → n ≤ 1 + sc.maxRecursionSteps
        + (levelsAwaited (triggeredEntries books o.generation)).length) ∧
      (0 < o.minActivations →
        (n : Int) ≤ 1 + max 0 ((if 0 < o.minActivationsDepth then
            min (o.chat.length : Int) o.minActivationsDepth else o.chat.length)
          - (o.window books).getD o.chat.length) ∧
        ∀ u v, step su u = .again v → (v.selectedKeys.length : Int) < o.minActivations) ∧
      (su.recursive = false → o.minActivations ≤ 0 → n = 1) := by
  have hout := evaluate_of_opening h
  obtain ⟨effects, log, hsu, hs⟩ := opening?_eq_some h
  have hwidens : su.widens = decide (0 < o.minActivations) := by rw [hsu, widens_setup]
  -- A scan that ends within the bound of `run` is the one whose outcome is reported.
  have hend {n : Nat} {t : State} (hn : Passes su s n t) (hle : n ≤ passBound su) :
      (evaluate sc books o vars random).outcome = .ok (outcome books o t.used t.candidates) := by
    rw [hout, ending, hn.run_eq hle]
  by_cases hrec : su.recursive = true
  · have hidle : ¬0 < o.minActivations := not_widening_of_recursive (hsu ▸ hrec)
    obtain ⟨n, t, hn, hbound, hle⟩ :=
      passes_of_recursive hrec (by rw [hwidens]; exact decide_eq_false hidle) s
    have hlevels :
        su.levels.length = (levelsAwaited (triggeredEntries books o.generation)).length := by
      rw [hsu]
      exact length_recursionLevels _
    have hsteps : su.scanner.maxRecursionSteps = sc.maxRecursionSteps := by
      rw [hsu]
      rfl
    rw [hsteps, hlevels] at hle
    refine ⟨n, t, hn, hend hn hbound, fun _ => hle, fun hpos => absurd hpos hidle, fun hno => ?_⟩
    rw [hrec] at hno
    cases hno
  have hplain : su.recursive = false := by rwa [Bool.not_eq_true] at hrec
  by_cases hpos : 0 < o.minActivations
  · obtain ⟨n, t, hn, hbound, hle⟩ :=
      passes_of_widening (s := s) hplain (by rw [hsu]; exact hM) (by rw [hs]; rfl)
    have hbase : su.baseDepth = (o.window books).getD o.chat.length := by
      rw [hsu]
      rfl
    have hmin : su.minActivations = o.minActivations := by
      rw [hsu]
      exact if_neg (by omega)
    rw [hbase, hsu, widest_setup] at hle
    exact ⟨n, t, hn, hend hn hbound, fun h => absurd h hrec,
      fun _ => ⟨hle, fun u v huv => hmin ▸ few_of_again hplain huv⟩, fun _ hle => by omega⟩
  · obtain ⟨t, hn, hbound⟩ := passes_of_plain hplain (by simpa [hwidens] using hpos) s
    exact ⟨1, t, hn, hend hn hbound, fun h => absurd h hrec, fun h => absurd h hpos, fun _ _ => rfl⟩

def Options.narrow : Options where
  messages := some [lit "a", lit "b", lit "c"]
  depth := some 1
  minActivations := 5

theorem evaluate_passes_narrow : ∃ su s n t,
    (Options.narrow.chat.length : Int) < Bounded.max ∧
    opening? .standard [.constantTrio] .narrow [] (.ofList []) = some (su, s) ∧
    Passes su s n t ∧ (n : Int) ≤ 1 + max 0 (3 - 1) := by
  obtain ⟨n, t, hn, _, _, hmin, _⟩ := @evaluate_passes .standard [.constantTrio] .narrow []
    (.ofList []) _ _ (by decide) rfl
  exact ⟨_, _, n, t, by decide, rfl, hn, (hmin (by decide)).1⟩

end Evaluate
end Scan
end Lorebook
