import Lorebook.Proofs.Coherence
import Lorebook.Proofs.PassCount
import Lorebook.Proofs.Reading

set_option autoImplicit false

/-!
The sums, differences and remainders that an evaluation may come to apart from the sums of token
counts, each with its operands. Sums that might leave the signed 64-bit range are guarded; the
others count matching keys, passes, or levels below the highest one. There is no product of
integers.
-/

namespace Lorebook

open Bounded (Within)

inductive Operation where
  | sum (a b : Int)
  | difference (a b : Int)
  | remainder (a b : Int)
  deriving DecidableEq, Repr

/-- The exact result is in the range; a remainder has a divisor and a quotient in the range. -/
def Operation.Safe : Operation → Prop
  | .sum a b => Within (a + b)
  | .difference a b => Within (a - b)
  | .remainder a b => b ≠ 0 ∧ Within (a.tdiv b)

instance (op : Operation) : Decidable op.Safe := by
  cases op <;> unfold Operation.Safe Within <;> infer_instance

namespace Bounded

theorem within_zero : Within 0 := ⟨by decide, by decide⟩

theorem within_of_nonneg {n : Int} (h : 0 ≤ n) (hmax : n ≤ max) : Within n :=
  ⟨Int.le_trans (by decide) h, hmax⟩

theorem within_tdiv {a b : Int} (ha : Within a) (hb : 0 < b) : Within (a.tdiv b) := by
  obtain ⟨hlow, hhigh⟩ := ha
  by_cases hsign : 0 ≤ a
  · exact within_of_nonneg (Int.tdiv_nonneg hsign (Int.le_of_lt hb))
      (Int.le_trans (Int.tdiv_le_self b hsign) hhigh)
  · have hneg : 0 ≤ -a := by omega
    have hnonneg := Int.tdiv_nonneg hneg (Int.le_of_lt hb)
    have hle := Int.tdiv_le_self b hneg
    rw [Int.neg_tdiv] at hnonneg hle
    unfold min at hlow
    unfold Within min max
    omega

/-- A pinned sum with the operations it takes: whether the plain sum would leave the range is found
by a difference that stays inside. -/
def guardedAdd (a b : Int) : Int × List Operation :=
  if 0 < b then
    if max - b < a then (max, [.difference max b])
    else (a + b, [.difference max b, .sum a b])
  else if b < 0 then
    if a < min - b then (min, [.difference min b])
    else (a + b, [.difference min b, .sum a b])
  else (a + b, [.sum a b])

theorem guardedAdd_fst (a b : Int) (ha : Within a) (hb : Within b) :
    (guardedAdd a b).1 = add a b := by
  obtain ⟨ha₁, ha₂⟩ := ha
  obtain ⟨hb₁, hb₂⟩ := hb
  unfold guardedAdd add clamp
  unfold min max at *
  split_ifs <;> omega

theorem safe_guardedAdd {a b : Int} (ha : Within a) (hb : Within b) :
    ∀ op ∈ (guardedAdd a b).2, op.Safe := by
  obtain ⟨ha₁, ha₂⟩ := ha
  obtain ⟨hb₁, hb₂⟩ := hb
  unfold guardedAdd
  unfold min max at *
  split_ifs <;>
    simp only [List.mem_cons, List.not_mem_nil, or_false, forall_eq_or_imp, forall_eq,
      Operation.Safe, Within, min, max] <;>
    omega

def guardedSum (n : Int) : List Int → Int × List Operation
  | [] => (n, [])
  | m :: ms =>
    let (k, ops) := guardedAdd n m
    let (total, rest) := guardedSum k ms
    (total, ops ++ rest)

theorem guardedSum_spec {n : Int} {ms : List Int} (hn : Within n) (hms : ∀ m ∈ ms, Within m) :
    (guardedSum n ms).1 = ms.foldl add n ∧ ∀ op ∈ (guardedSum n ms).2, op.Safe := by
  induction ms generalizing n with
  | nil => exact ⟨rfl, by simp [guardedSum]⟩
  | cons m ms ih =>
    obtain ⟨hm, hms⟩ := List.forall_mem_cons.mp hms
    have hvalue := guardedAdd_fst n m hn hm
    obtain ⟨htotal, hrest⟩ := ih (within_clamp (n + m)) hms
    simp only [guardedSum, hvalue, List.foldl_cons]
    exact ⟨htotal, List.forall_mem_append.mpr ⟨safe_guardedAdd hn hm, hrest⟩⟩

end Bounded

namespace Entry

structure Sized (e : Entry) : Prop where
  groupWeight : Within e.groupWeight
  sticky : ∀ n, e.sticky = some n → Within n
  cooldown : ∀ n, e.cooldown = some n → Within n
  delayUntilRecursion : ∀ n, e.delayUntilRecursion = some n → Within n

variable {e : Entry}

theorem Orderly.sized (h : e.Orderly) : e.Sized where
  groupWeight := Bounded.within_of_nonneg (Int.le_trans (by decide) h.groupWeight.1) h.groupWeight.2
  sticky n hn := Bounded.within_of_nonneg (Int.le_of_lt (h.sticky n hn).1) (h.sticky n hn).2
  cooldown n hn := Bounded.within_of_nonneg (Int.le_of_lt (h.cooldown n hn).1) (h.cooldown n hn).2
  delayUntilRecursion n hn :=
    Bounded.within_of_nonneg (h.delayUntilRecursion n hn).1 (h.delayUntilRecursion n hn).2

theorem Sized.directed (h : e.Sized) (name : Bytes) (v : Json) : (e.directed name v).Sized := by
  obtain ⟨hweight, hsticky, hcooldown, hdelay⟩ := h
  unfold Entry.directed
  repeat' refine iteInduction (fun _ => ?_) (fun _ => ?_)
  all_goals first
    | exact ⟨hweight, hsticky, hcooldown, hdelay⟩
    | cases v <;> exact ⟨hweight, hsticky, hcooldown, hdelay⟩

theorem Sized.recursiveVariant (h : e.Sized) : e.recursiveVariant.Sized :=
  List.foldlRecOn e.fallbackDirectives _ h fun _ hd d _ => hd.directed d.1 d.2

theorem within_atLeast {n : Int} (h : Within n) : Within (atLeast 1 n) := by
  obtain ⟨hlow, hhigh⟩ := atLeast_bounds (by decide : (1 : Int) ≤ Bounded.max) h.2
  exact Bounded.within_of_nonneg (Int.le_trans (by decide) hlow) hhigh

theorem Sized.overridden (h : e.Sized) (o : Json) : (e.overridden o).Sized := by
  have hread {v : Json} {n : Int} (hn : Fields.positive? v.toInt? = some n) : Within n :=
    Json.within_of_toInt? (Fields.positive?_eq_some hn).1
  unfold Entry.overridden
  dsimp only
  refine ⟨?_, fun n hn => ?_, fun n hn => ?_, fun n hn => ?_⟩ <;> dsimp only at *
  · split
    · next v _ =>
      apply within_atLeast
      cases hv : v.toInt? with
      | none => exact h.groupWeight
      | some n => exact Json.within_of_toInt? hv
    · exact h.groupWeight
  · split at hn
    · exact hread hn
    · exact h.sticky n hn
  · split at hn
    · exact hread hn
    · exact h.cooldown n hn
  · split at hn
    · obtain ⟨hlow, hhigh⟩ := recursionLevel_bounds hn
      exact Bounded.within_of_nonneg hlow hhigh
    · exact h.delayUntilRecursion n hn

end Entry

namespace Scan

theorem Form.sized {su : Setup} {e v : Entry} (h : Form su e v) (he : e.Sized) : v.Sized := by
  cases h with
  | plain => exact he
  | recursive => exact he.recursiveVariant
  | forced _ => exact he.overridden _

section Budget

def bookBudgets (books : List Book) : List Int :=
  books.filterMap fun b => b.tokenBudget.filter (0 < ·)

def budgetOperations (o : Options) (books : List Book) : List Operation :=
  if o.tokenBudget.isSome then [] else (Bounded.guardedSum 0 (bookBudgets books)).2

variable {books : List Book}

theorem guarded_budgets (h : ∀ b ∈ books, ∀ n, b.tokenBudget = some n → Within n) :
    let sum := Bounded.guardedSum 0 (bookBudgets books)
    (∀ o : Options, o.budget books = (o.tokenBudget.or (some sum.1)).filter (0 < ·)) ∧
      ∀ op ∈ sum.2, op.Safe := by
  have hbudgets : ∀ n ∈ bookBudgets books, Within n := by
    intro n hn
    obtain ⟨b, hb, hsome⟩ := List.mem_filterMap.mp hn
    exact h b hb n (Option.filter_eq_some_iff.mp hsome).1
  obtain ⟨hvalue, hops⟩ := Bounded.guardedSum_spec Bounded.within_zero hbudgets
  refine ⟨fun o => ?_, hops⟩
  rw [hvalue, bookBudgets, List.foldl_filterMap]
  refine congrArg (fun sum => (o.tokenBudget.or (some sum)).filter (0 < ·)) ?_
  refine congrArg (List.foldl · 0 books) ?_
  funext n b
  cases b.tokenBudget.filter (0 < ·) <;> rfl

theorem safe_budgetOperations (h : ∀ b ∈ books, ∀ n, b.tokenBudget = some n → Within n)
    (o : Options) : ∀ op ∈ budgetOperations o books, op.Safe := by
  unfold budgetOperations
  split
  · simp
  · exact (guarded_budgets h).2

end Budget

section Pass

/-- For each record that may be made for some entries, where it ends. -/
def spanOperations (clock : Int) (es : List Entry) : List Operation :=
  es.flatMap fun e => (e.sticky.toList ++ e.cooldown.toList).flatMap fun n =>
    (Bounded.guardedAdd clock n).2

def clockOperations (su : Setup) : List Operation :=
  su.entries.flatMap fun e =>
    (e.activateOnlyEvery.filter (0 < ·)).toList.map (.remainder su.clock ·)

def windowOperations (su : Setup) (s : State) : List Operation :=
  if su.widens then su.depth.toList.flatMap fun d => (Bounded.guardedAdd d s.widened).2 else []

def contenders (su : Setup) (s : State) (d : Draw) (name : Bytes) (all : List Bytes) :
    List Bytes :=
  let members := d.alive all
  let left := (d.scored su s members).alive members
  if members.any (groupSticky su s) || name ∈ s.selectedGroups || left.length ≤ 1
      || (overrideWinner? s.entryAt left).isSome then []
  else left

def scoreOperations (su : Setup) (s : State) (keys : List Bytes) : List Operation :=
  keys.map fun k =>
    let e := s.entryAt k
    let matched (ks : List Bytes) : Nat :=
      (Scanner.matching (su.scanner.keyOptions e) ks (textFor su s e)).length
    .sum (matched e.keys) (matched e.secondaryKeys)

def weightOperations (su : Setup) (s : State) : Draw → Table (List Bytes) → List Operation
  | _, [] => []
  | d, (name, all) :: rows =>
    (Bounded.guardedSum 0 ((contenders su s d name all).map fun k => (s.entryAt k).groupWeight)).2
      ++ weightOperations su s (resolveGroup su s d name all) rows

def widerOperations (su : Setup) (s : State) : List Operation :=
  let (depth, ops) := Bounded.guardedAdd su.baseDepth s.widened
  ops ++ (Bounded.guardedAdd depth 1).2

/-- A recursion step, a level or a wider window may be counted. -/
def counterOperations (su : Setup) (s : State) : List Operation :=
  [.sum s.recursionSteps 1]
    ++ (if s.level < su.topLevel then [.sum s.level 1] else [])
    ++ (if su.widens then widerOperations su s else [])
    ++ (if canWiden su s then [.sum s.widened 1] else [])

def passOperations (su : Setup) (s : State) : List Operation :=
  windowOperations su s ++ clockOperations su
    ++ scoreOperations su (enlisted su s) (lineup su s)
    ++ weightOperations su (enlisted su s)
      { candidates := (enlisted su s).candidates, random := (enlisted su s).random }
      (groupsOf (enlisted su s) (lineup su s))
    ++ counterOperations su (settled su s)

structure Setup.Sized (su : Setup) : Prop where
  clock : Within su.clock
  depth : ∀ d, su.depth = some d → Within d
  messages : (su.sources.messages.length : Int) ≤ Bounded.max
  topLevel : su.topLevel ≤ Bounded.max
  entries : ∀ e ∈ su.entries, e.Sized
  keys : ∀ e ∈ su.entries, ∀ v, Form su e v →
    (v.keys.length : Int) + v.secondaryKeys.length ≤ Bounded.max

variable {su : Setup} {s t : State}

theorem Setup.Sized.baseDepth (h : su.Sized) : Within su.baseDepth := by
  unfold Setup.baseDepth
  cases hd : su.depth with
  | none => exact Bounded.within_of_nonneg (Int.natCast_nonneg _) h.messages
  | some d => exact h.depth d hd

theorem safe_spanOperations {clock : Int} {es : List Entry} (hclock : Within clock)
    (hes : ∀ e ∈ es, e.Sized) : ∀ op ∈ spanOperations clock es, op.Safe := by
  intro op hop
  obtain ⟨e, he, hop⟩ := List.mem_flatMap.mp hop
  obtain ⟨n, hn, hop⟩ := List.mem_flatMap.mp hop
  refine Bounded.safe_guardedAdd hclock ?_ op hop
  rcases List.mem_append.mp hn with hn | hn
  · exact (hes e he).sticky n (Option.mem_toList.mp hn)
  · exact (hes e he).cooldown n (Option.mem_toList.mp hn)

theorem safe_clockOperations (h : Within su.clock) : ∀ op ∈ clockOperations su, op.Safe := by
  intro op hop
  obtain ⟨e, _, hop⟩ := List.mem_flatMap.mp hop
  obtain ⟨n, hn, rfl⟩ := List.mem_map.mp hop
  have hpos : 0 < n := of_decide_eq_true (Option.filter_eq_some_iff.mp (Option.mem_toList.mp hn)).2
  exact ⟨by omega, Bounded.within_tdiv h hpos⟩

theorem guarded_passDepth (hsu : su.Sized) (hw : Within s.widened) :
    passDepth su s =
      (if su.widens then su.depth.map fun d => (Bounded.guardedAdd d s.widened).1
        else su.depth) ∧
      ∀ op ∈ windowOperations su s, op.Safe := by
  unfold passDepth windowOperations
  split
  · refine ⟨?_, fun op hop => ?_⟩
    · cases hd : su.depth with
      | none => rfl
      | some d => exact congrArg some (Bounded.guardedAdd_fst d _ (hsu.depth d hd) hw).symm
    · obtain ⟨d, hd, hop⟩ := List.mem_flatMap.mp hop
      exact Bounded.safe_guardedAdd (hsu.depth d (Option.mem_toList.mp hd)) hw op hop
  · exact ⟨rfl, List.forall_mem_nil _⟩

theorem guarded_widerDepth (hsu : su.Sized) (hw : Within s.widened) :
    widerDepth su s = (Bounded.guardedAdd (Bounded.guardedAdd su.baseDepth s.widened).1 1).1 ∧
      ∀ op ∈ widerOperations su s, op.Safe := by
  have hone : Within 1 := ⟨by decide, by decide⟩
  have hdepth := Bounded.guardedAdd_fst _ _ hsu.baseDepth hw
  have hsum : Within (Bounded.guardedAdd su.baseDepth s.widened).1 := by
    rw [hdepth]
    exact Bounded.within_clamp _
  refine ⟨?_, List.forall_mem_append.mpr ⟨?_, Bounded.safe_guardedAdd hsum hone⟩⟩
  · rw [Bounded.guardedAdd_fst _ _ hsum hone, hdepth, widerDepth]
  · exact Bounded.safe_guardedAdd hsu.baseDepth hw

/-- What is looked up under a key is a form of an entry, or has no keys and the usual weight. -/
theorem Coherent.entryAt_sized (hs : Coherent su s) (hsu : su.Sized) (k : Bytes) :
    (s.entryAt k).Sized ∧
      ((s.entryAt k).keys.length : Int) + (s.entryAt k).secondaryKeys.length ≤ Bounded.max := by
  unfold State.entryAt
  cases hc : s.candidates.find? k with
  | none => exact ⟨⟨⟨by decide, by decide⟩, nofun, nofun, nofun⟩, by decide⟩
  | some c =>
    obtain ⟨e, he, _, hform⟩ := (hs.sound c (Candidates.mem_of_find? hc)).form
    exact ⟨hform.sized (hsu.entries e he), hsu.keys e he c.entry hform⟩

theorem safe_scoreOperations (hs : Coherent su s) (hsu : su.Sized) (keys : List Bytes) :
    ∀ op ∈ scoreOperations su s keys, op.Safe := by
  intro op hop
  obtain ⟨k, _, rfl⟩ := List.mem_map.mp hop
  have hkeys := (hs.entryAt_sized hsu k).2
  have hmatched (ks : List Bytes) : (Scanner.matching (su.scanner.keyOptions (s.entryAt k)) ks
      (textFor su s (s.entryAt k))).length ≤ ks.length := List.length_filter_le _ _
  have hprimary := hmatched (s.entryAt k).keys
  have hsecondary := hmatched (s.entryAt k).secondaryKeys
  dsimp only [Operation.Safe]
  exact Bounded.within_of_nonneg (by omega) (by omega)

theorem guarded_weights (hs : Coherent su s) (hsu : su.Sized) (members : List Bytes) :
    let sum := Bounded.guardedSum 0 (members.map fun k => (s.entryAt k).groupWeight)
    sum.1 = members.foldl (fun n k => Bounded.add n (s.entryAt k).groupWeight) 0 ∧
      ∀ op ∈ sum.2, op.Safe := by
  rw [← List.foldl_map]
  apply Bounded.guardedSum_spec Bounded.within_zero
  intro m hm
  obtain ⟨k, _, rfl⟩ := List.mem_map.mp hm
  exact (hs.entryAt_sized hsu k).1.groupWeight

theorem safe_weightOperations (hs : Coherent su s) (hsu : su.Sized) (d : Draw)
    (rows : Table (List Bytes)) : ∀ op ∈ weightOperations su s d rows, op.Safe := by
  induction rows generalizing d with
  | nil => simp [weightOperations]
  | cons row rows ih =>
    obtain ⟨name, all⟩ := row
    exact List.forall_mem_append.mpr ⟨(guarded_weights hs hsu _).2, ih _⟩

theorem safe_counterOperations (hsu : su.Sized)
    (hsteps : (s.recursionSteps : Int) < Bounded.max) (hwidened : (s.widened : Int) < Bounded.max)
    (hlevel : 0 ≤ s.level) : ∀ op ∈ counterOperations su s, op.Safe := by
  have hnext {n : Int} (hn : 0 ≤ n) (hmax : n < Bounded.max) : (Operation.sum n 1).Safe :=
    Bounded.within_of_nonneg (by omega) hmax
  have hw : Within s.widened :=
    Bounded.within_of_nonneg (Int.natCast_nonneg _) (Int.le_of_lt hwidened)
  refine List.forall_mem_append.mpr ⟨List.forall_mem_append.mpr
    ⟨List.forall_mem_append.mpr ⟨?_, ?_⟩, ?_⟩, ?_⟩
  · simpa using hnext (Int.natCast_nonneg _) hsteps
  · split
    · next htop => simpa using hnext hlevel (Int.lt_of_lt_of_le htop hsu.topLevel)
    · simp
  · split
    · exact (guarded_widerDepth hsu hw).2
    · simp
  · split
    · simpa using hnext (Int.natCast_nonneg _) hwidened
    · simp

@[simp] theorem State.note_passes (s : State) (su : Setup) (line : Bytes) :
    (s.note su line).passes = s.passes := by
  unfold State.note
  split <;> rfl

theorem State.enlist_passes (s : State) (k : PassKind) (e : Entry) (tr : Trigger) :
    (s.enlist k e tr).passes = s.passes := by
  obtain ⟨_, _, h⟩ := s.enlist_frame k e tr
  rw [h]

theorem settled_passes (su : Setup) (s : State) : (settled su s).passes = s.passes + 1 := by
  have henlisted : (enlisted su s).passes = s.passes + 1 := by
    refine (State.note_passes _ _ _).trans ?_
    refine List.foldlRecOn (motive := fun t : State => t.passes = s.passes + 1) (activated su s) _
      rfl ?_
    rintro t ht ⟨e, tr⟩ _
    exact (t.enlist_passes _ e tr).trans ht
  apply accept_keeps (P := fun t => t.passes = s.passes + 1)
  · intro t k c _ _ ht
    apply acceptOne_elim (P := fun r => r.1.passes = s.passes + 1)
    intro r hr
    cases hr <;> exact ht
  · exact henlisted

/-- A count of steps goes up by one at most, and levels are not closed again. -/
structure Advances (s t : State) : Prop where
  passes : t.passes = s.passes
  recursionSteps : t.recursionSteps ≤ s.recursionSteps + 1
  widened : t.widened ≤ s.widened + 1
  level : s.level ≤ t.level

theorem Advances.note (h : Advances s t) (su : Setup) (line : Bytes) :
    Advances s (t.note su line) := by
  have hreach := SameReach.note su t line
  refine ⟨?_, ?_, ?_, ?_⟩
  · rw [t.note_passes, h.passes]
  · rw [hreach.recursionSteps]
    exact h.recursionSteps
  · rw [hreach.widened]
    exact h.widened
  · rw [hreach.level]
    exact h.level

theorem advances_feed (su : Setup) (s : State) (fresh : Bytes) : Advances s (feed su s fresh) := by
  have hgrown : Advances s { s with
      buffer := grown su.scanner.maxBufferBytes s.buffer fresh
      recursionSteps := s.recursionSteps + 1 } :=
    ⟨rfl, Nat.le_refl _, Nat.le_succ _, Int.le_refl _⟩
  have hraise {t : State} (ht : Advances s t) :
      Advances s { t with level := if t.level < su.topLevel then t.level + 1 else t.level } := by
    refine ⟨ht.passes, ht.recursionSteps, ht.widened, ?_⟩
    have hlevel := ht.level
    dsimp only
    split <;> omega
  exact hraise (iteInduction (motive := Advances s) (fun _ => hgrown.note su _) fun _ => hgrown)

theorem advances_escalate (su : Setup) (s : State) (accepted : List Bytes) :
    Advances s (escalate su s accepted).state := by
  have hsame : Advances s s := ⟨rfl, Nat.le_succ _, Nat.le_succ _, Int.le_refl _⟩
  unfold escalate
  dsimp only
  split
  · split
    · exact hsame.note su _
    · exact advances_feed su s _
  · split
    · next level hlevel =>
      split at hlevel
      · have habove : s.level < level := of_decide_eq_true (List.find?_some hlevel :)
        exact ⟨rfl, Nat.le_succ _, Nat.le_succ _, Int.le_of_lt habove⟩
      · cases hlevel
    · unfold widen
      split
      · have hwider : Advances s { s with widened := s.widened + 1 } :=
          ⟨rfl, Nat.le_succ _, Nat.le_refl _, Int.le_refl _⟩
        exact hwider.note su _
      · exact hsame

structure State.Counted (s : State) : Prop where
  recursionSteps : s.recursionSteps ≤ s.passes
  widened : s.widened ≤ s.passes
  level : 0 ≤ s.level

theorem State.Counted.again (h : s.Counted) (hst : step su s = .again t) : t.Counted := by
  rw [step_eq] at hst
  split at hst
  · cases hst
  split at hst
  · cases hst
  have hpasses := settled_passes su s
  have hreach := SameReach.settled su s
  have hadv := advances_escalate su (settled su s) (accept su (resolved su s) (kept su s)).2
  rw [hst] at hadv
  obtain ⟨hp, hr, hw, hl⟩ := hadv
  obtain ⟨hr', hw', hl'⟩ := h
  rw [hreach.recursionSteps] at hr
  rw [hreach.widened] at hw
  rw [hreach.level] at hl
  dsimp only [Step.state] at hp hr hw hl
  exact ⟨by omega, by omega, by omega⟩

/-- All operations of a pass are safe, unless it comes after as many passes as the range has
numbers above zero. -/
theorem safe_passOperations (hsu : su.Sized) (hs : Coherent su s) (hc : s.Counted)
    (hp : (s.passes : Int) < Bounded.max) : ∀ op ∈ passOperations su s, op.Safe := by
  obtain ⟨hsteps, hwidened, hlevel⟩ := hc
  have hw : Within s.widened := Bounded.within_of_nonneg (Int.natCast_nonneg _) (by omega)
  have hreach := SameReach.settled su s
  refine List.forall_mem_append.mpr ⟨List.forall_mem_append.mpr ⟨List.forall_mem_append.mpr
    ⟨List.forall_mem_append.mpr ⟨?_, ?_⟩, ?_⟩, ?_⟩, ?_⟩
  · exact (guarded_passDepth hsu hw).2
  · exact safe_clockOperations hsu.clock
  · exact safe_scoreOperations hs.enlisted hsu _
  · exact safe_weightOperations hs.enlisted hsu _ _
  · apply safe_counterOperations hsu
    · rw [hreach.recursionSteps]
      omega
    · rw [hreach.widened]
      omega
    · rw [hreach.level]
      exact hlevel

end Pass
end Scan
end Lorebook
