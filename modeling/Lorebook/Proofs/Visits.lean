import Lorebook.Proofs.Judging

set_option autoImplicit false

/-!
The effects of one entry from message to message: it stays while its sticky time lasts, then cools
down, and is free again when that is over. Between messages its records are only in the store, where
its cooldown may run out and begin anew while it is still sticky; what is handed over when the
sticky time ends takes the place of that.
-/

namespace Lorebook

/-- What happens at one message: effects are checked, and those of the selected entries begin. -/
structure Visit where
  clock : Int
  entries : List Entry
  selected : List Entry
  dryRun : Bool

namespace Visit

def run (v : Visit) (stateKey : Bytes) (vars : Variables) : Except Fault (Effects × Variables) :=
  (Effects.start v.clock v.entries vars stateKey v.dryRun).map fun (fx, _) =>
    let (fx, vars) := fx.check vars
    (fx, (fx.commit v.selected vars).2)

def follow (stateKey : Bytes) : List Visit → Variables → Except Fault (List Effects)
  | [], _ => .ok []
  | v :: vs, vars =>
    match v.run stateKey vars with
    | .error f => .error f
    | .ok (fx, vars) => (follow stateKey vs vars).map (fx :: ·)

structure Timed (e : Entry) (n m : Int) : Prop where
  sticky : e.sticky = some n
  cooldown : e.cooldown = some m
  sticky_pos : 0 < n
  cooldown_pos : 0 < m
  valid : Utf8.isValid e.key = true

/-- A visit that has an entry for its key, with room for its sticky time `n` and its cooldown `m` on
the clock. -/
structure Fits (v : Visit) (e : Entry) (n m : Int) : Prop where
  mem : e ∈ v.entries
  keys : (v.entries.map (·.key)).Nodup
  lo : Bounded.min ≤ v.clock
  sticky : v.clock + n ≤ Bounded.max
  cooldown : v.clock + m ≤ Bounded.max

/-- What such a visit stores under the key is of the entry itself: it is no dry run, and no other
selected entry is stored there. -/
structure Suits (v : Visit) (e : Entry) (n m : Int) : Prop extends Fits v e n m where
  stores : v.dryRun = false
  apart : ∀ f ∈ v.selected, Utf8.repair f.key = e.key → f = e

/-- The entry is not selected while it cools down, unless it is sticky. -/
def Respects (e : Entry) (v : Visit) (fx : Effects) : Prop :=
  e ∈ v.selected → ¬(fx.cooldownActive e.key = true ∧ fx.stickyActive e.key = false)

theorem run_of_start {v : Visit} {stateKey : Bytes} {vars : Variables} {fx : Effects}
    {warnings : List Bytes}
    (h : Effects.start v.clock v.entries vars stateKey v.dryRun = .ok (fx, warnings)) :
    v.run stateKey vars
      = .ok ((fx.check vars).1, ((fx.check vars).1.commit v.selected (fx.check vars).2).2) := by
  rw [run, h]
  rfl

end Visit

namespace Effects

structure Held (stateKey slot key : Bytes) (vars : Variables) (s c : Option Json) : Prop where
  sticky : Table.get? key (records (loadState stateKey (Table.get? slot vars)).1 .sticky) = s
  cooldown : Table.get? key (records (loadState stateKey (Table.get? slot vars)).1 .cooldown) = c

section Step

variable {v : Visit} {e : Entry} {n m : Int} {stateKey slot : Bytes} {vars : Variables}
  {s c : Option Json}

def stickyEnds (v : Visit) (e : Entry) (s : Option Json) : Bool :=
  s.any (judge v.clock v.entries .sticky e.key · = .ended e)

/-- The cooldown record once that of an ended sticky effect is in place. -/
def handover (v : Visit) (e : Entry) (m : Int) (s c : Option Json) : Option Json :=
  if stickyEnds v e s then some (record v.clock m true) else c

/-- The record that a visit leaves: the one that is kept, or one that begins now. -/
def left (v : Visit) (e : Entry) (k : EffectKind) (n : Int) (r : Option Json) : Option Json :=
  (r.filter fun data => (judge v.clock v.entries k e.key data).keeps).or
    (if e ∈ v.selected then some (record v.clock n false) else none)

def activeBy (v : Visit) (e : Entry) (k : EffectKind) (r : Option Json) : Bool :=
  r.any (judge v.clock v.entries k e.key · = .active)

/-- What a visit finds and leaves of one entry depends on the entry's own records only. -/
theorem Held.run (hslot : Variables.key stateKey = .ok slot) (he : Visit.Timed e n m)
    (hv : v.Suits e n m) (h : Held stateKey slot e.key vars s c) :
    ∃ fx vars', v.run stateKey vars = .ok (fx, vars') ∧ fx.clock = v.clock ∧
      fx.stickyActive e.key = activeBy v e .sticky s ∧
      fx.cooldownActive e.key
        = (stickyEnds v e s || activeBy v e .cooldown (handover v e m s c)) ∧
      Held stateKey slot e.key vars' (left v e .sticky n s)
        (left v e .cooldown m (handover v e m s c)) := by
  obtain ⟨hn, hm, _, hpos, hkey⟩ := he
  have hi : v.clock ≤ Bounded.max := by have := hv.cooldown; omega
  have hobj := isObject_loadState stateKey (Table.get? slot vars)
  have hlegible := legible_loadState stateKey (Table.get? slot vars)
  obtain ⟨hs, hc⟩ := h
  have hstart : start v.clock v.entries vars stateKey v.dryRun
      = .ok ({ clock := v.clock, entries := v.entries, stateKey, slot, dryRun := v.dryRun,
               state := (loadState stateKey (Table.get? slot vars)).1 },
             (loadState stateKey (Table.get? slot vars)).2) := start_of_key hslot
  generalize (loadState stateKey (Table.get? slot vars)).1 = state at *
  have hkept : Kept (Own e.key) (records state .sticky) :=
    .records hlegible (fun k hk => own_of_valid hk e.key) .sticky
  have hhanded : Kept (Own e.key) (handed v.clock v.entries (records state .sticky)
      (records state .cooldown)) :=
    hkept.handed hv.lo hi (.records hlegible (fun k hk => own_of_valid hk e.key) .cooldown)
  have hget : Table.get? e.key (handed v.clock v.entries (records state .sticky)
      (records state .cooldown)) = handover v e m s c := by
    rw [get?_handed hkept.ordered hv.mem hv.keys hm, hs, hc]
    rfl
  refine ⟨_, _, Visit.run_of_start hstart, ?_, ?_, ?_, ?_⟩
  · rw [check_eq hobj hv.stores]
  · rw [check_eq hobj hv.stores, activeBy, ← hs, any_active hkept.ordered]
    rfl
  · rw [check_eq hobj hv.stores, activeBy, ← hget, any_active hhanded.ordered, stickyEnds, ← hs,
      any_ended hkept.ordered, ← Bool.decide_or]
    refine decide_eq_decide.mpr ?_
    dsimp only
    rw [List.mem_append]
    refine or_congr_left ?_
    simp only [List.mem_map, List.mem_filter]
    constructor
    · rintro ⟨f, ⟨hf, _⟩, hk⟩
      exact eq_of_overdue hkept.ordered hv.mem hv.keys hf hk ▸ hf
    · intro hover
      exact ⟨e, ⟨hover, by rw [hm]; rfl⟩, rfl⟩
  · have hown : ∀ f ∈ v.selected, Own e.key f.key := fun f hf hk => by rw [hv.apart f hf hk]
    have honly : ∀ f ∈ v.selected, f.key = e.key → f = e :=
      fun f hf hk => hv.apart f hf (by rw [hk, Utf8.repair_of_valid hkey])
    have hs' : Kept (Own e.key) (renewed v.clock v.entries .sticky v.selected
        (records state .sticky)) := hkept.renewed hv.lo hi hown .sticky
    have hc' : Kept (Own e.key) (renewed v.clock v.entries .cooldown v.selected
        (handed v.clock v.entries (records state .sticky) (records state .cooldown))) :=
      hhanded.renewed hv.lo hi hown .cooldown
    have hobj' : (state.setField (lit "format") format).isObject = true := by simpa using hobj
    rw [commit_check hobj hv.stores]
    dsimp only
    constructor
    · rw [Table.get?_insert_self, loadState_stored stateKey hobj hlegible hs' hc']
      dsimp only
      rw [records_withRecords hobj', EffectKind.pick_sticky, get?_reloaded hs' hkey,
        get?_renewed (k := .sticky) hkept.ordered honly hn, hs]
      rfl
    · rw [Table.get?_insert_self, loadState_stored stateKey hobj hlegible hs' hc']
      dsimp only
      rw [records_withRecords hobj', EffectKind.pick_cooldown, get?_reloaded hc' hkey,
        get?_renewed (k := .cooldown) hhanded.ordered honly hm, hget]
      rfl

end Step

section Records

variable {v : Visit} {e : Entry} {n m t d : Int} {k : EffectKind} {guarded : Bool}

/-- A record of the entry that counts at a visit: begun before it, or protected. -/
structure Counts (v : Visit) (t d : Int) (guarded : Bool) : Prop where
  lo : Bounded.min ≤ t
  hi : t + d ≤ Bounded.max
  pos : 0 < d
  begun : v.clock ≤ t → guarded = true

theorem judge_own (hv : v.Suits e n m) (hd : k.duration e = some d) (h : Counts v t d guarded) :
    judge v.clock v.entries k e.key (record t d guarded)
      = if t + d ≤ v.clock then .ended e else .active := by
  obtain ⟨lo, hi, hpos, hbegun⟩ := h
  have hsome : (v.entries.find? (·.key = e.key)).isSome = true :=
    List.find?_isSome.mpr ⟨e, hv.mem, by simp⟩
  obtain ⟨f, hf⟩ := Option.isSome_iff_exists.mp hsome
  have hfe : f = e :=
    List.inj_on_of_nodup_map hv.keys (List.mem_of_find?_eq_some hf) hv.mem (key_of_find? hf)
  have hadd : Bounded.add t d = t + d := Bounded.clamp_of_mem (by omega) hi
  rw [judge_record lo (by omega) (hfe ▸ hf) (by rw [hd]; rfl) hbegun, hadd]

theorem activeBy_record (hv : v.Suits e n m) (hd : k.duration e = some d)
    (h : Counts v t d guarded) :
    activeBy v e k (some (record t d guarded)) = decide (v.clock < t + d) := by
  rw [activeBy, Option.any_some, judge_own hv hd h]
  by_cases hend : t + d ≤ v.clock
  · simp [hend]
  · simp [hend, Int.lt_of_not_ge hend]

theorem stickyEnds_record (hv : v.Suits e n m) (hd : e.sticky = some d)
    (h : Counts v t d guarded) :
    stickyEnds v e (some (record t d guarded)) = decide (t + d ≤ v.clock) := by
  rw [stickyEnds, Option.any_some, judge_own (k := .sticky) hv hd h]
  by_cases hend : t + d ≤ v.clock <;> simp [hend]

theorem left_of_running (hv : v.Suits e n m) (hd : k.duration e = some d)
    (h : Counts v t d guarded) (hlt : v.clock < t + d) :
    left v e k d (some (record t d guarded)) = some (record t d guarded) := by
  rw [left, Option.filter_some, judge_own hv hd h, if_neg (Int.not_le.mpr hlt)]
  rfl

theorem left_of_over (hv : v.Suits e n m) (hd : k.duration e = some d)
    (h : Counts v t d guarded) (hle : t + d ≤ v.clock) :
    left v e k d (some (record t d guarded))
      = if e ∈ v.selected then some (record v.clock d false) else none := by
  rw [left, Option.filter_some, judge_own hv hd h, if_pos hle]
  rfl

end Records

/-- Nothing, or a cooldown record of the entry's own that began no later than `last`. -/
def Begun (m last : Int) (c : Option Json) : Prop :=
  c = none ∨ ∃ u, Bounded.min ≤ u ∧ u ≤ last ∧ u + m ≤ Bounded.max ∧ c = some (record u m false)

section Steps

variable {v : Visit} {e : Entry} {n m t : Int} {stateKey slot : Bytes} {vars : Variables}
  {c : Option Json}

variable (hslot : Variables.key stateKey = .ok slot) (he : Visit.Timed e n m) (hv : v.Suits e n m)

include hslot he hv

/-- The selection of an entry without records begins both effects. -/
theorem Held.select (hsel : e ∈ v.selected) (h : Held stateKey slot e.key vars none none) :
    ∃ fx vars', v.run stateKey vars = .ok (fx, vars') ∧ fx.clock = v.clock ∧
      Held stateKey slot e.key vars' (some (record v.clock n false))
        (some (record v.clock m false)) := by
  obtain ⟨fx, vars', hrun, hclock, _, _, hleft⟩ := h.run hslot he hv
  refine ⟨fx, vars', hrun, hclock, ?_⟩
  simpa [left, handover, stickyEnds, hsel] using hleft

theorem Held.stay {last : Int} (lo : Bounded.min ≤ t) (hi : t + n ≤ Bounded.max) (hlast : t ≤ last)
    (hlt : last < v.clock) (hstay : v.clock < t + n) (hc : Begun m last c)
    (h : Held stateKey slot e.key vars (some (record t n false)) c) :
    ∃ fx vars' c', v.run stateKey vars = .ok (fx, vars') ∧ fx.clock = v.clock ∧
      fx.stickyActive e.key = true ∧ Begun m v.clock c' ∧
      Held stateKey slot e.key vars' (some (record t n false)) c' := by
  have hcounts : Counts v t n false := ⟨lo, hi, he.sticky_pos, fun hle => by omega⟩
  obtain ⟨fx, vars', hrun, hclock, hsticky, _, hleft⟩ := h.run hslot he hv
  have hends : stickyEnds v e (some (record t n false)) = false := by
    rw [stickyEnds_record hv he.sticky hcounts]
    exact decide_eq_false (Int.not_le.mpr hstay)
  rw [handover, hends, left_of_running (k := .sticky) hv he.sticky hcounts hstay] at hleft
  refine ⟨fx, vars', _, hrun, hclock, ?_, ?_, hleft⟩
  · rw [hsticky, activeBy_record (k := .sticky) hv he.sticky hcounts]
    exact decide_eq_true hstay
  · -- The cooldown that began at a selection may run out here, and begin again.
    have hfresh : Begun m v.clock
        (if e ∈ v.selected then some (record v.clock m false) else none) := by
      split
      · exact .inr ⟨_, hv.lo, Int.le_refl _, hv.cooldown, rfl⟩
      · exact .inl rfl
    rcases hc with rfl | ⟨u, hlo, hle, hhi, rfl⟩
    · exact hfresh
    · have hcounts : Counts v u m false := ⟨hlo, hhi, he.cooldown_pos, fun _ => by omega⟩
      by_cases hover : u + m ≤ v.clock
      · rw [if_neg (by decide), left_of_over (k := .cooldown) hv he.cooldown hcounts hover]
        exact hfresh
      · rw [if_neg (by decide),
          left_of_running (k := .cooldown) hv he.cooldown hcounts (Int.not_le.mp hover)]
        exact .inr ⟨u, hlo, by omega, hhi, rfl⟩

theorem Held.handOver (lo : Bounded.min ≤ t) (hi : t + n ≤ Bounded.max) (hover : t + n ≤ v.clock)
    (h : Held stateKey slot e.key vars (some (record t n false)) c) :
    ∃ fx vars', v.run stateKey vars = .ok (fx, vars') ∧ fx.clock = v.clock ∧
      fx.cooldownActive e.key = true ∧ fx.stickyActive e.key = false ∧
      (e ∉ v.selected → Held stateKey slot e.key vars' none (some (record v.clock m true))) := by
  have hpos := he.sticky_pos
  have hcounts : Counts v t n false := ⟨lo, hi, hpos, fun hle => by omega⟩
  have hguarded : Counts v v.clock m true :=
    ⟨hv.lo, hv.cooldown, he.cooldown_pos, fun _ => rfl⟩
  obtain ⟨fx, vars', hrun, hclock, hsticky, hcooldown, hleft⟩ := h.run hslot he hv
  have hends : stickyEnds v e (some (record t n false)) = true := by
    rw [stickyEnds_record hv he.sticky hcounts]
    exact decide_eq_true hover
  refine ⟨fx, vars', hrun, hclock, ?_, ?_, fun hsel => ?_⟩
  · rw [hcooldown, hends, Bool.true_or]
  · rw [hsticky, activeBy_record (k := .sticky) hv he.sticky hcounts]
    exact decide_eq_false (Int.not_lt.mpr hover)
  · rw [handover, hends, if_pos rfl, left_of_over (k := .sticky) hv he.sticky hcounts hover,
      if_neg hsel, left_of_running (k := .cooldown) hv he.cooldown hguarded
        (Int.lt_add_of_pos_right _ he.cooldown_pos)] at hleft
    exact hleft

theorem Held.cool (lo : Bounded.min ≤ t) (hi : t + m ≤ Bounded.max) (hlt : v.clock < t + m)
    (h : Held stateKey slot e.key vars none (some (record t m true))) :
    ∃ fx vars', v.run stateKey vars = .ok (fx, vars') ∧ fx.clock = v.clock ∧
      fx.cooldownActive e.key = true ∧ fx.stickyActive e.key = false ∧
      (e ∉ v.selected → Held stateKey slot e.key vars' none (some (record t m true))) := by
  have hcounts : Counts v t m true := ⟨lo, hi, he.cooldown_pos, fun _ => rfl⟩
  obtain ⟨fx, vars', hrun, hclock, hsticky, hcooldown, hleft⟩ := h.run hslot he hv
  refine ⟨fx, vars', hrun, hclock, ?_, hsticky, fun hsel => ?_⟩
  · rw [hcooldown]
    exact (activeBy_record (k := .cooldown) hv he.cooldown hcounts).trans (decide_eq_true hlt)
  · have hnone : left v e .sticky n none = none := by simp [left, hsel]
    have hc : left v e .cooldown m (handover v e m none (some (record t m true)))
        = some (record t m true) := left_of_running hv he.cooldown hcounts hlt
    rwa [hnone, hc] at hleft

theorem Held.free (lo : Bounded.min ≤ t) (hi : t + m ≤ Bounded.max) (hover : t + m ≤ v.clock)
    (h : Held stateKey slot e.key vars none (some (record t m true))) :
    ∃ fx vars', v.run stateKey vars = .ok (fx, vars') ∧ fx.clock = v.clock ∧
      fx.cooldownActive e.key = false ∧ fx.stickyActive e.key = false := by
  have hcounts : Counts v t m true := ⟨lo, hi, he.cooldown_pos, fun _ => rfl⟩
  obtain ⟨fx, vars', hrun, hclock, hsticky, hcooldown, _⟩ := h.run hslot he hv
  refine ⟨fx, vars', hrun, hclock, ?_, hsticky⟩
  rw [hcooldown]
  exact (activeBy_record (k := .cooldown) hv he.cooldown hcounts).trans
    (decide_eq_false (Int.not_lt.mpr hover))

end Steps

end Effects

namespace Visit

open Effects

/-- Cooling down, and not sticky, until the clock reaches `till`; then neither. -/
def Cools (e : Entry) (till : Int) (seen : List Effects) : Prop :=
  (∀ fx ∈ seen, fx.clock < till →
    fx.cooldownActive e.key = true ∧ fx.stickyActive e.key = false) ∧
  ∀ cooling fx later, seen = cooling ++ fx :: later → (∀ gx ∈ cooling, gx.clock < till) →
    till ≤ fx.clock → fx.cooldownActive e.key = false ∧ fx.stickyActive e.key = false

/-- Sticky until the clock reaches `till`, then cooling down for `m`. -/
def Stays (e : Entry) (till m : Int) (seen : List Effects) : Prop :=
  (∀ fx ∈ seen, fx.clock < till → fx.stickyActive e.key = true) ∧
  ∀ staying fx later, seen = staying ++ fx :: later → (∀ gx ∈ staying, gx.clock < till) →
    till ≤ fx.clock → Cools e (fx.clock + m) (fx :: later)

section Lists

variable {e : Entry} {till m : Int} {fx : Effects} {seen : List Effects}

/-- Of the visits before the clock reaches `till` one thing holds; another one holds of the first
visit from then on, with those after it. -/
def Until (till : Int) (P : Effects → Prop) (Q : Effects → List Effects → Prop)
    (seen : List Effects) : Prop :=
  (∀ fx ∈ seen, fx.clock < till → P fx) ∧
  ∀ before fx later, seen = before ++ fx :: later → (∀ gx ∈ before, gx.clock < till) →
    till ≤ fx.clock → Q fx later

theorem Until.cons {P : Effects → Prop} {Q : Effects → List Effects → Prop} (hfx : P fx)
    (hlt : fx.clock < till) (h : Until till P Q seen) : Until till P Q (fx :: seen) := by
  refine ⟨List.forall_mem_cons.mpr ⟨fun _ => hfx, h.1⟩, ?_⟩
  intro before gx later heq hbefore hge
  rcases List.cons_eq_append_iff.mp heq with ⟨rfl, heq⟩ | ⟨before, rfl, rfl⟩
  · cases heq
    exact absurd hge (Int.not_le.mpr hlt)
  · exact h.2 before gx later rfl (fun x hx => hbefore x (List.mem_cons_of_mem _ hx)) hge

theorem Until.over {P : Effects → Prop} {Q : Effects → List Effects → Prop} (hfx : Q fx seen)
    (hge : till ≤ fx.clock) (hclocks : ∀ gx ∈ seen, fx.clock < gx.clock) :
    Until till P Q (fx :: seen) := by
  constructor
  · intro gx hgx hlt
    rcases List.mem_cons.mp hgx with rfl | hgx
    · omega
    · have := hclocks gx hgx
      omega
  · intro before gx later heq hbefore _
    rcases List.cons_eq_append_iff.mp heq with ⟨rfl, heq⟩ | ⟨before, rfl, rfl⟩
    · cases heq
      exact hfx
    · exact absurd hge (Int.not_le.mpr (hbefore fx List.mem_cons_self))

theorem Cools.cons (hfx : fx.cooldownActive e.key = true ∧ fx.stickyActive e.key = false)
    (hlt : fx.clock < till) (h : Cools e till seen) : Cools e till (fx :: seen) :=
  Until.cons hfx hlt h

theorem Cools.over (hfx : fx.cooldownActive e.key = false ∧ fx.stickyActive e.key = false)
    (hge : till ≤ fx.clock) (hclocks : ∀ gx ∈ seen, fx.clock < gx.clock) :
    Cools e till (fx :: seen) :=
  Until.over hfx hge hclocks

theorem Stays.cons (hfx : fx.stickyActive e.key = true) (hlt : fx.clock < till)
    (h : Stays e till m seen) : Stays e till m (fx :: seen) :=
  Until.cons hfx hlt h

theorem Stays.over (hge : till ≤ fx.clock) (hclocks : ∀ gx ∈ seen, fx.clock < gx.clock)
    (h : Cools e (fx.clock + m) (fx :: seen)) : Stays e till m (fx :: seen) :=
  Until.over h hge hclocks

end Lists

section Follow

variable {e : Entry} {n m t last : Int} {v : Visit} {vs : List Visit} {seen : List Effects}
  {stateKey slot : Bytes} {vars vars' : Variables} {c : Option Json} {fx : Effects}

theorem follow_cons (hrun : v.run stateKey vars = .ok (fx, vars')) :
    follow stateKey (v :: vs) vars = (follow stateKey vs vars').map (fx :: ·) := by
  rw [follow, hrun]

theorem follow_ok (hslot : Variables.key stateKey = .ok slot) (hvs : ∀ v ∈ vs, v.Suits e n m)
    (vars : Variables) :
    ∃ seen, follow stateKey vs vars = .ok seen ∧ seen.map (·.clock) = vs.map (·.clock) := by
  induction vs generalizing vars with
  | nil => exact ⟨[], rfl, rfl⟩
  | cons v vs ih =>
    obtain ⟨hv, hvs⟩ := List.forall_mem_cons.mp hvs
    have hstart : ∃ r, start v.clock v.entries vars stateKey v.dryRun = .ok r := by
      simp only [start, hslot, Except.map]
      exact ⟨_, rfl⟩
    obtain ⟨⟨fx, warnings⟩, hstart⟩ := hstart
    obtain ⟨seen, hseen, hclocks⟩ :=
      ih hvs ((fx.check vars).1.commit v.selected (fx.check vars).2).2
    refine ⟨(fx.check vars).1 :: seen, ?_, ?_⟩
    · rw [follow_cons (run_of_start hstart), hseen]
      rfl
    · obtain ⟨slot', _, _, rfl⟩ := start_eq_ok hstart
      rw [check_eq (isObject_loadState _ _) hv.stores, List.map_cons, hclocks]
      rfl

theorem follow_cons_ok (hslot : Variables.key stateKey = .ok slot)
    (hvs : ∀ v ∈ vs, v.Suits e n m) (hrun : v.run stateKey vars = .ok (fx, vars'))
    (hclock : fx.clock = v.clock) (hclocks : ((v :: vs).map (·.clock)).Pairwise (· < ·))
    (h : follow stateKey (v :: vs) vars = .ok seen) :
    ∃ rest, seen = fx :: rest ∧ follow stateKey vs vars' = .ok rest ∧
      ∀ gx ∈ rest, fx.clock < gx.clock := by
  obtain ⟨rest, hrest, hmap⟩ := follow_ok hslot hvs vars'
  rw [follow_cons hrun, hrest] at h
  cases h
  refine ⟨rest, rfl, hrest, fun gx hgx => ?_⟩
  have hmem : gx.clock ∈ vs.map (·.clock) := hmap ▸ List.mem_map_of_mem hgx
  rw [hclock]
  exact (List.pairwise_cons.mp hclocks).1 _ hmem

theorem cools_of_follow (hslot : Variables.key stateKey = .ok slot) (he : Timed e n m)
    (lo : Bounded.min ≤ t) (hi : t + m ≤ Bounded.max) (hvs : ∀ v ∈ vs, v.Suits e n m)
    (hclocks : (vs.map (·.clock)).Pairwise (· < ·))
    (hheld : Held stateKey slot e.key vars none (some (record t m true)))
    (h : follow stateKey vs vars = .ok seen) (hres : List.Forall₂ (Respects e) vs seen) :
    Cools e (t + m) seen := by
  -- The protected record is all there is until it has run out, and then nothing more is asked.
  induction vs generalizing vars seen with
  | nil =>
    cases h
    exact ⟨nofun, fun cooling _ _ heq => absurd heq (by simp)⟩
  | cons v vs ih =>
    obtain ⟨hv, hvs⟩ := List.forall_mem_cons.mp hvs
    by_cases hlt : v.clock < t + m
    · obtain ⟨fx, vars', hrun, hclock, hcool, hsticky, hnext⟩ := hheld.cool hslot he hv lo hi hlt
      obtain ⟨rest, rfl, hrest, _⟩ := follow_cons_ok hslot hvs hrun hclock hclocks h
      obtain ⟨hfx, hres⟩ := List.forall₂_cons.mp hres
      have hsel : e ∉ v.selected := fun hsel => hfx hsel ⟨hcool, hsticky⟩
      exact .cons ⟨hcool, hsticky⟩ (hclock ▸ hlt)
        (ih hvs (List.pairwise_cons.mp hclocks).2 (hnext hsel) hrest hres)
    · obtain ⟨fx, vars', hrun, hclock, hfree⟩ :=
        hheld.free hslot he hv lo hi (Int.not_lt.mp hlt)
      obtain ⟨rest, rfl, _, hlater⟩ := follow_cons_ok hslot hvs hrun hclock hclocks h
      exact .over hfree (hclock ▸ Int.not_lt.mp hlt) hlater

theorem stays_of_follow (hslot : Variables.key stateKey = .ok slot) (he : Timed e n m)
    (lo : Bounded.min ≤ t) (hi : t + n ≤ Bounded.max) (hlast : t ≤ last)
    (hvs : ∀ v ∈ vs, v.Suits e n m) (hclocks : (last :: vs.map (·.clock)).Pairwise (· < ·))
    (hc : Begun m last c) (hheld : Held stateKey slot e.key vars (some (record t n false)) c)
    (h : follow stateKey vs vars = .ok seen) (hres : List.Forall₂ (Respects e) vs seen) :
    Stays e (t + n) m seen := by
  -- The sticky record stays as it is; of the cooldown it is only known that it began no later than
  -- the last visit, since it may run out and begin anew meanwhile.
  induction vs generalizing vars seen last c with
  | nil =>
    cases h
    exact ⟨nofun, fun staying _ _ heq => absurd heq (by simp)⟩
  | cons v vs ih =>
    obtain ⟨hv, hvs⟩ := List.forall_mem_cons.mp hvs
    obtain ⟨hbefore, hclocks⟩ := List.pairwise_cons.mp hclocks
    have hlt : last < v.clock := hbefore _ List.mem_cons_self
    by_cases hstay : v.clock < t + n
    · obtain ⟨fx, vars', c', hrun, hclock, hsticky, hc', hnext⟩ :=
        hheld.stay hslot he hv lo hi hlast hlt hstay hc
      obtain ⟨rest, rfl, hrest, _⟩ := follow_cons_ok hslot hvs hrun hclock hclocks h
      obtain ⟨_, hres⟩ := List.forall₂_cons.mp hres
      have hle : t ≤ v.clock := by omega
      exact .cons hsticky (hclock ▸ hstay) (ih hle hvs hclocks hc' hnext hrest hres)
    · obtain ⟨fx, vars', hrun, hclock, hcool, hsticky, hnext⟩ :=
        hheld.handOver hslot he hv lo hi (Int.not_lt.mp hstay)
      obtain ⟨rest, rfl, hrest, hlater⟩ := follow_cons_ok hslot hvs hrun hclock hclocks h
      obtain ⟨hfx, hres⟩ := List.forall₂_cons.mp hres
      have hsel : e ∉ v.selected := fun hsel => hfx hsel ⟨hcool, hsticky⟩
      have hpos := he.cooldown_pos
      have hcools := cools_of_follow hslot he hv.lo hv.cooldown hvs
        (List.pairwise_cons.mp hclocks).2 (hnext hsel) hrest hres
      refine .over (hclock ▸ Int.not_lt.mp hstay) hlater ?_
      rw [← hclock] at hcools
      exact .cons ⟨hcool, hsticky⟩ (by omega) hcools

/-- From its selection on, an entry stays until its sticky time is over, and then cools down. -/
theorem sticky_then_cooldown {first : Visit} {later : List Visit}
    (hslot : Variables.key stateKey = .ok slot) (he : Timed e n m)
    (hvs : ∀ v ∈ first :: later, v.Suits e n m)
    (hclocks : ((first :: later).map (·.clock)).Pairwise (· < ·)) (hsel : e ∈ first.selected)
    (hnone : Held stateKey slot e.key vars none none) :
    ∃ fx seen, follow stateKey (first :: later) vars = .ok (fx :: seen) ∧
      (fx :: seen).map (·.clock) = (first :: later).map (·.clock) ∧
      (List.Forall₂ (Respects e) later seen → Stays e (first.clock + n) m seen) := by
  obtain ⟨hfirst, hlater⟩ := List.forall_mem_cons.mp hvs
  obtain ⟨fx, vars', hrun, hclock, hheld⟩ := hnone.select hslot he hfirst hsel
  obtain ⟨seen, hseen, hmap⟩ := follow_ok hslot hlater vars'
  refine ⟨fx, seen, ?_, ?_, fun hres => ?_⟩
  · rw [follow_cons hrun, hseen]
    rfl
  · rw [List.map_cons, List.map_cons, hclock, hmap]
  · have hbegun : Begun m first.clock (some (record first.clock m false)) :=
      .inr ⟨_, hfirst.lo, Int.le_refl _, hfirst.cooldown, rfl⟩
    exact stays_of_follow hslot he hfirst.lo hfirst.sticky (Int.le_refl _) hlater hclocks hbegun
      hheld hseen hres

end Follow

theorem sticky_then_cooldown_lingering :
    let e : Entry := { uid := lit "wi", sticky := some 2, cooldown := some 3 }
    let first : Visit := ⟨1, [e], [e], false⟩
    let later : List Visit := [⟨2, [e], [], false⟩, ⟨3, [e], [], false⟩, ⟨6, [e], [], false⟩]
    ∃ fx seen, follow Effects.defaultKey (first :: later) [] = .ok (fx :: seen) ∧
      seen.map (·.clock) = [2, 3, 6] ∧ Stays e 3 3 seen := by
  intro e first later
  have hsuits : ∀ v ∈ first :: later, v.Suits e 2 3 := by
    have hone (clock : Int) (selected : List Entry) (hsel : selected ⊆ [e])
        (hclock : 0 ≤ clock ∧ clock ≤ 6) : Visit.Suits ⟨clock, [e], selected, false⟩ e 2 3 :=
      { mem := List.mem_singleton_self e
        keys := List.nodup_singleton _
        lo := show (-9223372036854775808 : Int) ≤ clock by omega
        sticky := show clock + 2 ≤ (9223372036854775807 : Int) by omega
        cooldown := show clock + 3 ≤ (9223372036854775807 : Int) by omega
        stores := rfl
        apart := fun f hf _ => List.mem_singleton.mp (hsel hf) }
    refine List.forall_mem_cons.mpr ⟨hone 1 [e] (List.Subset.refl _) (by omega), ?_⟩
    refine List.forall_mem_cons.mpr ⟨hone 2 [] (List.nil_subset _) (by omega), ?_⟩
    refine List.forall_mem_cons.mpr ⟨hone 3 [] (List.nil_subset _) (by omega), ?_⟩
    exact List.forall_mem_singleton.mpr (hone 6 [] (List.nil_subset _) (by omega))
  have hslot : Variables.key Effects.defaultKey = .ok Effects.defaultKey := rfl
  have hnone : Held Effects.defaultKey Effects.defaultKey e.key [] none none := ⟨rfl, rfl⟩
  obtain ⟨fx, seen, hfollow, hmap, hstays⟩ := sticky_then_cooldown hslot
    ⟨rfl, rfl, by decide, by decide, by decide⟩ hsuits (by decide) (List.mem_singleton_self e) hnone
  have hclocks : seen.map (·.clock) = [2, 3, 6] := (List.cons.inj hmap).2
  refine ⟨fx, seen, hfollow, hclocks, hstays ?_⟩
  have hidle (clock : Int) (gx : Effects) : Respects e ⟨clock, [e], [], false⟩ gx :=
    fun h => absurd h List.not_mem_nil
  obtain ⟨a, seen, rfl, _, hclocks⟩ := List.map_eq_cons_iff.mp hclocks
  obtain ⟨b, seen, rfl, _, hclocks⟩ := List.map_eq_cons_iff.mp hclocks
  obtain ⟨c, seen, rfl, _, hclocks⟩ := List.map_eq_cons_iff.mp hclocks
  cases List.map_eq_nil_iff.mp hclocks
  exact .cons (hidle 2 a) (.cons (hidle 3 b) (.cons (hidle 6 c) .nil))

def stickyAt (stateKey : Bytes) (e : Entry) (vs : List Visit) : Except Fault (List (Int × Bool)) :=
  (follow stateKey vs []).map (·.map fun fx => (fx.clock, fx.stickyActive e.key))

/-- An entry that is selected at clock 0 with a sticky time of ten, and is not sticky at clock 1:
after dry runs, which store nothing; beside a selected entry with its key and another sticky time;
and beside one with a key that is stored as the same one. Under a blank key there is no store. -/
theorem not_sticky_then_cooldown :
    let e : Entry := { uid := lit "1", source := lit "a" ++ Utf8.replacement, sticky := some 10,
                       cooldown := some 1 }
    let variant : Entry := { e with sticky := some 1 }
    let lookalike : Entry := { uid := lit "1", source := lit "a" ++ [255], sticky := some 1 }
    let dry : List Visit := [⟨0, [e], [e], true⟩, ⟨1, [e], [], true⟩]
    let doubled : List Visit := [⟨0, [e], [variant, e], false⟩, ⟨1, [e], [], false⟩]
    let beside : List Visit :=
      [⟨0, [e, lookalike], [e, lookalike], false⟩, ⟨1, [e, lookalike], [], false⟩]
    Timed e 10 1 ∧ Held Effects.defaultKey Effects.defaultKey e.key [] none none ∧
      (∀ v ∈ dry ++ doubled ++ beside, v.Fits e 10 1) ∧
      (∀ vs ∈ [dry, doubled, beside],
        (stickyAt Effects.defaultKey e vs).toOption = some [(0, false), (1, false)]) ∧
      (stickyAt (lit " ") e dry).toOption = none := by
  intro e variant lookalike dry doubled beside
  have hfits (clock : Int) (others selected : List Entry) (dryRun : Bool)
      (hkeys : ((e :: others).map (·.key)).Nodup) (hclock : 0 ≤ clock ∧ clock ≤ 1) :
      Visit.Fits ⟨clock, e :: others, selected, dryRun⟩ e 10 1 :=
    { mem := List.mem_cons_self
      keys := hkeys
      lo := show (-9223372036854775808 : Int) ≤ clock by omega
      sticky := show clock + 10 ≤ (9223372036854775807 : Int) by omega
      cooldown := show clock + 1 ≤ (9223372036854775807 : Int) by omega }
  have halone : ([e].map (·.key)).Nodup := List.nodup_singleton _
  have hboth : ([e, lookalike].map (·.key)).Nodup := by decide
  refine ⟨⟨rfl, rfl, by decide, by decide, by decide⟩, ⟨rfl, rfl⟩, ?_, by decide +kernel,
    by decide +kernel⟩
  simp only [dry, doubled, beside, List.cons_append, List.nil_append, List.forall_mem_cons]
  exact ⟨hfits 0 [] _ _ halone (by omega), hfits 1 [] _ _ halone (by omega),
    hfits 0 [] _ _ halone (by omega), hfits 1 [] _ _ halone (by omega),
    hfits 0 [lookalike] _ _ hboth (by omega), hfits 1 [lookalike] _ _ hboth (by omega),
    List.forall_mem_nil _⟩

end Visit
end Lorebook
