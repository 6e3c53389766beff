import Lorebook.Proofs.Gating
import Lorebook.Proofs.Judging
import Lorebook.Proofs.LoadOrder
import Lorebook.Proofs.Log

set_option autoImplicit false

/-!
Disabled entries. They are never activated, and yet they may be felt: the first entry with a key
decides what becomes of the records of that key, and a recursion level opens for whoever asks for
it. Where enabled entries speak for themselves in both, disabled ones change nothing.
-/

namespace Lorebook

/-- Two rivals in a group, called by an entry that is always there, and a disabled entry that waits
for a recursion level. -/
def Book.muted (level : Int) : Book where
  recursiveScanning := true
  entries := [{ uid := lit "s", constant := true, content := lit "dragon" },
    { uid := lit "w", keys := [lit "dragon"], content := lit "deep", group := lit "g",
      groupOverride := true, preventRecursion := true, delayUntilRecursion := some 1 },
    { uid := lit "l", keys := [lit "dragon"], content := lit "lost", group := lit "g" },
    { uid := lit "d", keys := [lit "dragon"], content := lit "off", enabled := false,
      delayUntilRecursion := some level }]

def Candidate.report (c : Candidate) : ActivationKind × Bool × Option DropReason :=
  (c.kind, c.isSelected, c.dropReason?)

def Book.enabledOnly (b : Book) : Book := { b with entries := b.entries.filter (·.enabled) }

namespace Effects

section Find

variable {clock : Int} {es es' : List Entry} {k : EffectKind} {rs s c : Table Json} {key : Bytes}
  {e : Entry}

theorem judge_congr (h : es'.find? (·.key = key) = es.find? (·.key = key)) (data : Json) :
    judge clock es' k key data = judge clock es k key data := by
  rw [judge, judge, h]

theorem mem_running_congr (hrs : Table.Ordered rs)
    (h : es'.find? (·.key = key) = es.find? (·.key = key)) :
    key ∈ running clock es' k rs ↔ key ∈ running clock es k rs := by
  simp only [mem_running hrs, judge_congr h]

theorem mem_overdue_congr (hrs : Table.Ordered rs)
    (h : es'.find? (·.key = e.key) = es.find? (·.key = e.key)) :
    e ∈ overdue clock es' k rs ↔ e ∈ overdue clock es k rs := by
  simp only [mem_overdue hrs, judge_congr h]

theorem get?_handed_congr (hs : Table.Ordered s)
    (h : es'.find? (·.key = key) = es.find? (·.key = key)) (c : Table Json) :
    Table.get? key (handed clock es' s c) = Table.get? key (handed clock es s c) := by
  by_cases hcools : ∃ e ∈ overdue clock es .sticky s, e.key = key ∧ e.cooldown.isSome = true
  · obtain ⟨e, he, rfl, hn⟩ := hcools
    obtain ⟨n, hn⟩ := Option.isSome_iff_exists.mp hn
    rw [get?_handed_of_mem hs he hn, get?_handed_of_mem hs ((mem_overdue_congr hs h).mpr he) hn]
  · have hnone : ∀ e ∈ overdue clock es .sticky s, e.key = key → e.cooldown = none := by
      intro e he hk
      by_contra hn
      exact hcools ⟨e, he, hk, Option.isSome_iff_ne_none.mpr hn⟩
    rw [get?_handed_of_not hnone]
    refine get?_handed_of_not (fun e he hk => hnone e ?_ hk) c
    exact (mem_overdue_congr hs (hk ▸ h)).mp he

theorem check_congr {fx : Effects} (hobj : fx.state.isObject = true) (hdry : fx.dryRun = false)
    (hs : Table.Ordered (records fx.state .sticky)) (hc : Table.Ordered (records fx.state .cooldown))
    (h : es'.find? (·.key = key) = fx.entries.find? (·.key = key)) (vars : Variables) :
    ({ fx with entries := es' }.check vars).1.stickyActive key
        = (fx.check vars).1.stickyActive key ∧
      ({ fx with entries := es' }.check vars).1.cooldownActive key
        = (fx.check vars).1.cooldownActive key := by
  rw [check_eq hobj hdry, check_eq (by exact hobj) (by exact hdry)]
  simp only [stickyActive, cooldownActive, decide_eq_decide, List.mem_append, List.mem_map,
    List.mem_filter]
  refine ⟨mem_running_congr hs h, or_congr ?_ ?_⟩
  · refine exists_congr fun e => and_congr_left fun hk => and_congr_left' ?_
    exact mem_overdue_congr hs (hk ▸ h)
  · simp only [mem_running (ordered_handed hc), get?_handed_congr hs h, judge_congr h]

end Find
end Effects

theorem insertBy_congr {α : Type} {le le' : α → α → Bool} {a : α} {l : List α}
    (h : ∀ b ∈ l, le' a b = le a b) : insertBy le' a l = insertBy le a l := by
  induction l with
  | nil => rfl
  | cons b l ih =>
    obtain ⟨hb, hl⟩ := List.forall_mem_cons.mp h
    rw [insertBy, insertBy, hb, ih hl]

theorem sortBy_congr {α : Type} {le le' : α → α → Bool} {l : List α}
    (h : ∀ a ∈ l, ∀ b ∈ l, le' a b = le a b) : sortBy le' l = sortBy le l := by
  induction l with
  | nil => rfl
  | cons a l ih =>
    have htail : sortBy le' l = sortBy le l := ih fun b hb c hc =>
      h b (List.mem_cons_of_mem _ hb) c (List.mem_cons_of_mem _ hc)
    rw [sortBy, sortBy, htail]
    exact insertBy_congr fun b hb =>
      h a List.mem_cons_self b (List.mem_cons_of_mem _ (mem_sortBy.mp hb))

namespace Scan

/-- The setup with the enabled ones of its entries, and with other effects and levels. -/
def Setup.enabledOnly (su : Setup) (effects : Effects) (levels : List Int) : Setup :=
  { su with entries := su.entries.filter (·.enabled), effects, levels }

structure Spares (su : Setup) (fx : Effects) (levels : List Int) : Prop where
  clock : fx.clock = su.effects.clock
  sticky : ∀ e ∈ su.entries, e.enabled = true →
    fx.stickyActive e.key = su.effects.stickyActive e.key
  cooldown : ∀ e ∈ su.entries, e.enabled = true →
    fx.cooldownActive e.key = su.effects.cooldownActive e.key
  levels : su.recursive = true → levels = su.levels

namespace Spares

variable {su : Setup} {fx : Effects} {levels : List Int} {s t : State} {e : Entry}
  {c : Candidate}

theorem activated (h : Spares su fx levels) (s : State) :
    activated (su.enabledOnly fx levels) s = activated su s := by
  have hfilter : Scan.activated (su.enabledOnly fx levels) s
      = su.entries.filterMap fun e => if e.enabled = true then
          (if eligible (su.enabledOnly fx levels) s e then
            (trigger? (su.enabledOnly fx levels) s e).map (e, ·) else none)
        else none := List.filterMap_filter
  rw [hfilter]
  refine List.filterMap_congr fun e he => ?_
  -- A disabled entry is not eligible in the first place.
  by_cases hen : e.enabled = true
  · have hsticky : (su.enabledOnly fx levels).stickyActive e.key = su.stickyActive e.key :=
      h.sticky e he hen
    have hcooldown : (su.enabledOnly fx levels).effects.cooldownActive e.key
        = su.effects.cooldownActive e.key := h.cooldown e he hen
    have hclock : (su.enabledOnly fx levels).clock = su.clock := h.clock
    have hdelay : (su.enabledOnly fx levels).effects.delayActive e = su.effects.delayActive e := by
      have hclock : (su.enabledOnly fx levels).effects.clock = su.effects.clock := h.clock
      rw [Effects.delayActive, Effects.delayActive, hclock]
    have heligible : eligible (su.enabledOnly fx levels) s e = eligible su s e := by
      unfold eligible
      rw [hsticky, hcooldown, hdelay]
      rfl
    have htrigger : trigger? (su.enabledOnly fx levels) s e = trigger? su s e := by
      unfold trigger? keywordMatch?
      rw [hsticky, hclock]
      rfl
    rw [if_pos hen, heligible, htrigger]
  · have hno : eligible su s e = false := by simp [eligible, hen]
    rw [if_neg hen, hno]
    rfl

theorem enlisted (h : Spares su fx levels) (s : State) :
    enlisted (su.enabledOnly fx levels) s = enlisted su s := by
  have hactivate (t : State) : activate (su.enabledOnly fx levels) t = activate su t := by
    unfold activate
    rw [h.activated]
    rfl
  unfold Scan.enlisted
  rw [hactivate]
  rfl

theorem stickyActive (h : Spares su fx levels) (hs : Coherent (su.enabledOnly fx levels) s)
    (hc : c ∈ s.candidates) :
    (su.enabledOnly fx levels).stickyActive c.key = su.stickyActive c.key := by
  obtain ⟨e, he, hk, _⟩ := (hs.sound c hc).form
  obtain ⟨he, hen⟩ := List.mem_filter.mp he
  rw [← hk]
  exact h.sticky e he hen

theorem lineup (h : Spares su fx levels) (hs : Coherent (su.enabledOnly fx levels) s) :
    lineup (su.enabledOnly fx levels) s = lineup su s := by
  have hkeys : activatedKeys (su.enabledOnly fx levels) s = activatedKeys su s := by
    rw [activatedKeys, activatedKeys, h.activated]
  have hsticky : ∀ k ∈ activatedKeys su s,
      (su.enabledOnly fx levels).stickyActive ((Scan.enlisted su s).entryAt k).key
        = su.stickyActive ((Scan.enlisted su s).entryAt k).key := by
    intro k hk
    have hs := hs.enlisted
    rw [h.enlisted] at hs
    obtain ⟨c, hc⟩ := Option.isSome_iff_exists.mp (isSome_find?_enlisted hk)
    have hmem := Candidates.mem_of_find? hc
    rw [State.entryAt, hc, Option.map_some, Option.getD_some, (hs.sound c hmem).entry_key]
    exact h.stickyActive hs hmem
  unfold Scan.lineup ordered
  rw [hkeys, h.enlisted]
  dsimp only
  rw [sortBy_congr]
  intro a ha b hb
  obtain ⟨k, hk, rfl⟩ := List.mem_map.mp ha
  obtain ⟨k', hk', rfl⟩ := List.mem_map.mp hb
  unfold entryLe
  rw [hsticky k hk, hsticky k' hk']

theorem resolveGroup {all : List Bytes}
    (hall : ∀ k ∈ all, (su.enabledOnly fx levels).stickyActive k = su.stickyActive k) (s : State)
    (d : Draw) (name : Bytes) :
    resolveGroup (su.enabledOnly fx levels) s d name all = resolveGroup su s d name all := by
  have hsticky : ∀ k ∈ d.alive all,
      groupSticky (su.enabledOnly fx levels) s k = groupSticky su s k := by
    intro k hk
    rw [groupSticky, groupSticky, hall k (Draw.mem_alive.mp hk).1]
  have hany : (d.alive all).any (groupSticky (su.enabledOnly fx levels) s)
      = (d.alive all).any (groupSticky su s) := by
    rw [Bool.eq_iff_iff, List.any_eq_true, List.any_eq_true]
    exact exists_congr fun k => and_congr_right fun hk => by rw [hsticky k hk]
  have hplain : (d.alive all).filter (!groupSticky (su.enabledOnly fx levels) s ·)
      = (d.alive all).filter (!groupSticky su s ·) :=
    List.filter_congr fun k hk => by rw [hsticky k hk]
  unfold Scan.resolveGroup
  dsimp only
  rw [hany, hplain]
  rfl

theorem resolveGroups (h : Spares su fx levels) (hs : Coherent (su.enabledOnly fx levels) s)
    {keys : List Bytes} (hkeys : ∀ k ∈ keys, (s.candidates.find? k).isSome = true) :
    resolveGroups (su.enabledOnly fx levels) s keys = resolveGroups su s keys := by
  have hsticky : ∀ k ∈ keys, (su.enabledOnly fx levels).stickyActive k = su.stickyActive k := by
    intro k hk
    obtain ⟨c, hc⟩ := Option.isSome_iff_exists.mp (hkeys k hk)
    rw [← Candidates.key_of_find? hc]
    exact h.stickyActive hs (Candidates.mem_of_find? hc)
  have hdraw : finalDraw (su.enabledOnly fx levels) s keys = finalDraw su s keys := by
    refine List.foldl_ext _ _ _ ?_
    rintro d ⟨name, members⟩ hrow
    exact resolveGroup (fun k hk => hsticky k (mem_of_mem_groupsOf hrow hk)) s d name
  have hof (su : Setup) : Scan.resolveGroups su s keys
      = ({ s with candidates := (finalDraw su s keys).candidates
                  random := (finalDraw su s keys).random }, (finalDraw su s keys).alive keys) := rfl
  rw [hof, hof, hdraw]

theorem acceptOne (h : Spares su fx levels) (hs : Coherent (su.enabledOnly fx levels) s)
    (hc : c ∈ s.candidates) :
    acceptOne (su.enabledOnly fx levels) s c = acceptOne su s c := by
  have hroll : roll (su.enabledOnly fx levels) c.entry s.random = roll su c.entry s.random := by
    rw [roll, roll, rolls, rolls, (hs.sound c hc).entry_key, h.stickyActive hs hc]
  unfold Scan.acceptOne
  rw [hroll]
  rfl

theorem accept (h : Spares su fx levels) (hs : Coherent (su.enabledOnly fx levels) s)
    (ks : List Bytes) : accept (su.enabledOnly fx levels) s ks = accept su s ks := by
  induction ks generalizing s with
  | nil => rfl
  | cons k ks ih =>
    unfold Scan.accept
    cases hc : s.candidates.find? k with
    | none => exact ih hs
    | some c =>
      have hone := h.acceptOne hs (Candidates.mem_of_find? hc)
      have hnext := hs.acceptOne hc
      rw [hone] at hnext
      dsimp only
      rw [hone, ih hnext]

theorem escalate (h : Spares su fx levels) (s : State) (accepted : List Bytes) :
    escalate (su.enabledOnly fx levels) s accepted = escalate su s accepted := by
  by_cases hrec : su.recursive = true
  · rw [h.levels hrec]
    rfl
  · have hplain (su : Setup) (hrec : ¬su.recursive = true) :
        Scan.escalate su s accepted = widen su s := by
      unfold Scan.escalate
      simp [hrec]
    have hrec' : ¬(su.enabledOnly fx levels).recursive = true := hrec
    rw [hplain _ hrec, hplain _ hrec']
    rfl

theorem step (h : Spares su fx levels) (hs : Coherent (su.enabledOnly fx levels) s) :
    step (su.enabledOnly fx levels) s = step su s := by
  have hkeys : activatedKeys (su.enabledOnly fx levels) s = activatedKeys su s := by
    rw [activatedKeys, activatedKeys, h.activated]
  have hgroups : Scan.resolveGroups (su.enabledOnly fx levels)
      (Scan.enlisted (su.enabledOnly fx levels) s) (Scan.lineup (su.enabledOnly fx levels) s)
        = Scan.resolveGroups su (Scan.enlisted su s) (Scan.lineup su s) := by
    rw [h.lineup hs, h.enlisted]
    refine h.resolveGroups (h.enlisted s ▸ hs.enlisted) fun k hk => ?_
    exact isSome_find?_enlisted ((lineup_perm su s).mem_iff.mp hk)
  have hresolved : resolved (su.enabledOnly fx levels) s = resolved su s :=
    congrArg Prod.fst hgroups
  have hkept : kept (su.enabledOnly fx levels) s = kept su s := congrArg Prod.snd hgroups
  have haccept : Scan.accept (su.enabledOnly fx levels) (resolved su s) (kept su s)
      = Scan.accept su (resolved su s) (kept su s) := h.accept (hresolved ▸ hs.resolved) _
  have hsettled : settled (su.enabledOnly fx levels) s = settled su s := by
    rw [settled, settled, hresolved, hkept, haccept]
  rw [step_eq, step_eq, hkeys, h.enlisted, hsettled, hresolved, hkept, haccept, h.escalate]
  rfl

theorem run (h : Spares su fx levels) (fuel : Nat) (hs : Coherent (su.enabledOnly fx levels) s) :
    run (su.enabledOnly fx levels) fuel s = run su fuel s := by
  induction fuel generalizing s with
  | zero => rfl
  | succ fuel ih =>
    have hstep := h.step hs
    unfold Scan.run
    cases hst : Scan.step su s with
    | stop t => rw [hstep, hst]
    | again t =>
      rw [hstep, hst]
      exact ih (hs.again (hstep.trans hst))

theorem ending (h : Spares su fx levels) (hs : Coherent (su.enabledOnly fx levels) s) :
    ending (su.enabledOnly fx levels) s = ending su s := by
  have hbound : passBound (su.enabledOnly fx levels) = passBound su := by
    unfold passBound
    by_cases hrec : su.recursive = true
    · rw [h.levels hrec]
      rfl
    · have hrec' : ¬(su.enabledOnly fx levels).recursive = true := hrec
      rw [if_neg hrec, if_neg hrec']
      rfl
  rw [Scan.ending, hbound]
  exact h.run _ hs

end Spares

section Evaluate

variable {sc : Scanner} {books : List Book} {o : Options} {vars : Variables} {random : Random}

theorem triggeredEntries_enabledOnly (books : List Book) (g : GenerationType) :
    triggeredEntries (books.map Book.enabledOnly) g
      = (triggeredEntries books g).filter (·.enabled) := by
  simp only [triggeredEntries, List.flatMap_map, List.filter_flatMap, Book.enabledOnly,
    List.filter_filter]
  congr 1
  funext b
  exact List.filter_congr fun e _ => Bool.and_comm _ _

theorem setup_enabledOnly (sc : Scanner) (books : List Book) (o : Options) (fx gx : Effects) :
    setup sc (books.map Book.enabledOnly) o gx = (setup sc books o fx).enabledOnly gx
      (recursionLevels ((triggeredEntries books o.generation).filter (·.enabled))) := by
  simp only [setup, Setup.enabledOnly, triggeredEntries_enabledOnly, Options.window, Options.budget,
    List.foldl_map, List.any_map]
  rfl

theorem outcome_enabledOnly (books : List Book) (o : Options) (used : Int) (cs : Candidates) :
    outcome (books.map Book.enabledOnly) o used cs = outcome books o used cs := by
  simp only [outcome, Options.budget, List.foldl_map, List.map_map]
  rfl

/-- Disabled entries that are not felt: whatever level they wait for is one that an enabled entry
waits for as well, and they do not come first among the entries with the key of an enabled one. -/
structure Unfelt (books : List Book) (o : Options) : Prop where
  levels : books.any (·.recursiveScanning) = true →
    ∀ e ∈ triggeredEntries books o.generation, e.enabled = false → e.delaysUntilRecursion = true →
      ∃ f ∈ triggeredEntries books o.generation, f.enabled = true ∧
        f.delaysUntilRecursion = true ∧ f.recursionLevel = e.recursionLevel
  keys : ∀ e ∈ triggeredEntries books o.generation, e.enabled = true →
    ((triggeredEntries books o.generation).find? (·.key = e.key)).all (·.enabled) = true
  slot : (∃ e ∈ triggeredEntries books o.generation, e.enabled = true) ∨
    ∃ slot, Variables.key o.stateKey = .ok slot

theorem find?_filter_of_all {α : Type} {p q : α → Bool} {l : List α}
    (h : (l.find? q).all p = true) (hq : (l.find? q).isSome = true) :
    (l.filter p).find? q = l.find? q := by
  induction l with
  | nil => rfl
  | cons a l ih =>
    rw [List.find?_cons] at h hq ⊢
    cases ha : q a with
    | true =>
      rw [ha] at h
      have hp : p a = true := h
      rw [List.filter_cons_of_pos hp, List.find?_cons_of_pos ha]
    | false =>
      rw [ha] at h hq
      rw [List.filter_cons]
      split
      · rw [List.find?_cons_of_neg (by simp [ha])]
        exact ih h hq
      · exact ih h hq

theorem Unfelt.find?_key (h : Unfelt books o) {e : Entry}
    (he : e ∈ triggeredEntries books o.generation) (hen : e.enabled = true) :
    ((triggeredEntries books o.generation).filter (·.enabled)).find? (·.key = e.key)
      = (triggeredEntries books o.generation).find? (·.key = e.key) :=
  find?_filter_of_all (h.keys e he hen) (List.find?_isSome.mpr ⟨e, he, by simp⟩)

theorem Unfelt.recursionLevels_eq (h : Unfelt books o)
    (hrec : books.any (·.recursiveScanning) = true) :
    recursionLevels ((triggeredEntries books o.generation).filter (·.enabled))
      = recursionLevels (triggeredEntries books o.generation) := by
  refine recursionLevels_congr fun n => ?_
  simp only [mem_recursionLevels, List.mem_filter]
  constructor
  · rintro ⟨e, ⟨he, _⟩, hd⟩
    exact ⟨e, he, hd⟩
  · rintro ⟨e, he, hd, rfl⟩
    by_cases hen : e.enabled = true
    · exact ⟨e, ⟨he, hen⟩, hd, rfl⟩
    · obtain ⟨f, hf, hen, hd, hl⟩ := h.levels hrec e he (by simpa using hen) hd
      exact ⟨f, ⟨hf, hen⟩, hd, hl⟩

theorem Unfelt.spares (h : Unfelt books o) {fx : Effects} {warnings : List Bytes}
    (hs : Effects.start (o.messageCount.getD o.chat.length) (triggeredEntries books o.generation)
      vars o.stateKey false = .ok (fx, warnings)) :
    Spares (setup sc books o (fx.check vars).1)
      ({ fx with entries := (triggeredEntries books o.generation).filter (·.enabled) }.check vars).1
      (recursionLevels ((triggeredEntries books o.generation).filter (·.enabled))) := by
  obtain ⟨_, hentries, hdry, hobj, hstate⟩ := Effects.state_of_start hs
  have hlegible : Json.Legible fx.state := hstate ▸ Effects.legible_loadState _ _
  have hordered (k : EffectKind) : Table.Ordered (Effects.records fx.state k) :=
    (Effects.Kept.records hlegible (fun _ hk => hk) k).ordered
  have hfind {e : Entry} (he : e ∈ triggeredEntries books o.generation) (hen : e.enabled = true) :
      ((triggeredEntries books o.generation).filter (·.enabled)).find? (·.key = e.key)
        = fx.entries.find? (·.key = e.key) := by rw [hentries, h.find?_key he hen]
  have hsame {e : Entry} (he : e ∈ triggeredEntries books o.generation) (hen : e.enabled = true) :=
    Effects.check_congr hobj hdry (hordered .sticky) (hordered .cooldown) (hfind he hen) vars
  refine ⟨?_, fun e he hen => (hsame he hen).1, fun e he hen => (hsame he hen).2, fun hrec => ?_⟩
  · rw [Effects.check_eq (by exact hobj) (by exact hdry)]
    dsimp only [setup]
    rw [Effects.check_eq hobj hdry]
  · refine h.recursionLevels_eq ?_
    simp only [setup, Bool.and_eq_true] at hrec
    exact hrec.2

theorem ending_of_all_disabled {su : Setup} (h : su.entries.filter (·.enabled) = [])
    (random : Random) (log : List Bytes) :
    (ending su (.initial su random log)).used = 0 ∧
      (ending su (.initial su random log)).candidates = [] := by
  refine run_keeps (P := fun s => s.used = 0 ∧ s.candidates = []) ?_ _ _ ⟨rfl, rfl⟩
  rintro s ⟨hused, hcandidates⟩
  have hidle : activatedKeys su s = [] := by
    have hsub := activatedKeys_sublist su s
    rwa [h, List.map_nil, List.sublist_nil] at hsub
  have hd := step_decisions su s
  rw [hd.used, hd.candidates]
  constructor
  · rw [settled_of_idle hidle, (enlisted_ledger su s).used, hused]
  · have hkeys : (settled su s).candidates.keys = [] := by
      refine List.eq_nil_iff_forall_not_mem.mpr fun k hk => ?_
      have hk := mem_keys_settled.mp hk
      simp [hidle, hcandidates, Candidates.keys] at hk
    exact List.map_eq_nil_iff.mp hkeys

theorem Unfelt.ending (h : Unfelt books o) {fx : Effects} {warnings : List Bytes}
    (hs : Effects.start (o.messageCount.getD o.chat.length) (triggeredEntries books o.generation)
      vars o.stateKey false = .ok (fx, warnings)) (random : Random) (log log' : List Bytes) :
    let su := setup sc books o (fx.check vars).1
    let su' := setup sc (books.map Book.enabledOnly) o
      ({ fx with entries := (triggeredEntries books o.generation).filter (·.enabled) }.check vars).1
    (ending su' (.initial su' random log')).used = (ending su (.initial su random log)).used ∧
      (ending su' (.initial su' random log')).candidates
        = (ending su (.initial su random log)).candidates := by
  intro su su'
  have hspares : Spares su _ _ := h.spares hs
  have hsame : Scan.ending su' (.initial su' random []) = Scan.ending su (.initial su random []) := by
    have hsetup : su' = su.enabledOnly _ _ := setup_enabledOnly sc books o (fx.check vars).1 _
    rw [hsetup]
    exact hspares.ending (.initial _ random [])
  -- The logs differ from their first line on, which counts the entries.
  rw [ending_initial su' random, ending_initial su random, hsame]
  exact ⟨rfl, rfl⟩

/-- Disabled entries that are not felt may as well be left out. -/
theorem evaluate_enabledOnly (h : Unfelt books o) :
    (evaluate sc (books.map Book.enabledOnly) o vars random).outcome
      = (evaluate sc books o vars random).outcome := by
  have htriggered := triggeredEntries_enabledOnly books o.generation
  by_cases hb : books.isEmpty = true
  · rw [evaluate_of_no_books hb, evaluate_of_no_books (by simpa using hb)]
  rw [Bool.not_eq_true] at hb
  have hb' : (books.map Book.enabledOnly).isEmpty = false := by simpa using hb
  by_cases he : (triggeredEntries books o.generation).isEmpty = true
  · have he' : (triggeredEntries (books.map Book.enabledOnly) o.generation).isEmpty = true := by
      rw [htriggered, List.isEmpty_iff.mp he]
      rfl
    rw [evaluate_of_untriggered hb he, evaluate_of_untriggered hb' he']
    exact congrArg Except.ok (outcome_enabledOnly books o 0 [])
  rw [Bool.not_eq_true] at he
  cases hs : Effects.start (o.messageCount.getD o.chat.length) (triggeredEntries books o.generation)
      vars o.stateKey false with
  | error f =>
    have hsome : ∃ e ∈ triggeredEntries books o.generation, e.enabled = true := by
      refine h.slot.resolve_right fun ⟨slot, hslot⟩ => ?_
      simp [Effects.start, hslot, Except.map] at hs
    have he' : (triggeredEntries (books.map Book.enabledOnly) o.generation).isEmpty = false := by
      rw [htriggered]
      simpa using hsome
    have hs' : Effects.start (o.messageCount.getD o.chat.length)
        (triggeredEntries (books.map Book.enabledOnly) o.generation) vars o.stateKey false
          = .error f := by
      rw [Effects.start_entries, hs]
      rfl
    rw [evaluate_of_fault hb he hs, evaluate_of_fault hb' he' hs']
  | ok r =>
    obtain ⟨fx, warnings⟩ := r
    rw [evaluate_of_start hb he hs]
    by_cases he' : (triggeredEntries (books.map Book.enabledOnly) o.generation).isEmpty = true
    · have hnone : (setup sc books o (fx.check vars).1).entries.filter (·.enabled) = [] := by
        rw [← List.isEmpty_iff, ← he', htriggered]
        rfl
      obtain ⟨hused, hcandidates⟩ := ending_of_all_disabled hnone random
        (openingLine sc (triggeredEntries books o.generation) o.generation ++ warnings)
      rw [evaluate_of_untriggered hb' he']
      dsimp only
      rw [hused, hcandidates, outcome_enabledOnly]
    · rw [Bool.not_eq_true] at he'
      have hs' : Effects.start (o.messageCount.getD o.chat.length)
          (triggeredEntries (books.map Book.enabledOnly) o.generation) vars o.stateKey false
            = .ok ({ fx with entries := (triggeredEntries books o.generation).filter (·.enabled) },
                warnings) := by
        rw [Effects.start_entries, hs, htriggered]
        rfl
      rw [evaluate_of_start hb' he' hs']
      dsimp only
      rw [(h.ending hs random _ _).1, (h.ending hs random _ _).2, outcome_enabledOnly]

theorem evaluate_enabledOnly_muted :
    let o : Options := { text := some (lit "x") }
    let e : Entry := { uid := lit "d", keys := [lit "dragon"], content := lit "off",
                       enabled := false, delayUntilRecursion := some 1 }
    e ∈ triggeredEntries [.muted 1] o.generation ∧ Unfelt [.muted 1] o ∧
      (evaluate .standard ([.muted 1].map Book.enabledOnly) o [] (.ofList [])).outcome
        = (evaluate .standard [.muted 1] o [] (.ofList [])).outcome := by
  intro o e
  have hunfelt : Unfelt [.muted 1] o := ⟨by decide, by decide, .inl (by decide)⟩
  exact ⟨by decide, hunfelt, evaluate_enabledOnly hunfelt⟩

/-- On a level of its own a disabled entry brings about another pass, in which the loser of a group
comes up again and finds its group taken. -/
theorem not_evaluate_enabledOnly_muted : ¬∀ (sc : Scanner) (books : List Book) (o : Options)
    (vars : Variables) (random : Random) (out out' : Outcome),
    (evaluate sc books o vars random).outcome = .ok out →
      (evaluate sc (books.map Book.enabledOnly) o vars random).outcome = .ok out' →
      (∀ k, (out'.candidates.find? k).map (·.report) = (out.candidates.find? k).map (·.report)) ∧
        out'.usedTokens = out.usedTokens := by
  intro hall
  have hcheck : (match (evaluate .standard [.muted 5] { text := some (lit "x") } []
        (.ofList [])).outcome,
      (evaluate .standard ([.muted 5].map Book.enabledOnly) { text := some (lit "x") } []
        (.ofList [])).outcome with
      | .ok out, .ok out' => out.candidates.any fun c =>
          (out'.candidates.find? c.key).map (·.report)
            ≠ (out.candidates.find? c.key).map (·.report)
      | _, _ => false) = true := by decide +kernel
  split at hcheck
  · next out out' hout hout' =>
    obtain ⟨c, _, hne⟩ := List.any_eq_true.mp hcheck
    exact of_decide_eq_true hne ((hall _ _ _ _ _ out out' hout hout').1 c.key)
  · cases hcheck

end Evaluate
end Scan
end Lorebook
