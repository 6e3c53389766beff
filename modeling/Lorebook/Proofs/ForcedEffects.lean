import Lorebook.Proofs.LoadOrder
import Lorebook.Proofs.Visits

set_option autoImplicit false

/-!
Effects that the record of a forced activation gives to an entry. They begin when the entry is
selected, but the next check goes by what the entry itself has: a record of an effect that is not
its own is dropped.
-/

namespace Lorebook

def Entry.summoned (sticky : Option Int) : Entry :=
  { uid := lit "f", keys := [lit "never"], content := lit "x", sticky }

def Book.summoned (sticky : Option Int) : Book where
  entries := [.summoned sticky]

def Json.summons : Json := Json.object [(lit "uid", .str (lit "f")), (lit "sticky", .int 10)]

namespace Effects

section Records

variable {clock t n : Int} {entries es : List Entry} {k : EffectKind} {rs : Table Json}
  {key stateKey slot : Bytes} {vars : Variables} {s c : Option Json} {fx : Effects}
  {warnings : List Bytes}

/-- Within its time a record counts if the first entry with its key has the effect. -/
theorem judge_record_active (lo : Bounded.min ≤ t) (hlt : t < clock) (hend : clock < t + n)
    (hi : clock < Bounded.max) :
    decide (judge clock entries k key (record t n false) = .active)
      = (entries.find? (·.key = key)).any (fun e => (k.duration e).isSome) := by
  have hadd : clock < Bounded.add t n := by
    unfold Bounded.add Bounded.clamp
    repeat' split
    all_goals omega
  unfold judge
  rw [if_neg (by simp [record, Json.object, Json.isObject]),
    recordInt_start lo (by omega), recordInt_end, if_neg (by omega)]
  dsimp only
  cases entries.find? (·.key = key) with
  | none => simp [Int.not_le.mpr hadd]
  | some e => cases h : k.duration e <;> simp [Int.not_le.mpr hadd, h]

theorem get?_renewed_of_none (h : Table.Ordered rs) (hnone : Table.get? key rs = none) :
    Table.get? key (renewed clock entries k es rs)
      = ((es.filter (·.key = key)).findSome? k.duration).map (record clock · false) := by
  refine get?_foldl_begun_of_none ?_
  rw [get?_staying h, hnone]
  rfl

theorem ne_of_mem_overdue {sticky : Table Json} {e : Entry} (hs : Table.Ordered sticky)
    (hnone : Table.get? key sticky = none) (he : e ∈ overdue clock entries .sticky sticky) :
    e.key ≠ key := by
  rintro rfl
  obtain ⟨data, hget, _⟩ := (mem_overdue hs).mp he
  rw [hnone] at hget
  cases hget

theorem Held.begin (lo : Bounded.min ≤ clock) (hi : clock ≤ Bounded.max)
    (hkey : Utf8.isValid key = true) (hown : ∀ e ∈ es, Own key e.key)
    (hstart : start clock entries vars stateKey false = .ok (fx, warnings))
    (h : Held stateKey fx.slot key vars none none) :
    Held stateKey fx.slot key ((fx.check vars).1.commit es (fx.check vars).2).2
      (((es.filter (·.key = key)).findSome? EffectKind.sticky.duration).map (record clock · false))
      (((es.filter (·.key = key)).findSome? EffectKind.cooldown.duration).map
        (record clock · false)) := by
  obtain ⟨rfl, rfl, hdry, hobj, hstate⟩ := state_of_start hstart
  obtain ⟨hs, hc⟩ := h
  rw [← hstate] at hs hc
  have hlegible : Json.Legible fx.state := hstate ▸ legible_loadState _ _
  have hkept (k : EffectKind) : Kept (Own key) (records fx.state k) :=
    .records hlegible (fun k hk => own_of_valid hk key) k
  have hhanded : Kept (Own key) (handed fx.clock fx.entries (records fx.state .sticky)
      (records fx.state .cooldown)) := (hkept .sticky).handed lo hi (hkept .cooldown)
  have hget : Table.get? key (handed fx.clock fx.entries (records fx.state .sticky)
      (records fx.state .cooldown)) = none := by
    rw [get?_handed_of_not, hc]
    exact fun e he hk => absurd hk (ne_of_mem_overdue (hkept .sticky).ordered hs he)
  have hs' : Kept (Own key) (renewed fx.clock fx.entries .sticky es (records fx.state .sticky)) :=
    (hkept .sticky).renewed lo hi hown .sticky
  have hc' : Kept (Own key) (renewed fx.clock fx.entries .cooldown es _) :=
    hhanded.renewed lo hi hown .cooldown
  have hobj' : (fx.state.setField (lit "format") format).isObject = true := by simpa using hobj
  rw [commit_check hobj hdry]
  constructor
  · rw [Table.get?_insert_self, loadState_stored stateKey hobj hlegible hs' hc']
    dsimp only
    rw [records_withRecords hobj', EffectKind.pick_sticky, get?_reloaded hs' hkey,
      get?_renewed_of_none (hkept .sticky).ordered hs]
  · rw [Table.get?_insert_self, loadState_stored stateKey hobj hlegible hs' hc']
    dsimp only
    rw [records_withRecords hobj', EffectKind.pick_cooldown, get?_reloaded hc' hkey,
      get?_renewed_of_none hhanded.ordered hget]

theorem Held.active (hstart : start clock entries vars stateKey false = .ok (fx, warnings))
    (h : Held stateKey fx.slot key vars s c) :
    (fx.check vars).1.stickyActive key = s.any (judge clock entries .sticky key · = .active) ∧
      (s = none → (fx.check vars).1.cooldownActive key
        = c.any (judge clock entries .cooldown key · = .active)) := by
  obtain ⟨rfl, rfl, hdry, hobj, hstate⟩ := state_of_start hstart
  obtain ⟨hs, hc⟩ := h
  rw [← hstate] at hs hc
  have hlegible : Json.Legible fx.state := hstate ▸ legible_loadState _ _
  have hordered (k : EffectKind) : Table.Ordered (records fx.state k) :=
    (Kept.records hlegible (fun _ hk => hk) k).ordered
  rw [check_eq hobj hdry]
  constructor
  · rw [← hs, any_active (hordered .sticky)]
    rfl
  · intro hnone
    -- Nothing is handed over to the cooldown of a key that has no sticky record.
    have hover {e : Entry}
        (he : e ∈ overdue fx.clock fx.entries .sticky (records fx.state .sticky)) : e.key ≠ key :=
      ne_of_mem_overdue (hordered .sticky) (hs.trans hnone) he
    have hget : Table.get? key (handed fx.clock fx.entries (records fx.state .sticky)
        (records fx.state .cooldown)) = c := by
      rw [get?_handed_of_not, hc]
      exact fun e he hk => absurd hk (hover he)
    rw [← hget, any_active]
    · refine decide_eq_decide.mpr ?_
      dsimp only
      rw [List.mem_append, or_iff_right]
      intro hmem
      obtain ⟨e, he, hk⟩ := List.mem_map.mp hmem
      exact hover (List.mem_filter.mp he).1 hk
    · exact ordered_handed (hordered .cooldown)

end Records
end Effects

def Overrides (rec : Json) (k : EffectKind) (n : Int) : Prop :=
  ∃ v, Entry.overrideValue? rec [k.name] = some v ∧ v.toInt? = some n

theorem duration_overridden {rec : Json} {k : EffectKind} {n : Int} (h : Overrides rec k n)
    (hn : 0 < n) (e : Entry) : k.duration (e.overridden rec) = some n := by
  obtain ⟨v, hv, hint⟩ := h
  cases k with
  | sticky =>
    have hv : Entry.overrideValue? rec [lit "sticky"] = some v := hv
    simp [EffectKind.duration, Entry.overridden, hv, hint, Fields.positive?, hn]
  | cooldown =>
    have hv : Entry.overrideValue? rec [lit "cooldown"] = some v := hv
    simp [EffectKind.duration, Entry.overridden, hv, hint, Fields.positive?, hn]

theorem findSome?_of_nodup {es : List Entry} {e : Entry} (hn : (es.map (·.key)).Nodup)
    (he : e ∈ es) {α : Type} (f : Entry → Option α) :
    (es.filter (·.key = e.key)).findSome? f = f e := by
  induction es with
  | nil => cases he
  | cons d es ih =>
    rw [List.map_cons, List.nodup_cons] at hn
    obtain ⟨hd, hn⟩ := hn
    rcases List.mem_cons.mp he with rfl | he
    · have hrest : es.filter (·.key = e.key) = [] := by
        refine List.filter_eq_nil_iff.mpr fun d hd' hk => hd ?_
        rw [← of_decide_eq_true hk]
        exact List.mem_map_of_mem hd'
      rw [List.filter_cons_of_pos (by simp), hrest]
      cases h : f e <;> simp [h]
    · have hne : d.key ≠ e.key := fun hk => hd (hk ▸ List.mem_map_of_mem he)
      rw [List.filter_cons_of_neg (by simpa using hne)]
      exact ih hn he

namespace Scan

def Options.clock (o : Options) : Int := o.messageCount.getD o.chat.length

structure SelectedBy (o : Options) (out : Outcome) (e : Entry) (rec : Json) : Prop where
  found : (ForcedIndex.ofJson o.forced).find? e = some rec
  selected : ∃ c ∈ out.candidates, c.key = e.key ∧ c.kind = .forced ∧
    c.entry = e.overridden rec ∧ c.isSelected = true

/-- The store holds no record for the entry, whose key is stored as it is, and as which no other
selected key is stored. -/
structure Begins (o : Options) (vars : Variables) (out : Outcome) (e : Entry) : Prop where
  free : ∀ slot, Variables.key o.stateKey = .ok slot →
    Effects.Held o.stateKey slot e.key vars none none
  valid : Utf8.isValid e.key = true
  own : ∀ c ∈ out.candidates, c.isSelected = true → Effects.Own e.key c.key
  clock : Bounded.min ≤ o.clock

/-- A later evaluation on the same store, in which the entry takes part and nothing is forced. -/
structure Follows (books : List Book) (o o' : Options) (e : Entry) : Prop where
  mem : e ∈ triggeredEntries books o'.generation
  store : o'.stateKey = o.stateKey
  unforced : o'.forced = .arr []
  later : o.clock < o'.clock
  room : o'.clock < Bounded.max

section Evaluate

variable {sc sc' : Scanner} {books : List Book} {o o' : Options} {vars : Variables}
  {random random' : Random} {out : Outcome} {e : Entry} {rec : Json}

theorem exists_opening (hb : books.isEmpty = false) {slot : Bytes}
    (hslot : Variables.key o.stateKey = .ok slot)
    (he : e ∈ triggeredEntries books o.generation) :
    ∃ fx warnings s, Effects.start o.clock (triggeredEntries books o.generation) vars o.stateKey
        false = .ok (fx, warnings) ∧ fx.slot = slot ∧
      opening? sc books o vars random = some (setup sc books o (fx.check vars).1, s) := by
  have hsome : (triggeredEntries books o.generation).isEmpty = false := by
    rw [List.isEmpty_eq_false_iff_exists_mem]
    exact ⟨e, he⟩
  have hstart := @Effects.start_of_key o.clock (triggeredEntries books o.generation) vars _ false _
    hslot
  exact ⟨_, _, _, hstart, rfl, opening?_of_start hb hsome hstart⟩

theorem held_of_selectedBy (h : (evaluate sc books o vars random).outcome = .ok out)
    (hsel : SelectedBy o out e rec) (hbegins : Begins o vars out e)
    (hi : o.clock ≤ Bounded.max) :
    ∃ slot, Variables.key o.stateKey = .ok slot ∧
      Effects.Held o.stateKey slot e.key (evaluate sc books o vars random).vars
        ((e.overridden rec).sticky.map (Effects.record o.clock · false))
        ((e.overridden rec).cooldown.map (Effects.record o.clock · false)) := by
  obtain ⟨hheld, hkey, hapart, lo⟩ := hbegins
  obtain ⟨c, hc, _, _, hform, hcsel⟩ := hsel.selected
  obtain ⟨hb, hstarted⟩ := evaluate_ok_iff.mp ⟨out, h⟩
  have htriggered : (triggeredEntries books o.generation).isEmpty = false := by
    by_contra hnone
    rw [evaluate_of_untriggered hb (by simpa using hnone)] at h
    cases h
    cases hc
  obtain ⟨⟨fx, warnings⟩, hs⟩ := hstarted.resolve_left (by simp [htriggered])
  have hslot := Effects.slot_of_start hs
  have hrun := @evaluate_of_start sc books o vars random fx warnings hb htriggered hs
  dsimp only at hrun
  rw [hrun] at h ⊢
  cases h
  dsimp only [outcome] at hc hapart
  have hcoherent : Coherent (setup sc books o (fx.check vars).1)
      (ending (setup sc books o (fx.check vars).1) (.initial _ random
        (openingLine sc (triggeredEntries books o.generation) o.generation ++ warnings))) :=
    (Coherent.initial _ random _).ending
  generalize ending (setup sc books o (fx.check vars).1) (.initial _ random
    (openingLine sc (triggeredEntries books o.generation) o.generation ++ warnings)) = t at *
  have hmem : e.overridden rec ∈ (t.candidates.filter (·.isSelected)).map (·.entry) :=
    List.mem_map.mpr ⟨c, List.mem_filter.mpr ⟨hc, hcsel⟩, hform⟩
  have hown : ∀ f ∈ (t.candidates.filter (·.isSelected)).map (·.entry),
      Effects.Own e.key f.key := by
    intro f hf
    obtain ⟨d, hd, rfl⟩ := List.mem_map.mp hf
    obtain ⟨hd, hdsel⟩ := List.mem_filter.mp hd
    rw [(hcoherent.sound d hd).entry_key]
    exact hapart d hd hdsel
  -- Selected keys are distinct, so that no other form of the entry begins its effects.
  have hduration (k : EffectKind) :
      (((t.candidates.filter (·.isSelected)).map (·.entry)).filter (·.key = e.key)).findSome?
        k.duration = k.duration (e.overridden rec) :=
    findSome?_of_nodup (nodup_selected_keys hcoherent) hmem _
  have hbegun := Effects.Held.begin lo hi hkey hown hs (hheld _ hslot)
  rw [hduration .sticky, hduration .cooldown] at hbegun
  exact ⟨_, hslot, hbegun⟩

/-- The effects that a record gives are found by the next check if they are the entry's own too, or
those of the first entry with its key. -/
theorem forced_effects (h : (evaluate sc books o vars random).outcome = .ok out)
    (hsel : SelectedBy o out e rec) (hbegins : Begins o vars out e)
    (hfollows : Follows books o o' e) :
    ∃ su s, opening? sc' books o' (evaluate sc books o vars random).vars random' = some (su, s) ∧
      (∀ n, Overrides rec .sticky n → o'.clock < o.clock + n → su.stickyActive e.key
        = ((triggeredEntries books o'.generation).find? (·.key = e.key)).any (·.sticky.isSome)) ∧
      (∀ n, (e.overridden rec).sticky = none → Overrides rec .cooldown n →
        o'.clock < o.clock + n → su.effects.cooldownActive e.key
          = ((triggeredEntries books o'.generation).find? (·.key = e.key)).any
            (·.cooldown.isSome)) := by
  have lo := hbegins.clock
  obtain ⟨he, hstore, _, hlt, hi⟩ := hfollows
  obtain ⟨slot, hslot, hheld⟩ := held_of_selectedBy h hsel hbegins (by omega)
  rw [← hstore] at hslot hheld
  obtain ⟨fx, warnings, s, hstart, rfl, hopen⟩ :=
    exists_opening (evaluate_ok_iff.mp ⟨out, h⟩).1 hslot he
  obtain ⟨hsticky, hcooldown⟩ := Effects.Held.active hstart hheld
  refine ⟨_, _, hopen, fun n hn hend => ?_, fun n hnone hn hend => ?_⟩
  · have hsome : (e.overridden rec).sticky = some n := duration_overridden hn (by omega) e
    rw [hsome] at hsticky
    exact hsticky.trans (Effects.judge_record_active (k := .sticky) lo hlt hend hi)
  · have hsome : (e.overridden rec).cooldown = some n := duration_overridden hn (by omega) e
    rw [hnone, hsome] at hcooldown
    exact (hcooldown rfl).trans (Effects.judge_record_active (k := .cooldown) lo hlt hend hi)

end Evaluate

def Options.summoning : Options where
  text := some (lit "x")
  messageCount := some 1
  forced := .arr [.summons]

def Options.afterwards : Options where
  text := some (lit "x")
  messageCount := some 2

theorem selectedBy_summons (sticky : Option Int) (h : sticky ∈ [none, some 2]) : ∃ out,
    (evaluate .standard [.summoned sticky] .summoning [] (.ofList [])).outcome = .ok out ∧
      SelectedBy .summoning out (.summoned sticky) .summons ∧
      Begins .summoning [] out (.summoned sticky) := by
  have hcheck : ∀ sticky ∈ [none, some 2],
      (evaluate .standard [.summoned sticky] .summoning [] (.ofList [])).outcome.toOption.any
        (fun out => out.candidates.map (fun c => (c.key, c.kind, c.entry, c.isSelected))
          = [((Entry.summoned sticky).key, .forced, (Entry.summoned sticky).overridden .summons,
              true)]) = true := by
    decide +kernel
  obtain ⟨out, hout, hcandidates⟩ := (Option.any_eq_true _ _).mp (hcheck sticky h)
  obtain ⟨c, hc, hrow⟩ := List.map_eq_singleton_iff.mp (of_decide_eq_true hcandidates)
  simp only [Prod.mk.injEq] at hrow
  obtain ⟨hkey, hkind, hform, hsel⟩ := hrow
  refine ⟨out, ?_, ⟨rfl, c, hc ▸ List.mem_singleton_self c, hkey, hkind, hform, hsel⟩,
    fun slot _ => ⟨rfl, rfl⟩, show Utf8.isValid (Entry.summoned none).key = true by decide, ?_,
    by decide⟩
  · cases hres : (evaluate .standard [.summoned sticky] .summoning [] (.ofList [])).outcome with
    | error f => simp [hres, Except.toOption] at hout
    | ok r => simpa [hres, Except.toOption] using hout
  · intro d hd _ _
    rw [hc, List.mem_singleton] at hd
    rw [hd, hkey]

theorem follows_summoning (sticky : Option Int) :
    Follows [.summoned sticky] .summoning .afterwards (.summoned sticky) :=
  ⟨List.mem_singleton_self _, rfl, rfl, by decide, by decide⟩

theorem forced_effects_summoned : ∃ su s,
    opening? .standard [.summoned (some 2)] .afterwards
      (evaluate .standard [.summoned (some 2)] .summoning [] (.ofList [])).vars (.ofList [])
      = some (su, s) ∧
    su.stickyActive (Entry.summoned (some 2)).key = true := by
  obtain ⟨out, hout, hsel, hbegins⟩ := selectedBy_summons (some 2) (by decide)
  obtain ⟨su, s, hopen, hsticky, _⟩ :=
    forced_effects hout hsel hbegins (follows_summoning (some 2))
  exact ⟨su, s, hopen, hsticky 10 ⟨.int 10, rfl, rfl⟩ (by decide)⟩

/-- An entry that may not stay at all does not, whatever the record says. -/
theorem not_forced_effects_summoned : ¬∀ (sc sc' : Scanner) (books : List Book) (o o' : Options)
    (vars : Variables) (random random' : Random) (out : Outcome) (e : Entry) (rec : Json) (n : Int),
    (evaluate sc books o vars random).outcome = .ok out → SelectedBy o out e rec →
      Begins o vars out e → Follows books o o' e → Overrides rec .sticky n → 1 < n →
      o'.clock < o.clock + n →
      ∃ su s, opening? sc' books o' (evaluate sc books o vars random).vars random' = some (su, s) ∧
        su.stickyActive e.key = true := by
  intro hall
  obtain ⟨out, hout, hsel, hbegins⟩ := selectedBy_summons none (by decide)
  obtain ⟨su, s, hopen, hactive⟩ := hall .standard .standard _ _ _ _ _ (.ofList []) _ _ _ 10 hout
    hsel hbegins (follows_summoning none) ⟨.int 10, rfl, rfl⟩ (by decide) (by decide)
  have hcheck : (opening? .standard [.summoned none] .afterwards
      (evaluate .standard [.summoned none] .summoning [] (.ofList [])).vars (.ofList [])).all
        (fun p => !p.1.stickyActive (Entry.summoned none).key) = true := by
    decide +kernel
  rw [hopen] at hcheck
  simp [hactive] at hcheck

end Scan
end Lorebook
