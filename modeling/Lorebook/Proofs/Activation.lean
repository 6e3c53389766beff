import Lorebook.Proofs.Candidates
import Lorebook.Proofs.Directives
import Lorebook.Proofs.Pass

set_option autoImplicit false

/-!
Which entries a pass activates, in which forms they become candidates, and that nothing else about
the candidates changes meanwhile.
-/

namespace Lorebook

namespace Scan

inductive Form (su : Setup) (e : Entry) : Entry → Prop where
  | plain : Form su e e
  | recursive : Form su e e.recursiveVariant
  | forced {o : Json} : su.forced.find? e = some o → Form su e (e.overridden o)

theorem Form.identity {su : Setup} {e v : Entry} (h : Form su e v) : e.SameIdentity v := by
  cases h with
  | plain => exact ⟨rfl, rfl, rfl⟩
  | recursive => exact e.beyond_recursiveVariant.toSameIdentity
  | forced _ => exact ⟨rfl, rfl, rfl⟩

theorem Form.key {su : Setup} {e v : Entry} (h : Form su e v) : v.key = e.key := h.identity.key

theorem Form.beyond {su : Setup} {e v : Entry} (h : Form su e v)
    (hfree : su.forced.find? e = none) :
    e.BeyondDirectives v := by
  cases h with
  | plain => exact ⟨⟨rfl, rfl, rfl⟩, rfl, rfl⟩
  | recursive => exact e.beyond_recursiveVariant
  | forced ho =>
    rw [hfree] at ho
    cases ho

def Trigger.kind (k : PassKind) : Trigger → ActivationKind
  | .forced _ => .forced
  | .constant => .constant
  | .sticky => .sticky
  | .keys _ _ => keywordKind k

def Trigger.form (k : PassKind) (e : Entry) : Trigger → Entry
  | .forced o => e.overridden o
  | .constant | .sticky => e
  | .keys _ _ => keywordVariant k e

def Trigger.refresh (k : PassKind) (e : Entry) (tokens : Int) (tr : Trigger) (c : Candidate) :
    Candidate :=
  match tr with
  | .constant | .sticky => { c with kind := tr.kind k }
  | .forced _ | .keys _ _ => { c with entry := tr.form k e, kind := tr.kind k, tokens }

section Trigger

variable {su : Setup} {s : State} {e : Entry} {tr : Trigger}

theorem mem_activated :
    (e, tr) ∈ activated su s ↔
      e ∈ su.entries ∧ eligible su s e = true ∧ trigger? su s e = some tr := by
  simp only [activated, List.mem_filterMap]
  constructor
  · rintro ⟨d, hd, h⟩
    split at h
    · next hel =>
      obtain ⟨t, ht, heq⟩ := Option.map_eq_some_iff.mp h
      cases heq
      exact ⟨hd, hel, ht⟩
    · cases h
  · rintro ⟨he, hel, ht⟩
    exact ⟨e, he, by simp [hel, ht]⟩

theorem not_mem_of_eligible (h : eligible su s e = true) :
    e.key ∉ s.selectedKeys ∧ e.key ∉ s.failedKeys := by
  simp only [eligible, Bool.and_eq_true, Bool.not_eq_true', Bool.or_eq_false_iff,
    decide_eq_false_iff_not] at h
  exact h.1.1.2

theorem enabled_of_eligible (h : eligible su s e = true) : e.enabled = true := by
  simp only [eligible, Bool.and_eq_true] at h
  exact h.1.1.1

theorem mem_activatedKeys {k : Bytes} (h : k ∈ activatedKeys su s) :
    ∃ e ∈ su.entries, e.key = k ∧ e.enabled = true ∧ k ∉ s.selectedKeys ∧ k ∉ s.failedKeys := by
  obtain ⟨⟨e, tr⟩, hm, rfl⟩ := List.mem_map.mp h
  obtain ⟨he, hel, _⟩ := mem_activated.mp hm
  exact ⟨e, he, rfl, enabled_of_eligible hel, not_mem_of_eligible hel⟩

/-- Each enabled entry comes up once at most. -/
theorem activatedKeys_sublist (su : Setup) (s : State) :
    (activatedKeys su s).Sublist ((su.entries.filter (·.enabled)).map (·.key)) := by
  unfold activatedKeys activated
  induction su.entries with
  | nil => simp
  | cons e es ih =>
    by_cases hel : eligible su s e = true
    · rw [List.filterMap_cons, if_pos hel, List.filter_cons_of_pos (enabled_of_eligible hel)]
      cases trigger? su s e with
      | none => exact ih.cons e.key
      | some tr => exact ih.cons_cons e.key
    · rw [List.filterMap_cons, if_neg hel]
      by_cases hen : e.enabled = true
      · rw [List.filter_cons_of_pos hen]
        exact ih.cons e.key
      · rw [List.filter_cons_of_neg hen]
        exact ih

theorem nodup_activatedKeys (hn : (su.entries.map (·.key)).Nodup) (s : State) :
    (activatedKeys su s).Nodup :=
  hn.sublist ((activatedKeys_sublist su s).trans (List.filter_sublist.map _))

theorem forced_of_trigger {o : Json} (h : trigger? su s e = some (.forced o)) :
    su.forced.find? e = some o := by
  unfold trigger? at h
  split at h
  · next ho =>
    cases h
    exact ho
  · split at h
    · cases h
    · split at h
      · cases h
      · obtain ⟨_, _, heq⟩ := Option.map_eq_some_iff.mp h
        cases heq

theorem form_of_trigger (h : trigger? su s e = some tr) (k : PassKind) :
    Form su e (tr.form k e) := by
  cases tr with
  | forced o => exact .forced (forced_of_trigger h)
  | constant => exact .plain
  | sticky => exact .plain
  | keys p q =>
    simp only [Trigger.form, keywordVariant]
    split
    · exact .recursive
    · exact .plain

theorem sticky_of_trigger (h : trigger? su s e = some tr) {k : PassKind}
    (hk : tr.kind k = .sticky) : su.stickyActive e.key = true := by
  cases tr with
  | forced o => cases hk
  | constant => cases hk
  | sticky =>
    unfold trigger? at h
    split at h
    · cases h
    · split at h
      · cases h
      · split at h
        · next hs => exact hs
        · obtain ⟨_, _, heq⟩ := Option.map_eq_some_iff.mp h
          cases heq
  | keys p q =>
    simp only [Trigger.kind, keywordKind] at hk
    split at hk <;> cases hk

theorem trigger?_of_sticky (h : su.stickyActive e.key = true) : ∃ tr, trigger? su s e = some tr := by
  unfold trigger?
  split
  · exact ⟨_, rfl⟩
  · rw [if_pos h]
    split <;> exact ⟨_, rfl⟩

end Trigger

section Enlist

theorem State.estimate_nonneg (s : State) (text : Bytes) : 0 ≤ (s.estimate text).1 := by
  simp only [State.estimate]
  split <;> omega

structure Fresh (key : Bytes) (kind : ActivationKind) (v : Entry) (tokens : Int) (c : Candidate) :
    Prop where
  key : c.key = key
  entry : c.entry = v
  kind : c.kind = kind
  tokens : c.tokens = tokens
  fate : c.fate = .undecided

theorem State.renew_cases (s : State) (key : Bytes) (kind : ActivationKind) (v : Entry)
    (p q : List Bytes) : ∃ est,
    ((s.candidates.find? key).isSome ∧ s.renew key kind v p q =
      { s with
        candidates := s.candidates.update key
          (fun c => { c with entry := v, kind, tokens := (s.estimate v.content).1 })
        estimator := est }) ∨
    (s.candidates.find? key = none ∧ ∃ c, Fresh key kind v (s.estimate v.content).1 c ∧
      s.renew key kind v p q =
        { s with candidates := s.candidates ++ [c], estimator := est }) := by
  refine ⟨(s.estimate v.content).2.estimator, ?_⟩
  cases h : s.candidates.find? key with
  | some c =>
    left
    have he : (s.estimate v.content).2.candidates.find? key = some c := h
    refine ⟨rfl, ?_⟩
    simp only [State.renew, he]
    rfl
  | none =>
    right
    have he : (s.estimate v.content).2.candidates.find? key = none := h
    let c : Candidate :=
      { key, entry := v, matchedPrimary := p, matchedSecondary := q, kind,
        tokens := (s.estimate v.content).1 }
    refine ⟨rfl, c, ⟨rfl, rfl, rfl, rfl, rfl⟩, ?_⟩
    simp only [State.renew, he]
    rfl

theorem State.keep_of_some {s : State} {e : Entry} (h : (s.candidates.find? e.key).isSome)
    (kind : ActivationKind) (mark : Bytes) :
    s.keep kind e mark
      = { s with candidates := s.candidates.update e.key fun c => { c with kind } } := by
  obtain ⟨c, hc⟩ := Option.isSome_iff_exists.mp h
  simp only [State.keep, hc]

theorem State.keep_of_none {s : State} {e : Entry} (h : s.candidates.find? e.key = none)
    (kind : ActivationKind) (mark : Bytes) :
    s.keep kind e mark = s.renew e.key kind e [mark] [] := by
  simp only [State.keep, h]

/-- An activated entry refreshes the candidate with its key, or becomes a new one. -/
theorem State.enlist_cases (s : State) (k : PassKind) (e : Entry) (tr : Trigger) : ∃ n est, 0 ≤ n ∧
    (((s.candidates.find? e.key).isSome ∧ s.enlist k e tr =
        { s with candidates := s.candidates.update e.key (tr.refresh k e n), estimator := est }) ∨
      (s.candidates.find? e.key = none ∧ ∃ c, Fresh e.key (tr.kind k) (tr.form k e) n c ∧
        s.enlist k e tr = { s with candidates := s.candidates ++ [c], estimator := est })) := by
  have hn := s.estimate_nonneg (tr.form k e).content
  have hrenew (p q : List Bytes) := s.renew_cases e.key (tr.kind k) (tr.form k e) p q
  refine ⟨(s.estimate (tr.form k e).content).1, ?_⟩
  cases tr with
  | forced o =>
    obtain ⟨est, h⟩ := hrenew [lit "<forced>"] []
    exact ⟨est, hn, h⟩
  | constant =>
    obtain ⟨est, ⟨hs, _⟩ | ⟨hs, c, hc, h⟩⟩ := hrenew [lit "<constant>"] []
    · exact ⟨s.estimator, hn, .inl ⟨hs, State.keep_of_some hs _ _⟩⟩
    · exact ⟨est, hn, .inr ⟨hs, c, hc, (State.keep_of_none hs _ _).trans h⟩⟩
  | sticky =>
    obtain ⟨est, ⟨hs, _⟩ | ⟨hs, c, hc, h⟩⟩ := hrenew [lit "<sticky>"] []
    · exact ⟨s.estimator, hn, .inl ⟨hs, State.keep_of_some hs _ _⟩⟩
    · exact ⟨est, hn, .inr ⟨hs, c, hc, (State.keep_of_none hs _ _).trans h⟩⟩
  | keys p q =>
    obtain ⟨est, h⟩ := hrenew p q
    exact ⟨est, hn, h⟩

variable {k : PassKind} {e : Entry} {n : Int} (tr : Trigger) (c : Candidate)

@[simp] theorem Trigger.refresh_key : (tr.refresh k e n c).key = c.key := by cases tr <;> rfl

@[simp] theorem Trigger.refresh_fate : (tr.refresh k e n c).fate = c.fate := by cases tr <;> rfl

@[simp] theorem Trigger.refresh_kind : (tr.refresh k e n c).kind = tr.kind k := by cases tr <;> rfl

theorem Trigger.refresh_entry :
    (tr.refresh k e n c).entry = c.entry ∨ (tr.refresh k e n c).entry = tr.form k e := by
  cases tr
  · exact .inr rfl
  · exact .inl rfl
  · exact .inl rfl
  · exact .inr rfl

theorem Trigger.refresh_tokens :
    (tr.refresh k e n c).tokens = c.tokens ∨ (tr.refresh k e n c).tokens = n := by
  cases tr
  · exact .inr rfl
  · exact .inl rfl
  · exact .inl rfl
  · exact .inr rfl

theorem Trigger.refresh_isSelected : (tr.refresh k e n c).isSelected = c.isSelected := by
  simp [Candidate.isSelected]

end Enlist

section Enlisted

variable {su : Setup} {s : State}

/-- What holds when a pass begins and is kept by every activated entry holds of its candidates. -/
theorem enlisted_keeps {P : State → Prop} (hsame : ∀ t u, SameDecisions t u → P t → P u) (h : P s)
    (hstep : ∀ t e tr, (e, tr) ∈ activated su s → P t → P (t.enlist (passKind su s) e tr)) :
    P (enlisted su s) := by
  refine hsame _ _ (SameDecisions.note su _ _) ?_
  refine List.foldlRecOn (activated su s) _ (hsame s _ ⟨⟨rfl, rfl, rfl, rfl, rfl⟩, rfl⟩ h) ?_
  rintro t ht ⟨e, tr⟩ hm
  exact hstep t e tr hm ht

theorem State.enlist_frame (s : State) (k : PassKind) (e : Entry) (tr : Trigger) :
    ∃ cs est, s.enlist k e tr = { s with candidates := cs, estimator := est } := by
  obtain ⟨n, est, _, ⟨_, h⟩ | ⟨_, c, _, h⟩⟩ := s.enlist_cases k e tr
  · exact ⟨_, est, h⟩
  · exact ⟨_, est, h⟩

theorem State.enlist_ledger (s : State) (k : PassKind) (e : Entry) (tr : Trigger) :
    SameLedger s (s.enlist k e tr) := by
  obtain ⟨_, _, h⟩ := s.enlist_frame k e tr
  rw [h]
  exact ⟨rfl, rfl, rfl, rfl, rfl⟩

theorem enlisted_ledger (su : Setup) (s : State) : SameLedger s (enlisted su s) := by
  apply enlisted_keeps (P := SameLedger s)
  · intro t u h ht
    exact ht.trans h.toSameLedger
  · exact ⟨rfl, rfl, rfl, rfl, rfl⟩
  · intro t e tr _ ht
    exact ht.trans (t.enlist_ledger _ e tr)

theorem State.find?_enlist_of_ne (s : State) (k : PassKind) {e : Entry} (tr : Trigger) {key : Bytes}
    (hne : key ≠ e.key) : (s.enlist k e tr).candidates.find? key = s.candidates.find? key := by
  obtain ⟨n, est, _, ⟨_, h⟩ | ⟨_, c, hc, h⟩⟩ := s.enlist_cases k e tr
  · rw [h]
    exact Candidates.find?_update_of_ne (tr.refresh_key) hne _
  · rw [h]
    have hck : c.key ≠ key := fun hk => hne (hk.symm.trans hc.key)
    simp [Candidates.find?, List.find?_append, hck]

theorem State.mem_keys_enlist (s : State) (k : PassKind) (e : Entry) (tr : Trigger) :
    ((s.enlist k e tr).candidates.find? e.key).isSome := by
  obtain ⟨n, est, _, ⟨hs, h⟩ | ⟨hs, c, hc, h⟩⟩ := s.enlist_cases k e tr
  · rw [h, Candidates.find?_update_self tr.refresh_key]
    simpa using hs
  · rw [h]
    simp [Candidates.find?, List.find?_append, hc.key]

theorem find?_enlisted_of_not_mem {key : Bytes} (h : key ∉ activatedKeys su s) :
    (enlisted su s).candidates.find? key = s.candidates.find? key := by
  apply enlisted_keeps (P := fun t => t.candidates.find? key = s.candidates.find? key)
  · intro t u htu ht
    rw [htu.candidates, ht]
  · rfl
  · intro t e tr hm ht
    rw [State.find?_enlist_of_ne, ht]
    rintro rfl
    exact h (List.mem_map.mpr ⟨_, hm, rfl⟩)

theorem isSome_find?_foldl_enlist (k : PassKind) (es : List (Entry × Trigger)) {s : State}
    {key : Bytes} (h : (s.candidates.find? key).isSome ∨ key ∈ es.map (·.1.key)) :
    ((es.foldl (fun t (e, tr) => t.enlist k e tr) s).candidates.find? key).isSome := by
  induction es generalizing s with
  | nil => simpa using h
  | cons row es ih =>
    obtain ⟨e, tr⟩ := row
    rw [List.foldl_cons]
    apply ih
    by_cases hk : key = e.key
    · subst hk
      exact .inl (s.mem_keys_enlist k e tr)
    · simp only [List.map_cons, List.mem_cons, hk, false_or] at h
      rw [s.find?_enlist_of_ne k tr hk]
      exact h

theorem isSome_find?_enlisted {key : Bytes} (h : key ∈ activatedKeys su s) :
    ((enlisted su s).candidates.find? key).isSome := by
  have hfold : ((activate su { s with passes := s.passes + 1 }).1.candidates.find? key).isSome :=
    isSome_find?_foldl_enlist _ (activated su s) (.inr h)
  have hsame : SameDecisions (activate su { s with passes := s.passes + 1 }).1 (enlisted su s) :=
    .note su _ _
  rw [hsame.candidates]
  exact hfold

theorem lineup_perm (su : Setup) (s : State) : (lineup su s).Perm (activatedKeys su s) := by
  have h := (sortBy_perm (fun a b => entryLe su a.2 b.2)
    ((activatedKeys su s).map fun k => (k, (enlisted su s).entryAt k))).map Prod.fst
  have hid : Prod.fst ∘ (fun k => (k, (enlisted su s).entryAt k)) = id := rfl
  rwa [List.map_map, hid, List.map_id] at h

end Enlisted
end Scan
end Lorebook
