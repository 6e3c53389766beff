import Lorebook.Proofs.Counting
import Lorebook.Proofs.Gating

set_option autoImplicit false

/-!
Candidates and the places at which their keys find them, at any moment of a scan: while entries
become candidates, while groups are resolved, and while candidates are accepted. In the end each is
selected or dropped.
-/

namespace Lorebook

theorem DropReason.name_ne_nil (r : DropReason) : r.name ≠ [] := by
  cases r <;> decide

theorem Estimator.tokens_eq_max (est : Estimator) (text : Bytes) :
    est.tokens text = max 0 (est.value text) := by
  unfold tokens
  split <;> omega

namespace Candidates

variable {cs : Candidates} {k : Bytes}

def index? (cs : Candidates) (k : Bytes) : Option Nat := cs.findIdx? (·.key = k)

theorem getElem?_index? (cs : Candidates) (k : Bytes) :
    (cs.index? k).bind (cs[·]?) = cs.find? k := by
  rw [index?, find?, List.find?_eq_bind_findIdx?_getElem?]

theorem index?_eq_some_iff (hn : cs.keys.Nodup) {i : Nat} :
    cs.index? k = some i ↔ cs.keys[i]? = some k := by
  rw [index?, List.findIdx?_eq_some_iff_getElem, List.getElem?_eq_some_iff]
  simp only [keys, List.getElem_map, List.length_map, decide_eq_true_eq]
  constructor
  · rintro ⟨hi, hk, _⟩
    exact ⟨hi, hk⟩
  · rintro ⟨hi, hk⟩
    refine ⟨hi, hk, fun j hj hjk => ?_⟩
    have hi' : i < cs.keys.length := by simpa [keys] using hi
    have hj' : j < cs.keys.length := by omega
    have hsame : cs.keys[j] = cs.keys[i] := by simp [keys, hk, hjk]
    have := (List.Nodup.getElem_inj_iff hn).mp hsame
    omega

def DecidedAt (cs : Candidates) (k : Bytes) : Prop := ∀ c ∈ cs, c.key = k → c.fate ≠ .undecided

theorem DecidedAt.setFate {k' : Bytes} {fate : Fate} (hf : fate ≠ .undecided)
    (h : DecidedAt cs k ∨ k = k') : DecidedAt (cs.setFate k' fate) k := by
  intro c hc hk
  rcases mem_update hc with ⟨hc, hne⟩ | ⟨d, _, _, rfl⟩
  · rcases h with h | rfl
    · exact h c hc hk
    · exact absurd hk hne
  · exact hf

theorem DecidedAt.dropping {reason : Bytes → DropReason} {keys : List Bytes}
    (h : DecidedAt cs k ∨ k ∈ keys) : DecidedAt (cs.dropping reason keys) k := by
  intro c hc hk
  obtain ⟨d, hd, rfl⟩ := List.mem_map.mp hc
  by_cases hm : d.key ∈ keys
  · simp [hm]
  · rw [if_neg hm] at hk ⊢
    subst hk
    exact h.resolve_right hm d hd rfl

end Candidates

/-- A candidate under its own key, with something on record that called it, and the count of its own
content. -/
structure Candidate.Filed (est : Estimator) (c : Candidate) : Prop where
  key : c.entry.key = c.key
  primary : c.matchedPrimary ≠ []
  tokens : est.Faithful → c.tokens = est.tokens c.entry.content

theorem Candidate.Filed.of_bare {est : Estimator} {c d : Candidate} (hcd : c.bare = d.bare)
    (h : c.Filed est) : d.Filed est := by
  simp only [bare, mk.injEq] at hcd
  obtain ⟨hkey, hentry, hprimary, _, _, htokens, _⟩ := hcd
  obtain ⟨hk, hp, ht⟩ := h
  rw [hentry, hkey] at hk
  rw [hprimary] at hp
  rw [htokens, hentry] at ht
  exact ⟨hk, hp, ht⟩

namespace Candidates

variable {est : Estimator} {cs ds : Candidates}

structure Filed (est : Estimator) (cs : Candidates) : Prop where
  nodup : cs.keys.Nodup
  each : ∀ c ∈ cs, c.Filed est

theorem filed_nil : Filed est [] := ⟨List.nodup_nil, fun _ hc => absurd hc List.not_mem_nil⟩

theorem Filed.of_bare (h : cs.Filed est) (hb : ds.bare = cs.bare) : ds.Filed est := by
  refine ⟨?_, fun d hd => ?_⟩
  · rw [keys_eq_of_bare hb]
    exact h.nodup
  · obtain ⟨c, hc, hcd⟩ := exists_of_bare hb hd
    exact (h.each c hc).of_bare hcd

structure Indexed (est : Estimator) (cs : Candidates) : Prop where
  place : ∀ k i, cs.index? k = some i ↔ ∃ c, cs[i]? = some c ∧ c.entry.key = k
  distinct : (cs.map (·.entry.key)).Nodup
  primary : ∀ c ∈ cs, c.matchedPrimary ≠ []
  tokens : est.Faithful → ∀ c ∈ cs, c.tokens = max 0 (est.value c.entry.content)

theorem Filed.indexed (h : cs.Filed est) : cs.Indexed est := by
  have hkeys : cs.keys = cs.map (·.entry.key) :=
    List.map_congr_left fun c hc => (h.each c hc).key.symm
  refine ⟨fun k i => ?_, hkeys ▸ h.nodup, fun c hc => (h.each c hc).primary, fun hest c hc => ?_⟩
  · rw [index?_eq_some_iff h.nodup, hkeys]
    simp
  · rw [(h.each c hc).tokens hest, est.tokens_eq_max]

end Candidates

namespace Scan

section Enlist

variable {su : Setup} {s t : State} {e : Entry} {tr : Trigger} {est : Estimator} {k : PassKind}

theorem primary_ne_nil {text : Bytes} {p q : List Bytes}
    (h : keywordMatch? su e text = some (p, q)) : p ≠ [] := by
  simp only [keywordMatch?, Option.ite_none_left_eq_some, Option.some.injEq, Prod.mk.injEq] at h
  obtain ⟨_, _, _, hne, _, rfl, _⟩ := h
  simpa using hne

theorem keywordMatch?_of_trigger {p q : List Bytes} (h : trigger? su s e = some (.keys p q)) :
    keywordMatch? su e (textFor su s e) = some (p, q) := by
  unfold trigger? at h
  split at h
  · cases h
  split at h
  · cases h
  split at h
  · cases h
  · obtain ⟨⟨p', q'⟩, hmatch, heq⟩ := Option.map_eq_some_iff.mp h
    cases heq
    exact hmatch

theorem marks_ne_nil (h : trigger? su s e = some tr) : tr.marks.1 ≠ [] := by
  cases tr with
  | forced o => simp [Trigger.marks]
  | constant => simp [Trigger.marks]
  | sticky => simp [Trigger.marks]
  | keys p q => exact primary_ne_nil (keywordMatch?_of_trigger h)

theorem filed_candidate {n : Int} {old : Option Candidate} (hkey : (tr.form k e).key = e.key)
    (hmarks : tr.marks.1 ≠ []) (hn : est.Faithful → n = est.tokens (tr.form k e).content)
    (hold : ∀ c, old = some c → c.key = e.key ∧ c.Filed est) :
    (tr.candidate k e n old).Filed est := by
  cases old with
  | none => exact ⟨hkey, hmarks, hn⟩
  | some c =>
    obtain ⟨hck, hc⟩ := hold c rfl
    -- A trigger refreshes the entry together with its count, or neither.
    cases tr with
    | forced o => exact ⟨hkey.trans hck.symm, hc.primary, hn⟩
    | constant => exact ⟨hc.key, hc.primary, hc.tokens⟩
    | sticky => exact ⟨hc.key, hc.primary, hc.tokens⟩
    | keys p q => exact ⟨hkey.trans hck.symm, hc.primary, hn⟩

structure Filing (est : Estimator) (s : State) : Prop where
  filed : s.candidates.Filed est
  counts : est.Faithful → s.Counts est.value

theorem Filing.estimate_fst (h : Filing est s) (hest : est.Faithful) (text : Bytes) :
    (s.estimate text).1 = est.tokens text := by
  obtain ⟨hf, hv⟩ := h.counts hest
  rw [State.estimate_fst hf, Estimator.tokens, hv, Estimator.tokens]

theorem Filing.enlist (h : Filing est s) (hkey : (tr.form k e).key = e.key)
    (hmarks : tr.marks.1 ≠ []) : Filing est (s.enlist k e tr) := by
  have hn : (s.enlist k e tr).candidates.keys.Nodup := by
    rw [State.keys_enlist]
    exact nodup_addOnce h.filed.nodup
  refine ⟨⟨hn, fun c hc => ?_⟩, fun hest => ?_⟩
  · have hfound := Candidates.find?_of_mem hn hc
    by_cases hk : c.key = e.key
    · rw [hk, State.find?_enlist_self] at hfound
      rw [← Option.some.inj hfound]
      refine filed_candidate hkey hmarks (h.estimate_fst · _) fun d hd => ?_
      exact ⟨Candidates.key_of_find? hd, h.filed.each d (Candidates.mem_of_find? hd)⟩
    · rw [s.find?_enlist_of_ne k tr hk] at hfound
      exact h.filed.each c (Candidates.mem_of_find? hfound)
  · obtain ⟨hf, hv⟩ := h.counts hest
    exact ⟨State.faithful_enlist hf k e tr, (State.value_enlist s k e tr).trans hv⟩

end Enlist

section Moments

variable {su : Setup} {s : State} {est : Estimator} {cs : Candidates}

/-- A pass when `n` of its entries have been entered among the candidates. -/
def enlistedUpTo (su : Setup) (s : State) (n : Nat) : State :=
  ((activated su s).take n).foldl (fun t (e, tr) => t.enlist (passKind su s) e tr)
    { s with passes := s.passes + 1 }

def drawnUpTo (su : Setup) (s : State) (n : Nat) : Draw :=
  ((groupsOf (enlisted su s) (lineup su s)).take n).foldl
    (fun d (name, members) => resolveGroup su (enlisted su s) d name members)
    { candidates := (enlisted su s).candidates, random := (enlisted su s).random }

def settledUpTo (su : Setup) (s : State) (n : Nat) : State :=
  (accept su (resolved su s) ((kept su s).take n)).1

inductive Moment (su : Setup) (s : State) : Candidates → Prop where
  | enlisting (n : Nat) : Moment su s (enlistedUpTo su s n).candidates
  | resolving (n : Nat) : Moment su s (drawnUpTo su s n).candidates
  | accepting (n : Nat) : Moment su s (settledUpTo su s n).candidates

theorem enlistedUpTo_all (su : Setup) (s : State) :
    SameDecisions (enlistedUpTo su s (activated su s).length) (enlisted su s) := by
  rw [enlistedUpTo, List.take_length]
  exact .note su _ _

theorem Filing.enlistedUpTo (h : Filing est s) (n : Nat) : Filing est (enlistedUpTo su s n) := by
  refine List.foldlRecOn (motive := fun t => Filing est t) _ _ ?_ ?_
  · exact ⟨h.filed, h.counts⟩
  · rintro t ht ⟨e, tr⟩ hm
    obtain ⟨_, _, htr⟩ := mem_activated.mp (List.mem_of_mem_take hm)
    exact ht.enlist (form_of_trigger htr _).key (marks_ne_nil htr)

theorem Filing.enlisted (h : Filing est s) : (enlisted su s).candidates.Filed est := by
  rw [(enlistedUpTo_all su s).candidates]
  exact (h.enlistedUpTo _).filed

theorem drawnUpTo_bare (su : Setup) (s : State) (n : Nat) :
    (drawnUpTo su s n).candidates.bare = (enlisted su s).candidates.bare := by
  refine List.foldlRecOn
    (motive := fun d : Draw => d.candidates.bare = (enlisted su s).candidates.bare) _ _ rfl ?_
  rintro d hd ⟨name, members⟩ _
  refine resolveGroup_keeps
    (P := fun d : Draw => d.candidates.bare = (enlisted su s).candidates.bare) ?_ ?_ hd
  · intro d r _ k _ _ hd
    unfold Draw.drop
    split
    · exact hd
    · exact (Candidates.bare_setFate _ _ _).trans hd
  · exact fun d _ hd => hd

theorem Filing.moment (h : Filing est s) (hm : Moment su s cs) : cs.Filed est := by
  cases hm with
  | enlisting n => exact (h.enlistedUpTo n).filed
  -- Once all entries are entered only the fates of candidates change.
  | resolving n => exact h.enlisted.of_bare (drawnUpTo_bare su s n)
  | accepting n =>
    have hresolved : (resolved su s).candidates.bare = (Scan.enlisted su s).candidates.bare :=
      resolveGroups_bare su _ _
    exact h.enlisted.of_bare ((accept_bare su _ _).trans hresolved)

theorem moment_settled (su : Setup) (s : State) : Moment su s (settled su s).candidates := by
  rw [settled, ← List.take_length (l := kept su s)]
  exact .accepting _

theorem Filing.step (h : Filing est s) : Filing est (step su s).state := by
  refine ⟨?_, fun hest => (h.counts hest).step⟩
  rw [(step_decisions su s).candidates]
  exact h.moment (moment_settled su s)

theorem Filing.again {t : State} (h : Filing est s) (hst : Scan.step su s = .again t) :
    Filing est t := by
  have ht : Filing est (Scan.step su s).state := h.step
  rwa [hst] at ht

end Moments

section Decide

variable {su : Setup} {s : State} {k : Bytes}

theorem decidedAt_accept {ks : List Bytes} (h : s.candidates.DecidedAt k ∨ k ∈ ks) :
    (accept su s ks).1.candidates.DecidedAt k := by
  induction ks generalizing s with
  | nil => simpa [accept] using h
  | cons k' ks ih =>
    rw [accept_cons]
    cases hc : s.candidates.find? k' with
    | none =>
      apply ih
      rcases h with h | h
      · exact .inl h
      · rcases List.mem_cons.mp h with rfl | h
        · left
          intro c hm hk
          exact absurd (hk ▸ List.mem_map_of_mem hm) (Candidates.find?_eq_none_iff.mp hc)
        · exact .inr h
    | some c =>
      apply ih
      obtain ⟨fate, hf, heq⟩ := acceptOne_candidates su s c
      rw [heq, Candidates.key_of_find? hc]
      rw [List.mem_cons, ← or_assoc] at h
      exact h.imp_left (.setFate hf)

theorem decidedAt_settled (hn : (settled su s).candidates.keys.Nodup)
    (h : s.candidates.DecidedAt k) : (settled su s).candidates.DecidedAt k := by
  by_cases hact : k ∈ activatedKeys su s
  · apply decidedAt_accept
    by_cases hk : k ∈ kept su s
    · exact .inr hk
    · -- What does not come to acceptance the groups have dropped.
      left
      obtain ⟨reason, hcs⟩ := resolveGroups_dropping su (enlisted su s) (lineup su s)
      rw [resolved, hcs]
      apply Candidates.DecidedAt.dropping
      right
      by_contra hr
      exact hk (mem_resolveGroups.mpr ⟨(lineup_perm su s).mem_iff.mpr hact, hr⟩)
  · intro c hc hck
    have hfound := Candidates.find?_of_mem hn hc
    rw [hck, find?_settled_of_not_mem hact] at hfound
    exact h c (Candidates.mem_of_find? hfound) hck

end Decide

section Evaluate

variable {sc : Scanner} {books : List Book} {o : Options} {vars : Variables} {random : Random}

theorem filing_initial (su : Setup) (random : Random) (log : List Bytes) :
    Filing su.scanner.estimator (.initial su random log) :=
  ⟨Candidates.filed_nil, fun hest => ⟨hest, rfl⟩⟩

theorem filing_ending (su : Setup) (random : Random) (log : List Bytes) :
    let t := ending su (.initial su random log)
    Filing su.scanner.estimator t ∧ ∀ k, t.candidates.DecidedAt k := by
  refine run_keeps (P := fun t => Filing su.scanner.estimator t ∧ ∀ k, t.candidates.DecidedAt k)
    ?_ _ _ ⟨filing_initial su random log, fun k c hc => absurd hc List.not_mem_nil⟩
  rintro s ⟨hs, hdecided⟩
  refine ⟨hs.step, fun k => ?_⟩
  rw [(step_decisions su s).candidates]
  exact decidedAt_settled (hs.moment (moment_settled su s)).nodup (hdecided k)

theorem xor_of_decided {c : Candidate} (h : c.fate ≠ .undecided) :
    Xor (c.isSelected = true) (∃ r, c.dropReason? = some r ∧ r.name ≠ []) := by
  cases hf : c.fate with
  | undecided => exact absurd hf h
  | selected => simp [Xor, Candidate.isSelected, Candidate.dropReason?, hf]
  | dropped r => simp [Xor, Candidate.isSelected, Candidate.dropReason?, hf, r.name_ne_nil]

/-- At every moment of every pass, and in the end, each key finds the one candidate whose entry has
it. Each candidate has something that called it and the count of its content, if the estimator is a
function of the text. In the end each is either selected or dropped for a reason. -/
theorem candidates_indexed {out : Outcome}
    (h : (evaluate sc books o vars random).outcome = .ok out) :
    (∀ su s₀, opening? sc books o vars random = some (su, s₀) →
      ∀ s ∈ trace su (passBound su) s₀, ∀ cs, Moment su s cs → cs.Indexed sc.estimator) ∧
    out.candidates.Indexed sc.estimator ∧
    ∀ c ∈ out.candidates,
      Xor (c.isSelected = true) (∃ r, c.dropReason? = some r ∧ r.name ≠ []) := by
  refine ⟨fun su s₀ hopen s hs cs hm => ?_, ?_⟩
  · obtain ⟨fx, log, rfl, rfl⟩ := opening?_eq_some hopen
    have hinit := filing_initial (setup sc books o fx) random log
    exact ((trace_keeps (fun _ _ h => h.again) _ _ hinit s hs).moment hm).indexed
  · obtain ⟨_, rfl⟩ | ⟨su, s, hopen, rfl⟩ := evaluate_cases h
    · exact ⟨Candidates.filed_nil.indexed, fun _ hc => absurd hc List.not_mem_nil⟩
    · obtain ⟨fx, log, rfl, rfl⟩ := opening?_eq_some hopen
      obtain ⟨hfiling, hdecided⟩ := filing_ending (setup sc books o fx) random log
      exact ⟨hfiling.filed.indexed, fun c hc => xor_of_decided (hdecided c.key c hc rfl)⟩

def twinBook : Book where
  entries := [{ uid := lit "1", constant := true, content := lit "abcd" },
    { uid := lit "1", keys := [lit "dragon"], content := lit "abcdefgh" }]

theorem candidates_indexed_twinBook : ∃ su s out,
    opening? .standard [twinBook] { text := some (lit "dragon") } [] (.ofList [])
      = some (su, s) ∧
    (evaluate .standard [twinBook] { text := some (lit "dragon") } [] (.ofList [])).outcome
      = .ok out ∧
    out.candidates.map (·.tokens) = [2] ∧
    (enlistedUpTo su s 1).candidates.Indexed .plain ∧ out.candidates.Indexed .plain := by
  refine ⟨_, _, _, rfl, rfl, by decide, ?_⟩
  obtain ⟨hmoments, hend, _⟩ := @candidates_indexed .standard [twinBook]
    { text := some (lit "dragon") } [] (.ofList []) _ rfl
  exact ⟨hmoments _ _ rfl _ (mem_trace_self (passBound_pos _) _) _ (.enlisting 1), hend⟩

end Evaluate
end Scan
end Lorebook
