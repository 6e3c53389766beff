import Lorebook.Proofs.Indexing

set_option autoImplicit false

/-!
The form in which a candidate carries its entry. What its kind says is what it carries, however
often it has been activated before: what calls an entry apart from its keys calls it in every pass,
and an activation by keys always brings the form of its own pass.
-/

namespace Lorebook

/-- An entry in the form that a kind of activation calls for, if records and directives are to be
had for it. -/
def Entry.formFor (idx : Scan.ForcedIndex) (e : Entry) : ActivationKind → Option Entry
  | .forced => ((Table.get? e.key idx.full).or (Table.get? e.worldKey idx.world)).map e.overridden
  | .constant | .sticky | .direct => some e
  | .recursive => some (e.withDirectives e.fallbackDirectives)

namespace Scan

def lastActivation? (su : Setup) (k : Bytes) (passes : List State) : Option State :=
  (passes.filter fun s => k ∈ activatedKeys su s).getLast?

/-- A candidate carries the form of an entry that its kind calls for. Keywords give it the kind of
the last pass in which they activated it. -/
structure Formed (su : Setup) (passes : List State) (e : Entry) (c : Candidate) : Prop where
  key : e.key = c.key
  form : e.formFor su.forced c.kind = some c.entry
  latest : ∃ s, lastActivation? su c.key passes = some s ∧
    (c.kind = .direct ∨ c.kind = .recursive → (c.kind = .recursive ↔ passKind su s = .recursive))

section Trigger

variable {su : Setup} {s : State} {e : Entry} {tr : Trigger}

theorem trigger?_of_lasting (h : trigger? su s e = some tr) (hlasts : ∀ p q, tr ≠ .keys p q)
    (t : State) : trigger? su t e = some tr := by
  unfold trigger? at h ⊢
  split at h
  · exact h
  split at h
  · next hc => rwa [if_pos hc]
  next hc =>
  split at h
  · next hs => rwa [if_neg hc, if_pos hs]
  · obtain ⟨⟨p, q⟩, _, rfl⟩ := Option.map_eq_some_iff.mp h
    exact absurd rfl (hlasts p q)

theorem formFor_of_trigger (h : trigger? su s e = some tr) (k : PassKind) :
    e.formFor su.forced (tr.kind k) = some (tr.form k e) := by
  cases tr with
  | forced o =>
    have ho := forced_of_trigger h
    rw [ForcedIndex.find?] at ho
    simp [Entry.formFor, Trigger.kind, Trigger.form, ho]
  | constant => rfl
  | sticky => rfl
  | keys p q => cases k <;> rfl

end Trigger

section Latest

variable {su : Setup} {s : State} {passes : List State} {k : Bytes}

theorem lastActivation?_of_mem (h : k ∈ activatedKeys su s) :
    lastActivation? su k (passes ++ [s]) = some s := by
  simp [lastActivation?, List.filter_append, h]

theorem lastActivation?_of_not_mem (h : k ∉ activatedKeys su s) :
    lastActivation? su k (passes ++ [s]) = lastActivation? su k passes := by
  simp [lastActivation?, List.filter_append, h]

theorem find?_foldl_enlist_of_not_mem (kind : PassKind) {es : List (Entry × Trigger)}
    (h : k ∉ es.map (·.1.key)) (s : State) :
    (es.foldl (fun t (e, tr) => t.enlist kind e tr) s).candidates.find? k
      = s.candidates.find? k := by
  induction es generalizing s with
  | nil => rfl
  | cons row es ih =>
    simp only [List.map_cons, List.mem_cons, not_or] at h
    rw [List.foldl_cons, ih h.2, s.find?_enlist_of_ne kind row.2 h.1]

theorem find?_enlisted_of_mem (hn : (activatedKeys su s).Nodup) {e : Entry} {tr : Trigger}
    (h : (e, tr) ∈ activated su s) : ∃ n, (enlisted su s).candidates.find? e.key
      = some (tr.candidate (passKind su s) e n (s.candidates.find? e.key)) := by
  obtain ⟨before, after, hsplit⟩ := List.append_of_mem h
  rw [activatedKeys, hsplit, List.map_append, List.map_cons] at hn
  have hmid := List.nodup_middle.mp hn
  rw [List.nodup_cons, List.mem_append, not_or] at hmid
  obtain ⟨⟨hbefore, hafter⟩, _⟩ := hmid
  have hnote : SameDecisions (activate su { s with passes := s.passes + 1 }).1 (enlisted su s) :=
    .note su _ _
  have hfold : (activate su { s with passes := s.passes + 1 }).1 =
      (before ++ (e, tr) :: after).foldl (fun t (e, tr) => t.enlist (passKind su s) e tr)
        { s with passes := s.passes + 1 } := by
    rw [← hsplit]
    rfl
  rw [hnote.candidates, hfold, List.foldl_append, List.foldl_cons]
  rw [find?_foldl_enlist_of_not_mem _ hafter, State.find?_enlist_self,
    find?_foldl_enlist_of_not_mem _ hbefore]
  exact ⟨_, rfl⟩

end Latest

section Dressed

variable {su : Setup} {s : State} {passes : List State}

/-- Each candidate carries what the last pass that activated it has made of its entry. -/
def Dressed (su : Setup) (passes : List State) (s : State) : Prop :=
  ∀ k c, s.candidates.find? k = some c → ∃ r e tr, lastActivation? su k passes = some r ∧
    (e, tr) ∈ activated su r ∧ e.key = k ∧ c.kind = tr.kind (passKind su r) ∧
    c.entry = tr.form (passKind su r) e

/-- A constant or sticky entry has never been activated as anything else. -/
theorem Dressed.entry_of_lasting (hn : (su.entries.map (·.key)).Nodup) (h : Dressed su passes s)
    {t : State} {e : Entry} {tr : Trigger} (hm : (e, tr) ∈ activated su t)
    (htr : tr = .constant ∨ tr = .sticky) {c : Candidate}
    (hc : s.candidates.find? e.key = some c) : c.entry = e := by
  obtain ⟨r, d, tr', _, hd, hkey, _, hentry⟩ := h e.key c hc
  obtain ⟨he, _, htrigger⟩ := mem_activated.mp hm
  obtain ⟨hdmem, _, htrigger'⟩ := mem_activated.mp hd
  obtain rfl : d = e := List.inj_on_of_nodup_map hn hdmem he hkey
  have hlasts : ∀ p q, tr ≠ .keys p q := by rcases htr with rfl | rfl <;> exact nofun
  have hsame := trigger?_of_lasting htrigger hlasts r
  rw [htrigger'] at hsame
  obtain rfl := Option.some.inj hsame
  rw [hentry]
  rcases htr with rfl | rfl <;> rfl

theorem Dressed.settled (hn : (su.entries.map (·.key)).Nodup) (h : Dressed su passes s) :
    Dressed su (passes ++ [s]) (settled su s) := by
  intro k c hc
  -- Groups and acceptance change fates only.
  obtain ⟨d, hd, hdc⟩ := Candidates.exists_find?_of_bare (settled_bare su s).symm hc
  obtain ⟨hentry, hkind⟩ : d.entry = c.entry ∧ d.kind = c.kind := by
    simp only [Candidate.bare, Candidate.mk.injEq] at hdc
    exact ⟨hdc.2.1, hdc.2.2.2.2.1⟩
  rw [← hentry, ← hkind]
  by_cases hact : k ∈ activatedKeys su s
  · rw [lastActivation?_of_mem hact]
    obtain ⟨⟨e, tr⟩, hm, rfl⟩ := List.mem_map.mp hact
    obtain ⟨n, hfound⟩ := find?_enlisted_of_mem (nodup_activatedKeys hn s) hm
    rw [hfound] at hd
    refine ⟨s, e, tr, rfl, hm, rfl, ?_⟩
    rw [← Option.some.inj hd]
    cases hold : s.candidates.find? e.key with
    | none => exact ⟨rfl, rfl⟩
    | some old =>
      refine ⟨tr.refresh_kind old, ?_⟩
      cases tr with
      | forced o => rfl
      | constant =>
        have hsame := h.entry_of_lasting hn hm (.inl rfl) hold
        exact hsame
      | sticky =>
        have hsame := h.entry_of_lasting hn hm (.inr rfl) hold
        exact hsame
      | keys p q => rfl
  · rw [find?_enlisted_of_not_mem hact] at hd
    rw [lastActivation?_of_not_mem hact]
    exact h k d hd

theorem Dressed.step (hn : (su.entries.map (·.key)).Nodup) (h : Dressed su passes s) :
    Dressed su (passes ++ [s]) (step su s).state := by
  have hsettled := h.settled hn
  unfold Dressed at hsettled ⊢
  rw [(step_decisions su s).candidates]
  exact hsettled

theorem Dressed.again (hn : (su.entries.map (·.key)).Nodup) (h : Dressed su passes s) {t : State}
    (hst : Scan.step su s = .again t) : Dressed su (passes ++ [s]) t := by
  have ht := h.step hn
  rwa [hst] at ht

theorem Dressed.ending (hn : (su.entries.map (·.key)).Nodup) (h : Dressed su [] s) :
    Dressed su (trace su (passBound su) s) (ending su s) :=
  run_history (fun _ _ _ ht hst => ht.again hn hst) (fun _ _ ht => ht.step hn) (fun _ _ ht => ht)
    (passBound su) h

theorem Dressed.formed (h : Dressed su passes s) (hs : Coherent su s) {c : Candidate}
    (hc : c ∈ s.candidates) : ∃ e ∈ su.entries, Formed su passes e c := by
  obtain ⟨r, e, tr, hlast, hm, hkey, hkind, hentry⟩ :=
    h c.key c (Candidates.find?_of_mem hs.nodup hc)
  obtain ⟨he, _, htr⟩ := mem_activated.mp hm
  refine ⟨e, he, hkey, ?_, r, hlast, ?_⟩
  · rw [hkind, hentry]
    exact formFor_of_trigger htr _
  · rw [hkind]
    cases tr <;> simp [Trigger.kind, keywordKind]

end Dressed

section Evaluate

variable {sc : Scanner} {books : List Book} {o : Options} {vars : Variables} {random : Random}
  {su : Setup} {s : State}

/-- After every pass, and in the end, each candidate carries its entry in the form that its kind
calls for, and the kind by keywords is that of the last pass in which they activated the entry. -/
theorem candidates_formed (h : opening? sc books o vars random = some (su, s))
    (hn : ((triggeredEntries books o.generation).map (·.key)).Nodup) :
    (∀ before t after, trace su (passBound su) s = before ++ t :: after →
      ∀ c ∈ (step su t).state.candidates, ∃ e ∈ triggeredEntries books o.generation,
        Formed su (before ++ [t]) e c) ∧
    ∃ out, (evaluate sc books o vars random).outcome = .ok out ∧
      ∀ c ∈ out.candidates, ∃ e ∈ triggeredEntries books o.generation,
        Formed su (trace su (passBound su) s) e c := by
  have hcoherent := coherent_of_opening h
  have hevaluate := evaluate_of_opening h
  obtain ⟨fx, log, rfl, rfl⟩ := opening?_eq_some h
  have hbegin : Dressed (setup sc books o fx) [] (.initial (setup sc books o fx) random log) := by
    simp [Dressed, State.initial, Candidates.find?]
  refine ⟨fun before t after hsplit c hc => ?_, _, hevaluate, fun c hc => ?_⟩
  · have ht := trace_history (fun _ _ _ ht hst => ht.again hn hst) hbegin hsplit
    have hmem : t ∈ trace (setup sc books o fx) (passBound (setup sc books o fx))
        (.initial (setup sc books o fx) random log) := by simp [hsplit]
    exact (ht.step hn).formed (hcoherent.of_mem_trace hmem).step hc
  · exact (hbegin.ending hn).formed hcoherent.ending hc

def relapseBook : Book where
  recursiveScanning := true
  entries := [
    { uid := lit "w", keys := [lit "start"], content := lit "middle", group := lit "g",
      groupOverride := true },
    { uid := lit "l", keys := [lit "start", lit "middle"], content := lit "end", group := lit "g",
      fallbackDirectives := [(lit "position", .str (lit "outlet")), (lit "depth", .int 3)] }]

theorem candidates_formed_relapseBook : ∃ su s out,
    opening? .standard [relapseBook] { text := some (lit "start") } [] (.ofList [])
      = some (su, s) ∧
    (evaluate .standard [relapseBook] { text := some (lit "start") } [] (.ofList [])).outcome
      = .ok out ∧
    ∃ c ∈ out.candidates, c.kind = .recursive ∧ c.entry.position = .outlet ∧
      c.dropReason? = some .groupAlreadyActivated ∧
      ∃ e ∈ relapseBook.entries, Formed su (trace su (passBound su) s) e c := by
  have hcheck : (opening? .standard [relapseBook] { text := some (lit "start") } []
      (.ofList [])).any (fun p => (ending p.1 p.2).candidates.any fun c => c.kind = .recursive
        && c.entry.position = .outlet && c.dropReason? = some .groupAlreadyActivated) = true := by
    decide +kernel
  obtain ⟨⟨su, s⟩, hopen, hany⟩ := (Option.any_eq_true _ _).mp hcheck
  simp only [List.any_eq_true, Bool.and_eq_true, decide_eq_true_eq] at hany
  obtain ⟨c, hc, ⟨hkind, hposition⟩, hdrop⟩ := hany
  obtain ⟨_, out, hout, hformed⟩ := candidates_formed hopen (by decide)
  obtain rfl := Except.ok.inj (hout.symm.trans (evaluate_of_opening hopen))
  exact ⟨su, s, _, hopen, hout, c, hc, hkind, hposition, hdrop, hformed c hc⟩

end Evaluate
end Scan
end Lorebook
