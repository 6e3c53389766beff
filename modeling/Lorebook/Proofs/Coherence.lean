import Lorebook.Proofs.Acceptance
import Lorebook.Proofs.Activation
import Lorebook.Proofs.Evaluation
import Lorebook.Proofs.Groups

set_option autoImplicit false

/-!
What is true of the state of a scan at any time: each candidate is a form of a triggered entry, and
keys and groups of the selected candidates are on record.
-/

namespace Lorebook

namespace Candidates

variable {cs ds : Candidates}

theorem keys_bare (cs : Candidates) : cs.bare.keys = cs.keys := by
  simp only [keys, bare, List.map_map]
  rfl

theorem keys_eq_of_bare (h : ds.bare = cs.bare) : ds.keys = cs.keys := by
  rw [← keys_bare ds, h, keys_bare]

theorem exists_of_bare (h : ds.bare = cs.bare) {d : Candidate} (hd : d ∈ ds) :
    ∃ c ∈ cs, c.bare = d.bare := by
  have hm : d.bare ∈ cs.bare := h ▸ List.mem_map_of_mem hd
  exact List.mem_map.mp hm

theorem exists_find?_of_bare (h : ds.bare = cs.bare) {k : Bytes} {c : Candidate}
    (hc : cs.find? k = some c) : ∃ d, ds.find? k = some d ∧ d.bare = c.bare := by
  have hf : ds.bare.find? k = cs.bare.find? k := by rw [h]
  rw [find?_bare, find?_bare, hc] at hf
  exact Option.map_eq_some_iff.mp hf

theorem bare_dropping (cs : Candidates) (reason : Bytes → DropReason) (keys : List Bytes) :
    (cs.dropping reason keys).bare = cs.bare := by
  simp only [dropping, bare, List.map_map]
  apply List.map_congr_left
  intro c _
  simp only [Function.comp]
  split <;> rfl

theorem mem_dropping {reason : Bytes → DropReason} {keys : List Bytes} {c : Candidate}
    (h : c ∈ cs.dropping reason keys) :
    (c ∈ cs ∧ c.key ∉ keys) ∨ (c.key ∈ keys ∧ c.isSelected = false) := by
  obtain ⟨d, hd, rfl⟩ := List.mem_map.mp h
  by_cases hk : d.key ∈ keys
  · right
    rw [if_pos hk]
    exact ⟨hk, by simp [Candidate.isSelected]⟩
  · left
    rw [if_neg hk]
    exact ⟨hd, hk⟩

theorem find?_dropping_of_not_mem {reason : Bytes → DropReason} {keys : List Bytes} {k : Bytes}
    (h : k ∉ keys) : (cs.dropping reason keys).find? k = cs.find? k := by
  rw [find?_dropping]
  cases hc : cs.find? k with
  | none => rfl
  | some c =>
    rw [Option.map_some, if_neg]
    rwa [key_of_find? hc]

end Candidates

namespace Scan

/-- A candidate as activation makes it. -/
structure Sound (su : Setup) (c : Candidate) : Prop where
  form : ∃ e ∈ su.entries, e.key = c.key ∧ Form su e c.entry
  sticky : c.kind = .sticky → su.stickyActive c.key = true
  tokens : 0 ≤ c.tokens

theorem Sound.entry_key {su : Setup} {c : Candidate} (h : Sound su c) : c.entry.key = c.key := by
  obtain ⟨e, _, hk, hf⟩ := h.form
  rw [hf.key, hk]

theorem Sound.of_bare {su : Setup} {c d : Candidate} (hcd : c.bare = d.bare) (h : Sound su c) :
    Sound su d := by
  have hkey : c.bare.key = d.bare.key := by rw [hcd]
  have hentry : c.bare.entry = d.bare.entry := by rw [hcd]
  have hkind : c.bare.kind = d.bare.kind := by rw [hcd]
  have htokens : c.bare.tokens = d.bare.tokens := by rw [hcd]
  simp only [Candidate.bare] at hkey hentry hkind htokens
  obtain ⟨hform, hsticky, htok⟩ := h
  rw [hkey, hentry] at hform
  rw [hkind, hkey] at hsticky
  rw [htokens] at htok
  exact ⟨hform, hsticky, htok⟩

theorem resolveGroups_bare (su : Setup) (s : State) (keys : List Bytes) :
    (resolveGroups su s keys).1.candidates.bare = s.candidates.bare := by
  obtain ⟨reason, hcs⟩ := resolveGroups_dropping su s keys
  rw [hcs, Candidates.bare_dropping]

theorem settled_bare (su : Setup) (s : State) :
    (settled su s).candidates.bare = (enlisted su s).candidates.bare := by
  have hresolved : (resolved su s).candidates.bare = (enlisted su s).candidates.bare :=
    resolveGroups_bare su (enlisted su s) (lineup su s)
  rw [settled, accept_bare, hresolved]

structure Coherent (su : Setup) (s : State) : Prop where
  nodup : s.candidates.keys.Nodup
  sound : ∀ c ∈ s.candidates, Sound su c
  selected : ∀ c ∈ s.candidates, c.isSelected = true → c.key ∈ s.selectedKeys
  groups : ∀ c ∈ s.candidates, c.isSelected = true → ∀ g ∈ c.entry.groupNames,
    g ∈ s.selectedGroups
  failed : ∀ k ∈ s.failedKeys, su.stickyActive k = false

namespace Coherent

variable {su : Setup} {s t : State}

theorem initial (su : Setup) (random : Random) (log : List Bytes) :
    Coherent su (.initial su random log) := by
  refine ⟨List.nodup_nil, ?_, ?_, ?_, ?_⟩ <;> simp [State.initial]

/-- A change of candidates that leaves the record as it is and selects nothing. -/
theorem of_ledger (h : Coherent su s) (hled : SameLedger s t) (hn : t.candidates.keys.Nodup)
    (hsound : ∀ c ∈ t.candidates, Sound su c)
    (hold : ∀ c ∈ t.candidates, c.isSelected = true → c ∈ s.candidates) : Coherent su t := by
  refine ⟨hn, hsound, ?_, ?_, ?_⟩
  · intro c hc hsel
    rw [hled.selectedKeys]
    exact h.selected c (hold c hc hsel) hsel
  · intro c hc hsel
    rw [hled.selectedGroups]
    exact h.groups c (hold c hc hsel) hsel
  · rw [hled.failedKeys]
    exact h.failed

theorem same (h : Coherent su s) (hst : SameDecisions s t) : Coherent su t := by
  apply h.of_ledger hst.toSameLedger
  · rw [hst.candidates]
    exact h.nodup
  · rw [hst.candidates]
    exact h.sound
  · rw [hst.candidates]
    exact fun _ hc _ => hc

theorem of_setup {su' : Setup} (h : Coherent su s) (hentries : su'.entries = su.entries)
    (hforced : su'.forced = su.forced) (hsticky : su'.stickyActive = su.stickyActive) :
    Coherent su' s := by
  have hform {e v : Entry} (hf : Form su e v) : Form su' e v := by
    cases hf with
    | plain => exact .plain
    | recursive => exact .recursive
    | forced ho => exact .forced (by rw [hforced, ho])
  refine ⟨h.nodup, fun c hc => ?_, h.selected, h.groups, by rw [hsticky]; exact h.failed⟩
  obtain ⟨⟨e, he, hk, hf⟩, hkind, htokens⟩ := h.sound c hc
  exact ⟨⟨e, by rwa [hentries], hk, hform hf⟩, by rwa [hsticky], htokens⟩

theorem entry_key (h : Coherent su s) {k : Bytes} {c : Candidate}
    (hc : s.candidates.find? k = some c) : c.entry.key = k := by
  rw [(h.sound c (Candidates.mem_of_find? hc)).entry_key, Candidates.key_of_find? hc]

theorem not_selected (h : Coherent su s) {c : Candidate} (hc : c ∈ s.candidates)
    (hk : c.key ∉ s.selectedKeys) : c.isSelected = false := by
  cases hs : c.isSelected with
  | false => rfl
  | true => exact absurd (h.selected c hc hs) hk

/-- The candidate with the key of an entry that is not selected may be refreshed by it. -/
theorem refresh (h : Coherent su s) {k : PassKind} {e : Entry} {tr : Trigger} {n : Int}
    (he : e ∈ su.entries) (hk : e.key ∉ s.selectedKeys) (hform : Form su e (tr.form k e))
    (hsticky : tr.kind k = .sticky → su.stickyActive e.key = true) (hn : 0 ≤ n)
    (hled : SameLedger s t)
    (ht : t.candidates = s.candidates.update e.key (tr.refresh k e n)) : Coherent su t := by
  have hmem {c : Candidate} (hc : c ∈ t.candidates) : c ∈ s.candidates ∨
      ∃ d ∈ s.candidates, d.key = e.key ∧ d.isSelected = false ∧ c = tr.refresh k e n d := by
    rw [ht] at hc
    rcases Candidates.mem_update hc with ⟨hc, _⟩ | ⟨d, hd, hdk, rfl⟩
    · exact .inl hc
    · exact .inr ⟨d, hd, hdk, h.not_selected hd (hdk ▸ hk), rfl⟩
  apply h.of_ledger hled
  · rw [ht, Candidates.keys_update tr.refresh_key]
    exact h.nodup
  · intro c hc
    rcases hmem hc with hc | ⟨d, hd, hdk, _, rfl⟩
    · exact h.sound c hc
    · have hd := h.sound d hd
      refine ⟨?_, ?_, ?_⟩
      · rw [tr.refresh_key]
        rcases tr.refresh_entry d with hentry | hentry
        · rw [hentry]
          exact hd.form
        · rw [hentry]
          exact ⟨e, he, hdk.symm, hform⟩
      · rw [tr.refresh_key, tr.refresh_kind, hdk]
        exact hsticky
      · rcases tr.refresh_tokens d with htok | htok
        · rw [htok]
          exact hd.tokens
        · rw [htok]
          exact hn
  · intro c hc hsel
    rcases hmem hc with hc | ⟨d, _, _, hd, rfl⟩
    · exact hc
    · rw [tr.refresh_isSelected, hd] at hsel
      cases hsel

theorem append (h : Coherent su s) {k : PassKind} {e : Entry} {tr : Trigger} {n : Int}
    {new : Candidate} (he : e ∈ su.entries) (hnone : s.candidates.find? e.key = none)
    (hform : Form su e (tr.form k e))
    (hsticky : tr.kind k = .sticky → su.stickyActive e.key = true) (hn : 0 ≤ n)
    (hnew : Fresh e.key (tr.kind k) (tr.form k e) n new) (hled : SameLedger s t)
    (ht : t.candidates = s.candidates ++ [new]) : Coherent su t := by
  have hmem {c : Candidate} (hc : c ∈ t.candidates) : c ∈ s.candidates ∨ c = new := by
    simpa [ht] using hc
  apply h.of_ledger hled
  · have hfree : e.key ∉ s.candidates.keys := Candidates.find?_eq_none_iff.mp hnone
    simp only [ht, Candidates.keys, List.map_append, List.map_cons, List.map_nil, hnew.key]
    exact h.nodup.append (List.nodup_singleton _) (by simpa [Candidates.keys] using hfree)
  · intro c hc
    rcases hmem hc with hc | rfl
    · exact h.sound c hc
    · refine ⟨⟨e, he, hnew.key.symm, ?_⟩, ?_, ?_⟩
      · rw [hnew.entry]
        exact hform
      · rw [hnew.kind, hnew.key]
        exact hsticky
      · rw [hnew.tokens]
        exact hn
  · intro c hc hsel
    rcases hmem hc with hc | rfl
    · exact hc
    · simp [Candidate.isSelected, hnew.fate] at hsel

theorem enlist (h : Coherent su s) {k : PassKind} {e : Entry} {tr : Trigger} (he : e ∈ su.entries)
    (hk : e.key ∉ s.selectedKeys) (hform : Form su e (tr.form k e))
    (hsticky : tr.kind k = .sticky → su.stickyActive e.key = true) :
    Coherent su (s.enlist k e tr) := by
  have hled := s.enlist_ledger k e tr
  obtain ⟨n, est, hn, ⟨_, heq⟩ | ⟨hnone, new, hnew, heq⟩⟩ := s.enlist_cases k e tr
  · exact h.refresh he hk hform hsticky hn hled (by rw [heq])
  · exact h.append he hnone hform hsticky hn hnew hled (by rw [heq])

theorem enlisted_keeps {P : State → Prop} (h : Coherent su s)
    (hsame : ∀ t u, SameDecisions t u → P t → P u) (hP : P s)
    (hstep : ∀ t e tr, e.key ∉ t.selectedKeys → Coherent su t → P t →
      P (t.enlist (passKind su s) e tr)) :
    Coherent su (enlisted su s) ∧ P (enlisted su s) := by
  have hall : Coherent su (Scan.enlisted su s) ∧ SameLedger s (Scan.enlisted su s) ∧
      P (Scan.enlisted su s) := by
    apply Scan.enlisted_keeps (P := fun t => Coherent su t ∧ SameLedger s t ∧ P t)
    · rintro t u htu ⟨ht, hled, hPt⟩
      exact ⟨ht.same htu, hled.trans htu.toSameLedger, hsame t u htu hPt⟩
    · exact ⟨h, ⟨rfl, rfl, rfl, rfl, rfl⟩, hP⟩
    · rintro t e tr hm ⟨ht, hled, hPt⟩
      obtain ⟨he, hel, htr⟩ := mem_activated.mp hm
      have hfree : e.key ∉ t.selectedKeys := by
        rw [hled.selectedKeys]
        exact (not_mem_of_eligible hel).1
      exact ⟨ht.enlist he hfree (form_of_trigger htr _) (sticky_of_trigger htr),
        hled.trans (t.enlist_ledger _ e tr), hstep t e tr hfree ht hPt⟩
  exact ⟨hall.1, hall.2.2⟩

theorem enlisted (h : Coherent su s) : Coherent su (enlisted su s) :=
  (h.enlisted_keeps (P := fun _ => True) (fun _ _ _ _ => trivial) trivial
    (fun _ _ _ _ _ _ => trivial)).1

theorem resolve (h : Coherent su s) (keys : List Bytes) :
    Coherent su (resolveGroups su s keys).1 := by
  obtain ⟨reason, hcs⟩ := resolveGroups_dropping su s keys
  have hbare := resolveGroups_bare su s keys
  have hled : SameLedger s (resolveGroups su s keys).1 := ⟨rfl, rfl, rfl, rfl, rfl⟩
  apply h.of_ledger hled
  · rw [Candidates.keys_eq_of_bare hbare]
    exact h.nodup
  · intro c hc
    obtain ⟨d, hd, hdc⟩ := Candidates.exists_of_bare hbare hc
    exact (h.sound d hd).of_bare hdc
  · intro c hc hsel
    rw [hcs] at hc
    rcases Candidates.mem_dropping hc with ⟨hc, _⟩ | ⟨_, hn⟩
    · exact hc
    · rw [hn] at hsel
      cases hsel

/-- A change of the fate of the candidate with one key, to a fate that is on record. -/
theorem setFate (h : Coherent su s) {k : Bytes} {fate : Fate}
    (ht : t.candidates = s.candidates.setFate k fate)
    (hkeys : ∀ x ∈ s.selectedKeys, x ∈ t.selectedKeys)
    (hgroups : ∀ g ∈ s.selectedGroups, g ∈ t.selectedGroups)
    (hfailed : ∀ x ∈ t.failedKeys, su.stickyActive x = false)
    (hnew : fate = .selected → k ∈ t.selectedKeys ∧
      ∀ c ∈ s.candidates, c.key = k → ∀ g ∈ c.entry.groupNames, g ∈ t.selectedGroups) :
    Coherent su t := by
  have hbare : t.candidates.bare = s.candidates.bare := by rw [ht, Candidates.bare_setFate]
  have hmem {c : Candidate} (hc : c ∈ t.candidates) : c ∈ s.candidates ∨
      ∃ d ∈ s.candidates, d.key = k ∧ c = { d with fate } := by
    rw [ht] at hc
    rcases Candidates.mem_update hc with ⟨hc, _⟩ | hc
    · exact .inl hc
    · exact .inr hc
  refine ⟨?_, ?_, ?_, ?_, hfailed⟩
  · rw [Candidates.keys_eq_of_bare hbare]
    exact h.nodup
  · intro c hc
    obtain ⟨d, hd, hdc⟩ := Candidates.exists_of_bare hbare hc
    exact (h.sound d hd).of_bare hdc
  · intro c hc hsel
    rcases hmem hc with hc | ⟨d, _, hdk, rfl⟩
    · exact hkeys _ (h.selected c hc hsel)
    · have hfate : fate = .selected := by simpa [Candidate.isSelected] using hsel
      have hk := (hnew hfate).1
      rw [← hdk] at hk
      exact hk
  · intro c hc hsel g hg
    rcases hmem hc with hc | ⟨d, hd, hdk, rfl⟩
    · exact hgroups g (h.groups c hc hsel g hg)
    · have hfate : fate = .selected := by simpa [Candidate.isSelected] using hsel
      exact (hnew hfate).2 d hd hdk g hg

theorem acceptOne (h : Coherent su s) {k : Bytes} {c : Candidate}
    (hc : s.candidates.find? k = some c) : Coherent su (acceptOne su s c).1 := by
  have hmem := Candidates.mem_of_find? hc
  apply acceptOne_elim (P := fun r => Coherent su r.1)
  intro r hr
  cases hr with
  | late _ _ => exact h.setFate rfl (fun _ => id) (fun _ => id) h.failed nofun
  | failed r hroll =>
    refine h.setFate rfl (fun _ => id) (fun _ => id) ?_ nofun
    intro x hx
    rcases mem_addOnce.mp hx with hx | rfl
    · exact h.failed x hx
    · -- Sticky entries do not roll.
      simp only [rolls, Bool.and_eq_true, Bool.not_eq_true'] at hroll
      rw [(h.sound c hmem).entry_key] at hroll
      exact hroll.2
  | overrun r _ _ => exact h.setFate rfl (fun _ => id) (fun _ => id) h.failed nofun
  | taken r _ _ =>
    refine h.setFate rfl (fun x hx => mem_addOnce.mpr (.inl hx))
      (fun g hg => (mem_foldl_addOnce _ _).mpr (.inl hg)) h.failed fun _ => ⟨?_, ?_⟩
    · exact mem_addOnce.mpr (.inr rfl)
    · intro d hd hdk g hg
      rw [Candidates.eq_of_key_eq h.nodup hd hmem hdk] at hg
      exact (mem_foldl_addOnce _ _).mpr (.inr hg)

theorem accept (h : Coherent su s) (ks : List Bytes) : Coherent su (accept su s ks).1 :=
  accept_keeps (fun _ _ _ _ hc ht => ht.acceptOne hc) h

theorem resolved (h : Coherent su s) : Coherent su (resolved su s) := h.enlisted.resolve _

theorem settled (h : Coherent su s) : Coherent su (settled su s) := h.resolved.accept _

theorem step (h : Coherent su s) : Coherent su (step su s).state :=
  h.settled.same (step_decisions su s)

theorem again (h : Coherent su s) (hst : Scan.step su s = .again t) : Coherent su t :=
  h.settled.same (decisions_of_again hst)

theorem ending (h : Coherent su s) : Coherent su (ending su s) :=
  run_keeps (fun _ ht => ht.step) _ s h

theorem of_mem_trace (h : Coherent su s) {fuel : Nat} (ht : t ∈ trace su fuel s) :
    Coherent su t :=
  trace_keeps (fun _ _ hu huv => hu.again huv) fuel s h t ht

end Coherent

theorem coherent_of_opening {sc : Scanner} {books : List Book} {o : Options} {vars : Variables}
    {random : Random} {su : Setup} {s : State}
    (h : opening? sc books o vars random = some (su, s)) : Coherent su s := by
  obtain ⟨_, log, _, rfl⟩ := opening?_eq_some h
  exact .initial su random log

section Durable

variable {su : Setup} {s : State} {k : Bytes}

theorem find?_resolveGroups_of_not_mem {keys : List Bytes} (h : k ∉ keys) :
    (resolveGroups su s keys).1.candidates.find? k = s.candidates.find? k := by
  obtain ⟨reason, hcs⟩ := resolveGroups_dropping su s keys
  rw [hcs, Candidates.find?_dropping_of_not_mem]
  intro hk
  exact h ((drawnFrom_finalDraw su s keys).mem k hk)

theorem not_mem_selectedKeys_of_lineup (h : k ∈ lineup su s) : k ∉ s.selectedKeys := by
  obtain ⟨_, _, _, _, hfree, _⟩ := mem_activatedKeys ((lineup_perm su s).mem_iff.mp h)
  exact hfree

theorem mem_kept {k : Bytes} (h : k ∈ kept su s) : k ∈ activatedKeys su s :=
  (lineup_perm su s).mem_iff.mp (mem_resolveGroups.mp h).1

theorem nodup_kept (h : (activatedKeys su s).Nodup) : (kept su s).Nodup := by
  have hlineup : (lineup su s).Nodup := (lineup_perm su s).nodup_iff.mpr h
  exact hlineup.filter _

theorem find?_settled_of_not_mem (h : k ∉ activatedKeys su s) :
    (settled su s).candidates.find? k = s.candidates.find? k := by
  have hl : k ∉ lineup su s := fun hk => h ((lineup_perm su s).mem_iff.mp hk)
  have haccept : (settled su s).candidates.find? k = (resolved su s).candidates.find? k :=
    find?_accept_of_not_mem fun hk => h (mem_kept hk)
  have hresolve : (resolved su s).candidates.find? k = (enlisted su s).candidates.find? k :=
    find?_resolveGroups_of_not_mem hl
  rw [haccept, hresolve, find?_enlisted_of_not_mem h]

/-- What is selected after a pass had been selected before, or has been left by the groups. -/
theorem selected_settled (hs : Coherent su s) {c : Candidate}
    (hc : c ∈ (settled su s).candidates) (hsel : c.isSelected = true) :
    (c ∈ s.candidates ∧ c.key ∈ s.selectedKeys) ∨ (c.key ∈ kept su s ∧ c.key ∉ s.selectedKeys) := by
  have hfound := Candidates.find?_of_mem hs.settled.nodup hc
  by_cases hact : c.key ∈ activatedKeys su s
  · have hfree : c.key ∉ s.selectedKeys :=
      not_mem_selectedKeys_of_lineup ((lineup_perm su s).mem_iff.mpr hact)
    by_cases hk : c.key ∈ kept su s
    · exact .inr ⟨hk, hfree⟩
    · have hsame : (settled su s).candidates.find? c.key
          = (resolved su s).candidates.find? c.key := find?_accept_of_not_mem hk
      have hled : (resolved su s).selectedKeys = s.selectedKeys :=
        (enlisted_ledger su s).selectedKeys
      rw [hsame] at hfound
      rw [hs.resolved.not_selected (Candidates.mem_of_find? hfound) (by rwa [hled])] at hsel
      cases hsel
  · rw [find?_settled_of_not_mem hact] at hfound
    have hmem := Candidates.mem_of_find? hfound
    exact .inl ⟨hmem, hs.selected c hmem hsel⟩

theorem selectedKeys_settled (h : k ∈ s.selectedKeys) : k ∈ (settled su s).selectedKeys := by
  apply selectedKeys_accept
  have hled := enlisted_ledger su s
  have hres : (resolved su s).selectedKeys = (enlisted su s).selectedKeys := rfl
  rw [hres, hled.selectedKeys]
  exact h

theorem find?_run_of_selected (fuel : Nat) (h : k ∈ s.selectedKeys) :
    (run su fuel s).candidates.find? k = s.candidates.find? k := by
  have hkeeps : k ∈ (run su fuel s).selectedKeys ∧
      (run su fuel s).candidates.find? k = s.candidates.find? k := by
    apply run_keeps (P := fun t => k ∈ t.selectedKeys ∧
      t.candidates.find? k = s.candidates.find? k)
    · rintro t ⟨hk, ht⟩
      have hd := step_decisions su t
      have hn : k ∉ activatedKeys su t := by
        intro hm
        obtain ⟨_, _, _, _, hfree, _⟩ := mem_activatedKeys hm
        exact hfree hk
      rw [hd.selectedKeys, hd.candidates, find?_settled_of_not_mem hn]
      exact ⟨selectedKeys_settled hk, ht⟩
    · exact ⟨h, rfl⟩
  exact hkeeps.2

end Durable
end Scan
end Lorebook
