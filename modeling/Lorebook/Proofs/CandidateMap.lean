import Lorebook.Proofs.Indexing

set_option autoImplicit false

/-!
The candidates in another form: a list of slots and beside it a map from keys to places, where a
slot says whether it is selected and, as a text, why it was dropped. What a scan does to its
candidates is a series of edits; the same edits take both forms from one agreement to the next.
-/

namespace Lorebook

/-- A change to the candidates. What is entered is new, or refreshes the candidate with its key. -/
inductive Edit where
  | enter (c : Candidate) (overwrites : Bool)
  | select (key : Bytes)
  | drop (key : Bytes) (reason : DropReason)

section Forms

namespace Candidate

def refreshed (new : Candidate) (overwrites : Bool) (old : Candidate) : Candidate :=
  if overwrites then { old with entry := new.entry, kind := new.kind, tokens := new.tokens }
  else { old with kind := new.kind }

@[simp] theorem key_refreshed (new old : Candidate) (overwrites : Bool) :
    (new.refreshed overwrites old).key = old.key := by
  cases overwrites <;> rfl

end Candidate

def Candidates.edit (cs : Candidates) : Edit → Candidates
  | .enter c overwrites =>
    match cs.find? c.key with
    | some _ => cs.update c.key (c.refreshed overwrites)
    | none => cs ++ [c]
  | .select key => cs.setFate key .selected
  | .drop key reason => cs.setFate key (.dropped reason)

structure Slot where
  entry : Entry
  matchedPrimary : List Bytes
  matchedSecondary : List Bytes
  kind : ActivationKind
  tokens : Int
  selected : Bool
  /-- Empty unless the candidate was dropped. -/
  droppedReason : Bytes

namespace Slot

def of (c : Candidate) : Slot where
  entry := c.entry
  matchedPrimary := c.matchedPrimary
  matchedSecondary := c.matchedSecondary
  kind := c.kind
  tokens := c.tokens
  selected := c.isSelected
  droppedReason := (c.dropReason?.map (·.name)).getD []

def refreshed (new : Slot) (overwrites : Bool) (old : Slot) : Slot :=
  if overwrites then { old with entry := new.entry, kind := new.kind, tokens := new.tokens }
  else { old with kind := new.kind }

theorem of_refreshed (new old : Candidate) (overwrites : Bool) :
    of (new.refreshed overwrites old) = (of new).refreshed overwrites (of old) := by
  cases overwrites <;> rfl

theorem droppedReason_ne_nil_iff {c : Candidate} :
    (of c).droppedReason ≠ [] ↔ ∃ r, c.dropReason? = some r ∧ r.name ≠ [] := by
  cases h : c.dropReason? with
  | none => simp [of, h]
  | some r => simp [of, h]

end Slot

structure CandidateMap where
  slots : List Slot := []
  places : Table Nat := []

namespace CandidateMap

def change (m : CandidateMap) (key : Bytes) (f : Slot → Slot) : CandidateMap :=
  match Table.get? key m.places with
  | some i => { m with slots := m.slots.modify i f }
  | none => m

def edit (m : CandidateMap) : Edit → CandidateMap
  | .enter c overwrites =>
    if (Table.get? c.key m.places).isSome then m.change c.key ((Slot.of c).refreshed overwrites)
    else { slots := m.slots ++ [.of c], places := Table.put c.key m.slots.length m.places }
  | .select key => m.change key fun s => { s with selected := true, droppedReason := [] }
  | .drop key reason =>
    m.change key fun s => { s with selected := false, droppedReason := reason.name }

structure Mirrors (m : CandidateMap) (cs : Candidates) : Prop where
  slots : m.slots = cs.map .of
  places : ∀ k, Table.get? k m.places = cs.index? k

structure Indexed (est : Estimator) (m : CandidateMap) : Prop where
  place : ∀ k i, Table.get? k m.places = some i ↔ ∃ s, m.slots[i]? = some s ∧ s.entry.key = k
  distinct : (m.slots.map (·.entry.key)).Nodup
  primary : ∀ s ∈ m.slots, s.matchedPrimary ≠ []
  tokens : est.Faithful → ∀ s ∈ m.slots, s.tokens = max 0 (est.value s.entry.content)

end CandidateMap
end Forms

namespace Candidates

variable {cs : Candidates} {k : Bytes} {f : Candidate → Candidate}

theorem index?_eq (cs : Candidates) (k : Bytes) : cs.index? k = cs.keys.findIdx? (· = k) := by
  rw [keys, List.findIdx?_map]
  rfl

theorem isSome_index? (cs : Candidates) (k : Bytes) :
    (cs.index? k).isSome = (cs.find? k).isSome := by
  rw [Bool.eq_iff_iff, index?, List.findIdx?_isSome, List.any_eq_true, find?, List.find?_isSome]

theorem index?_eq_none_iff : cs.index? k = none ↔ k ∉ cs.keys := by
  rw [← Option.not_isSome_iff_eq_none, isSome_index?, Option.not_isSome_iff_eq_none,
    find?_eq_none_iff]

theorem index?_update (hf : ∀ c, (f c).key = c.key) (k' : Bytes) :
    (cs.update k' f).index? k = cs.index? k := by
  rw [index?_eq, index?_eq, keys_update hf]

theorem update_of_not_mem (h : k ∉ cs.keys) : cs.update k f = cs := by
  conv_rhs => rw [← List.map_id' cs]
  refine List.map_congr_left fun c hc => if_neg ?_
  rintro rfl
  exact h (List.mem_map_of_mem hc)

theorem update_eq_modify (hn : cs.keys.Nodup) {i : Nat} (h : cs.index? k = some i) :
    cs.update k f = cs.modify i f := by
  induction cs generalizing i with
  | nil => cases h
  | cons c cs ih =>
    obtain ⟨hc, hn⟩ := List.nodup_cons.mp hn
    have hcons : update (c :: cs) k f = (if c.key = k then f c else c) :: update cs k f := rfl
    rw [index?, List.findIdx?_cons] at h
    by_cases hk : c.key = k
    · simp only [hk, decide_true, if_true, Option.some.injEq] at h
      subst h
      rw [hcons, if_pos hk, update_of_not_mem (hk ▸ hc), List.modify_zero_cons]
    · simp only [hk, decide_false, Bool.false_eq_true, if_false, Option.map_eq_some_iff] at h
      obtain ⟨j, hj, rfl⟩ := h
      rw [hcons, if_neg hk, ih hn hj, List.modify_succ_cons]

theorem index?_append_singleton {c : Candidate} (hc : c.key ∉ cs.keys) (k : Bytes) :
    index? (cs ++ [c]) k = if c.key = k then some cs.length else cs.index? k := by
  rw [index?, List.findIdx?_append]
  by_cases hk : c.key = k
  · have hnone : List.findIdx? (·.key = k) cs = none := index?_eq_none_iff.mpr (hk ▸ hc)
    simp [hk, hnone, List.findIdx?_cons]
  · simp [hk, index?, List.findIdx?_cons]

end Candidates

namespace CandidateMap

variable {m : CandidateMap} {cs : Candidates} {k : Bytes}

theorem Mirrors.change (h : m.Mirrors cs) (hn : cs.keys.Nodup) {f : Candidate → Candidate}
    {g : Slot → Slot} (hf : ∀ c, (f c).key = c.key) (hg : ∀ c, Slot.of (f c) = g (Slot.of c)) :
    (m.change k g).Mirrors (cs.update k f) := by
  unfold CandidateMap.change
  rw [h.places]
  cases hi : cs.index? k with
  | none =>
    rw [Candidates.update_of_not_mem (Candidates.index?_eq_none_iff.mp hi)]
    exact h
  | some i =>
    refine ⟨?_, fun k' => (h.places k').trans (Candidates.index?_update hf k).symm⟩
    rw [Candidates.update_eq_modify hn hi, h.slots]
    refine List.ext_getElem? fun j => ?_
    simp only [List.getElem?_modify, List.getElem?_map]
    cases cs[j]? with
    | none => rfl
    | some c =>
      by_cases hij : i = j
      · simp [hij, hg]
      · simp [hij]

theorem Mirrors.edit (h : m.Mirrors cs) (hn : cs.keys.Nodup) (ed : Edit) :
    (m.edit ed).Mirrors (cs.edit ed) := by
  cases ed with
  | enter c overwrites =>
    rw [CandidateMap.edit, Candidates.edit, h.places, Candidates.isSome_index?]
    cases hc : cs.find? c.key with
    | some old =>
      exact h.change hn (c.key_refreshed · overwrites) (Slot.of_refreshed c · overwrites)
    | none =>
      refine ⟨by simp [h.slots], fun k => ?_⟩
      rw [Option.isSome_none, if_neg Bool.false_ne_true, Table.get?_put, h.places, h.slots,
        List.length_map, Candidates.index?_append_singleton (Candidates.find?_eq_none_iff.mp hc)]
  | select key => exact h.change hn (fun _ => rfl) fun _ => rfl
  | drop key reason => exact h.change hn (fun _ => rfl) fun _ => rfl

theorem Mirrors.indexed {est : Estimator} (h : m.Mirrors cs) (hcs : cs.Filed est) :
    m.Indexed est := by
  obtain ⟨hplace, hdistinct, hprimary, htokens⟩ := hcs.indexed
  have hslot {P : Slot → Prop} (hc : ∀ c ∈ cs, P (.of c)) : ∀ s ∈ m.slots, P s := by
    rw [h.slots]
    exact List.forall_mem_map.mpr hc
  refine ⟨fun k i => ?_, ?_, hslot hprimary, fun hest => hslot (htokens hest)⟩
  · rw [h.places, hplace, h.slots]
    simp [Slot.of]
  · rw [h.slots, List.map_map]
    exact hdistinct

end CandidateMap

section Edits

variable {est : Estimator} {cs : Candidates} {ed : Edit} {eds : List Edit}

def Edit.Sound (est : Estimator) : Edit → Prop
  | .enter c _ => c.Filed est
  | _ => True

theorem Candidate.Filed.refreshed {new old : Candidate} (hnew : new.Filed est)
    (hold : old.Filed est) (hk : old.key = new.key) (overwrites : Bool) :
    (new.refreshed overwrites old).Filed est := by
  cases overwrites with
  | false => exact ⟨hold.key, hold.primary, hold.tokens⟩
  | true => exact ⟨hnew.key.trans hk.symm, hold.primary, hnew.tokens⟩

theorem Candidates.Filed.edit (h : cs.Filed est) (hed : ed.Sound est) : (cs.edit ed).Filed est := by
  cases ed with
  | enter c overwrites =>
    rw [Candidates.edit]
    cases hc : cs.find? c.key with
    | some old =>
      refine ⟨?_, fun d hd => ?_⟩
      · rw [keys_update (c.key_refreshed · overwrites)]
        exact h.nodup
      · rcases mem_update hd with ⟨hd', _⟩ | ⟨d', hd', hk, rfl⟩
        · exact h.each d hd'
        · exact hed.refreshed (h.each d' hd') hk overwrites
    | none =>
      refine ⟨?_, fun d hd => ?_⟩
      · rw [keys, List.map_append]
        refine List.Nodup.append h.nodup (List.nodup_singleton _) ?_
        exact List.disjoint_singleton.mpr (find?_eq_none_iff.mp hc)
      · rcases List.mem_append.mp hd with hd | hd
        · exact h.each d hd
        · rw [List.mem_singleton.mp hd]
          exact hed
  | select key => exact h.of_bare (bare_setFate _ _ _)
  | drop key reason => exact h.of_bare (bare_setFate _ _ _)

/-- Sound edits lead from nothing to candidates that are in order, and their map to these. -/
theorem CandidateMap.mirrors_edits (h : ∀ ed ∈ eds, ed.Sound est) :
    (eds.foldl Candidates.edit []).Filed est ∧
      (eds.foldl CandidateMap.edit {}).Mirrors (eds.foldl Candidates.edit []) := by
  induction eds using List.reverseRecOn with
  | nil => exact ⟨Candidates.filed_nil, rfl, fun _ => rfl⟩
  | append_singleton eds ed ih =>
    obtain ⟨hcs, hm⟩ := ih fun ed' hed' => h ed' (List.mem_append_left _ hed')
    rw [List.foldl_append, List.foldl_append]
    exact ⟨hcs.edit (h ed (by simp)), hm.edit hcs.nodup ed⟩

end Edits

namespace Scan

section Enter

variable {su : Setup} {s s₀ : State} {est : Estimator}

def Trigger.overwrites : Trigger → Bool
  | .forced _ | .keys _ _ => true
  | .constant | .sticky => false

def State.entering (s : State) (k : PassKind) (e : Entry) (tr : Trigger) : Edit :=
  .enter (tr.candidate k e (s.estimate (tr.form k e).content).1 none) tr.overwrites

theorem State.candidates_renew (s : State) (key : Bytes) (kind : ActivationKind) (v : Entry)
    (p q : List Bytes) : (s.renew key kind v p q).candidates =
      s.candidates.edit (.enter
        { key, entry := v, matchedPrimary := p, matchedSecondary := q, kind,
          tokens := (s.estimate v.content).1 } true) := by
  have hcs : (s.estimate v.content).2.candidates = s.candidates := rfl
  cases hc : s.candidates.find? key with
  | some c =>
    simp only [renew, Candidates.edit, hcs, hc]
    rfl
  | none => simp only [renew, Candidates.edit, hcs, hc]

theorem State.candidates_keep (s : State) (kind : ActivationKind) (e : Entry) (mark : Bytes) :
    (s.keep kind e mark).candidates =
      s.candidates.edit (.enter
        { key := e.key, entry := e, matchedPrimary := [mark], kind,
          tokens := (s.estimate e.content).1 } false) := by
  cases hc : s.candidates.find? e.key with
  | some c =>
    rw [keep_of_some (by simp [hc])]
    simp only [Candidates.edit, hc]
    rfl
  | none =>
    rw [keep_of_none hc, candidates_renew]
    simp only [Candidates.edit, hc]

theorem State.candidates_enlist (s : State) (k : PassKind) (e : Entry) (tr : Trigger) :
    (s.enlist k e tr).candidates = s.candidates.edit (s.entering k e tr) := by
  cases tr with
  | forced o => exact s.candidates_renew _ _ _ _ _
  | constant => exact s.candidates_keep _ _ _
  | sticky => exact s.candidates_keep _ _ _
  | keys p q => exact s.candidates_renew _ _ _ _ _

def enteringAll (k : PassKind) : State → List (Entry × Trigger) → List Edit
  | _, [] => []
  | s, (e, tr) :: es => s.entering k e tr :: enteringAll k (s.enlist k e tr) es

theorem candidates_foldl_enlist (k : PassKind) (s : State) (es : List (Entry × Trigger)) :
    (es.foldl (fun t (e, tr) => t.enlist k e tr) s).candidates
      = (enteringAll k s es).foldl Candidates.edit s.candidates := by
  induction es generalizing s with
  | nil => rfl
  | cons row es ih =>
    obtain ⟨e, tr⟩ := row
    rw [List.foldl_cons, ih, enteringAll, List.foldl_cons, s.candidates_enlist]

theorem Filing.entering (h : Filing est s) {k : PassKind} {e : Entry} {tr : Trigger}
    (hkey : (tr.form k e).key = e.key) (hmarks : tr.marks.1 ≠ []) :
    (s.entering k e tr).Sound est :=
  filed_candidate hkey hmarks (h.estimate_fst · _) fun _ hc => nomatch hc

theorem Filing.enteringAll {es : List (Entry × Trigger)} (h : Filing est s)
    (hes : ∀ row ∈ es, row ∈ activated su s₀) (k : PassKind) :
    ∀ ed ∈ enteringAll k s es, ed.Sound est := by
  induction es generalizing s with
  | nil => exact fun ed hed => absurd hed List.not_mem_nil
  | cons row es ih =>
    obtain ⟨e, tr⟩ := row
    obtain ⟨_, _, htr⟩ := mem_activated.mp (hes _ List.mem_cons_self)
    have hkey := (form_of_trigger htr k).key
    have hmarks := marks_ne_nil htr
    rintro ed (_ | ⟨_, hed⟩)
    · exact h.entering hkey hmarks
    · exact ih (h.enlist hkey hmarks) (fun row hrow => hes row (List.mem_cons_of_mem _ hrow)) ed hed

end Enter

section Draws

variable {su : Setup} {s : State} {keys : List Bytes} {d : Draw}

theorem dropping_eq_foldl (cs : Candidates) (reason : Bytes → DropReason) (keys : List Bytes) :
    cs.dropping reason keys
      = (keys.reverse.map fun k => Edit.drop k (reason k)).foldl Candidates.edit cs := by
  induction keys with
  | nil => simp [Candidates.dropping]
  | cons k keys ih =>
    have hreason : (fun x => if x = k then reason k else reason x) = reason := by
      funext x
      split
      · next h => rw [h]
      · rfl
    rw [List.reverse_cons, List.map_append, List.foldl_append, ← ih]
    exact ((cs.setFate_dropping reason keys k (reason k)).trans (by rw [hreason])).symm

/-- The drops that a draw has made, in order: what was dropped last stands first in `removed`. -/
def Draw.edits (d : Draw) : List Edit :=
  d.removed.reverse.map fun k =>
    .drop k (((d.candidates.find? k).bind (·.dropReason?)).getD .groupLoser)

theorem DrawnFrom.edits (h : DrawnFrom su s keys d) :
    d.candidates = d.edits.foldl Candidates.edit s.candidates := by
  obtain ⟨reason, _, hmarks⟩ := h.marks
  rw [Draw.edits, ← dropping_eq_foldl, hmarks]
  refine List.map_congr_left fun c hc => ?_
  split
  · next hk =>
    -- The reason on record under a key that was dropped is the one for which it was dropped.
    obtain ⟨c', hc'⟩ := Option.isSome_iff_exists.mp (Candidates.find?_isSome_of_mem hc)
    have hkey := Candidates.key_of_find? hc'
    simp [Candidates.find?_dropping, hc', hkey, hk, Candidate.dropReason?]
  · rfl

end Draws

section Accept

variable {su : Setup} {s : State}

def verdict (su : Setup) (s : State) (c : Candidate) : Edit :=
  if s.overflowed && !c.entry.ignoreBudget then .drop c.key .budgetExhausted
  else if !(roll su c.entry s.random).1 then .drop c.key .probabilityFailed
  else if exceeds su s c then .drop c.key .budgetExhausted
  else .select c.key

theorem candidates_acceptOne (su : Setup) (s : State) (c : Candidate) :
    (acceptOne su s c).1.candidates = s.candidates.edit (verdict su s c) := by
  have hx : exceeds su { s with random := (roll su c.entry s.random).2 } c = exceeds su s c := rfl
  simp only [acceptOne, verdict, hx]
  split
  · rfl
  split
  · rfl
  split <;> rfl

def verdicts (su : Setup) : State → List Bytes → List Edit
  | _, [] => []
  | s, k :: ks =>
    match s.candidates.find? k with
    | none => verdicts su s ks
    | some c => verdict su s c :: verdicts su (acceptOne su s c).1 ks

theorem candidates_accept (su : Setup) (s : State) (ks : List Bytes) :
    (accept su s ks).1.candidates = (verdicts su s ks).foldl Candidates.edit s.candidates := by
  induction ks generalizing s with
  | nil => rfl
  | cons k ks ih =>
    rw [accept_cons, verdicts]
    cases hc : s.candidates.find? k with
    | none => exact ih s
    | some c => rw [List.foldl_cons, ← candidates_acceptOne, ← ih]

theorem sound_verdicts (est : Estimator) (ks : List Bytes) :
    ∀ ed ∈ verdicts su s ks, ed.Sound est := by
  induction ks generalizing s with
  | nil => exact fun ed hed => absurd hed List.not_mem_nil
  | cons k ks ih =>
    rw [verdicts]
    cases s.candidates.find? k with
    | none => exact ih
    | some c =>
      refine List.forall_mem_cons.mpr ⟨?_, ih⟩
      unfold verdict
      split_ifs <;> trivial

end Accept

section Passes

variable {su : Setup} {s : State} {est : Estimator}

def passEdits (su : Setup) (s : State) : List Edit :=
  enteringAll (passKind su s) { s with passes := s.passes + 1 } (activated su s)
    ++ (finalDraw su (enlisted su s) (lineup su s)).edits
    ++ verdicts su (resolved su s) (kept su s)

theorem candidates_settled (su : Setup) (s : State) :
    (settled su s).candidates = (passEdits su s).foldl Candidates.edit s.candidates := by
  have henlisted : (enlisted su s).candidates =
      (enteringAll (passKind su s) { s with passes := s.passes + 1 } (activated su s)).foldl
        Candidates.edit s.candidates := by
    rw [(enlistedUpTo_all su s).candidates, enlistedUpTo, List.take_length]
    exact candidates_foldl_enlist _ _ _
  rw [passEdits, List.foldl_append, List.foldl_append, settled, candidates_accept]
  rw [← henlisted, ← (drawnFrom_finalDraw su (enlisted su s) (lineup su s)).edits]
  rfl

theorem Filing.passEdits (h : Filing est s) : ∀ ed ∈ passEdits su s, ed.Sound est := by
  have hdraw : ∀ ed ∈ (finalDraw su (Scan.enlisted su s) (lineup su s)).edits, ed.Sound est :=
    List.forall_mem_map.mpr fun _ _ => trivial
  have henter : Filing est { s with passes := s.passes + 1 } := ⟨h.filed, h.counts⟩
  intro ed hed
  rcases List.mem_append.mp hed with hed | hed
  · rcases List.mem_append.mp hed with hed | hed
    · exact henter.enteringAll (fun _ hrow => hrow) _ ed hed
    · exact hdraw ed hed
  · exact sound_verdicts est _ ed hed

/-- All that a run does to the candidates, in order. -/
def runEdits (su : Setup) (s : State) : List Edit :=
  (trace su (passBound su) s).flatMap (passEdits su)

theorem candidates_run (su : Setup) (fuel : Nat) (s : State) :
    (run su fuel s).candidates
      = ((trace su fuel s).flatMap (passEdits su)).foldl Candidates.edit s.candidates := by
  induction fuel generalizing s with
  | zero => rfl
  | succ fuel ih =>
    have hs := (step_decisions su s).candidates.trans (candidates_settled su s)
    rw [trace, List.flatMap_cons, List.foldl_append, ← hs]
    cases hst : step su s with
    | stop t => simp [run, hst, Step.state]
    | again t => simpa [run, hst, Step.state] using ih t

theorem candidates_ending (su : Setup) (s : State) :
    (ending su s).candidates = (runEdits su s).foldl Candidates.edit s.candidates :=
  candidates_run su _ s

theorem sound_runEdits (su : Setup) (random : Random) (log : List Bytes) :
    ∀ ed ∈ runEdits su (.initial su random log), ed.Sound su.scanner.estimator := by
  intro ed hed
  obtain ⟨s, hs, hed⟩ := List.mem_flatMap.mp hed
  have hfiling := trace_keeps (fun _ _ h => h.again) _ _ (filing_initial su random log) s hs
  exact hfiling.passEdits ed hed

end Passes

section Evaluate

variable {sc : Scanner} {books : List Book} {o : Options} {vars : Variables} {random : Random}
  {su : Setup} {s : State}

/-- Whenever a scan has done something to its candidates, the map to which it does the same finds
under each key the one slot whose entry has it. -/
theorem candidateMap_indexed (h : opening? sc books o vars random = some (su, s)) {done : List Edit}
    (hdone : done <+: runEdits su s) :
    (done.foldl CandidateMap.edit {}).Indexed sc.estimator := by
  obtain ⟨fx, log, rfl, rfl⟩ := opening?_eq_some h
  obtain ⟨hfiled, hmirrors⟩ := CandidateMap.mirrors_edits fun ed hed =>
    sound_runEdits _ random log ed (hdone.subset hed)
  exact hmirrors.indexed hfiled

example : (opening? .standard [twinBook] { text := some (lit "dragon") } [] (.ofList [])).map
    (fun (su, s) => ((runEdits su s).foldl CandidateMap.edit {}).places.map (·.2)) = some [0] := by
  decide

/-- In the end the map has the candidates of the outcome, each either selected or with a reason for
which it was dropped. -/
theorem candidateMap_ending (h : opening? sc books o vars random = some (su, s)) :
    let m := (runEdits su s).foldl CandidateMap.edit {}
    m.Mirrors (ending su s).candidates ∧
      ∀ slot ∈ m.slots, Xor (slot.selected = true) (slot.droppedReason ≠ []) := by
  obtain ⟨fx, log, rfl, rfl⟩ := opening?_eq_some h
  generalize setup sc books o fx = su
  obtain ⟨_, hmirrors⟩ := CandidateMap.mirrors_edits (sound_runEdits su random log)
  obtain ⟨_, hdecided⟩ := filing_ending su random log
  have hm := candidates_ending su (.initial su random log) ▸ hmirrors
  refine ⟨hm, ?_⟩
  rw [hm.slots]
  refine List.forall_mem_map.mpr fun c hc => ?_
  rw [Slot.droppedReason_ne_nil_iff]
  exact xor_of_decided (hdecided c.key c hc rfl)

end Evaluate
end Scan
end Lorebook
