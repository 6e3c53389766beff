import Lorebook.Proofs.Coherence
import Lorebook.Proofs.Estimation
import Lorebook.Proofs.Order

set_option autoImplicit false

/-!
Two scans side by side. The second one may have its entries in another order, other records behind
the same active effects, and an estimator that keeps other answers of the same function. Pass by
pass both find the same candidates under every key, draw the same numbers and decide alike; only the
order in which candidates were first entered may differ.
-/

namespace Lorebook

/-- Effects that cannot be told apart by asking what is active. -/
structure Effects.SameAnswers (fx gx : Effects) : Prop where
  clock : gx.clock = fx.clock
  sticky : ∀ k, gx.stickyActive k = fx.stickyActive k
  cooldown : ∀ k, gx.cooldownActive k = fx.cooldownActive k

namespace Scan

/-- No two entries share their key, or their book and uid. -/
structure Apart (entries : List Entry) : Prop where
  keys : (entries.map (·.key)).Nodup
  places : (entries.map fun e => (e.bookName, e.uid)).Nodup

def Setup.recast (su : Setup) (entries : List Entry) (effects : Effects) (estimator : Estimator) :
    Setup :=
  { su with entries, effects, scanner := { su.scanner with estimator } }

structure Recasts (inOrder : Prop) (su : Setup) (entries : List Entry) (effects : Effects) :
    Prop where
  effects : su.effects.SameAnswers effects
  perm : entries.Perm su.entries
  order : inOrder → entries = su.entries
  apart : entries = su.entries ∨ Apart su.entries

def State.core (s : State) : State := { s with candidates := [], estimator := .plain, log := [] }

/-- Two states that agree but for the order of candidates, what the estimator keeps, and the log. If
`inOrder`, the candidates are in the same order as well. -/
structure Parallel (inOrder : Prop) (s t : State) : Prop where
  core : t.core = s.core
  find : ∀ k, t.candidates.find? k = s.candidates.find? k
  order : inOrder → t.candidates.keys = s.candidates.keys
  value : t.estimator.value = s.estimator.value
  left : s.estimator.Faithful
  right : t.estimator.Faithful

namespace Parallel

variable {inOrder : Prop} {s t u : State}

theorem refl (h : s.estimator.Faithful) : Parallel inOrder s s :=
  ⟨rfl, fun _ => rfl, fun _ => rfl, rfl, h, h⟩

theorem trans (h : Parallel inOrder s t) (h' : Parallel inOrder t u) : Parallel inOrder s u where
  core := h'.core.trans h.core
  find k := (h'.find k).trans (h.find k)
  order ho := (h'.order ho).trans (h.order ho)
  value := h'.value.trans h.value
  left := h.left
  right := h'.right

/-- What reads neither candidates nor estimator nor log reads the same from both states. -/
theorem same {α : Type} (h : Parallel inOrder s t) (f : State → α) (hf : ∀ u, f u.core = f u) :
    f t = f s := by
  rw [← hf t, ← hf s, h.core]

theorem entryAt (h : Parallel inOrder s t) (k : Bytes) : t.entryAt k = s.entryAt k := by
  rw [State.entryAt, State.entryAt, h.find]

theorem change (h : Parallel inOrder s t) {f : State → State}
    (hcore : ∀ u, (f u).core = (f u.core).core) (hcs : ∀ u, (f u).candidates = u.candidates)
    (hest : ∀ u, (f u).estimator = u.estimator) : Parallel inOrder (f s) (f t) where
  core := by rw [hcore, hcore s, h.core]
  find k := by rw [hcs, hcs]; exact h.find k
  order ho := by rw [hcs, hcs]; exact h.order ho
  value := by rw [hest, hest]; exact h.value
  left := by rw [hest]; exact h.left
  right := by rw [hest]; exact h.right

theorem note (h : Parallel inOrder s t) (su su' : Setup) (a b : Bytes) :
    Parallel inOrder (s.note su a) (t.note su' b) := by
  have hnote (su : Setup) (s : State) (line : Bytes) :
      (s.note su line).core = s.core ∧ (s.note su line).candidates = s.candidates ∧
        (s.note su line).estimator = s.estimator := by
    unfold State.note
    split <;> exact ⟨rfl, rfl, rfl⟩
  obtain ⟨hs, hsc, hse⟩ := hnote su s a
  obtain ⟨ht, htc, hte⟩ := hnote su' t b
  refine ⟨?_, fun k => ?_, fun ho => ?_, ?_, ?_, ?_⟩
  · rw [hs, ht, h.core]
  · rw [hsc, htc, h.find]
  · rw [hsc, htc, h.order ho]
  · rw [hse, hte, h.value]
  · rw [hse]
    exact h.left
  · rw [hte]
    exact h.right

theorem update (h : Parallel inOrder s t) {f : Candidate → Candidate}
    (hf : ∀ c, (f c).key = c.key) (k : Bytes) :
    Parallel inOrder { s with candidates := s.candidates.update k f }
      { t with candidates := t.candidates.update k f } where
  core := h.core
  find k' := by
    by_cases hk : k' = k
    · subst hk
      simp only [Candidates.find?_update_self hf, h.find]
    · simp only [Candidates.find?_update_of_ne hf hk, h.find]
  order ho := by
    simp only [Candidates.keys_update hf]
    exact h.order ho
  value := h.value
  left := h.left
  right := h.right

theorem drop (h : Parallel inOrder s t) (k : Bytes) (r : DropReason) :
    Parallel inOrder (s.drop k r) (t.drop k r) :=
  h.update (f := fun c => { c with fate := .dropped r }) (fun _ => rfl) k

theorem select (h : Parallel inOrder s t) (c : Candidate) :
    Parallel inOrder (s.select c) (t.select c) := by
  have hset := h.update (f := fun c => { c with fate := .selected }) (fun _ => rfl) c.key
  exact hset.change (f := fun u => { u with
      selectedKeys := addOnce c.key u.selectedKeys
      selectedGroups := c.entry.groupNames.foldl (fun gs g => addOnce g gs) u.selectedGroups
      used := Bounded.wrap (u.used + c.tokens) })
    (fun _ => rfl) (fun _ => rfl) (fun _ => rfl)

end Parallel

section Enlist

variable {inOrder : Prop} {s t : State}

def Trigger.marks : Trigger → List Bytes × List Bytes
  | .forced _ => ([lit "<forced>"], [])
  | .constant => ([lit "<constant>"], [])
  | .sticky => ([lit "<sticky>"], [])
  | .keys primary secondary => (primary, secondary)

/-- The candidate that an activated entry makes of the one with its key, if there is one. -/
def Trigger.candidate (k : PassKind) (e : Entry) (tr : Trigger) (tokens : Int) :
    Option Candidate → Candidate
  | some c => tr.refresh k e tokens c
  | none =>
    { key := e.key, entry := tr.form k e, matchedPrimary := tr.marks.1,
      matchedSecondary := tr.marks.2, kind := tr.kind k, tokens }

namespace State

theorem estimate_fst (h : s.estimator.Faithful) (text : Bytes) :
    (s.estimate text).1 = s.estimator.tokens text := by
  simp only [estimate, Estimator.tokens, h.estimate_fst]

theorem find?_renew_self (s : State) (key : Bytes) (kind : ActivationKind) (v : Entry)
    (p q : List Bytes) : (s.renew key kind v p q).candidates.find? key =
      some (match s.candidates.find? key with
        | some c => { c with entry := v, kind, tokens := (s.estimate v.content).1 }
        | none => { key, entry := v, matchedPrimary := p, matchedSecondary := q, kind,
                    tokens := (s.estimate v.content).1 }) := by
  have hcs : (s.estimate v.content).2.candidates = s.candidates := rfl
  cases hc : s.candidates.find? key with
  | some c =>
    simp only [renew, hcs, hc]
    refine (Candidates.find?_update_self ?_ _ _).trans (by rw [hc]; rfl)
    exact fun _ => rfl
  | none =>
    simp only [renew, hcs, hc]
    rw [Candidates.find?, List.find?_append]
    have hnone : List.find? (·.key = key) s.candidates = none := hc
    simp [hnone]

theorem find?_enlist_self (s : State) (k : PassKind) (e : Entry) (tr : Trigger) :
    (s.enlist k e tr).candidates.find? e.key =
      some (tr.candidate k e (s.estimate (tr.form k e).content).1
        (s.candidates.find? e.key)) := by
  cases hc : s.candidates.find? e.key with
  | some c =>
    have hsome : (s.candidates.find? e.key).isSome := by simp [hc]
    cases tr with
    | forced o => simp [enlist, find?_renew_self, hc, Trigger.candidate, Trigger.refresh,
        Trigger.form, Trigger.kind]
    | constant =>
      rw [enlist, keep_of_some hsome]
      refine (Candidates.find?_update_self ?_ _ _).trans (by rw [hc]; rfl)
      exact fun _ => rfl
    | sticky =>
      rw [enlist, keep_of_some hsome]
      refine (Candidates.find?_update_self ?_ _ _).trans (by rw [hc]; rfl)
      exact fun _ => rfl
    | keys p q => simp [enlist, find?_renew_self, hc, Trigger.candidate, Trigger.refresh,
        Trigger.form, Trigger.kind]
  | none =>
    cases tr with
    | forced o => simp [enlist, find?_renew_self, hc, Trigger.candidate, Trigger.marks,
        Trigger.form, Trigger.kind]
    | constant => simp [enlist, keep_of_none hc, find?_renew_self, hc, Trigger.candidate,
        Trigger.marks, Trigger.form, Trigger.kind]
    | sticky => simp [enlist, keep_of_none hc, find?_renew_self, hc, Trigger.candidate,
        Trigger.marks, Trigger.form, Trigger.kind]
    | keys p q => simp [enlist, find?_renew_self, hc, Trigger.candidate, Trigger.marks,
        Trigger.form, Trigger.kind]

theorem keys_enlist (s : State) (k : PassKind) (e : Entry) (tr : Trigger) :
    (s.enlist k e tr).candidates.keys = addOnce e.key s.candidates.keys := by
  obtain ⟨n, est, _, ⟨hs, h⟩ | ⟨hs, c, hc, h⟩⟩ := s.enlist_cases k e tr
  · have hmem : e.key ∈ s.candidates.keys := by
      by_contra hno
      rw [Candidates.find?_eq_none_iff.mpr hno] at hs
      cases hs
    rw [h, addOnce, if_pos hmem]
    exact Candidates.keys_update tr.refresh_key _ _
  · rw [h, addOnce, if_neg (Candidates.find?_eq_none_iff.mp hs)]
    simp [Candidates.keys, hc.key]

theorem core_enlist (s : State) (k : PassKind) (e : Entry) (tr : Trigger) :
    (s.enlist k e tr).core = s.core := by
  obtain ⟨_, _, h⟩ := s.enlist_frame k e tr
  rw [h]
  rfl

theorem enlist_estimator (s : State) (k : PassKind) (e : Entry) (tr : Trigger) :
    (s.enlist k e tr).estimator = s.estimator ∨
      ∃ text, (s.enlist k e tr).estimator = (s.estimator.estimate text).2 := by
  have hrenew (key : Bytes) (kind : ActivationKind) (v : Entry) (p q : List Bytes) :
      (s.renew key kind v p q).estimator = (s.estimator.estimate v.content).2 := by
    simp only [renew, estimate]
    split <;> rfl
  have hkeep (kind : ActivationKind) (mark : Bytes) :
      (s.keep kind e mark).estimator = s.estimator ∨
        ∃ text, (s.keep kind e mark).estimator = (s.estimator.estimate text).2 := by
    unfold keep
    split
    · exact .inl rfl
    · exact .inr ⟨_, hrenew _ _ _ _ _⟩
  cases tr with
  | forced o => exact .inr ⟨_, hrenew _ _ _ _ _⟩
  | constant => exact hkeep _ _
  | sticky => exact hkeep _ _
  | keys p q => exact .inr ⟨_, hrenew _ _ _ _ _⟩

theorem value_enlist (s : State) (k : PassKind) (e : Entry) (tr : Trigger) :
    (s.enlist k e tr).estimator.value = s.estimator.value := by
  rcases s.enlist_estimator k e tr with h | ⟨text, h⟩
  · rw [h]
  · rw [h, Estimator.value_estimate]

theorem faithful_enlist (h : s.estimator.Faithful) (k : PassKind) (e : Entry) (tr : Trigger) :
    (s.enlist k e tr).estimator.Faithful := by
  rcases s.enlist_estimator k e tr with heq | ⟨text, heq⟩
  · rwa [heq]
  · rw [heq]
    exact h.estimate_snd text

end State

namespace Parallel

theorem enlist (h : Parallel inOrder s t) (k : PassKind) (e : Entry) (tr : Trigger) :
    Parallel inOrder (s.enlist k e tr) (t.enlist k e tr) where
  core := by rw [State.core_enlist, State.core_enlist, h.core]
  find key := by
    by_cases hk : key = e.key
    · subst hk
      rw [State.find?_enlist_self, State.find?_enlist_self, State.estimate_fst h.right,
        State.estimate_fst h.left, h.find, Estimator.tokens, Estimator.tokens, h.value]
    · rw [State.find?_enlist_of_ne _ _ _ hk, State.find?_enlist_of_ne _ _ _ hk, h.find]
  order ho := by rw [State.keys_enlist, State.keys_enlist, h.order ho]
  value := by rw [State.value_enlist, State.value_enlist, h.value]
  left := State.faithful_enlist h.left k e tr
  right := State.faithful_enlist h.right k e tr

/-- Entries with different keys may be entered in either order. -/
theorem enlist_swap (h : Parallel inOrder s t) (ho : ¬inOrder) (k : PassKind) {e e' : Entry}
    (hne : e.key ≠ e'.key) (tr tr' : Trigger) :
    Parallel inOrder ((s.enlist k e tr).enlist k e' tr') ((t.enlist k e' tr').enlist k e tr) where
  core := by simp only [State.core_enlist, h.core]
  find key := by
    have hs := State.faithful_enlist h.left k e tr
    have ht := State.faithful_enlist h.right k e' tr'
    by_cases hk : key = e.key
    · subst hk
      rw [State.find?_enlist_self, State.find?_enlist_of_ne _ _ _ hne,
        State.find?_enlist_of_ne _ _ _ hne, State.find?_enlist_self, State.estimate_fst ht,
        State.estimate_fst h.left, h.find, Estimator.tokens, Estimator.tokens, State.value_enlist,
        h.value]
    · by_cases hk' : key = e'.key
      · subst hk'
        rw [State.find?_enlist_self, State.find?_enlist_of_ne _ _ _ hk,
          State.find?_enlist_of_ne _ _ _ hk, State.find?_enlist_self, State.estimate_fst hs,
          State.estimate_fst h.right, h.find, Estimator.tokens, Estimator.tokens,
          State.value_enlist, h.value]
      · simp only [State.find?_enlist_of_ne _ _ _ hk, State.find?_enlist_of_ne _ _ _ hk', h.find]
  order := fun h' => absurd h' ho
  value := by simp only [State.value_enlist, h.value]
  left := State.faithful_enlist (State.faithful_enlist h.left k e tr) k e' tr'
  right := State.faithful_enlist (State.faithful_enlist h.right k e' tr') k e tr

theorem enlistAll (h : Parallel inOrder s t) (k : PassKind) (es : List (Entry × Trigger)) :
    Parallel inOrder (es.foldl (fun s (e, tr) => s.enlist k e tr) s)
      (es.foldl (fun s (e, tr) => s.enlist k e tr) t) := by
  induction es generalizing s t with
  | nil => exact h
  | cons row es ih => exact ih (h.enlist k row.1 row.2)

theorem enlistAll_perm (h : Parallel inOrder s t) (ho : ¬inOrder) (k : PassKind)
    {es es' : List (Entry × Trigger)} (hp : es.Perm es') (hn : (es.map (·.1.key)).Nodup) :
    Parallel inOrder (es.foldl (fun s (e, tr) => s.enlist k e tr) s)
      (es'.foldl (fun s (e, tr) => s.enlist k e tr) t) := by
  induction hp generalizing s t with
  | nil => exact h
  | cons row _ ih => exact ih (h.enlist k row.1 row.2) (List.nodup_cons.mp hn).2
  | swap row row' es =>
    have hne : row'.1.key ≠ row.1.key := by
      rintro heq
      simp [heq] at hn
    exact (h.enlist_swap ho k hne row'.2 row.2).enlistAll k es
  | trans hp hp' ih ih' =>
    have hs := ih (refl h.left) hn
    have ht := ih' h ((hp.map _).nodup_iff.mp hn)
    exact hs.trans ht

end Parallel
end Enlist

section Recast

variable {inOrder : Prop} {su : Setup} {es : List Entry} {fx : Effects} {est : Estimator}
  {s t : State}

namespace Recasts

theorem stickyActive (h : Recasts inOrder su es fx) (k : Bytes) :
    (su.recast es fx est).stickyActive k = su.stickyActive k := h.effects.sticky k

theorem eligible (h : Recasts inOrder su es fx) (s : State) (e : Entry) :
    eligible (su.recast es fx est) s e = eligible su s e := by
  have hcooldown : (su.recast es fx est).effects.cooldownActive e.key
      = su.effects.cooldownActive e.key := h.effects.cooldown e.key
  have hdelay : (su.recast es fx est).effects.delayActive e = su.effects.delayActive e := by
    have hclock : (su.recast es fx est).effects.clock = su.effects.clock := h.effects.clock
    rw [Effects.delayActive, Effects.delayActive, hclock]
  unfold Scan.eligible
  rw [h.stickyActive, hcooldown, hdelay]
  rfl

theorem keywordMatch? (h : Recasts inOrder su es fx) (e : Entry) (text : Bytes) :
    keywordMatch? (su.recast es fx est) e text = keywordMatch? su e text := by
  have hclock : (su.recast es fx est).clock = su.clock := h.effects.clock
  unfold Scan.keywordMatch?
  rw [hclock]
  rfl

theorem trigger? (h : Recasts inOrder su es fx) (s : State) (e : Entry) :
    trigger? (su.recast es fx est) s e = trigger? su s e := by
  unfold Scan.trigger?
  rw [h.stickyActive, h.keywordMatch?]
  rfl

theorem entryLe (h : Recasts inOrder su es fx) (a b : Entry) :
    entryLe (su.recast es fx est) a b = entryLe su a b := by
  unfold Scan.entryLe
  rw [h.stickyActive, h.stickyActive]

theorem rolls (h : Recasts inOrder su es fx) (e : Entry) :
    rolls (su.recast es fx est) e = rolls su e := by
  rw [Scan.rolls, Scan.rolls, h.stickyActive]

theorem activated_eq (h : Recasts inOrder su es fx) (hst : Parallel inOrder s t) :
    activated (su.recast es fx est) t = es.filterMap fun e =>
      if Scan.eligible su s e then (Scan.trigger? su s e).map (e, ·) else none := by
  unfold activated
  apply List.filterMap_congr
  intro e _
  have hel : Scan.eligible su t e = Scan.eligible su s e :=
    hst.same (Scan.eligible su · e) fun _ => rfl
  have htr : Scan.trigger? su t e = Scan.trigger? su s e :=
    hst.same (Scan.trigger? su · e) fun _ => rfl
  rw [h.eligible, h.trigger?, hel, htr]

theorem activated_perm (h : Recasts inOrder su es fx) (hst : Parallel inOrder s t) :
    (activated (su.recast es fx est) t).Perm (activated su s) := by
  rw [h.activated_eq hst]
  exact h.perm.filterMap _

theorem activated_inOrder (h : Recasts inOrder su es fx) (hst : Parallel inOrder s t)
    (he : es = su.entries) : activated (su.recast es fx est) t = activated su s := by
  rw [h.activated_eq hst, he]
  rfl

end Recasts

namespace Parallel

theorem enlisted (h : Parallel inOrder s t) (hr : Recasts inOrder su es fx) (est : Estimator) :
    Parallel inOrder (enlisted su s) (enlisted (su.recast es fx est) t) := by
  have hkind : passKind (su.recast es fx est) t = passKind su s :=
    h.same (passKind su) fun _ => rfl
  have hbegun : Parallel inOrder { s with passes := s.passes + 1 }
      { t with passes := t.passes + 1 } :=
    h.change (f := fun u => { u with passes := u.passes + 1 }) (fun _ => rfl) (fun _ => rfl)
      (fun _ => rfl)
  have hfold : Parallel inOrder (activate su { s with passes := s.passes + 1 }).1
      (activate (su.recast es fx est) { t with passes := t.passes + 1 }).1 := by
    have hs : (activate su { s with passes := s.passes + 1 }).1 =
        (activated su s).foldl (fun u (e, tr) => u.enlist (passKind su s) e tr)
          { s with passes := s.passes + 1 } := rfl
    have ht : (activate (su.recast es fx est) { t with passes := t.passes + 1 }).1 =
        (activated (su.recast es fx est) t).foldl (fun u (e, tr) => u.enlist (passKind su s) e tr)
          { t with passes := t.passes + 1 } := by
      rw [← hkind]
      rfl
    rw [hs, ht]
    by_cases he : es = su.entries
    · rw [hr.activated_inOrder h he]
      exact hbegun.enlistAll _ _
    · have ho : ¬inOrder := fun ho => he (hr.order ho)
      have hapart := hr.apart.resolve_left he
      exact hbegun.enlistAll_perm ho _ (hr.activated_perm h).symm
        (hapart.keys.sublist ((activatedKeys_sublist su s).trans (List.filter_sublist.map _)))
  exact hfold.note su _ _ _

end Parallel
end Recast
end Scan
end Lorebook
