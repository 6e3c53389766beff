import Lorebook.Proofs.Parallel

set_option autoImplicit false

/-!
Two scans side by side, from the lineup of a pass to the end of the run. The lineup is where the
order of entries is lost: it is sorted, and no two of its entries stand on one place.
-/

namespace Lorebook.Scan

section Lineup

variable {inOrder : Prop} {su : Setup} {es : List Entry} {fx : Effects} {est : Estimator}
  {s t : State}

theorem place_of_entryLe {a b : Entry} (hab : entryLe su a b = true) (hba : entryLe su b a = true) :
    a.bookName = b.bookName ∧ a.uid = b.uid := by
  rw [entryLe_eq] at hab hba
  obtain ⟨_, hab, hba⟩ := Sorts.eq_of_ties hab hba
  obtain ⟨_, hab, hba⟩ := Sorts.eq_of_ties hab hba
  exact Sorts.place_of_ties hab hba

theorem form_of_activated (hs : Coherent su s) {k : Bytes} (hk : k ∈ activatedKeys su s) :
    ∃ e ∈ su.entries, e.key = k ∧ Form su e ((enlisted su s).entryAt k) := by
  obtain ⟨c, hc⟩ := Option.isSome_iff_exists.mp (isSome_find?_enlisted hk)
  obtain ⟨e, he, hek, hf⟩ := (hs.enlisted.sound c (Candidates.mem_of_find? hc)).form
  refine ⟨e, he, hek.trans (Candidates.key_of_find? hc), ?_⟩
  rw [State.entryAt, hc]
  exact hf

theorem Apart.eq_of_place {entries : List Entry} (h : Apart entries) {a b : Entry}
    (ha : a ∈ entries) (hb : b ∈ entries) (hbook : a.bookName = b.bookName) (huid : a.uid = b.uid) :
    a = b :=
  List.inj_on_of_nodup_map h.places ha hb (by rw [hbook, huid])

/-- Different keys of a pass stand on different places, so that sorting leaves no choice. -/
theorem Apart.key_of_entryLe (h : Apart su.entries) (hs : Coherent su s) {k k' : Bytes}
    (hk : k ∈ activatedKeys su s) (hk' : k' ∈ activatedKeys su s)
    (hab : entryLe su ((enlisted su s).entryAt k) ((enlisted su s).entryAt k') = true)
    (hba : entryLe su ((enlisted su s).entryAt k') ((enlisted su s).entryAt k) = true) :
    k = k' := by
  obtain ⟨e, he, hek, hf⟩ := form_of_activated hs hk
  obtain ⟨e', he', hek', hf'⟩ := form_of_activated hs hk'
  obtain ⟨hbook, huid⟩ := place_of_entryLe hab hba
  rw [hf.identity.bookName, hf'.identity.bookName] at hbook
  rw [hf.identity.uid, hf'.identity.uid] at huid
  rw [← hek, ← hek', h.eq_of_place he he' hbook huid]

theorem Recasts.lineup_eq (hr : Recasts inOrder su es fx) (h : Parallel inOrder s t)
    (hs : Coherent su s) : lineup (su.recast es fx est) t = lineup su s := by
  have hle : Scan.entryLe (su.recast es fx est) = Scan.entryLe su := by
    funext a b
    exact hr.entryLe a b
  have hat : (enlisted (su.recast es fx est) t).entryAt = (enlisted su s).entryAt := by
    funext k
    exact (h.enlisted hr est).entryAt k
  unfold lineup ordered
  rw [hle, hat]
  -- Entries in the same order need no places of their own.
  rcases hr.apart with he | hapart
  · have hkeys : activatedKeys (su.recast es fx est) t = activatedKeys su s := by
      rw [activatedKeys, hr.activated_inOrder h he]
      rfl
    rw [hkeys]
  · have hkeys : (activatedKeys (su.recast es fx est) t).Perm (activatedKeys su s) :=
      (hr.activated_perm h).map _
    have hsorts := (sorts_entryLe su).comap (Prod.snd : Bytes × Entry → Entry)
    have hrows := hsorts.sortBy_eq_of_perm
      (hkeys.map fun k => (k, (enlisted su s).entryAt k)) fun x hx y hy hxy hyx => ?_
    · dsimp only at hrows ⊢
      rw [hrows]
    · obtain ⟨k, hk, rfl⟩ := List.mem_map.mp hx
      obtain ⟨k', hk', rfl⟩ := List.mem_map.mp hy
      have hkk := hapart.key_of_entryLe hs (hkeys.mem_iff.mp hk) (hkeys.mem_iff.mp hk') hxy hyx
      rw [hkk]

end Lineup

section Groups

variable {inOrder : Prop} {su : Setup} {es : List Entry} {fx : Effects} {est : Estimator}
  {s t : State} {d d' : Draw}

structure Draw.Parallel (inOrder : Prop) (d d' : Draw) : Prop where
  removed : d'.removed = d.removed
  random : d'.random = d.random
  find : ∀ k, d'.candidates.find? k = d.candidates.find? k
  order : inOrder → d'.candidates.keys = d.candidates.keys

namespace Draw.Parallel

theorem drop (h : Parallel inOrder d d') (r : DropReason) (k : Bytes) :
    Parallel inOrder (d.drop r k) (d'.drop r k) := by
  unfold Draw.drop
  rw [h.removed]
  split
  · exact h
  · refine ⟨rfl, h.random, fun k' => ?_, fun ho => ?_⟩
    · by_cases hk : k' = k
      · subst hk
        simp only [Candidates.find?_setFate_self, h.find]
      · simp only [Candidates.find?_setFate_of_ne _ _ _ hk, h.find]
    · have hkeys (cs : Candidates) : (cs.setFate k (.dropped r)).keys = cs.keys :=
        Candidates.keys_update (f := fun c => { c with fate := .dropped r }) (fun _ => rfl) cs k
      simp only [hkeys, h.order ho]

theorem dropAll (h : Parallel inOrder d d') (r : DropReason) (ks : List Bytes) :
    Parallel inOrder (d.dropAll r ks) (d'.dropAll r ks) := by
  unfold Draw.dropAll
  induction ks generalizing d d' with
  | nil => exact h
  | cons k ks ih => exact ih (h.drop r k)

theorem scored (h : Parallel inOrder d d') (su : Setup) (s : State) (members : List Bytes) :
    Parallel inOrder (d.scored su s members) (d'.scored su s members) := by
  unfold Draw.scored
  split
  · exact h.dropAll _ _
  · exact h

theorem alive (h : Parallel inOrder d d') (members : List Bytes) :
    d'.alive members = d.alive members := by
  rw [Draw.alive, Draw.alive, h.removed]

theorem resolveGroup (h : Parallel inOrder d d') (su : Setup) (s : State) (name : Bytes)
    (all : List Bytes) :
    Parallel inOrder (resolveGroup su s d name all) (resolveGroup su s d' name all) := by
  rw [resolveGroup_eq, resolveGroup_eq]
  have hscored := h.scored su s (d.alive all)
  dsimp only
  rw [h.alive, hscored.alive, hscored.random]
  split
  · exact h
  split
  · exact h.dropAll _ _
  split
  · exact h.dropAll _ _
  split
  · exact hscored
  · refine dropAll ?_ _ _
    exact ⟨hscored.removed, rfl, hscored.find, hscored.order⟩

end Draw.Parallel

namespace Parallel

theorem groupsOf (h : Parallel inOrder s t) (keys : List Bytes) :
    groupsOf t keys = groupsOf s keys := by
  have hat : t.entryAt = s.entryAt := funext h.entryAt
  rw [Scan.groupsOf, Scan.groupsOf, hat]

theorem textFor (h : Parallel inOrder s t) (e : Entry) :
    textFor (su.recast es fx est) t e = textFor su s e :=
  h.same (Scan.textFor su · e) fun _ => rfl

theorem resolveGroup_eq (h : Parallel inOrder s t) (hr : Recasts inOrder su es fx) (d : Draw)
    (name : Bytes) (all : List Bytes) :
    resolveGroup (su.recast es fx est) t d name all = resolveGroup su s d name all := by
  have hat : t.entryAt = s.entryAt := funext h.entryAt
  have hsticky : groupSticky (su.recast es fx est) t = groupSticky su s := by
    funext k
    rw [groupSticky, groupSticky, hr.stickyActive, h.find]
  have htext : Scan.textFor (su.recast es fx est) t = Scan.textFor su s := funext h.textFor
  have hgroups : t.selectedGroups = s.selectedGroups := h.same (·.selectedGroups) fun _ => rfl
  unfold Scan.resolveGroup scoreLosers
  rw [hat, hsticky, htext, hgroups]
  rfl

theorem finalDraw (h : Parallel inOrder s t) (hr : Recasts inOrder su es fx) (est : Estimator)
    (keys : List Bytes) :
    Draw.Parallel inOrder (finalDraw su s keys) (finalDraw (su.recast es fx est) t keys) := by
  unfold Scan.finalDraw
  rw [h.groupsOf]
  have hbegin : Draw.Parallel inOrder { candidates := s.candidates, random := s.random }
      { candidates := t.candidates, random := t.random } := by
    exact ⟨rfl, h.same (·.random) fun _ => rfl, h.find, h.order⟩
  revert hbegin
  generalize ({ candidates := s.candidates, random := s.random } : Draw) = d
  generalize ({ candidates := t.candidates, random := t.random } : Draw) = d'
  intro hbegin
  induction Scan.groupsOf s keys generalizing d d' with
  | nil => exact hbegin
  | cons row rows ih =>
    refine ih _ _ ?_
    dsimp only
    rw [h.resolveGroup_eq hr]
    exact hbegin.resolveGroup su s row.1 row.2

theorem resolveGroups (h : Parallel inOrder s t) (hr : Recasts inOrder su es fx) (est : Estimator)
    (keys : List Bytes) :
    Parallel inOrder (resolveGroups su s keys).1 (resolveGroups (su.recast es fx est) t keys).1 ∧
      (resolveGroups (su.recast es fx est) t keys).2 = (resolveGroups su s keys).2 := by
  have hd := h.finalDraw hr est keys
  refine ⟨⟨?_, hd.find, hd.order, h.value, h.left, h.right⟩, hd.alive keys⟩
  have hcore : { t.core with random := (Scan.finalDraw (su.recast es fx est) t keys).random }
      = { s.core with random := (Scan.finalDraw su s keys).random } := by rw [h.core, hd.random]
  exact hcore

end Parallel
end Groups

section Accept

variable {inOrder : Prop} {su : Setup} {es : List Entry} {fx : Effects} {est : Estimator}
  {s t : State}

namespace Parallel

theorem acceptOne (h : Parallel inOrder s t) (hr : Recasts inOrder su es fx) (est : Estimator)
    (c : Candidate) :
    Parallel inOrder (acceptOne su s c).1 (acceptOne (su.recast es fx est) t c).1 ∧
      (acceptOne (su.recast es fx est) t c).2 = (acceptOne su s c).2 := by
  have hlate : (t.overflowed && !c.entry.ignoreBudget) = (s.overflowed && !c.entry.ignoreBudget) :=
    h.same (fun u => u.overflowed && !c.entry.ignoreBudget) fun _ => rfl
  have hrandom : t.random = s.random := h.same (·.random) fun _ => rfl
  have hroll : roll (su.recast es fx est) c.entry t.random = roll su c.entry s.random := by
    rw [roll, roll, hr.rolls, hrandom]
  unfold Scan.acceptOne
  rw [hlate, hroll]
  dsimp only
  have hrolled : Parallel inOrder { s with random := (roll su c.entry s.random).2 }
      { t with random := (roll su c.entry s.random).2 } :=
    h.change (f := fun u => { u with random := (roll su c.entry s.random).2 }) (fun _ => rfl)
      (fun _ => rfl) (fun _ => rfl)
  have hexceeds : exceeds (su.recast es fx est) { t with random := (roll su c.entry s.random).2 } c
      = exceeds su { s with random := (roll su c.entry s.random).2 } c :=
    hrolled.same (exceeds su · c) fun _ => rfl
  split
  · exact ⟨h.drop _ _, rfl⟩
  rw [hexceeds]
  split
  · exact ⟨(hrolled.drop c.key .probabilityFailed).change
      (f := fun u => { u with failedKeys := addOnce c.key u.failedKeys }) (fun _ => rfl)
      (fun _ => rfl) (fun _ => rfl), rfl⟩
  split
  · exact ⟨(hrolled.drop c.key .budgetExhausted).change
      (f := fun u => { u with overflowed := true }) (fun _ => rfl) (fun _ => rfl)
      (fun _ => rfl), rfl⟩
  · exact ⟨hrolled.select c, rfl⟩

theorem accept (h : Parallel inOrder s t) (hr : Recasts inOrder su es fx) (est : Estimator)
    (ks : List Bytes) :
    Parallel inOrder (accept su s ks).1 (accept (su.recast es fx est) t ks).1 ∧
      (accept (su.recast es fx est) t ks).2 = (accept su s ks).2 := by
  induction ks generalizing s t with
  | nil => exact ⟨h, rfl⟩
  | cons k ks ih =>
    simp only [Scan.accept, h.find]
    cases s.candidates.find? k with
    | none => exact ih h
    | some c =>
      obtain ⟨hone, haccepted⟩ := h.acceptOne hr est c
      obtain ⟨hrest, hkeys⟩ := ih hone
      refine ⟨hrest, ?_⟩
      dsimp only
      rw [haccepted, hkeys]

theorem settled (h : Parallel inOrder s t) (hr : Recasts inOrder su es fx) (est : Estimator)
    (hs : Coherent su s) :
    Parallel inOrder (settled su s) (settled (su.recast es fx est) t) ∧
      (Scan.accept (su.recast es fx est) (resolved (su.recast es fx est) t)
          (kept (su.recast es fx est) t)).2
        = (Scan.accept su (resolved su s) (kept su s)).2 := by
  have hgroups := (h.enlisted hr est).resolveGroups hr est (lineup su s)
  unfold Scan.settled resolved kept
  rw [hr.lineup_eq h hs, hgroups.2]
  exact hgroups.1.accept hr est _

end Parallel
end Accept

section Run

variable {inOrder : Prop} {su : Setup} {es : List Entry} {fx : Effects} {est : Estimator}
  {s t : State}

inductive Step.Parallel (inOrder : Prop) : Step → Step → Prop where
  | stop {s t : State} : Scan.Parallel inOrder s t → Parallel inOrder (.stop s) (.stop t)
  | again {s t : State} : Scan.Parallel inOrder s t → Parallel inOrder (.again s) (.again t)

namespace Parallel

theorem note_if (h : Parallel inOrder s t) (su su' : Setup) (p : Prop) [Decidable p] (a b : Bytes) :
    Parallel inOrder (if p then s.note su a else s) (if p then t.note su' b else t) := by
  split
  · exact h.note su su' a b
  · exact h

theorem feed (h : Parallel inOrder s t) (fresh : Bytes) :
    Parallel inOrder (feed su s fresh) (feed (su.recast es fx est) t fresh) := by
  have hbuffer : t.buffer = s.buffer := h.same (·.buffer) fun _ => rfl
  have hgrown : Parallel inOrder
      { s with buffer := grown su.scanner.maxBufferBytes s.buffer fresh,
               recursionSteps := s.recursionSteps + 1 }
      { t with buffer := grown su.scanner.maxBufferBytes t.buffer fresh,
               recursionSteps := t.recursionSteps + 1 } :=
    h.change (f := fun u => { u with
        buffer := grown su.scanner.maxBufferBytes u.buffer fresh
        recursionSteps := u.recursionSteps + 1 }) (fun _ => rfl) (fun _ => rfl) (fun _ => rfl)
  unfold Scan.feed
  dsimp only
  rw [show (su.recast es fx est).scanner.maxBufferBytes = su.scanner.maxBufferBytes from rfl,
    hbuffer]
  rw [hbuffer] at hgrown
  refine (hgrown.note_if su (su.recast es fx est) _ _ _).change
    (f := fun u => { u with level := if u.level < su.topLevel then u.level + 1 else u.level })
    (fun _ => rfl) (fun _ => rfl) (fun _ => rfl)

theorem widen (h : Parallel inOrder s t) :
    Step.Parallel inOrder (widen su s) (widen (su.recast es fx est) t) := by
  have hcan : canWiden (su.recast es fx est) t = canWiden su s :=
    h.same (canWiden su) fun _ => rfl
  unfold Scan.widen
  rw [hcan]
  split
  · refine .again (note ?_ _ _ _ _)
    exact h.change (f := fun u => { u with widened := u.widened + 1 }) (fun _ => rfl)
      (fun _ => rfl) (fun _ => rfl)
  · exact .stop h

theorem escalate (h : Parallel inOrder s t) (accepted : List Bytes) :
    Step.Parallel inOrder (escalate su s accepted)
      (escalate (su.recast es fx est) t accepted) := by
  have hfresh : freshContent t accepted = freshContent s accepted := by
    have hat : t.entryAt = s.entryAt := funext h.entryAt
    rw [freshContent, freshContent, hat]
  have hsteps : t.recursionSteps + 1 = s.recursionSteps + 1 :=
    h.same (·.recursionSteps + 1) fun _ => rfl
  have hlevel :
      (if (su.recast es fx est).recursive && !t.buffer.isEmpty then
          nextLevel? (su.recast es fx est) t else none)
        = if su.recursive && !s.buffer.isEmpty then nextLevel? su s else none :=
    h.same (fun u => if su.recursive && !u.buffer.isEmpty then nextLevel? su u else none)
      fun _ => rfl
  unfold Scan.escalate
  dsimp only
  rw [hfresh, hsteps, hlevel,
    show (su.recast es fx est).recursive = su.recursive from rfl,
    show (su.recast es fx est).scanner.maxRecursionSteps = su.scanner.maxRecursionSteps from rfl]
  split
  · split
    · exact .stop (h.note _ _ _ _)
    · exact .again (h.feed _)
  · split
    · next level _ =>
      exact .again (h.change (f := fun u => { u with level }) (fun _ => rfl) (fun _ => rfl)
        (fun _ => rfl))
    · exact h.widen

theorem step (h : Parallel inOrder s t) (hr : Recasts inOrder su es fx) (est : Estimator)
    (hs : Coherent su s) :
    Step.Parallel inOrder (step su s) (step (su.recast es fx est) t) := by
  obtain ⟨hsettled, haccepted⟩ := h.settled hr est hs
  have hempty : (activatedKeys (su.recast es fx est) t).isEmpty = (activatedKeys su s).isEmpty := by
    have hperm : (activatedKeys (su.recast es fx est) t).Perm (activatedKeys su s) :=
      (hr.activated_perm h).map _
    rw [Bool.eq_iff_iff, List.isEmpty_iff_length_eq_zero, List.isEmpty_iff_length_eq_zero,
      hperm.length_eq]
  have hover : (Scan.settled (su.recast es fx est) t).overflowed
      = (Scan.settled su s).overflowed := hsettled.same (·.overflowed) fun _ => rfl
  rw [step_eq, step_eq, hempty, hover, haccepted]
  split
  · exact .stop (h.enlisted hr est)
  split
  · exact .stop (hsettled.note _ _ _ _)
  · exact hsettled.escalate _

theorem run (h : Parallel inOrder s t) (hr : Recasts inOrder su es fx) (est : Estimator)
    (hs : Coherent su s) (fuel : Nat) :
    Parallel inOrder (run su fuel s) (run (su.recast es fx est) fuel t) := by
  -- Coherence of the first scan is carried along: without it a pass need not sort its keys alike.
  induction fuel generalizing s t with
  | zero => exact h
  | succ fuel ih =>
    have hstep := h.step hr est hs
    unfold Scan.run
    revert hstep
    generalize hu : Scan.step su s = u
    generalize Scan.step (su.recast es fx est) t = v
    rintro (hst | hst)
    · exact hst
    · exact ih hst (hs.again hu)

theorem ending (h : Parallel inOrder s t) (hr : Recasts inOrder su es fx) (est : Estimator)
    (hs : Coherent su s) :
    Parallel inOrder (ending su s) (ending (su.recast es fx est) t) :=
  h.run hr est hs (passBound su)

end Parallel
end Run
end Lorebook.Scan
