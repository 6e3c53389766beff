import Lorebook.Proofs.ForcedEffects
import Lorebook.Proofs.Gating

set_option autoImplicit false

/-!
What tells entries apart: source, book and uid. They are joined by a colon and a point into the key,
which is the same for entries that differ only in where these marks stand. As long as no two entries
are confused in that way, each one has a candidate, records and a target of its own.
-/

namespace Lorebook

namespace Entry

def sourceName (e : Entry) : Bytes := if e.source.isEmpty then lit "unknown" else e.source

def bookTitle (e : Entry) : Bytes :=
  if (Bytes.trim e.bookName).isEmpty then lit "unnamed" else Bytes.trim e.bookName

def identity (e : Entry) : Bytes × Bytes × Bytes := (e.sourceName, e.bookTitle, e.uid)

/-- What stands behind the first mark of one entry's name is part of the other entry's name: of its
source, or of its book where the sources are the same. -/
inductive Confused (e f : Entry) : Prop
  | source (m : Bytes) (hsource : f.sourceName = e.sourceName ++ 58 :: m)
    (hrest : e.worldKey = m ++ 58 :: f.worldKey)
  | book (m : Bytes) (hsource : f.sourceName = e.sourceName)
    (hbook : f.bookTitle = e.bookTitle ++ 46 :: m) (hrest : e.uid = m ++ 46 :: f.uid)

def Unconfused (es : List Entry) : Prop := ∀ e ∈ es, ∀ f ∈ es, ¬ e.Confused f

def pointer (e : Entry) : Json :=
  Json.object [(lit "uid", .str e.uid), (lit "entry_key", .str e.key)]

theorem worldKey_eq (e : Entry) : e.worldKey = e.bookTitle ++ 46 :: e.uid := by
  simp [worldKey, bookTitle]
  rfl

theorem key_eq (e : Entry) : e.key = e.sourceName ++ 58 :: e.worldKey := by
  simp [key, sourceName]
  rfl

end Entry

section Marks

variable {α : Type} {x : α} {a b c d : List α}

/-- Two lists that are cut at the same mark are the same list. -/
theorem append_mark_eq_iff : a ++ x :: b = c ++ x :: d ↔
    (a = c ∧ b = d) ∨ (∃ m, c = a ++ x :: m ∧ b = m ++ x :: d) ∨
      ∃ m, a = c ++ x :: m ∧ d = m ++ x :: b := by
  constructor
  · intro h
    rcases List.append_eq_append_iff.mp h with ⟨m, rfl, hb⟩ | ⟨m, rfl, hd⟩
    · cases m with
      | nil => exact .inl ⟨by simp, (List.cons.inj hb).2⟩
      | cons y m =>
        obtain ⟨rfl, rfl⟩ := List.cons.inj hb
        exact .inr (.inl ⟨m, rfl, rfl⟩)
    · cases m with
      | nil => exact .inl ⟨by simp, (List.cons.inj hd).2.symm⟩
      | cons y m =>
        obtain ⟨rfl, rfl⟩ := List.cons.inj hd
        exact .inr (.inr ⟨m, rfl, rfl⟩)
  · rintro (⟨rfl, rfl⟩ | ⟨m, rfl, rfl⟩ | ⟨m, rfl, rfl⟩) <;> simp

end Marks

namespace Entry

variable {e f : Entry}

theorem Confused.key_eq (h : Confused e f) : e.key = f.key := by
  rw [Entry.key_eq, Entry.key_eq]
  cases h with
  | source m hsource hrest => simp [hsource, hrest]
  | book m hsource hbook hrest => simp [hsource, worldKey_eq, hbook, hrest]

theorem key_eq_iff : e.key = f.key ↔ e.identity = f.identity ∨ Confused e f ∨ Confused f e := by
  constructor
  · rw [key_eq, key_eq, append_mark_eq_iff, worldKey_eq, worldKey_eq, append_mark_eq_iff]
    rintro (⟨hs, ⟨hb, hu⟩ | ⟨m, hb, hu⟩ | ⟨m, hb, hu⟩⟩ | ⟨m, hs, hw⟩ | ⟨m, hs, hw⟩)
    · exact .inl (by rw [identity, identity, hs, hb, hu])
    · exact .inr (.inl (.book m hs.symm hb hu))
    · exact .inr (.inr (.book m hs hb hu))
    · exact .inr (.inl (.source m hs (by rw [worldKey_eq, worldKey_eq, hw])))
    · exact .inr (.inr (.source m hs (by rw [worldKey_eq, worldKey_eq, hw])))
  · rintro (h | h | h)
    · simp only [identity, Prod.mk.injEq] at h
      rw [key_eq, key_eq, worldKey_eq, worldKey_eq, h.1, h.2.1, h.2.2]
    · exact h.key_eq
    · exact h.key_eq.symm

theorem Confused.marked (h : Confused e f) : 58 ∈ f.sourceName ∨ 46 ∈ f.bookTitle := by
  cases h with
  | source m hsource hrest => exact .inl (by simp [hsource])
  | book m hsource hbook hrest => exact .inr (by simp [hbook])

theorem unconfused_of_unmarked {es : List Entry}
    (h : ∀ e ∈ es, 58 ∉ e.sourceName ∧ 46 ∉ e.bookTitle) : Unconfused es := by
  intro e _ f hf hconfused
  rcases hconfused.marked with hsource | hbook
  · exact (h f hf).1 hsource
  · exact (h f hf).2 hbook

theorem not_confused_self (e : Entry) : ¬ Confused e e := by
  intro h
  cases h with
  | source m hsource hrest => simpa using congrArg List.length hsource
  | book m hsource hbook hrest => simpa using congrArg List.length hbook

/-- The entries of a list are known by different keys if and only if no two are confused. -/
theorem nodup_keys_iff {es : List Entry} (h : (es.map identity).Nodup) :
    (es.map (·.key)).Nodup ↔ Unconfused es := by
  have hsame {e f : Entry} (he : e ∈ es) (hf : f ∈ es) (hid : e.identity = f.identity) : e = f :=
    List.inj_on_of_nodup_map h he hf hid
  rw [List.nodup_map_iff_inj_on (List.Nodup.of_map _ h)]
  constructor
  · intro hinj e he f hf hconfused
    have hef : e = f := hinj e he f hf hconfused.key_eq
    exact not_confused_self f (hef ▸ hconfused)
  · intro hnone e he f hf hkey
    rcases key_eq_iff.mp hkey with hid | hconfused | hconfused
    · exact hsame he hf hid
    · exact absurd hconfused (hnone e he f hf)
    · exact absurd hconfused (hnone f hf e he)

end Entry

namespace Effects

variable {fx : Effects} {clock : Int} {k : EffectKind} {es : List Entry} {key : Bytes}

/-- A commit begins the effects of the selected entries and leaves all other records. -/
theorem records_commit (hobj : fx.state.isObject = true) (hdry : fx.dryRun = false)
    (selected : List Entry) (vars : Variables) :
    Table.get? fx.slot (fx.commit selected vars).2
        = some (stored (fx.commit selected vars).1.state) ∧
      ∀ k, records (fx.commit selected vars).1.state k
        = selected.foldl (begun fx.clock k) (records fx.state k) := by
  have hagain : withTables (withTables fx.state) = withTables fx.state := by
    rw [withTables_eq fx.state, withTables_withRecords hobj]
  have hcommit : fx.commit selected vars
      = { fx with state := withTables fx.state }.commit selected vars := by
    unfold commit
    simp only [hagain, hdry]
    rfl
  have hobj' : (fx.state.setField (lit "format") format).isObject = true := by simpa using hobj
  rw [hcommit, commit_eq hobj (withTables_eq fx.state) (by exact hdry)]
  refine ⟨Table.get?_insert_self _ _ _, fun k => (records_withRecords hobj' k _ _).trans ?_⟩
  cases k <;> rfl

theorem get?_foldl_begun (rs : Table Json) : Table.get? key (es.foldl (begun clock k) rs)
    = (Table.get? key rs).or
      (((es.filter (·.key = key)).findSome? k.duration).map (record clock · false)) := by
  cases hget : Table.get? key rs with
  | some data => exact get?_foldl_begun_of_some hget
  | none => exact get?_foldl_begun_of_none hget

end Effects

namespace Scan

/-- A candidate that comes from one entry alone, and is all that comes from it. -/
structure OwnCandidate (su : Setup) (cs : Candidates) (e : Entry) (c : Candidate) : Prop where
  mem : c ∈ cs
  form : Form su e c.entry
  only : ∀ d ∈ cs, Form su e d.entry → d = c
  alone : ∀ f ∈ su.entries, Form su f c.entry → f = e

/-- The records under the key of an entry: a check judges them by this entry, and of those that a
scan leaves each one was there, or begins with the candidate of the entry. -/
structure OwnRecords (su : Setup) (after : Effects) (e : Entry) (c : Candidate) : Prop where
  judged : su.effects.entries.find? (·.key = e.key) = some e
  begun : ∀ k, Table.get? e.key (Effects.records after.state k)
    = (Table.get? e.key (Effects.records su.effects.state k)).or
      (if c.isSelected then
        (k.duration c.entry).map (Effects.record su.effects.clock · false)
      else none)

structure Targets (o : Json) (e : Entry) : Prop where
  object : o.isObject = true
  uid : (ForcedIndex.fieldOr? o (lit "uid") (lit "id")).isSome = true
  key : ForcedIndex.fullKey? o = some e.key

section Own

variable {su : Setup} {s t : State} {e : Entry} {c : Candidate}

theorem find?_key_of_nodup {es : List Entry} (hn : (es.map (·.key)).Nodup) (he : e ∈ es) :
    es.find? (·.key = e.key) = some e := by
  have hsome : (es.find? (·.key = e.key)).isSome = true :=
    List.find?_isSome.mpr ⟨e, he, by simp⟩
  obtain ⟨f, hf⟩ := Option.isSome_iff_exists.mp hsome
  rw [hf, List.inj_on_of_nodup_map hn (List.mem_of_find?_eq_some hf) he (Effects.key_of_find? hf)]

/-- An entry that comes up in some pass has a candidate of its own in the end. -/
theorem exists_ownCandidate (hn : (su.entries.map (·.key)).Nodup) (hs : Coherent su s)
    (ht : t ∈ trace su (passBound su) s) (hact : Activates su t e) :
    ∃ c, OwnCandidate su (ending su s).candidates e c := by
  have hmem : e.key ∈ (ending su s).candidates.keys :=
    (mem_keys_run _ _).mpr (.inr ⟨t, ht, mem_activatedKeys_iff.mpr ⟨e, hact, rfl⟩⟩)
  obtain ⟨c, hc, hkey⟩ := List.mem_map.mp hmem
  have he := (activates_iff.mp hact).1
  have hsound {d : Candidate} (hd : d ∈ (ending su s).candidates) := hs.ending.sound d hd
  obtain ⟨f, hf, hfk, hform⟩ := (hsound hc).form
  obtain rfl : f = e := List.inj_on_of_nodup_map hn hf he (hfk.trans hkey)
  refine ⟨c, hc, hform, fun d hd hd' => ?_, fun g hg hg' => ?_⟩
  · refine Candidates.eq_of_key_eq hs.ending.nodup hd hc ?_
    rw [← (hsound hd).entry_key, ← (hsound hc).entry_key, hd'.key, hform.key]
  · exact List.inj_on_of_nodup_map hn hg he (by rw [← hg'.key, hform.key])

theorem OwnCandidate.records (hn : (su.entries.map (·.key)).Nodup) (hs : Coherent su s)
    (hobj : su.effects.state.isObject = true) (hdry : su.effects.dryRun = false)
    (hentries : su.effects.entries = su.entries) (he : e ∈ su.entries)
    (h : OwnCandidate su s.candidates e c) (vars : Variables) :
    OwnRecords su
      (su.effects.commit ((s.candidates.filter (·.isSelected)).map (·.entry)) vars).1 e c := by
  refine ⟨hentries ▸ find?_key_of_nodup hn he, fun k => ?_⟩
  rw [(Effects.records_commit hobj hdry _ vars).2, Effects.get?_foldl_begun]
  congr 1
  split
  · next hsel =>
    have hmem : c.entry ∈ (s.candidates.filter (·.isSelected)).map (·.entry) :=
      List.mem_map_of_mem (List.mem_filter.mpr ⟨h.mem, hsel⟩)
    rw [← h.form.key, findSome?_of_nodup (nodup_selected_keys hs) hmem]
  · next hsel =>
    have hnone : ((s.candidates.filter (·.isSelected)).map (·.entry)).filter (·.key = e.key)
        = [] := by
      refine List.filter_eq_nil_iff.mpr fun f hf hk => hsel ?_
      obtain ⟨d, hd, rfl⟩ := List.mem_map.mp hf
      obtain ⟨hd, hdsel⟩ := List.mem_filter.mp hd
      have hcd : c = d := by
        refine Candidates.eq_of_key_eq hs.nodup h.mem hd ?_
        rw [← (hs.sound c h.mem).entry_key, ← (hs.sound d hd).entry_key, h.form.key]
        exact (of_decide_eq_true hk).symm
      rwa [hcd]
    rw [hnone]
    rfl

theorem find?_of_targets {o : Json} (h : Targets o e) (os : List Json) (f : Entry) :
    (ForcedIndex.ofJson (.arr (os ++ [o]))).find? f
      = if e.key = f.key then some o else (ForcedIndex.ofJson (.arr os)).find? f := by
  obtain ⟨hobj, huid, hkey⟩ := h
  obtain ⟨uid, huid⟩ := Option.isSome_iff_exists.mp huid
  have hlast : ForcedIndex.ofJson (.arr (os ++ [o])) = (ForcedIndex.ofJson (.arr os)).add o := by
    simp [ForcedIndex.ofJson, List.filter_append, hobj]
  rw [hlast]
  simp only [ForcedIndex.add, huid, hkey, ForcedIndex.find?, Table.get?_put]
  split <;> simp

end Own

theorem targets_pointer (e : Entry) : Targets e.pointer e := by
  refine ⟨rfl, rfl, ?_⟩
  have hcolon : Bytes.ofChar ':' ∈ e.key := by simp [Entry.key_eq, Bytes.ofChar]
  have hpoint : Bytes.ofChar '.' ∈ e.key := by
    simp [Entry.key_eq, Entry.worldKey_eq, Bytes.ofChar]
  have hnamed : ForcedIndex.fieldOr? e.pointer (lit "entry_key") (lit "key")
      = some (.str e.key) := rfl
  simp [ForcedIndex.fullKey?, hnamed, Json.toText, hcolon, hpoint]

section Evaluate

variable {sc : Scanner} {books : List Book} {o : Options} {vars : Variables} {random : Random}
  {su : Setup} {s : State}

theorem commit_of_opening (h : opening? sc books o vars random = some (su, s)) :
    su.entries = triggeredEntries books o.generation ∧ su.effects.entries = su.entries ∧
      su.effects.state.isObject = true ∧ su.effects.dryRun = false ∧
      ∃ vars', (evaluate sc books o vars random).vars
        = (su.effects.commit
            (((ending su s).candidates.filter (·.isSelected)).map (·.entry)) vars').2 := by
  obtain ⟨hb, he, effects, warnings, hs, rfl, rfl⟩ := start_of_opening h
  obtain ⟨-, hentries, hdry, hobj, -⟩ := Effects.state_of_start hs
  have hcheck := Effects.check_eq hobj hdry vars
  have hvars := congrArg (·.vars)
    (@evaluate_of_start sc books o vars random effects warnings hb he hs)
  refine ⟨rfl, ?_, ?_, ?_, _, hvars⟩
  · simp only [setup, hcheck]
    exact hentries
  · simp only [setup, hcheck, Effects.checkedState, Effects.isObject_setField,
      Effects.isObject_withRecords]
    exact hobj
  · simp only [setup, hcheck]
    exact hdry

/-- Keys are the same for entries of one identity, and for those that are confused. If the entries
of a scan have different identities and no two are confused, each one that comes up has a candidate
of its own, with records of its own, and is the only one that a record with its key is for. -/
theorem identities_kept_apart
    (hdistinct : ((triggeredEntries books o.generation).map Entry.identity).Nodup) :
    (∀ e f : Entry, e.key = f.key ↔
      e.identity = f.identity ∨ e.Confused f ∨ f.Confused e) ∧
    (((triggeredEntries books o.generation).map (·.key)).Nodup ↔
      Entry.Unconfused (triggeredEntries books o.generation)) ∧
    (Entry.Unconfused (triggeredEntries books o.generation) →
      (∀ su s, opening? sc books o vars random = some (su, s) →
        ∃ out after, (evaluate sc books o vars random).outcome = .ok out ∧
          Table.get? su.effects.slot (evaluate sc books o vars random).vars
            = some (Effects.stored after.state) ∧
          ∀ e ∈ triggeredEntries books o.generation,
            (∃ t ∈ trace su (passBound su) s, Activates su t e) →
              ∃ c, OwnCandidate su out.candidates e c ∧ OwnRecords su after e c) ∧
      ∀ e ∈ triggeredEntries books o.generation, Targets e.pointer e ∧
        ∀ rec, Targets rec e → ∀ recs : List Json,
          (ForcedIndex.ofJson (.arr (recs ++ [rec]))).find? e = some rec ∧
          ∀ f ∈ triggeredEntries books o.generation, f ≠ e →
            (ForcedIndex.ofJson (.arr (recs ++ [rec]))).find? f
              = (ForcedIndex.ofJson (.arr recs)).find? f) := by
  refine ⟨fun e f => Entry.key_eq_iff, Entry.nodup_keys_iff hdistinct, fun hnone => ?_⟩
  have hn := (Entry.nodup_keys_iff hdistinct).mpr hnone
  constructor
  · intro su s hopen
    obtain ⟨hentries, hfollowed, hobj, hdry, vars', hvars⟩ := commit_of_opening hopen
    have hstored := (Effects.records_commit hobj hdry
      (((ending su s).candidates.filter (·.isSelected)).map (·.entry)) vars').1
    rw [← hvars] at hstored
    refine ⟨_, _, evaluate_of_opening hopen, hstored, ?_⟩
    rintro e he ⟨t, ht, hact⟩
    rw [← hentries] at hn he
    have hs := coherent_of_opening hopen
    obtain ⟨c, hc⟩ := exists_ownCandidate hn hs ht hact
    exact ⟨c, hc, hc.records hn hs.ending hobj hdry hfollowed he vars'⟩
  · intro e he
    refine ⟨targets_pointer e, fun rec hrec recs => ⟨?_, fun f hf hfe => ?_⟩⟩
    · rw [find?_of_targets hrec, if_pos rfl]
    · have hkey : e.key ≠ f.key := fun hk => hfe (List.inj_on_of_nodup_map hn hf he hk.symm)
      rw [find?_of_targets hrec, if_neg hkey]

end Evaluate

theorem exists_activated (books : List Book) (o : Options)
    (hcheck : (opening? .standard books o [] (.ofList [])).any (fun p =>
      (triggeredEntries books o.generation).all fun e =>
        eligible p.1 p.2 e && (trigger? p.1 p.2 e).isSome) = true) :
    ∃ su s, opening? .standard books o [] (.ofList []) = some (su, s) ∧
      ∀ e ∈ triggeredEntries books o.generation, Activates su s e := by
  obtain ⟨⟨su, s⟩, hopen, hall⟩ := (Option.any_eq_true _ _).mp hcheck
  have hentries := (commit_of_opening hopen).1
  refine ⟨su, s, hopen, fun e he => ?_⟩
  obtain ⟨heligible, htrigger⟩ := (Bool.and_eq_true _ _).mp (List.all_eq_true.mp hall e he)
  obtain ⟨hselected, hfailed, hadmits⟩ := eligible_iff.mp heligible
  exact activates_iff.mpr
    ⟨hentries ▸ he, hselected, hfailed, hadmits, trigger?_isSome.mp htrigger⟩

theorem identities_kept_apart_trio : ∃ su s out after,
    opening? .standard [.constantTrio] { text := some (lit "x") } [] (.ofList []) = some (su, s) ∧
    (evaluate .standard [.constantTrio] { text := some (lit "x") } [] (.ofList [])).outcome
      = .ok out ∧
    ∀ e ∈ Book.constantTrio.entries,
      ∃ c, OwnCandidate su out.candidates e c ∧ OwnRecords su after e c := by
  obtain ⟨su, s, hopen, hall⟩ := exists_activated [.constantTrio] { text := some (lit "x") }
    (by decide +kernel)
  obtain ⟨-, -, happart⟩ := @identities_kept_apart .standard [.constantTrio]
    { text := some (lit "x") } [] (.ofList []) (by decide +kernel)
  have hunmarked : ∀ e ∈ Book.constantTrio.entries, 58 ∉ e.sourceName ∧ 46 ∉ e.bookTitle := by
    decide +kernel
  obtain ⟨out, after, hout, -, hown⟩ :=
    (happart (Entry.unconfused_of_unmarked hunmarked)).1 su s hopen
  exact ⟨su, s, out, after, hopen, hout, fun e he =>
    hown e he ⟨s, mem_trace_self (passBound_pos su) s, hall e he⟩⟩

end Scan

def Book.dottedPair : List Book :=
  [{ entries := [{ uid := lit "c", bookName := lit "a.b", constant := true,
                   content := lit "x" }] },
    { entries := [{ uid := lit "b.c", bookName := lit "a", constant := true,
                    content := lit "y" }] }]

namespace Scan

/-- Two entries with one key are activated, and only one candidate is made. -/
theorem not_identities_kept_apart_dotted :
    ((triggeredEntries Book.dottedPair .normal).map Entry.identity).Nodup ∧
    ∃ su s out,
      opening? .standard Book.dottedPair { text := some (lit "x") } [] (.ofList []) = some (su, s) ∧
      (evaluate .standard Book.dottedPair { text := some (lit "x") } [] (.ofList [])).outcome
        = .ok out ∧
      (∀ e ∈ triggeredEntries Book.dottedPair .normal, Activates su s e) ∧
      out.candidates.length = 1 ∧
      ¬ ∀ e ∈ triggeredEntries Book.dottedPair .normal,
        ∃ c, OwnCandidate su out.candidates e c := by
  obtain ⟨su, s, hopen, hall⟩ := exists_activated Book.dottedPair { text := some (lit "x") }
    (by decide +kernel)
  have hout := evaluate_of_opening hopen
  have hcount : (evaluate .standard Book.dottedPair { text := some (lit "x") } []
      (.ofList [])).outcome.toOption.any (·.candidates.length = 1) = true := by decide +kernel
  rw [hout, Except.toOption, Option.any_some] at hcount
  have hlength := of_decide_eq_true hcount
  refine ⟨by decide +kernel, su, s, _, hopen, hout, hall, hlength, fun hown => ?_⟩
  obtain ⟨c, hc⟩ := List.length_eq_one_iff.mp hlength
  have hfirst := hown _ List.mem_cons_self
  have hsecond := hown _ (List.mem_cons_of_mem _ List.mem_cons_self)
  rw [hc] at hfirst hsecond
  obtain ⟨d, hd⟩ := hfirst
  obtain ⟨d', hd'⟩ := hsecond
  obtain rfl := List.mem_singleton.mp hd.mem
  obtain rfl := List.mem_singleton.mp hd'.mem
  have hsame := hd.alone _ ((commit_of_opening hopen).1 ▸ List.mem_cons_of_mem _ List.mem_cons_self)
    hd'.form
  exact absurd (congrArg (·.uid) hsame) (by decide +kernel)

end Scan
end Lorebook
