import Lorebook.Proofs.Saved

set_option autoImplicit false

/-!
What a check and a commit make of the records of one key.
-/

namespace Lorebook.Effects

section Judge

variable {clock : Int} {entries es : List Entry} {k : EffectKind} {rs s c : Table Json}
  {key : Bytes} {data : Json} {e : Entry} {n : Int} {p : Bytes → Prop}

theorem staying_eq (rs : Table Json) : staying clock entries k rs
    = rs.filter fun r => (judge clock entries k r.1 r.2).keeps := by
  induction rs with
  | nil => rfl
  | cons r rs ih =>
    have hcons : staying clock entries k (r :: rs)
        = if (judge clock entries k r.1 r.2).keeps = true then r :: staying clock entries k rs
          else staying clock entries k rs := by
      simp only [staying, kept, verdicts, List.map_cons, List.filterMap_cons]
      by_cases hk : (judge clock entries k r.1 r.2).keeps = true <;> simp [hk]
    rw [hcons, List.filter_cons, ih]

theorem get?_staying (h : Table.Ordered rs) (key : Bytes) :
    Table.get? key (staying clock entries k rs)
      = (Table.get? key rs).filter fun data => (judge clock entries k key data).keeps := by
  rw [staying_eq, h.get?_filter]

theorem mem_running (h : Table.Ordered rs) : key ∈ running clock entries k rs ↔
    ∃ data, Table.get? key rs = some data ∧ judge clock entries k key data = .active := by
  simp only [running, activeKeys, verdicts, List.mem_filterMap, List.mem_map]
  constructor
  · rintro ⟨_, ⟨⟨key', data⟩, hr, rfl⟩, hkey⟩
    obtain ⟨hactive, hkey⟩ := Option.ite_none_right_eq_some.mp hkey
    cases hkey
    exact ⟨data, h.get?_of_mem hr, hactive⟩
  · intro ⟨data, hget, hactive⟩
    exact ⟨_, ⟨(key, data), Table.mem_row_of_get? hget, rfl⟩, if_pos hactive⟩

theorem find?_of_ended (h : judge clock entries k key data = .ended e) :
    entries.find? (·.key = key) = some e := by
  unfold judge at h
  dsimp only at h
  split at h
  · cases h
  split at h
  · cases h
  split at h
  · split at h <;> cases h
  · next e' hfind =>
    split at h
    · cases h
    split at h
    · cases h
      exact hfind
    · cases h

theorem key_of_find? (h : entries.find? (·.key = key) = some e) : e.key = key := by
  simpa using List.find?_some h

theorem mem_overdue (h : Table.Ordered rs) : e ∈ overdue clock entries k rs ↔
    ∃ data, Table.get? e.key rs = some data ∧ judge clock entries k e.key data = .ended e := by
  simp only [overdue, verdicts, List.mem_filterMap, List.mem_map]
  constructor
  · rintro ⟨_, ⟨⟨key, data⟩, hr, rfl⟩, hended⟩
    have hended : judge clock entries k key data = .ended e := by
      revert hended
      cases judge clock entries k key data <;> simp [Verdict.endedEntry?]
    cases key_of_find? (find?_of_ended hended)
    exact ⟨data, h.get?_of_mem hr, hended⟩
  · intro ⟨data, hget, hended⟩
    exact ⟨_, ⟨(e.key, data), Table.mem_row_of_get? hget, rfl⟩, congrArg Verdict.endedEntry? hended⟩

theorem find?_of_mem_overdue (h : e ∈ overdue clock entries k rs) (hr : Table.Ordered rs) :
    entries.find? (·.key = e.key) = some e := by
  obtain ⟨data, _, hended⟩ := (mem_overdue hr).mp h
  exact find?_of_ended hended

theorem get?_cooled (key : Bytes) (rs : Table Json) (e : Entry) :
    Table.get? key (cooled clock rs e)
      = if e.key = key then (e.cooldown.map (record clock · true)).or (Table.get? key rs)
        else Table.get? key rs := by
  unfold cooled
  cases e.cooldown with
  | none => simp
  | some n =>
    rw [Table.get?_insert]
    rfl

theorem get?_foldl_cooled_of_ne (h : ∀ e ∈ es, e.key = key → e.cooldown = none)
    (rs : Table Json) : Table.get? key (es.foldl (cooled clock) rs) = Table.get? key rs := by
  induction es generalizing rs with
  | nil => rfl
  | cons e es ih =>
    obtain ⟨he, hes⟩ := List.forall_mem_cons.mp h
    rw [List.foldl_cons, ih hes, get?_cooled]
    split
    · next hk => rw [he hk]; rfl
    · rfl

theorem get?_foldl_cooled_of_mem (he : e ∈ es) (honly : ∀ e' ∈ es, e'.key = e.key → e' = e)
    (hn : e.cooldown = some n) (rs : Table Json) :
    Table.get? e.key (es.foldl (cooled clock) rs) = some (record clock n true) := by
  -- Once the record is there, no other entry of the list takes its place.
  have hdone (es : List Entry) (rs : Table Json) (honly : ∀ e' ∈ es, e'.key = e.key → e' = e)
      (hrs : Table.get? e.key rs = some (record clock n true)) :
      Table.get? e.key (es.foldl (cooled clock) rs) = some (record clock n true) := by
    refine List.foldlRecOn (motive := fun rs => Table.get? e.key rs = some (record clock n true))
      es (cooled clock) hrs fun rs hrs e' he' => ?_
    rw [get?_cooled]
    split
    · next hk =>
      rw [honly e' he' hk, hn]
      rfl
    · exact hrs
  induction es generalizing rs with
  | nil => cases he
  | cons e' es ih =>
    obtain ⟨hhead, htail⟩ := List.forall_mem_cons.mp honly
    rw [List.foldl_cons]
    by_cases hk : e'.key = e.key
    · refine hdone es _ htail ?_
      rw [get?_cooled, if_pos hk, hhead hk, hn]
      rfl
    · have hne : e ≠ e' := fun heq => hk (heq ▸ rfl)
      exact ih ((List.mem_cons.mp he).resolve_left hne) htail _

theorem get?_handed_of_mem (hs : Table.Ordered s) (he : e ∈ overdue clock entries .sticky s)
    (hn : e.cooldown = some n) (c : Table Json) :
    Table.get? e.key (handed clock entries s c) = some (record clock n true) := by
  refine get?_foldl_cooled_of_mem he (fun e' he' hk => ?_) hn c
  have hfind := find?_of_mem_overdue he hs
  rw [← hk, find?_of_mem_overdue he' hs] at hfind
  exact Option.some.inj hfind

theorem get?_handed_of_not
    (h : ∀ e ∈ overdue clock entries .sticky s, e.key = key → e.cooldown = none) (c : Table Json) :
    Table.get? key (handed clock entries s c) = Table.get? key c := get?_foldl_cooled_of_ne h c

theorem ordered_handed (hc : Table.Ordered c) : Table.Ordered (handed clock entries s c) := by
  refine List.foldlRecOn (motive := Table.Ordered) _ _ hc fun c hc e _ => ?_
  unfold cooled
  split
  · exact hc
  · exact hc.insert _ _

theorem get?_begun (key : Bytes) (rs : Table Json) (e : Entry) :
    Table.get? key (begun clock k rs e)
      = (Table.get? key rs).or
        (if e.key = key then (k.duration e).map (record clock · false) else none) := by
  unfold begun
  cases k.duration e with
  | none => simp
  | some n =>
    dsimp only
    rw [Table.contains_eq]
    by_cases hk : e.key = key
    · subst hk
      cases hget : Table.get? e.key rs <;> simp [hget]
    · split <;> simp [hk, Table.get?_insert]

theorem get?_foldl_begun_of_some (h : Table.get? key rs = some data) :
    Table.get? key (es.foldl (begun clock k) rs) = some data :=
  List.foldlRecOn (motive := fun rs => Table.get? key rs = some data) es _ h fun rs hrs e _ => by
    rw [get?_begun, hrs]
    rfl

theorem get?_foldl_begun_of_none (h : Table.get? key rs = none) :
    Table.get? key (es.foldl (begun clock k) rs)
      = ((es.filter (·.key = key)).findSome? k.duration).map (record clock · false) := by
  induction es generalizing rs with
  | nil => exact h
  | cons e es ih =>
    rw [List.foldl_cons]
    by_cases hk : e.key = key
    · rw [List.filter_cons_of_pos (by simpa using hk), List.findSome?_cons]
      cases hd : k.duration e with
      | none =>
        refine ih ?_
        rw [get?_begun, h, if_pos hk, hd]
        rfl
      | some n =>
        refine get?_foldl_begun_of_some ?_
        rw [get?_begun, h, if_pos hk, hd]
        rfl
    · rw [List.filter_cons_of_neg (by simpa using hk)]
      refine ih ?_
      rw [get?_begun, h, if_neg hk]
      rfl

end Judge

section Record

variable {clock t n : Int} {entries : List Entry} {k : EffectKind} {key : Bytes} {e : Entry}
  {guarded : Bool}

theorem recordInt_start (lo : Bounded.min ≤ t) (hi : t ≤ Bounded.max) (n : Int) (guarded : Bool) :
    recordInt (record t n guarded) (lit "start") = t := Bounded.clamp_of_mem lo hi

theorem recordInt_end (t n : Int) (guarded : Bool) :
    recordInt (record t n guarded) (lit "end") = Bounded.add t n :=
  Bounded.clamp_of_mem (Bounded.min_le_clamp _) (Bounded.clamp_le_max _)

theorem isProtected_record (t n : Int) (guarded : Bool) :
    isProtected (record t n guarded) = guarded := rfl

/-- A record that begins now is not there for the check of the same clock. -/
theorem judge_record_now (lo : Bounded.min ≤ clock) (hi : clock ≤ Bounded.max) (n : Int) :
    judge clock entries k key (record clock n false) = .dropped := by
  unfold judge
  rw [if_neg (by simp [record, Json.object, Json.isObject]), recordInt_start lo hi,
    isProtected_record, if_pos ⟨Int.le_refl _, rfl⟩]

theorem judge_record (lo : Bounded.min ≤ t) (hi : t ≤ Bounded.max)
    (hfind : entries.find? (·.key = key) = some e) (hd : (k.duration e).isSome = true)
    (hcounts : clock ≤ t → guarded = true) :
    judge clock entries k key (record t n guarded)
      = if Bounded.add t n ≤ clock then .ended e else .active := by
  have hcounts : ¬(clock ≤ t ∧ guarded = false) := fun ⟨hle, hg⟩ => by
    rw [hcounts hle] at hg
    cases hg
  unfold judge
  rw [if_neg (by simp [record, Json.object, Json.isObject]), recordInt_start lo hi,
    isProtected_record, recordInt_end, if_neg hcounts]
  dsimp only
  rw [hfind]
  dsimp only
  rw [if_neg (by simpa [Option.isSome_iff_ne_none] using hd)]
  simp only [decide_eq_true_eq]

end Record

namespace Kept

variable {p : Bytes → Prop} {rs s c : Table Json} {clock : Int} {entries es : List Entry}

theorem staying (h : Kept p rs) (k : EffectKind) : Kept p (staying clock entries k rs) := by
  rw [staying_eq]
  exact h.sublist List.filter_sublist

theorem handed (lo : Bounded.min ≤ clock) (hi : clock ≤ Bounded.max) (hs : Kept p s)
    (hc : Kept p c) : Kept p (handed clock entries s c) := by
  refine List.foldlRecOn (motive := Kept p) _ _ hc fun c hc e he => ?_
  unfold cooled
  split
  · exact hc
  · obtain ⟨data, hget, _⟩ := (mem_overdue hs.ordered).mp he
    exact hc.insert (hs.keys _ (Table.mem_row_of_get? hget)) (legible_record lo hi _ _)

theorem begun (lo : Bounded.min ≤ clock) (hi : clock ≤ Bounded.max) (h : Kept p rs)
    (hes : ∀ e ∈ es, p e.key) (k : EffectKind) : Kept p (es.foldl (begun clock k) rs) := by
  refine List.foldlRecOn (motive := Kept p) _ _ h fun rs hrs e he => ?_
  unfold Effects.begun
  split
  · exact hrs
  split
  · exact hrs
  · exact hrs.insert (hes e he) (legible_record lo hi _ _)

theorem renewed (lo : Bounded.min ≤ clock) (hi : clock ≤ Bounded.max) (h : Kept p rs)
    (hes : ∀ e ∈ es, p e.key) (k : EffectKind) : Kept p (renewed clock entries k es rs) :=
  (h.staying k).begun lo hi hes k

end Kept

def Own (key k : Bytes) : Prop := Utf8.repair k = key → k = key

section OneKey

variable {clock : Int} {entries selected : List Entry} {k : EffectKind} {rs s c : Table Json}
  {e : Entry} {key : Bytes} {n : Int}

theorem own_of_valid (h : Utf8.isValid key = true) (key' : Bytes) : Own key' key := by
  intro hk
  rwa [Utf8.repair_of_valid h] at hk

theorem get?_reloaded (h : Kept (Own key) rs) (hkey : Utf8.isValid key = true) :
    Table.get? key (reloaded rs) = Table.get? key rs := by
  have hrow {r : Bytes × Json} (hr : r ∈ rs.map fun r => (Utf8.repair r.1, r.2))
      (hk : r.1 = key) : Table.get? key rs = some r.2 := by
    obtain ⟨r', hr', rfl⟩ := List.mem_map.mp hr
    have hk' : r'.1 = key := h.keys r' hr' hk
    exact h.ordered.get?_of_mem (by rw [← hk']; exact hr')
  cases hget : Table.get? key rs with
  | some v =>
    refine Table.get?_ofRows ?_ fun r hr hk => ?_
    · refine List.mem_map.mpr ⟨(key, v), Table.mem_row_of_get? hget, ?_⟩
      rw [Utf8.repair_of_valid hkey]
    · rw [hrow hr hk] at hget
      exact Option.some.inj hget
  | none =>
    cases hback : Table.get? key (reloaded rs) with
    | none => rfl
    | some v =>
      have hmem := Table.mem_of_mem_ofRows (Table.mem_row_of_get? hback)
      rw [hrow hmem rfl] at hget
      cases hget

theorem get?_renewed (h : Table.Ordered rs) (honly : ∀ f ∈ selected, f.key = e.key → f = e)
    (hd : k.duration e = some n) :
    Table.get? e.key (renewed clock entries k selected rs)
      = ((Table.get? e.key rs).filter fun data => (judge clock entries k e.key data).keeps).or
        (if e ∈ selected then some (record clock n false) else none) := by
  rw [renewed]
  cases hstay : Table.get? e.key (staying clock entries k rs) with
  | some data =>
    rw [get?_foldl_begun_of_some hstay, ← get?_staying h, hstay]
    rfl
  | none =>
    rw [get?_foldl_begun_of_none hstay, ← get?_staying h, hstay, Option.none_or]
    cases hf : selected.filter (·.key = e.key) with
    | nil =>
      have he : e ∉ selected := fun he => by
        have hmem : e ∈ selected.filter (·.key = e.key) := List.mem_filter.mpr ⟨he, by simp⟩
        rw [hf] at hmem
        cases hmem
      rw [if_neg he]
      rfl
    | cons f fs =>
      have hmem : f ∈ selected.filter (·.key = e.key) := hf ▸ List.mem_cons_self
      obtain ⟨hsel, hk⟩ := List.mem_filter.mp hmem
      -- The first selected entry with the key decides, and that is the entry itself.
      have hfe : f = e := honly f hsel (by simpa using hk)
      rw [hfe] at hsel ⊢
      rw [List.findSome?_cons, hd, if_pos hsel]
      rfl

theorem any_active (h : Table.Ordered rs) (key : Bytes) :
    (Table.get? key rs).any (judge clock entries k key · = .active)
      = decide (key ∈ running clock entries k rs) := by
  rw [Bool.eq_iff_iff, decide_eq_true_eq, mem_running h, Option.any_eq_true]
  simp only [decide_eq_true_eq]

theorem any_ended (h : Table.Ordered rs) :
    (Table.get? e.key rs).any (judge clock entries k e.key · = .ended e)
      = decide (e ∈ overdue clock entries k rs) := by
  rw [Bool.eq_iff_iff, decide_eq_true_eq, mem_overdue h, Option.any_eq_true]
  simp only [decide_eq_true_eq]

theorem eq_of_overdue (hs : Table.Ordered s) (he : e ∈ entries)
    (hn : (entries.map (·.key)).Nodup) {f : Entry} (hf : f ∈ overdue clock entries k s)
    (hk : f.key = e.key) : f = e :=
  List.inj_on_of_nodup_map hn (List.mem_of_find?_eq_some (find?_of_mem_overdue hf hs)) he hk

theorem get?_handed (hs : Table.Ordered s) (he : e ∈ entries) (hn : (entries.map (·.key)).Nodup)
    (hd : e.cooldown = some n) (c : Table Json) :
    Table.get? e.key (handed clock entries s c)
      = if (Table.get? e.key s).any (judge clock entries .sticky e.key · = .ended e) then
          some (record clock n true)
        else Table.get? e.key c := by
  rw [any_ended hs]
  split
  · next h => exact get?_handed_of_mem hs (of_decide_eq_true h) hd c
  · next h =>
    refine get?_handed_of_not (fun f hf hk => ?_) c
    exact absurd (decide_eq_true (eq_of_overdue hs he hn hf hk ▸ hf)) h

end OneKey

end Lorebook.Effects
