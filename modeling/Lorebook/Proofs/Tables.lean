import Lorebook.Table
import Mathlib.Data.List.Nodup

set_option autoImplicit false

/-!
Tables by what is found under each key. Setting values for different keys can be done in any order,
and a table in key order is known once it is known what every key finds.
-/

namespace Lorebook.Table

variable {β : Type} {k k' : Bytes} {v w : β} {t u : Table β}

theorem get?_insert (k k' : Bytes) (v : β) (t : Table β) :
    get? k (insert k' v t) = if k' = k then some v else get? k t := by
  split
  · next h => rw [h, get?_insert_self]
  · next h => exact get?_insert_of_ne h v t

theorem get?_put (k k' : Bytes) (v : β) (t : Table β) :
    get? k (put k' v t) = if k' = k then some v else get? k t := by
  induction t with
  | nil => simp [put, get?]
  | cons r t ih =>
    obtain ⟨k₀, v₀⟩ := r
    by_cases h₀ : k₀ = k'
    · subst h₀
      by_cases hk : k₀ = k <;> simp [put, get?, hk]
    · simp only [put, if_neg h₀, get?, ih]
      by_cases hk : k₀ = k
      · subst hk
        simp [Ne.symm h₀]
      · simp [hk]

theorem keys_put (k : Bytes) (v : β) (t : Table β) :
    keys (put k v t) = if k ∈ keys t then keys t else keys t ++ [k] := by
  induction t with
  | nil => rfl
  | cons r t ih =>
    obtain ⟨k₀, v₀⟩ := r
    by_cases h : k₀ = k
    · simp [put, keys, h]
    · have hne : k ≠ k₀ := fun hk => h hk.symm
      have hkeys : keys (put k v ((k₀, v₀) :: t)) = k₀ :: keys (put k v t) := by
        rw [put, if_neg h]
        rfl
      have hmem : k ∈ keys ((k₀, v₀) :: t) ↔ k ∈ keys t := by simp [keys, hne]
      rw [hkeys, ih, if_congr hmem rfl rfl]
      split <;> rfl

@[simp] theorem insert_insert_self (k : Bytes) (v w : β) (t : Table β) :
    insert k v (insert k w t) = insert k v t := by
  induction t with
  | nil => simp [insert]
  | cons r t ih =>
    obtain ⟨k₀, v₀⟩ := r
    by_cases hlt : k < k₀
    · simp [insert, hlt]
    · by_cases heq : k = k₀
      · simp [insert, heq, List.lt_irrefl]
      · simp [insert, hlt, heq, ih]

theorem insert_comm (h : k ≠ k') (v w : β) (t : Table β) :
    insert k v (insert k' w t) = insert k' w (insert k v t) := by
  have hsplit : k < k' ∨ k' < k := by
    rcases Std.le_total (a := k) (b := k') with hle | hle
    · exact .inl (Std.lt_of_le_of_ne hle h)
    · exact .inr (Std.lt_of_le_of_ne hle h.symm)
  induction t with
  | nil =>
    rcases hsplit with hlt | hlt
    · simp [insert, hlt, List.lt_asymm hlt, h.symm]
    · simp [insert, hlt, List.lt_asymm hlt, h]
  | cons r t ih =>
    obtain ⟨k₀, v₀⟩ := r
    by_cases h₁ : k < k₀ <;> by_cases h₂ : k' < k₀
    · rcases hsplit with hlt | hlt
      · simp [insert, h₁, h₂, hlt, List.lt_asymm hlt, h.symm]
      · simp [insert, h₁, h₂, hlt, List.lt_asymm hlt, h]
    · have hlt : k < k' := Std.lt_of_lt_of_le h₁ (Std.not_lt.mp h₂)
      by_cases heq : k' = k₀
      · subst heq
        simp [insert, hlt, h.symm, List.lt_irrefl, List.lt_asymm hlt]
      · simp [insert, h₁, h₂, heq, h.symm, List.lt_asymm hlt]
    · have hlt : k' < k := Std.lt_of_lt_of_le h₂ (Std.not_lt.mp h₁)
      by_cases heq : k = k₀
      · subst heq
        simp [insert, hlt, h, List.lt_irrefl, List.lt_asymm hlt]
      · simp [insert, h₁, h₂, heq, h, List.lt_asymm hlt]
    · by_cases h₃ : k = k₀
      · subst h₃
        simp [insert, h₂, h.symm, List.lt_irrefl]
      · by_cases h₄ : k' = k₀
        · subst h₄
          simp [insert, h₁, h₃, List.lt_irrefl]
        · simp [insert, h₁, h₂, h₃, h₄, ih]

theorem contains_eq (k : Bytes) (t : Table β) : contains k t = (get? k t).isSome := by
  induction t with
  | nil => rfl
  | cons r t ih =>
    obtain ⟨k₀, v₀⟩ := r
    by_cases h : k₀ = k
    · simp [contains, get?, h]
    · rw [get?, if_neg h, ← ih]
      simp [contains, h]

theorem get?_eq_none_iff : get? k t = none ↔ k ∉ keys t := by
  induction t with
  | nil => simp [get?, keys]
  | cons r t ih =>
    obtain ⟨k₀, v₀⟩ := r
    by_cases h : k₀ = k
    · simp [get?, keys, h]
    · simp only [get?, if_neg h, ih, keys, List.map_cons, List.mem_cons, not_or]
      exact ⟨fun hm => ⟨Ne.symm h, hm⟩, fun hm => hm.2⟩

theorem isSome_get?_iff : (get? k t).isSome = true ↔ k ∈ keys t := by
  rw [← not_iff_not, ← get?_eq_none_iff]
  simp

theorem mem_row_of_get? (h : get? k t = some v) : (k, v) ∈ t := by
  induction t with
  | nil => cases h
  | cons r t ih =>
    obtain ⟨k₀, v₀⟩ := r
    simp only [get?] at h
    split at h
    · next heq =>
      cases h
      rw [heq]
      exact List.mem_cons_self
    · exact List.mem_cons_of_mem _ (ih h)

theorem get?_of_mem_of_nodup (hn : (keys t).Nodup) (hr : (k, v) ∈ t) : get? k t = some v := by
  induction t with
  | nil => cases hr
  | cons r t ih =>
    obtain ⟨k₀, v₀⟩ := r
    obtain ⟨hhead, htail⟩ := List.nodup_cons.mp hn
    rcases List.mem_cons.mp hr with heq | hr
    · cases heq
      simp [get?]
    · have hk : k ∈ keys t := List.mem_map_of_mem hr
      have hne : k₀ ≠ k := fun heq => hhead (heq ▸ hk)
      rw [get?, if_neg hne, ih htail hr]

theorem eq_or_mem_of_mem_insert {r : Bytes × β} (h : r ∈ insert k v t) : r = (k, v) ∨ r ∈ t := by
  induction t with
  | nil => exact .inl (List.mem_singleton.mp h)
  | cons r₀ t ih =>
    rw [insert] at h
    split at h
    · exact List.mem_cons.mp h
    split at h
    · exact (List.mem_cons.mp h).imp_right (List.mem_cons_of_mem _)
    · rcases List.mem_cons.mp h with rfl | h
      · exact .inr List.mem_cons_self
      · exact (ih h).imp_right (List.mem_cons_of_mem _)

theorem eq_or_mem_of_mem_put {r : Bytes × β} (h : r ∈ put k v t) : r = (k, v) ∨ r ∈ t := by
  induction t with
  | nil => exact .inl (List.mem_singleton.mp h)
  | cons r₀ t ih =>
    rw [put] at h
    split at h
    · exact (List.mem_cons.mp h).imp_right (List.mem_cons_of_mem _)
    · rcases List.mem_cons.mp h with rfl | h
      · exact .inr List.mem_cons_self
      · exact (ih h).imp_right (List.mem_cons_of_mem _)

theorem map_insert {γ : Type} (f : β → γ) (k : Bytes) (v : β) (t : Table β) :
    (insert k v t).map (fun r => (r.1, f r.2)) = insert k (f v) (t.map fun r => (r.1, f r.2)) := by
  induction t with
  | nil => rfl
  | cons r t ih =>
    obtain ⟨k₀, v₀⟩ := r
    rw [List.map_cons, insert, insert]
    split
    · rfl
    split
    · rfl
    · rw [List.map_cons, ih]

theorem get?_ofRows_isSome (rows : List (Bytes × β)) :
    (get? k (ofRows rows)).isSome = true ↔ ∃ v, (k, v) ∈ rows := by
  have hfold (rows : List (Bytes × β)) (done : Table β) :
      (get? k (rows.foldl (fun t r => insert r.1 r.2 t) done)).isSome = true ↔
        (get? k done).isSome = true ∨ ∃ v, (k, v) ∈ rows := by
    induction rows generalizing done with
    | nil => simp
    | cons r rows ih =>
      obtain ⟨k', v'⟩ := r
      rw [List.foldl_cons, ih, get?_insert]
      by_cases h : k' = k
      · simp only [h, if_true, Option.isSome_some, true_or, true_iff]
        exact .inr ⟨v', List.mem_cons_self⟩
      · simp [h, Ne.symm h]
  rw [ofRows, hfold]
  simp [get?]

theorem mem_of_mem_ofRows {rows : List (Bytes × β)} {r : Bytes × β} (h : r ∈ ofRows rows) :
    r ∈ rows := by
  have hall (rows done : List (Bytes × β)) {r : Bytes × β}
      (h : r ∈ rows.foldl (fun t r => insert r.1 r.2 t) done) : r ∈ done ∨ r ∈ rows := by
    induction rows generalizing done with
    | nil => exact .inl h
    | cons row rows ih =>
      rcases ih _ h with hr | hr
      · rcases eq_or_mem_of_mem_insert hr with rfl | hr
        · exact .inr List.mem_cons_self
        · exact .inl hr
      · exact .inr (List.mem_cons_of_mem _ hr)
  exact (hall rows [] h).resolve_left nofun

theorem get?_ofRows_eq (k : Bytes) (rows : List (Bytes × β)) :
    get? k (ofRows rows) = get? k rows.reverse := by
  rw [ofRows, List.foldl_eq_foldr_reverse]
  induction rows.reverse with
  | nil => rfl
  | cons r rows ih =>
    rw [List.foldr_cons, get?_insert, ih]
    rfl

def Ordered (t : Table β) : Prop := (keys t).Pairwise (· < ·)

namespace Ordered

theorem nil : Ordered ([] : Table β) := List.Pairwise.nil

theorem nodup (h : Ordered t) : (keys t).Nodup := by
  refine List.Pairwise.imp ?_ h
  rintro a b hlt rfl
  exact List.lt_irrefl a hlt

theorem sublist (h : Ordered t) (hs : u.Sublist t) : Ordered u :=
  List.Pairwise.sublist (hs.map Prod.fst) h

theorem insert (h : Ordered t) (k : Bytes) (v : β) : Ordered (insert k v t) := by
  induction t with
  | nil => simp [Table.insert, Ordered, keys]
  | cons r t ih =>
    obtain ⟨k₀, v₀⟩ := r
    obtain ⟨hhead, htail⟩ := List.pairwise_cons.mp h
    simp only [Table.insert]
    split
    · next hlt =>
      refine List.pairwise_cons.mpr ⟨fun x hx => ?_, h⟩
      rcases List.mem_cons.mp hx with rfl | hx
      · exact hlt
      · exact Std.lt_trans hlt (hhead x hx)
    · next hlt =>
      split
      · next heq =>
        subst heq
        exact List.pairwise_cons.mpr ⟨hhead, htail⟩
      · next hne =>
        refine List.pairwise_cons.mpr ⟨fun x hx => ?_, ih htail⟩
        have hk₀ : k₀ < k := Std.lt_of_le_of_ne (Std.not_lt.mp hlt) (Ne.symm hne)
        by_cases hxk : x = k
        · exact hxk ▸ hk₀
        · refine hhead x ?_
          by_contra hx'
          have hnone : get? x (Table.insert k v t) = none := by
            rw [get?_insert_of_ne (Ne.symm hxk), get?_eq_none_iff]
            exact hx'
          exact get?_eq_none_iff.mp hnone hx

theorem ofRows (rows : List (Bytes × β)) : Ordered (ofRows rows) :=
  List.foldlRecOn rows _ nil fun _ h r _ => h.insert r.1 r.2

theorem get?_of_mem (h : Ordered t) (hr : (k, v) ∈ t) : get? k t = some v :=
  get?_of_mem_of_nodup h.nodup hr

theorem ext (h : Ordered t) (h' : Ordered u) (hget : ∀ k, get? k t = get? k u) : t = u := by
  have hnodup {t : Table β} (h : Ordered t) : t.Nodup := List.Nodup.of_map Prod.fst h.nodup
  have hperm : t.Perm u := by
    refine (List.perm_ext_iff_of_nodup (hnodup h) (hnodup h')).mpr ?_
    rintro ⟨k, v⟩
    constructor
    · intro hr
      exact mem_row_of_get? ((hget k).symm.trans (h.get?_of_mem hr))
    · intro hr
      exact mem_row_of_get? ((hget k).trans (h'.get?_of_mem hr))
  refine List.Perm.eq_of_pairwise ?_ (List.pairwise_map.mp h) (List.pairwise_map.mp h') hperm
  intro a b _ _ hab hba
  exact absurd hba (List.lt_asymm hab)

theorem get?_filter (h : Ordered t) (k : Bytes) (p : Bytes × β → Bool) :
    get? k (t.filter p) = (get? k t).filter fun v => p (k, v) := by
  have hfilter : Ordered (t.filter p) := h.sublist List.filter_sublist
  cases hget : get? k (t.filter p) with
  | some v =>
    obtain ⟨hmem, hp⟩ := List.mem_filter.mp (mem_row_of_get? hget)
    rw [h.get?_of_mem hmem, Option.filter_some, if_pos hp]
  | none =>
    cases ht : get? k t with
    | none => rfl
    | some v =>
      have hp : p (k, v) = false := by
        by_contra hp
        have hmem := List.mem_filter.mpr ⟨mem_row_of_get? ht, by simpa using hp⟩
        rw [hfilter.get?_of_mem hmem] at hget
        cases hget
      rw [Option.filter_some, hp]
      rfl

theorem ofRows_eq (h : Ordered t) : Table.ofRows t = t := by
  have hfold (rows done : Table β) (h : Ordered (done ++ rows)) :
      rows.foldl (fun t r => Table.insert r.1 r.2 t) done = done ++ rows := by
    induction rows generalizing done with
    | nil => simp
    | cons r rows ih =>
      have hlast : Table.insert r.1 r.2 done = done ++ [r] := by
        have hbefore : ∀ x ∈ done, x.1 < r.1 := by
          intro x hx
          have hpair := List.pairwise_append.mp (List.pairwise_map.mp h)
          exact hpair.2.2 x hx r List.mem_cons_self
        clear ih h
        induction done with
        | nil => rfl
        | cons y done ihd =>
          have hy := hbefore y List.mem_cons_self
          have hne : r.1 ≠ y.1 := fun heq => List.lt_irrefl y.1 (heq ▸ hy)
          rw [Table.insert, if_neg (List.lt_asymm hy), if_neg hne,
            ihd fun x hx => hbefore x (List.mem_cons_of_mem _ hx)]
          rfl
      rw [List.foldl_cons, hlast, ih (done ++ [r]) (by simpa using h)]
      simp
  exact hfold t [] h

end Ordered

theorem get?_ofRows {rows : List (Bytes × β)} (hr : (k, v) ∈ rows)
    (honly : ∀ r ∈ rows, r.1 = k → r.2 = v) : get? k (ofRows rows) = some v := by
  obtain ⟨w, hw⟩ := Option.isSome_iff_exists.mp ((get?_ofRows_isSome rows).mpr ⟨v, hr⟩)
  rw [hw, ← honly (k, w) (mem_of_mem_ofRows (mem_row_of_get? hw)) rfl]

/-- Rows that agree wherever they share a key may be set in any order. -/
theorem ofRows_perm {rows rows' : List (Bytes × β)} (hp : rows.Perm rows')
    (hagree : ∀ r ∈ rows, ∀ r' ∈ rows, r.1 = r'.1 → r.2 = r'.2) : ofRows rows = ofRows rows' := by
  refine hp.foldl_eq' (fun r hr r' hr' t => ?_) []
  by_cases hk : r.1 = r'.1
  · rw [hk, hagree r hr r' hr' hk]
  · exact insert_comm (Ne.symm hk) _ _ t

end Lorebook.Table
