import Lorebook.Scan.Candidate
import Mathlib.Data.List.Nodup

set_option autoImplicit false

/-!
Candidates by key: what is found after a change, and weights summed over all candidates.
-/

namespace Lorebook

/-- The candidate with its fate left open. -/
def Candidate.bare (c : Candidate) : Candidate := { c with fate := .undecided }

namespace Candidates

def keys (cs : Candidates) : List Bytes := cs.map (·.key)

def bare (cs : Candidates) : Candidates := cs.map Candidate.bare

def total (w : Candidate → Int) : Candidates → Int
  | [] => 0
  | c :: cs => w c + total w cs

@[simp] theorem total_nil (w : Candidate → Int) : total w [] = 0 := rfl

@[simp] theorem total_cons (w : Candidate → Int) (c : Candidate) (cs : Candidates) :
    total w (c :: cs) = w c + total w cs := rfl

@[simp] theorem total_append (w : Candidate → Int) (as bs : Candidates) :
    total w (as ++ bs) = total w as + total w bs := by
  induction as with
  | nil => simp
  | cons c as ih =>
    simp only [List.cons_append, total_cons, ih]
    omega

theorem total_filter (p : Candidate → Bool) (w : Candidate → Int) (cs : Candidates) :
    total w (cs.filter p) = total (fun c => if p c then w c else 0) cs := by
  induction cs with
  | nil => rfl
  | cons c cs ih => by_cases hp : p c <;> simp [hp, ih]

theorem total_le {v w : Candidate → Int} {cs : Candidates} (h : ∀ c ∈ cs, v c ≤ w c) :
    total v cs ≤ total w cs := by
  induction cs with
  | nil => exact Int.le_refl 0
  | cons c cs ih =>
    have hc := h c (by simp)
    have hcs := ih fun d hd => h d (by simp [hd])
    simp only [total_cons]
    omega

theorem total_zero (cs : Candidates) : total (fun _ => 0) cs = 0 := by
  induction cs with
  | nil => rfl
  | cons c cs ih => simp [ih]

theorem total_nonneg {w : Candidate → Int} {cs : Candidates} (h : ∀ c ∈ cs, 0 ≤ w c) :
    0 ≤ total w cs :=
  Int.le_trans (Int.le_of_eq (total_zero cs).symm) (total_le h)

theorem total_eq_zero_iff {w : Candidate → Int} {cs : Candidates} (h : ∀ c ∈ cs, 0 ≤ w c) :
    total w cs = 0 ↔ ∀ c ∈ cs, w c = 0 := by
  induction cs with
  | nil => simp
  | cons c cs ih =>
    have hc := h c (by simp)
    have hnonneg : ∀ d ∈ cs, 0 ≤ w d := fun d hd => h d (by simp [hd])
    have hcs := total_nonneg hnonneg
    simp only [total_cons, List.mem_cons, forall_eq_or_imp, ← ih hnonneg]
    omega

theorem total_map {w : Candidate → Int} {f : Candidate → Candidate} {cs : Candidates}
    (h : ∀ c ∈ cs, w (f c) = w c) : total w (cs.map f) = total w cs := by
  induction cs with
  | nil => rfl
  | cons c cs ih =>
    have hc := h c (by simp)
    have hcs := ih fun d hd => h d (by simp [hd])
    simp only [List.map_cons, total_cons, hc, hcs]

section Find

variable {cs : Candidates} {k : Bytes} {c : Candidate}

theorem mem_of_find? (h : cs.find? k = some c) : c ∈ cs :=
  List.mem_of_find?_eq_some h

theorem key_of_find? (h : cs.find? k = some c) : c.key = k := by
  simpa using List.find?_some h

theorem find?_eq_none_iff : cs.find? k = none ↔ k ∉ cs.keys := by
  simp only [find?, keys, List.find?_eq_none, List.mem_map, decide_eq_true_eq]
  constructor
  · rintro h ⟨c, hc, hk⟩
    exact h c hc hk
  · intro h c hc hk
    exact h ⟨c, hc, hk⟩

theorem find?_isSome_of_mem (h : c ∈ cs) : (cs.find? c.key).isSome := by
  cases hf : cs.find? c.key with
  | some _ => rfl
  | none => exact absurd (List.mem_map_of_mem h) (find?_eq_none_iff.mp hf)

theorem find?_of_mem (hn : cs.keys.Nodup) (h : c ∈ cs) : cs.find? c.key = some c := by
  obtain ⟨d, hd⟩ := Option.isSome_iff_exists.mp (find?_isSome_of_mem h)
  rw [hd, List.inj_on_of_nodup_map hn (mem_of_find? hd) h (key_of_find? hd)]

theorem eq_of_key_eq {d : Candidate} (hn : cs.keys.Nodup) (hc : c ∈ cs) (hd : d ∈ cs)
    (h : c.key = d.key) : c = d := List.inj_on_of_nodup_map hn hc hd h

theorem find?_map {f : Candidate → Candidate} (hf : ∀ c, (f c).key = c.key) (cs : Candidates)
    (k : Bytes) : find? (cs.map f) k = (cs.find? k).map f := by
  simp only [find?, List.find?_map]
  congr 2
  funext c
  simp [hf]

theorem find?_bare (cs : Candidates) (k : Bytes) :
    cs.bare.find? k = (cs.find? k).map Candidate.bare :=
  find?_map (f := Candidate.bare) (fun _ => rfl) cs k

end Find

section Update

variable {f : Candidate → Candidate}

theorem key_ite (hf : ∀ c, (f c).key = c.key) (p : Prop) [Decidable p] (c : Candidate) :
    (if p then f c else c).key = c.key := by
  split
  · exact hf c
  · rfl

theorem keys_update (hf : ∀ c, (f c).key = c.key) (cs : Candidates) (k : Bytes) :
    (cs.update k f).keys = cs.keys := by
  simp only [keys, update, List.map_map]
  exact List.map_congr_left fun c _ => key_ite hf (c.key = k) c

theorem find?_update_self (hf : ∀ c, (f c).key = c.key) (cs : Candidates) (k : Bytes) :
    (cs.update k f).find? k = (cs.find? k).map f := by
  rw [update, find?_map fun c => key_ite hf (c.key = k) c]
  cases hc : cs.find? k with
  | none => rfl
  | some c => simp [key_of_find? hc]

theorem find?_update_of_ne (hf : ∀ c, (f c).key = c.key) {k k' : Bytes} (h : k' ≠ k)
    (cs : Candidates) : (cs.update k f).find? k' = cs.find? k' := by
  rw [update, find?_map fun c => key_ite hf (c.key = k) c]
  cases hc : cs.find? k' with
  | none => rfl
  | some c => simp [key_of_find? hc, h]

/-- A member after an update is an old member of another key, or an old member changed. -/
theorem mem_update {cs : Candidates} {k : Bytes} {c : Candidate} (h : c ∈ cs.update k f) :
    (c ∈ cs ∧ c.key ≠ k) ∨ ∃ d ∈ cs, d.key = k ∧ c = f d := by
  obtain ⟨d, hd, rfl⟩ := List.mem_map.mp h
  by_cases hk : d.key = k
  · exact .inr ⟨d, hd, hk, if_pos hk⟩
  · rw [if_neg hk]
    exact .inl ⟨hd, hk⟩

theorem total_update_of_not_mem (w : Candidate → Int) {cs : Candidates} {k : Bytes}
    (h : k ∉ cs.keys) : total w (cs.update k f) = total w cs := by
  apply total_map
  intro c hc
  rw [if_neg]
  rintro rfl
  exact h (List.mem_map_of_mem hc)

theorem total_update (w : Candidate → Int) {cs : Candidates} {k : Bytes} {c : Candidate}
    (hn : cs.keys.Nodup) (hc : cs.find? k = some c) :
    total w (cs.update k f) = total w cs - w c + w (f c) := by
  induction cs with
  | nil => cases hc
  | cons d cs ih =>
    simp only [keys, List.map_cons, List.nodup_cons] at hn
    have hu : update (d :: cs) k f = (if d.key = k then f d else d) :: update cs k f := rfl
    by_cases hk : d.key = k
    · have hd : d = c := by simpa [find?, hk] using hc
      subst hd
      have hfree : k ∉ keys cs := hk ▸ hn.1
      have hrest := total_update_of_not_mem (f := f) w hfree
      rw [hu, if_pos hk]
      simp only [total_cons]
      omega
    · have hf : Candidates.find? cs k = some c := by simpa [find?, hk] using hc
      have hrest := ih hn.2 hf
      rw [hu, if_neg hk]
      simp only [total_cons]
      omega

end Update

section SetFate

variable (cs : Candidates) (k : Bytes) (fate : Fate)

@[simp] theorem bare_setFate : (cs.setFate k fate).bare = cs.bare := by
  simp only [bare, setFate, update, List.map_map]
  apply List.map_congr_left
  intro c _
  simp only [Function.comp]
  split <;> rfl

theorem find?_setFate_self :
    (cs.setFate k fate).find? k = (cs.find? k).map fun c => { c with fate } :=
  find?_update_self (f := fun c => { c with fate }) (fun _ => rfl) cs k

theorem find?_setFate_of_ne {k' : Bytes} (h : k' ≠ k) :
    (cs.setFate k fate).find? k' = cs.find? k' :=
  find?_update_of_ne (f := fun c => { c with fate }) (fun _ => rfl) h cs

theorem not_selected_of_dropped {c : Candidate} {r : DropReason}
    (h : (cs.setFate k (.dropped r)).find? k = some c) : c.isSelected = false := by
  rw [find?_setFate_self] at h
  obtain ⟨d, _, rfl⟩ := Option.map_eq_some_iff.mp h
  simp [Candidate.isSelected]

end SetFate

theorem length_le_one {cs : Candidates} (hn : cs.keys.Nodup)
    (h : ∀ c ∈ cs, ∀ d ∈ cs, c.key = d.key) : cs.length ≤ 1 := by
  match cs, hn, h with
  | [], _, _ => exact Nat.zero_le 1
  | [_], _, _ => exact Nat.le_refl 1
  | c :: d :: _, hn, h =>
    have hcd := h c (by simp) d (by simp)
    simp [keys, hcd] at hn

end Candidates
end Lorebook
