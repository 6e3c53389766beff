import Lorebook.Proofs.NumberText
import Lorebook.Proofs.Strings
import Lorebook.Proofs.Tables

set_option autoImplicit false

/-!
A JSON value is read back from its text, but for the order of fields: readers put them in key order
and let the last one of a key count.
-/

namespace Lorebook.Json

mutual

/-- Integers have 64 bits, doubles are finite and texts are UTF-8. -/
def Writable : Json → Prop
  | .null | .bool _ => True
  | .int n => InRange n
  | .float d => d.isFinite = true
  | .str s => Utf8.isValid s = true
  | .arr vs => WritableItems vs
  | .obj fs => WritableFields fs

def WritableItems : List Json → Prop
  | [] => True
  | v :: vs => Writable v ∧ WritableItems vs

def WritableFields : List (Bytes × Json) → Prop
  | [] => True
  | (k, v) :: fs => Utf8.isValid k = true ∧ Writable v ∧ WritableFields fs

end

mutual

/-- The value with its objects, and those within it, as readers make them. -/
def tidy : Json → Json
  | .arr vs => .arr (tidyItems vs)
  | .obj fs => .obj (Table.ofRows (tidyFields fs))
  | v => v

def tidyItems : List Json → List Json
  | [] => []
  | v :: vs => tidy v :: tidyItems vs

def tidyFields : List (Bytes × Json) → List (Bytes × Json)
  | [] => []
  | (k, v) :: fs => (k, tidy v) :: tidyFields fs

end

mutual

def height : Json → Nat
  | .arr vs => itemsHeight vs + 1
  | .obj fs => fieldsHeight fs + 1
  | _ => 1

def itemsHeight : List Json → Nat
  | [] => 0
  | v :: vs => max (height v) (itemsHeight vs) + 1

def fieldsHeight : List (Bytes × Json) → Nat
  | [] => 0
  | (_, v) :: fs => max (height v) (fieldsHeight fs) + 1

end

section Bytes

variable {b : UInt8} {s r rest : Bytes}

theorem skipBlanks_cons (h : isBlank b = false) (r : Bytes) : skipBlanks (b :: r) = b :: r := by
  simp [skipBlanks, h]

/-- What may follow a value: nothing, a comma or a closing bracket. -/
def Follows (rest : Bytes) : Prop := ∀ b, rest.head? = some b → b = 44 ∨ b = 93 ∨ b = 125

theorem follows_nil : Follows [] := by
  intro b hb
  cases hb

theorem follows_cons (h : b = 44 ∨ b = 93 ∨ b = 125) (r : Bytes) : Follows (b :: r) := by
  intro b' hb
  cases hb
  exact h

theorem Follows.endsNumber (h : Follows rest) : EndsNumber rest := by
  intro b hb
  rcases h b hb with rfl | rfl | rfl <;> decide

def Opens (s : Bytes) : Prop := ∃ b r, s = b :: r ∧ isBlank b = false ∧ b ≠ 93 ∧ b ≠ 125 ∧ b ≠ 239

theorem Opens.append (h : Opens s) (rest : Bytes) : Opens (s ++ rest) := by
  obtain ⟨b, r, rfl, hb⟩ := h
  exact ⟨b, r ++ rest, rfl, hb⟩

theorem Opens.skipBlanks (h : Opens s) : skipBlanks s = s := by
  obtain ⟨b, r, rfl, hb, _⟩ := h
  exact skipBlanks_cons hb r

def startsNumber (b : UInt8) : Bool := Bytes.isDigit b || b == 45

theorem opens_of_startsNumber (h : startsNumber b = true) (r : Bytes) : Opens (b :: r) := by
  refine ⟨b, r, rfl, ?_, ?_, ?_, ?_⟩
  · cases hb : isBlank b with
    | false => rfl
    | true =>
      simp only [isBlank, Bool.or_eq_true, beq_iff_eq] at hb
      rcases hb with ((rfl | rfl) | rfl) | rfl <;> revert h <;> decide
  all_goals
    rintro rfl
    revert h
    decide

theorem value?_number (fuel : Nat) (h : startsNumber b = true) (r : Bytes) :
    value? (fuel + 1) (b :: r) = number? (b :: r) := by
  have hne {x : UInt8} (hx : startsNumber x = false) : b ≠ x := by
    rintro rfl
    rw [hx] at h
    cases h
  rw [value?, (opens_of_startsNumber h r).skipBlanks]
  dsimp only
  rw [if_neg (hne rfl), if_neg (hne rfl), if_neg (hne rfl), if_neg (hne rfl), if_neg (hne rfl),
    if_neg (hne rfl)]

theorem startsNumber_ofInt (n : Int) : ∃ b r, Bytes.ofInt n = b :: r ∧ startsNumber b = true := by
  obtain ⟨b, r, hbr⟩ := List.exists_cons_of_ne_nil (Bytes.ofNat_ne_nil n.natAbs)
  unfold Bytes.ofInt
  split
  · exact ⟨_, _, rfl, rfl⟩
  · refine ⟨b, r, hbr, ?_⟩
    have hb : b ∈ Bytes.ofNat n.natAbs := hbr ▸ List.mem_cons_self
    simp [startsNumber, Bytes.isDigit_of_mem_ofNat hb]

theorem startsNumber_text (d : Binary64) : ∃ b r, d.text = b :: r ∧ startsNumber b = true := by
  unfold Binary64.text
  dsimp only
  split
  · split
    · exact ⟨_, _, rfl, rfl⟩
    · exact ⟨_, _, rfl, rfl⟩
  · next h =>
    split
    · exact ⟨_, _, rfl, rfl⟩
    · obtain ⟨hd, hne, _⟩ := shortest_digits h
      obtain ⟨b, r, hbr⟩ := List.exists_cons_of_ne_nil hne
      rw [hbr] at hd ⊢
      have hb : startsNumber b = true := by simp [startsNumber, hd b List.mem_cons_self]
      unfold Binary64.layout
      dsimp only
      split
      · exact ⟨b, _, rfl, hb⟩
      split
      · next hpos =>
        obtain ⟨k, hk⟩ := Int.eq_ofNat_of_zero_le (show 0 ≤ d.shortest.2
          + ((Bytes.ofNat d.shortest.1).length : Int) - 1 by omega)
        have hk' : (d.shortest.2 + ((Bytes.ofNat d.shortest.1).length : Int)).toNat = k + 1 := by
          omega
        rw [hk']
        exact ⟨b, _, rfl, hb⟩
      split
      · exact ⟨_, _, rfl, rfl⟩
      · exact ⟨b, _, rfl, hb⟩

theorem opens_compact (v : Json) : Opens v.compact := by
  have hstart {s : Bytes} (h : ∃ b r, s = b :: r ∧ startsNumber b = true) : Opens s := by
    obtain ⟨b, r, rfl, hb⟩ := h
    exact opens_of_startsNumber hb r
  cases v with
  | null => exact ⟨110, _, rfl, by decide⟩
  | bool b => cases b <;> exact ⟨_, _, rfl, by decide⟩
  | int n => exact hstart (startsNumber_ofInt n)
  | float d => exact hstart (startsNumber_text d)
  | str s => exact ⟨34, _, rfl, by decide⟩
  | arr vs => exact ⟨91, _, by rw [compact]; rfl, by decide⟩
  | obj fs => exact ⟨123, _, by rw [compact]; rfl, by decide⟩

end Bytes

section Reading

variable {fuel : Nat} {b : UInt8} {s r rest : Bytes} {v : Json} {vs : List Json}
  {fs : List (Bytes × Json)}

theorem value?_quote (fuel : Nat) (r : Bytes) :
    value? (fuel + 1) (34 :: r) = (string? r).map fun (t, rest) => (.str t, rest) := by
  rw [value?, skipBlanks_cons (by decide)]
  rfl

theorem value?_bracket (fuel : Nat) (h : Opens s) :
    value? (fuel + 1) (91 :: s) = (items? fuel s).map fun (vs, rest) => (.arr vs, rest) := by
  rw [value?, skipBlanks_cons (by decide)]
  dsimp only
  rw [h.skipBlanks]
  obtain ⟨b, r, rfl, _, hb, _⟩ := h
  simp [hb]

theorem value?_brace (fuel : Nat) (h : Opens s) :
    value? (fuel + 1) (123 :: s) = (members? fuel s).map fun (fs, rest) => (object fs, rest) := by
  rw [value?, skipBlanks_cons (by decide)]
  dsimp only
  rw [h.skipBlanks]
  obtain ⟨b, r, rfl, _, _, hb, _⟩ := h
  simp [hb]

theorem items?_comma (h : value? fuel s = some (v, 44 :: r)) :
    items? (fuel + 1) s = (items? fuel r).map fun (vs, rest) => (v :: vs, rest) := by
  rw [items?, h]
  rfl

theorem items?_last (h : value? fuel s = some (v, 93 :: rest)) :
    items? (fuel + 1) s = some ([v], rest) := by
  rw [items?, h]
  rfl

theorem members?_comma {k : Bytes} {t : Bytes} (hk : string? t = some (k, 58 :: s))
    (h : value? fuel s = some (v, 44 :: r)) : members? (fuel + 1) (34 :: t)
      = (members? fuel r).map fun (fs, rest) => ((k, v) :: fs, rest) := by
  simp [members?, skipBlanks, isBlank, hk, h]

theorem members?_last {k : Bytes} {t : Bytes} (hk : string? t = some (k, 58 :: s))
    (h : value? fuel s = some (v, 125 :: rest)) :
    members? (fuel + 1) (34 :: t) = some ([(k, v)], rest) := by
  simp [members?, skipBlanks, isBlank, hk, h]

theorem opens_items (hne : vs ≠ []) (rest : Bytes) :
    Opens (Bytes.join comma (compactItems vs) ++ rest) := by
  cases vs with
  | nil => exact absurd rfl hne
  | cons v vs =>
    rw [compactItems, Bytes.join_cons, List.append_assoc]
    exact (opens_compact v).append _

theorem opens_fields (hne : fs ≠ []) (rest : Bytes) :
    Opens (Bytes.join comma (compactFields fs) ++ rest) := by
  cases fs with
  | nil => exact absurd rfl hne
  | cons f fs =>
    rw [compactFields, Bytes.join_cons]
    exact ⟨34, _, rfl, by decide⟩

mutual

/-- A value that can be written is read back. -/
theorem value?_compact : ∀ (v : Json) (fuel : Nat) (rest : Bytes), Writable v → height v ≤ fuel →
    Follows rest → value? fuel (v.compact ++ rest) = some (v.tidy, rest)
  | v, 0, rest, _, hfuel, _ => by cases v <;> simp [height] at hfuel
  | .null, fuel + 1, rest, _, _, _ => rfl
  | .bool b, fuel + 1, rest, _, _, _ => by cases b <;> rfl
  | .int n, fuel + 1, rest, hv, _, hr => by
    obtain ⟨b, r, hbr, hb⟩ := startsNumber_ofInt n
    rw [compact, hbr, List.cons_append, value?_number fuel hb, ← List.cons_append, ← hbr]
    exact number?_ofInt hv hr.endsNumber
  | .float d, fuel + 1, rest, hv, _, hr => by
    obtain ⟨b, r, hbr, hb⟩ := startsNumber_text d
    rw [compact, hbr, List.cons_append, value?_number fuel hb, ← List.cons_append, ← hbr]
    exact number?_text hv hr.endsNumber
  | .str s, fuel + 1, rest, hv, _, _ => by
    obtain ⟨r, hr, hread⟩ := string?_quoted hv rest
    rw [compact, hr, value?_quote, hread]
    rfl
  | .arr vs, fuel + 1, rest, hv, hfuel, _ => by
    by_cases hne : vs = []
    · subst hne
      rfl
    · have htext : (Json.arr vs).compact ++ rest
          = 91 :: (Bytes.join comma (compactItems vs) ++ 93 :: rest) := by
        simp [compact, show lit "[" = [91] from rfl, show lit "]" = [93] from rfl]
      rw [htext, value?_bracket fuel (opens_items hne _),
        items?_compact vs fuel rest hv (Nat.le_of_succ_le_succ hfuel) hne]
      rfl
  | .obj fs, fuel + 1, rest, hv, hfuel, _ => by
    by_cases hne : fs = []
    · subst hne
      rfl
    · have htext : (Json.obj fs).compact ++ rest
          = 123 :: (Bytes.join comma (compactFields fs) ++ 125 :: rest) := by
        simp [compact, show lit "\x7b" = [123] from rfl, show lit "\x7d" = [125] from rfl]
      rw [htext, value?_brace fuel (opens_fields hne _),
        members?_compact fs fuel rest hv (Nat.le_of_succ_le_succ hfuel) hne]
      rfl

theorem items?_compact : ∀ (vs : List Json) (fuel : Nat) (rest : Bytes), WritableItems vs →
    itemsHeight vs ≤ fuel → vs ≠ [] →
    items? fuel (Bytes.join comma (compactItems vs) ++ 93 :: rest) = some (tidyItems vs, rest)
  | [], _, _, _, _, hne => absurd rfl hne
  | v :: vs, 0, _, _, hfuel, _ => by simp [itemsHeight] at hfuel
  | v :: vs, fuel + 1, rest, hvs, hfuel, _ => by
    have hmax : max (height v) (itemsHeight vs) ≤ fuel := Nat.le_of_succ_le_succ hfuel
    have hhead (tail : Bytes) (ht : Follows tail) :=
      value?_compact v fuel tail hvs.1 (Nat.le_trans (Nat.le_max_left ..) hmax) ht
    rw [compactItems, Bytes.join_cons, List.append_assoc]
    cases vs with
    | nil => exact items?_last (hhead (93 :: rest) (follows_cons (by decide) rest))
    | cons w ws =>
      have htail := items?_compact (w :: ws) fuel rest hvs.2
        (Nat.le_trans (Nat.le_max_right ..) hmax) nofun
      have htext : (if compactItems (w :: ws) = [] then []
          else comma ++ Bytes.join comma (compactItems (w :: ws))) ++ 93 :: rest
          = 44 :: (Bytes.join comma (compactItems (w :: ws)) ++ 93 :: rest) := by
        simp [compactItems, show comma = [44] from rfl]
      rw [htext, items?_comma (hhead _ (follows_cons (by decide) _)), htail]
      rfl

theorem members?_compact : ∀ (fs : List (Bytes × Json)) (fuel : Nat) (rest : Bytes),
    WritableFields fs → fieldsHeight fs ≤ fuel → fs ≠ [] →
    members? fuel (Bytes.join comma (compactFields fs) ++ 125 :: rest) = some (tidyFields fs, rest)
  | [], _, _, _, _, hne => absurd rfl hne
  | (k, v) :: fs, 0, _, _, hfuel, _ => by simp [fieldsHeight] at hfuel
  | (k, v) :: fs, fuel + 1, rest, hfs, hfuel, _ => by
    have hmax : max (height v) (fieldsHeight fs) ≤ fuel := Nat.le_of_succ_le_succ hfuel
    have hhead (tail : Bytes) (ht : Follows tail) :=
      value?_compact v fuel tail hfs.2.1 (Nat.le_trans (Nat.le_max_left ..) hmax) ht
    have hkey (tail : Bytes) := string?_quoted hfs.1 (58 :: (v.compact ++ tail))
    have htext : (if compactFields fs = [] then []
        else comma ++ Bytes.join comma (compactFields fs)) ++ 125 :: rest
        = if fs = [] then 125 :: rest
          else 44 :: (Bytes.join comma (compactFields fs) ++ 125 :: rest) := by
      cases fs <;> simp [compactFields, show comma = [44] from rfl]
    obtain ⟨r, hr, hread⟩ := hkey (if fs = [] then 125 :: rest
      else 44 :: (Bytes.join comma (compactFields fs) ++ 125 :: rest))
    have hfield : Bytes.join comma (compactFields ((k, v) :: fs)) ++ 125 :: rest = 34 :: r := by
      rw [compactFields, Bytes.join_cons, List.append_assoc, htext, ← hr]
      simp [show lit ":" = [58] from rfl]
    rw [hfield]
    cases fs with
    | nil =>
      rw [if_pos rfl] at hread
      rw [members?_last hread (hhead _ (follows_cons (by decide) _))]
      rfl
    | cons g gs =>
      rw [if_neg nofun] at hread
      rw [members?_comma hread (hhead _ (follows_cons (by decide) _)),
        members?_compact (g :: gs) fuel rest hfs.2.2 (Nat.le_trans (Nat.le_max_right ..) hmax)
          nofun]
      rfl

end

theorem length_join_cons (sep x : Bytes) (xs : List Bytes) :
    (Bytes.join sep (x :: xs)).length
      = x.length + if xs = [] then 0 else sep.length + (Bytes.join sep xs).length := by
  rw [Bytes.join_cons]
  split <;> simp

mutual

theorem height_le : ∀ v : Json, height v ≤ 2 * v.compact.length
  | .null => by decide
  | .bool b => by cases b <;> decide
  | .int n => by
    obtain ⟨b, r, h, _⟩ := startsNumber_ofInt n
    simp [height, compact, h]
    omega
  | .float d => by
    obtain ⟨b, r, h, _⟩ := startsNumber_text d
    simp [height, compact, h]
    omega
  | .str s => by
    simp [height, compact, quoted]
    omega
  | .arr vs => by
    have := itemsHeight_le vs
    simp [height, compact, lit]
    omega
  | .obj fs => by
    have := fieldsHeight_le fs
    simp [height, compact, lit]
    omega

theorem itemsHeight_le :
    ∀ vs : List Json, itemsHeight vs ≤ 2 * (Bytes.join comma (compactItems vs)).length + 1
  | [] => by simp [itemsHeight]
  | v :: vs => by
    have hv := height_le v
    have hvs := itemsHeight_le vs
    have hcomma : comma.length = 1 := rfl
    rw [itemsHeight, compactItems, length_join_cons]
    cases vs with
    | nil =>
      simp only [itemsHeight, compactItems, if_true]
      omega
    | cons w ws =>
      rw [if_neg (by simp [compactItems])]
      omega

theorem fieldsHeight_le : ∀ fs : List (Bytes × Json),
    fieldsHeight fs ≤ 2 * (Bytes.join comma (compactFields fs)).length + 1
  | [] => by simp [fieldsHeight]
  | (k, v) :: fs => by
    have hv := height_le v
    have hfs := fieldsHeight_le fs
    have hcomma : comma.length = 1 := rfl
    rw [fieldsHeight, compactFields, length_join_cons]
    simp only [List.length_append]
    cases fs with
    | nil =>
      simp only [fieldsHeight, compactFields, if_true]
      omega
    | cons g gs =>
      rw [if_neg (by simp [compactFields])]
      omega

end

theorem withoutMark_of_opens (h : Opens s) : withoutMark s = s := by
  obtain ⟨b, r, rfl, _, _, _, hb⟩ := h
  unfold withoutMark
  split
  · next heq =>
    cases heq
    exact absurd rfl hb
  · rfl

theorem read?_compact (h : Writable v) : read? v.compact = some v.tidy := by
  have hv := value?_compact v (2 * v.compact.length + 2) [] h
    (Nat.le_add_right_of_le (height_le v)) follows_nil
  rw [List.append_nil] at hv
  rw [read?, withoutMark_of_opens (opens_compact v), hv]
  rfl

end Reading

end Lorebook.Json
