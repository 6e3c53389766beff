import Lorebook.Proofs.Order
import Lorebook.Proofs.Reload
import Mathlib.Data.List.Permutation

set_option autoImplicit false

/-!
How the entries of a book are loaded: in which order, under which uids, and when at all. Keys made
of digits are ordered by their numbers as long as these stay below a bound, and an entry whose `uid`
is null loses its `id`.
-/

namespace Lorebook

open Json (natOfDigits)

section Numbers

/-- The digits of any smaller number are read to their end. -/
def Bytes.unreadNumber : Nat := 10 * (leadingIntLimit + 1)

theorem Bytes.leadingDigits_eq {n : Nat} {s : Bytes} (hs : ∀ b ∈ s, isDigit b = true)
    (h : n * 10 ^ s.length + natOfDigits s < unreadNumber) :
    leadingDigits n s = n * 10 ^ s.length + natOfDigits s := by
  rw [← Json.natOfDigits_foldl] at h ⊢
  induction s generalizing n with
  | nil => rfl
  | cons b s ih =>
    obtain ⟨hb, hs⟩ := List.forall_mem_cons.mp hs
    rw [List.foldl_cons] at h ⊢
    have hn : n ≤ leadingIntLimit := by
      rw [Json.natOfDigits_foldl] at h
      have hpow : n * 10 + digitValue b ≤ (n * 10 + digitValue b) * 10 ^ s.length :=
        Nat.le_mul_of_pos_right _ (Nat.pow_pos (by decide))
      unfold unreadNumber at h
      omega
    rw [leadingDigits, if_pos ⟨hb, hn⟩, ih hs h]

theorem Bytes.leadingInt_eq {k : Bytes} (hk : isDigits k = true)
    (h : natOfDigits k < unreadNumber) : leadingInt k = natOfDigits k := by
  have hdigits : ∀ b ∈ k, isDigit b = true := by
    rw [isDigits, Bool.and_eq_true, List.all_eq_true] at hk
    exact hk.2
  have hread : leadingDigits 0 k = natOfDigits k := by
    have heq := leadingDigits_eq (n := 0) hdigits (by simpa using h)
    simpa using heq
  have hsign {b : UInt8} {r : Bytes} (hb : isDigit b = false) : k ≠ b :: r := by
    rintro rfl
    rw [hdigits b List.mem_cons_self] at hb
    cases hb
  rw [leadingInt, trim_of_unpadded fun b hb => isPad_of_isDigit (hdigits b hb)]
  split
  · exact absurd rfl (hsign (b := 45) rfl)
  · exact absurd rfl (hsign (b := 43) rfl)
  · rw [hread]

end Numbers

theorem Entry.uid_of_ofJson {v : Json} {uid? : Option Bytes} {fresh source name : Bytes} {e : Entry}
    (h : ofJson v uid? fresh source name = .ok e) : e.uid = (uid?.or (ownUid? v)).getD fresh := by
  obtain ⟨logic, rfl⟩ := ofJson_eq_ok h
  exact (sameIdentity_afterDirectives _).uid

namespace Book

/-- One key may come before another: digits before all else and by a number of theirs, all else by
its bytes. -/
inductive KeyBefore (number : Bytes → Int) (a b : Bytes) : Prop
  | digits (ha : Bytes.isDigits a = true) (hb : Bytes.isDigits b = false)
  | lower (ha : Bytes.isDigits a = true) (hb : Bytes.isDigits b = true) (h : number a < number b)
  | equal (ha : Bytes.isDigits a = true) (hb : Bytes.isDigits b = true) (h : number a = number b)
    (hle : a ≤ b)
  | bytes (ha : Bytes.isDigits a = false) (hb : Bytes.isDigits b = false) (hle : a ≤ b)

theorem KeyBefore.congr {number number' : Bytes → Int} {a b : Bytes}
    (ha : Bytes.isDigits a = true → number a = number' a)
    (hb : Bytes.isDigits b = true → number b = number' b) (h : KeyBefore number a b) :
    KeyBefore number' a b := by
  cases h with
  | digits hda hdb => exact .digits hda hdb
  | lower hda hdb h => exact .lower hda hdb (by rwa [← ha hda, ← hb hdb])
  | equal hda hdb h hle => exact .equal hda hdb (by rwa [← ha hda, ← hb hdb]) hle
  | bytes hda hdb hle => exact .bytes hda hdb hle

theorem KeyBefore.number_le {number : Bytes → Int} {a b : Bytes} (h : KeyBefore number a b)
    (hb : Bytes.isDigits b = true) : number a ≤ number b := by
  cases h with
  | lower _ _ h => exact Int.le_of_lt h
  | equal _ _ h _ => exact Int.le_of_eq h
  | digits _ hdb => simp [hdb] at hb
  | bytes _ hdb _ => simp [hdb] at hb

theorem keyBefore_of_entryKeyLe {a b : Bytes} (h : entryKeyLe a b = true) :
    KeyBefore Bytes.leadingInt a b := by
  unfold entryKeyLe at h
  split at h
  · next ha hb => exact .digits ha hb
  · cases h
  · next ha hb => exact .bytes ha hb (of_decide_eq_true h)
  · next ha hb =>
    dsimp only at h
    split at h
    · exact .lower ha hb (of_decide_eq_true h)
    · next heq => exact .equal ha hb (not_not.mp heq) (of_decide_eq_true h)

def keyRank (k : Bytes) : Nat := if Bytes.isDigits k then 0 else 1

def keyNumber (k : Bytes) : Int := if Bytes.isDigits k then Bytes.leadingInt k else 0

theorem entryKeyLe_eq (a b : Bytes) :
    entryKeyLe a b =
      if keyRank a ≠ keyRank b then decide (keyRank a < keyRank b)
      else if keyNumber a ≠ keyNumber b then decide (keyNumber a < keyNumber b)
      else decide (a ≤ b) := by
  unfold entryKeyLe keyRank keyNumber
  cases Bytes.isDigits a <;> cases Bytes.isDigits b <;> simp

theorem sorts_entryKeyLe : Sorts entryKeyLe := by
  have heq := funext fun a => funext fun b => entryKeyLe_eq a b
  rw [heq]
  exact Sorts.keyThen keyRank (Sorts.keyThen keyNumber (Sorts.byKey id))

/-- The items of a collection as they are loaded, each with the uid that it has unless it gives
itself one: the key, or the place counted from 1. -/
inductive LoadOrder (number : Bytes → Int) : Json → List (Bytes × Json) → Prop
  | array (vs : List Json) :
    LoadOrder number (.arr vs) ((vs.zipIdx 1).map fun p => (Bytes.ofNat p.2, p.1))
  | object {fs order : List (Bytes × Json)} (hperm : order.Perm fs)
    (hsorted : order.Pairwise fun x y => KeyBefore number x.1 y.1) : LoadOrder number (.obj fs) order

/-- Up to the bound that keys are read to their order is that of their numbers. -/
theorem LoadOrder.numeric {raw : Json} {order : List (Bytes × Json)}
    (h : LoadOrder Bytes.leadingInt raw order)
    (hsmall : ∀ fs, raw = .obj fs → ∀ x ∈ fs, Bytes.isDigits x.1 = true →
      natOfDigits x.1 < Bytes.unreadNumber) :
    LoadOrder (fun k => natOfDigits k) raw order := by
  cases h with
  | array vs => exact .array vs
  | @object fs order hperm hsorted =>
    have hread : ∀ x ∈ order, Bytes.isDigits x.1 = true →
        Bytes.leadingInt x.1 = natOfDigits x.1 := fun x hx hdigits =>
      Bytes.leadingInt_eq hdigits (hsmall fs rfl x (hperm.mem_iff.mp hx) hdigits)
    refine .object hperm (hsorted.imp_of_mem fun {x y} hx hy h => ?_)
    exact h.congr (hread x hx) (hread y hy)

theorem numbered_eq (i : Nat) (vs : List Json) :
    numbered i vs = ((vs.zipIdx i).map fun p => (Bytes.ofNat p.2, p.1)).map fun x =>
      ((declaredUid? x.2).getD x.1, x.2) := by
  induction vs generalizing i with
  | nil => rfl
  | cons v vs ih =>
    rw [numbered, ih, List.zipIdx_cons]
    rfl

theorem indexed_eq {raw : Json} (hraw : (∃ vs, raw = .arr vs) ∨ ∃ fs, raw = .obj fs) :
    ∃ order, LoadOrder Bytes.leadingInt raw order ∧
      indexed raw = .ok (order.map fun x => ((declaredUid? x.2).getD x.1, x.2)) := by
  rcases hraw with ⟨vs, rfl⟩ | ⟨fs, rfl⟩
  · exact ⟨_, .array vs, congrArg Except.ok (numbered_eq 1 vs)⟩
  · have hsorted := (sorts_entryKeyLe.comap Prod.fst).sortBy_pairwise fs
    exact ⟨_, .object (sortBy_perm _ fs) (hsorted.imp keyBefore_of_entryKeyLe), rfl⟩

/-- The first of `uid` and `id` that is there is null. -/
def nullUid (v : Json) : Bool := ((v.get? (lit "uid")).or (v.get? (lit "id"))).any Json.isNull

theorem declaredUid?_getD (v : Json) (key : Bytes) :
    (declaredUid? v).getD key =
      if nullUid v then [] else (Entry.ownUid? v).getD key := by
  have htext {x : Json} (h : x.isNull = true) : x.toText = [] := by
    cases x <;> first | rfl | cases h
  unfold declaredUid? nullUid Entry.ownUid?
  simp only [Fields.find?]
  cases v.get? (lit "uid") with
  | some x =>
    cases hx : x.isNull with
    | true => simp [hx, htext]
    | false => simp [hx]
  | none =>
    cases v.get? (lit "id") with
    | some x =>
      cases hx : x.isNull with
      | true => simp [hx, htext]
      | false => simp [hx]
    | none => simp

theorem ofJson_declaredUid (v : Json) (key source name : Bytes) :
    Entry.ofJson v (some ((declaredUid? v).getD key)) [] source name =
      Entry.ofJson v (if nullUid v then some [] else none) key source name := by
  unfold Entry.ofJson
  rw [declaredUid?_getD]
  cases nullUid v <;> simp

theorem exists_readEntries_iff (source name : Bytes) (items : List (Bytes × Json)) :
    (∃ es, readEntries source name items = .ok es) ↔
      ∀ x ∈ items, ∃ logic, Entry.logicOfJson x.2 = .ok logic := by
  induction items with
  | nil => simp [readEntries]
  | cons x items ih =>
    rw [List.forall_mem_cons, ← ih, readEntries, Entry.ofJson]
    cases Entry.logicOfJson x.2 with
    | error f => simp [Except.map]
    | ok logic => cases readEntries source name items <;> simp [Except.map]

/-- The object of the book that is read from a value: itself, or what a card holds. -/
inductive Holds : Json → Json → Prop
  | plain {v : Json} (hobj : v.isObject = true) (hcard : cardData? v = none) : Holds v v
  | card {v data b w : Json} (hobj : v.isObject = true) (hcard : cardData? v = some data)
    (hbook : data.get? (lit "character_book") = some b) (hnull : b.isNull = false)
    (h : Holds b w) : Holds v w

theorem Holds.ofJson_eq {v w : Json} (h : Holds v w) (source : Bytes) :
    ofJson v source = ofObject w source := by
  induction h with
  | plain hobj hcard => exact ofJson_of_plain hobj hcard
  | @card v data b w hobj hcard hbook hnull _ ih =>
    rw [← ih, ofJson, if_pos hobj]
    split
    · next hnone =>
      rw [hcard] at hnone
      cases hnone
    · next data' hdata =>
      obtain rfl : data = data' := Option.some.inj (hcard.symm.trans hdata)
      split
      · next hnone =>
        rw [hbook] at hnone
        cases hnone
      · next b' hb =>
        obtain rfl : b = b' := Option.some.inj (hbook.symm.trans hb)
        rw [if_neg (by simp [hnull])]

theorem Holds.exists_book {v w : Json} (h : Holds v w) {source : Bytes} {p : Book → Bool}
    (hcheck : (ofObject w source).toOption.any p = true) :
    ∃ b, ofJson v source = .ok b ∧ p b = true := by
  rw [h.ofJson_eq]
  cases hb : ofObject w source with
  | error f => simp [hb, Except.toOption] at hcheck
  | ok b => exact ⟨b, rfl, by simpa [hb, Except.toOption] using hcheck⟩

/-- A book is read with each of its entries once: an array in its order, an object by its keys. Each
entry is read with the uid it gives itself, or else with its key or place; where the first of `uid`
and `id` is null its uid is empty. -/
theorem ofJson_loads {v w raw : Json} (hbook : Holds v w)
    (hentries : Fields.find? w [lit "entries"] = some raw)
    (hraw : (∃ vs, raw = .arr vs) ∨ ∃ fs, raw = .obj fs) (source : Bytes) :
    ∃ order, LoadOrder Bytes.leadingInt raw order ∧
      ((∀ fs, raw = .obj fs → ∀ x ∈ fs, Bytes.isDigits x.1 = true →
        natOfDigits x.1 < Bytes.unreadNumber) → LoadOrder (fun k => natOfDigits k) raw order) ∧
      ((∃ b, ofJson v source = .ok b) ↔
        ∀ x ∈ order, ∃ logic, Entry.logicOfJson x.2 = .ok logic) ∧
      ∀ b, ofJson v source = .ok b → List.Forall₂ (fun x e =>
        Entry.ofJson x.2 (if nullUid x.2 then some [] else none) x.1 source b.name = .ok e ∧
          e.uid = if nullUid x.2 then [] else (Entry.ownUid? x.2).getD x.1) order b.entries := by
  obtain ⟨order, horder, hindexed⟩ := indexed_eq hraw
  have hload (b : Book) : ofJson v source = .ok b ↔
      ∃ es, readEntries source (settings w source).name
        (order.map fun x => ((declaredUid? x.2).getD x.1, x.2)) = .ok es ∧
          b = { settings w source with entries := es } := by
    rw [hbook.ofJson_eq, ofObject, hentries]
    dsimp only
    rw [hindexed]
    dsimp only
    cases readEntries source _ _ <;> simp [Except.map, eq_comm]
  refine ⟨order, horder, horder.numeric, ?_, fun b hb => ?_⟩
  · have hread := exists_readEntries_iff source (settings w source).name
      (order.map fun x => ((declaredUid? x.2).getD x.1, x.2))
    rw [List.forall_mem_map] at hread
    rw [← hread]
    constructor
    · rintro ⟨b, hb⟩
      obtain ⟨es, hes, _⟩ := (hload b).mp hb
      exact ⟨es, hes⟩
    · rintro ⟨es, hes⟩
      exact ⟨_, (hload _).mpr ⟨es, hes, rfl⟩⟩
  · obtain ⟨es, hes, rfl⟩ := (hload b).mp hb
    have hread := readEntries_eq_ok_iff.mp hes
    rw [List.forall₂_map_left_iff] at hread
    refine hread.imp fun x e he => ?_
    rw [ofJson_declaredUid] at he
    refine ⟨he, ?_⟩
    rw [Entry.uid_of_ofJson he]
    cases nullUid x.2 <;> rfl

theorem ofJson_loads_mixed :
    let raw : Json := .obj [(lit "10", .obj [(lit "uid", .null), (lit "id", .int 4)]),
      (lit "9", .obj []), (lit "wyrm", .obj [(lit "id", .str (lit "w"))])]
    let v : Json := .obj [(lit "entries", raw)]
    Holds v v ∧ Fields.find? v [lit "entries"] = some raw ∧
      ∃ b order, ofJson v [] = .ok b ∧ LoadOrder (fun k => natOfDigits k) raw order ∧
        List.Forall₂ (fun x e => e.uid =
          if nullUid x.2 then [] else (Entry.ownUid? x.2).getD x.1) order b.entries ∧
        b.entries.map Entry.uid = [lit "9", [], lit "w"] := by
  intro raw v
  have hbook : Holds v v := .plain rfl (by decide +kernel)
  have hfind : Fields.find? v [lit "entries"] = some raw := by decide +kernel
  obtain ⟨order, _, hnumeric, _, hentries⟩ := ofJson_loads hbook hfind (.inr ⟨_, rfl⟩) []
  have hsmall : ∀ fs, raw = .obj fs → ∀ x ∈ fs, Bytes.isDigits x.1 = true →
      natOfDigits x.1 < Bytes.unreadNumber := by
    intro fs hfs
    obtain rfl := Json.obj.inj hfs
    decide +kernel
  have hcheck : (ofObject v []).toOption.any (fun b =>
      b.entries.map Entry.uid == [lit "9", [], lit "w"]) = true := by
    decide +kernel
  obtain ⟨b, hb, huids⟩ := hbook.exists_book hcheck
  exact ⟨hbook, hfind, b, order, hb, hnumeric hsmall,
    (hentries b hb).imp fun _ _ h => h.2, eq_of_beq huids⟩

/-- A number above the bound is loaded before a smaller one, and an `id` behind a null `uid` is not
found. -/
theorem not_ofJson_loads_numerically :
    let raw : Json := .obj [(lit "10000000000000000000", .obj [(lit "content", .str (lit "a"))]),
      (lit "2000000000000000000", .obj [(lit "content", .str (lit "b")), (lit "id", .str (lit "x")),
        (lit "uid", .null)])]
    let v : Json := .obj [(lit "entries", raw)]
    ∃ b, ofJson v [] = .ok b ∧
      b.entries.map (fun e => (e.uid, e.content)) =
        [(lit "10000000000000000000", lit "a"), ([], lit "b")] ∧
      (∀ order, LoadOrder (fun k => natOfDigits k) raw order →
        order.map (fun x => ((Entry.ownUid? x.2).getD x.1, x.2.get? (lit "content"))) =
          [(lit "x", some (.str (lit "b"))), (lit "10000000000000000000", some (.str (lit "a")))]) ∧
      ¬∃ order, LoadOrder (fun k => natOfDigits k) raw order ∧
        List.Forall₂ (fun x e => Entry.ofJson x.2 none x.1 [] b.name = .ok e) order b.entries := by
  intro raw v
  have hbook : Holds v v := .plain rfl (by decide +kernel)
  have hcheck : (ofObject v []).toOption.any (fun b =>
      b.entries.map (fun e => (e.uid, e.content)) ==
        [(lit "10000000000000000000", lit "a"), ([], lit "b")]) = true := by
    decide +kernel
  have hclaimed (order : List (Bytes × Json))
      (horder : LoadOrder (fun k => natOfDigits k) raw order) :
      order.map (fun x => ((Entry.ownUid? x.2).getD x.1, x.2.get? (lit "content"))) =
        [(lit "x", some (.str (lit "b"))), (lit "10000000000000000000", some (.str (lit "a")))] := by
    dsimp only [raw] at horder
    cases horder with
    | object hperm hsorted =>
      rcases List.perm_pair.mp hperm with rfl | rfl
      · have hle := (List.pairwise_pair.mp hsorted).number_le (by decide)
        exact absurd hle (by decide)
      · decide +kernel
  obtain ⟨b, hb, hloaded⟩ := hbook.exists_book hcheck
  replace hloaded := eq_of_beq hloaded
  refine ⟨b, hb, hloaded, hclaimed, ?_⟩
  rintro ⟨order, horder, hentries⟩
  have huids : order.map (fun x => (Entry.ownUid? x.2).getD x.1) = b.entries.map Entry.uid := by
    rw [← List.forall₂_eq_eq_eq, List.forall₂_map_left_iff, List.forall₂_map_right_iff]
    exact hentries.imp fun _ _ h => (Entry.uid_of_ofJson h).symm
  have hfirst := congrArg (List.map Prod.fst) (hclaimed order horder)
  have hsecond := congrArg (List.map Prod.fst) hloaded
  rw [List.map_map] at hfirst hsecond
  exact absurd (hfirst.symm.trans (huids.trans hsecond)) (by decide +kernel)

end Book
end Lorebook
