import Lorebook.Directive
import Lorebook.Entry.Directed
import Lorebook.Proofs.Tables
import Lorebook.Proofs.Trimming

set_option autoImplicit false

/-!
The block of directives at the top of a content. Its directives have values of the types that their
names ask for, and what follows the block has none. Applied to an entry, they leave alone what it is
known by and how likely it is.
-/

namespace Lorebook

theorem Bytes.fullLines_flatten_tail {s l : Bytes} {ls : List Bytes} (h : fullLines s = l :: ls) :
    fullLines ls.flatten = ls := by
  induction s generalizing l ls with
  | nil => cases h
  | cons b r ih =>
    rw [fullLines] at h
    split at h
    · obtain ⟨_, rfl⟩ := List.cons.inj h
      rw [flatten_fullLines]
    · split at h
      · obtain ⟨_, rfl⟩ := List.cons.inj h
        rfl
      · next l' ls' hr =>
        obtain ⟨_, rfl⟩ := List.cons.inj h
        exact ih hr

def Json.KeysTidy (v : Json) : Prop := ∀ ks, v.textItems? = some ks → KeyList.Tidy ks

theorem Json.textItems?_texts (ks : List Bytes) : (Json.texts ks).textItems? = some ks := by
  rw [texts, textItems?, List.filterMap_map]
  exact congrArg some List.filterMap_some

namespace Directive

theorem keysTidy_value (name text : Bytes) : (value name text).KeysTidy := by
  intro ks hks
  unfold value at hks
  split at hks
  · cases hks
  split at hks
  · cases hks
  split at hks
  · rw [Json.textItems?_texts] at hks
    rw [← Option.some.inj hks]
    exact .trimmedPieces 44 text
  split at hks
  · split at hks <;> cases hks
  split at hks
  · cases hks
  · cases hks

structure Parsed.Typed (p : Parsed) : Prop where
  standard : ∀ d ∈ p.standard, d.2.KeysTidy
  fallback : ∀ d ∈ p.fallback, d.2.KeysTidy

theorem Parsed.Typed.add {p : Parsed} (h : p.Typed) (l : Line) : (p.add l).Typed := by
  have hput {t : Table Json} (ht : ∀ d ∈ t, d.2.KeysTidy) (n text : Bytes) :
      ∀ d ∈ Table.put n (value n text) t, d.2.KeysTidy := by
    intro d hd
    rcases Table.eq_or_mem_of_mem_put hd with rfl | hd
    · exact keysTidy_value n text
    · exact ht d hd
  cases l with
  | blank => exact h
  | standard n t => exact ⟨hput h.standard n t, h.fallback⟩
  | fallback n t => exact ⟨h.standard, hput h.fallback n t⟩

theorem typed_parseLines {p : Parsed} (h : p.Typed) (ls : List Bytes) :
    (parseLines p ls).Typed := by
  induction ls generalizing p with
  | nil => exact h
  | cons l ls ih =>
    rw [parseLines]
    split
    · exact ih (h.add _)
    · exact ⟨h.standard, h.fallback⟩

theorem typed_parse (content : Bytes) : (parse content).Typed :=
  have hnone : ∀ d ∈ ([] : Table Json), d.2.KeysTidy := fun _ hd => absurd hd List.not_mem_nil
  typed_parseLines ⟨hnone, hnone⟩ _

@[simp] theorem Parsed.content_add (p : Parsed) (l : Line) : (p.add l).content = p.content := by
  cases l <;> rfl

theorem parse_content_parseLines {p : Parsed} {ls : List Bytes} (hp : p.content = [])
    (hls : Bytes.fullLines ls.flatten = ls) :
    parse (parseLines p ls).content = { content := (parseLines p ls).content } := by
  induction ls generalizing p with
  | nil =>
    rw [parseLines, hp]
    rfl
  | cons l ls ih =>
    rw [parseLines]
    cases hl : line? l with
    | some d => exact ih (by rw [p.content_add, hp]) (Bytes.fullLines_flatten_tail hls)
    | none =>
      -- The line that ends the block is the first of what follows it.
      dsimp only
      rw [parse, hls, parseLines, hl]

theorem parse_content (content : Bytes) :
    parse (parse content).content = { content := (parse content).content } :=
  parse_content_parseLines rfl (by rw [Bytes.flatten_fullLines])

end Directive

namespace Entry

/-- What an entry keeps in every form of it that a scan makes. -/
structure SameIdentity (e v : Entry) : Prop where
  uid : v.uid = e.uid
  bookName : v.bookName = e.bookName
  source : v.source = e.source

theorem SameIdentity.key {e v : Entry} (h : SameIdentity e v) : v.key = e.key := by
  simp only [Entry.key, worldKey, h.uid, h.bookName, h.source]

structure BeyondDirectives (e v : Entry) : Prop extends SameIdentity e v where
  useProbability : v.useProbability = e.useProbability
  probability : v.probability = e.probability

theorem beyond_directed (e : Entry) (name : Bytes) (v : Json) :
    BeyondDirectives e (e.directed name v) := by
  unfold directed
  repeat' refine iteInduction (fun _ => ?_) (fun _ => ?_)
  all_goals first
    | exact ⟨⟨rfl, rfl, rfl⟩, rfl, rfl⟩
    | cases v <;> exact ⟨⟨rfl, rfl, rfl⟩, rfl, rfl⟩

theorem beyond_withDirectives (e : Entry) (ds : Table Json) :
    BeyondDirectives e (e.withDirectives ds) := by
  unfold withDirectives
  induction ds generalizing e with
  | nil => exact ⟨⟨rfl, rfl, rfl⟩, rfl, rfl⟩
  | cons d ds ih =>
    have hd := beyond_directed e d.1 d.2
    have hs := ih (e.directed d.1 d.2)
    exact ⟨⟨hs.uid.trans hd.uid, hs.bookName.trans hd.bookName, hs.source.trans hd.source⟩,
      hs.useProbability.trans hd.useProbability, hs.probability.trans hd.probability⟩

theorem beyond_recursiveVariant (e : Entry) : BeyondDirectives e e.recursiveVariant :=
  beyond_withDirectives e e.fallbackDirectives

end Entry
end Lorebook
