import Lorebook.KeyMatch
import Lorebook.Proofs.Tables

set_option autoImplicit false

/-!
Compiled patterns are kept by name, and a name tells what was compiled: the flags of a literal hold
no colon, and no literal's name begins like that of a whole key. So whatever a matcher was asked
before, it answers as a fresh one does, and as the matching without a cache does.
-/

namespace Lorebook

section Names

theorem Literal.flags_of_ofKey? {key : Bytes} {l : Literal} (h : ofKey? key = some l) :
    ∀ b ∈ l.flags, b ∈ knownFlags := by
  unfold ofKey? at h
  split at h
  · split at h
    · next body flags _ =>
      split at h
      · next hknown =>
        cases h
        simp only [Bool.and_eq_true, List.all_eq_true, decide_eq_true_eq] at hknown
        exact hknown.2
      · cases h
    · cases h
  · cases h

inductive Request.Arises : Request → Prop
  | literal {key : Bytes} {l : Literal} : Literal.ofKey? key = some l → Arises (.ofLiteral l)
  | pattern (ignoreCase : Bool) (key : Bytes) : Arises (.ofPattern ignoreCase key)

theorem Request.literal_eq {l l' : Literal} (hl : ∀ b ∈ l.flags, b ∈ Literal.knownFlags)
    (hl' : ∀ b ∈ l'.flags, b ∈ Literal.knownFlags)
    (h : (ofLiteral l).name = (ofLiteral l').name) : l = l' := by
  have hcolon : ∀ b ∈ Literal.knownFlags, (b != 58) = true := by decide +kernel
  have hname : l.flags ++ 58 :: l.body = l'.flags ++ 58 :: l'.body := by
    have hcut : lit "L" ++ l.flags ++ lit ":" ++ l.body
        = lit "L" ++ l'.flags ++ lit ":" ++ l'.body := h
    simp only [List.append_assoc, List.append_cancel_left_eq] at hcut
    exact hcut
  have hflags : l.flags = l'.flags := by
    have htake := congrArg (List.takeWhile (· != 58)) hname
    rw [List.takeWhile_append_of_pos fun b hb => hcolon b (hl b hb),
      List.takeWhile_append_of_pos fun b hb => hcolon b (hl' b hb)] at htake
    simpa using htake
  obtain ⟨body, flags⟩ := l
  obtain ⟨body', flags'⟩ := l'
  dsimp only at hname hflags
  subst hflags
  simpa using hname

theorem Request.eq_of_name {r r' : Request} (hr : r.Arises) (hr' : r'.Arises)
    (h : r.name = r'.name) : r = r' := by
  cases hr with
  | @literal _ l hl =>
    cases hr' with
    | @literal _ l' hl' =>
      rw [literal_eq (Literal.flags_of_ofKey? hl) (Literal.flags_of_ofKey? hl') h]
    | pattern i k => cases i <;> simp [ofLiteral, ofPattern, lit] at h
  | pattern i k =>
    cases hr' with
    | literal _ => cases i <;> simp [ofLiteral, ofPattern, lit] at h
    | pattern i' k' => cases i <;> cases i' <;> simp_all [ofPattern, lit]

end Names

namespace PatternCache

/-- What is kept under the name of a request is what the request compiles to. -/
def Faithful (c : PatternCache) : Prop :=
  ∀ r : Request, r.Arises → ∀ p, Table.get? r.name c = some p → p = r.compile?

variable {c : PatternCache}

theorem faithful_nil : Faithful [] := by
  intro r _ p h
  cases h

theorem Faithful.compile? (h : c.Faithful) {r : Request} (hr : r.Arises) :
    (c.compile? r).1 = r.compile? ∧ (c.compile? r).2.Faithful := by
  unfold PatternCache.compile?
  split
  · next p hp => exact ⟨h r hr p hp, h⟩
  · constructor
    · rfl
    · intro r' hr' p hp
      rw [Table.get?_put] at hp
      split at hp
      · next hname =>
        rw [← Request.eq_of_name hr hr' hname]
        simpa using hp.symm
      · exact h r' hr' p hp

theorem Faithful.literal? (h : c.Faithful) (key : Bytes) :
    (c.literal? key).1 = KeyMatch.literalPattern? key ∧ (c.literal? key).2.Faithful := by
  unfold PatternCache.literal? KeyMatch.literalPattern?
  cases hkey : Literal.ofKey? key with
  | none => exact ⟨rfl, h⟩
  | some l => exact h.compile? (.literal hkey)

theorem Faithful.matchesCached (h : c.Faithful) (o : KeyOptions) (key text : Bytes) :
    (KeyMatch.matchesCached o key text c).1 = KeyMatch.keyMatches o key text ∧
      (KeyMatch.matchesCached o key text c).2.Faithful := by
  unfold KeyMatch.matchesCached KeyMatch.keyMatches
  split
  · exact ⟨rfl, h⟩
  obtain ⟨hliteral, hfaithful⟩ := h.literal? key
  rw [← hliteral]
  generalize c.literal? key = found at hfaithful
  obtain ⟨p?, c'⟩ := found
  cases p? with
  | some p => exact ⟨rfl, hfaithful⟩
  | none =>
    dsimp only
    split
    · obtain ⟨hpattern, hkept⟩ := hfaithful.compile? (.pattern (!o.caseSensitive) key)
      exact ⟨by rw [hpattern], hkept⟩
    · exact ⟨rfl, hfaithful⟩

end PatternCache

inductive MatcherCall where
  | matching (o : KeyOptions) (key text : Bytes)
  | isLiteral (key : Bytes)
  | clear
  deriving DecidableEq

namespace MatcherCall

def run (c : PatternCache) : MatcherCall → Option Bool × PatternCache
  | matching o key text =>
    let (found, c) := KeyMatch.matchesCached o key text c
    (some found, c)
  | isLiteral key =>
    let (p?, c) := c.literal? key
    (some p?.isSome, c)
  | clear => (none, [])

def plain : MatcherCall → Option Bool
  | matching o key text => some (KeyMatch.keyMatches o key text)
  | isLiteral key => some (KeyMatch.literalPattern? key).isSome
  | clear => none

def runAll (c : PatternCache) : List MatcherCall → List (Option Bool)
  | [] => []
  | call :: calls => (call.run c).1 :: runAll (call.run c).2 calls

theorem run_eq_plain {c : PatternCache} (h : c.Faithful) (call : MatcherCall) :
    (call.run c).1 = call.plain ∧ (call.run c).2.Faithful := by
  cases call with
  | matching o key text =>
    obtain ⟨hfound, hkept⟩ := h.matchesCached o key text
    exact ⟨congrArg some hfound, hkept⟩
  | isLiteral key =>
    obtain ⟨hfound, hkept⟩ := h.literal? key
    exact ⟨congrArg (fun p? => some (Option.isSome p?)) hfound, hkept⟩
  | clear => exact ⟨rfl, PatternCache.faithful_nil⟩

theorem runAll_eq_plain {c : PatternCache} (h : c.Faithful) (calls : List MatcherCall) :
    runAll c calls = calls.map plain := by
  induction calls generalizing c with
  | nil => rfl
  | cons call calls ih =>
    obtain ⟨hanswer, hkept⟩ := run_eq_plain h call
    rw [runAll, hanswer, ih hkept, List.map_cons]

/-- One matcher answers every call as a fresh matcher does, and both as matching without a cache. -/
theorem runAll_fresh (calls : List MatcherCall) :
    runAll [] calls = calls.map (fun call => (call.run []).1) ∧
      runAll [] calls = calls.map plain := by
  have hplain := runAll_eq_plain PatternCache.faithful_nil calls
  refine ⟨?_, hplain⟩
  rw [hplain]
  apply List.map_congr_left
  intro call _
  rw [(run_eq_plain PatternCache.faithful_nil call).1]

end MatcherCall
end Lorebook
