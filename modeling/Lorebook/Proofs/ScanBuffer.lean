import Lorebook.Proofs.PassCount
import Lorebook.Proofs.Rolls
import Lorebook.Proofs.Sequences

set_option autoImplicit false

/-!
The buffer that recursive passes scan. It is cut to its limit whenever it grows, and is still the
tail of all contents that have been fed to it, as if they had been joined first and cut once.
-/

namespace Lorebook

theorem Bytes.joinLines_append (xs ys : List Bytes) :
    joinLines (xs ++ ys) = if xs = [] then joinLines ys else if ys = [] then joinLines xs else
      joinLines xs ++ lit "\n" ++ joinLines ys := by
  have hsep : lit "\n" = [newline] := rfl
  induction xs with
  | nil => rfl
  | cons x xs ih =>
    by_cases hx : xs = [] <;> by_cases hy : ys = [] <;>
      simp_all [joinLines, join_cons]

theorem Bytes.joinLines_ne_nil {xs : List Bytes} (hne : xs ≠ []) (h : ∀ x ∈ xs, x ≠ []) :
    joinLines xs ≠ [] := by
  obtain ⟨x, xs, rfl⟩ := List.exists_cons_of_ne_nil hne
  rw [joinLines, join_cons]
  intro hnil
  exact h x List.mem_cons_self (List.append_eq_nil_iff.mp hnil).1

theorem Utf8.isValid_joinLines {xs : List Bytes} (h : ∀ x ∈ xs, isValid x = true) :
    isValid (Bytes.joinLines xs) = true := by
  induction xs with
  | nil => rfl
  | cons x xs ih =>
    obtain ⟨hx, hxs⟩ := List.forall_mem_cons.mp h
    rw [Bytes.joinLines, Bytes.join_cons, isValid_append hx]
    split
    · rfl
    · exact (isValid_append (s := [Bytes.newline]) rfl _).trans (ih hxs)

namespace Scan

theorem head?_trace (su : Setup) {fuel : Nat} (h : 0 < fuel) (s : State) :
    (trace su fuel s).head? = some s := by
  cases fuel with
  | zero => omega
  | succ fuel => rfl

/-- The contents that a pass feeds to the buffer: those of the entries it accepts, in this order,
without the blank ones and those that are kept from recursion. -/
def fedTexts (su : Setup) (s : State) : List Bytes :=
  (((acceptedKeys su s).map (settled su s).entryAt).filter fun e =>
    !e.preventRecursion && !Bytes.isBlank e.content).map (·.content)

section Pass

variable {su : Setup} {s t : State}

theorem fedTexts_ne_nil : ∀ x ∈ fedTexts su s, x ≠ [] := by
  intro x hx
  obtain ⟨e, he, rfl⟩ := List.mem_map.mp hx
  have hcontent := (List.mem_filter.mp he).2
  intro hnil
  simp [hnil, Bytes.isBlank] at hcontent

theorem buffer_note (su : Setup) (s : State) (line : Bytes) : (s.note su line).buffer = s.buffer :=
  (SameReach.note su s line).buffer

theorem buffer_feed (su : Setup) (s : State) (fresh : Bytes) :
    (feed su s fresh).buffer = grown su.scanner.maxBufferBytes s.buffer fresh := by
  have hnote (p : Prop) [Decidable p] (u : State) (line : Bytes) :
      (if p then u.note su line else u).buffer = u.buffer := by
    split
    · exact buffer_note su u line
    · rfl
  exact hnote _ _ _

theorem buffer_widen (su : Setup) (s : State) : (widen su s).state.buffer = s.buffer := by
  unfold widen
  split
  · exact buffer_note su _ _
  · rfl

theorem buffer_escalate (su : Setup) (s : State) (accepted : List Bytes) :
    (escalate su s accepted).state.buffer = s.buffer ∨ (escalate su s accepted).state.buffer
      = grown su.scanner.maxBufferBytes s.buffer (freshContent s accepted) := by
  unfold escalate
  dsimp only
  split
  · split
    · exact .inl (buffer_note su s _)
    · exact .inr (buffer_feed su s _)
  · split
    · exact .inl rfl
    · exact .inl (buffer_widen su s)

theorem length_buffer_step (h : s.buffer.length ≤ su.scanner.maxBufferBytes) :
    (step su s).state.buffer.length ≤ su.scanner.maxBufferBytes := by
  have hsettled : (settled su s).buffer = s.buffer := (SameReach.settled su s).buffer
  rw [step_eq]
  split
  · rw [Step.state, (SameReach.enlisted su s).buffer]
    exact h
  split
  · rw [Step.state, buffer_note, hsettled]
    exact h
  · rcases buffer_escalate su (settled su s) (acceptedKeys su s) with hb | hb
    · rw [acceptedKeys] at hb
      rw [hb, hsettled]
      exact h
    · rw [acceptedKeys] at hb
      rw [hb]
      exact Utf8.length_tail_le _ _

/-- In a recursive scan that goes on, new content has been fed. -/
theorem buffer_of_escalate {accepted : List Bytes} (hrec : su.recursive = true)
    (h : escalate su s accepted = .again t) :
    t.buffer = if freshContent s accepted = [] then s.buffer else
      grown su.scanner.maxBufferBytes s.buffer (freshContent s accepted) := by
  unfold escalate at h
  simp only [hrec, Bool.true_and, Bool.not_eq_true', List.isEmpty_eq_false_iff] at h
  split at h
  · next hfresh =>
    rw [if_neg hfresh]
    split at h
    · cases h
    · cases h
      exact buffer_feed su s _
  · next hfresh =>
    rw [if_pos (not_not.mp hfresh)]
    split at h
    · cases h
      rfl
    · have hw := buffer_widen su s
      rw [h] at hw
      exact hw

theorem buffer_of_again (hrec : su.recursive = true) (h : step su s = .again t) :
    t.buffer = if fedTexts su s = [] then s.buffer else
      grown su.scanner.maxBufferBytes s.buffer (Bytes.joinLines (fedTexts su s)) := by
  rw [step_eq] at h
  split at h
  · cases h
  split at h
  · cases h
  have hfed : Bytes.joinLines (fedTexts su s) = [] ↔ fedTexts su s = [] := by
    constructor
    · intro hnil
      by_contra hne
      exact Bytes.joinLines_ne_nil hne fedTexts_ne_nil hnil
    · intro hnil
      rw [hnil]
      rfl
  have hfresh : freshContent (settled su s) (accept su (resolved su s) (kept su s)).2
      = Bytes.joinLines (fedTexts su s) := rfl
  rw [buffer_of_escalate hrec h, hfresh, (SameReach.settled su s).buffer, if_congr hfed rfl rfl]

/-- The buffer at the start of a pass, where what the passes before it have fed is UTF-8. -/
def Tracks (su : Setup) (passes : List State) (s : State) : Prop :=
  (∀ x ∈ passes.flatMap (fedTexts su), Utf8.isValid x = true) →
    s.buffer = Utf8.tail (Bytes.joinLines (passes.flatMap (fedTexts su))) su.scanner.maxBufferBytes

/-- Contents can be cut with those before them, or after these have been cut. -/
theorem grown_tail {fed fresh : List Bytes} {limit : Nat} (hlimit : 4 ≤ limit)
    (hfed : ∀ x ∈ fed, x ≠ []) (hne : fresh ≠ [])
    (hvalid : ∀ x ∈ fed ++ fresh, Utf8.isValid x = true) :
    grown limit (Utf8.tail (Bytes.joinLines fed) limit) (Bytes.joinLines fresh)
      = Utf8.tail (Bytes.joinLines (fed ++ fresh)) limit := by
  rw [List.forall_mem_append] at hvalid
  have hold := Utf8.isValid_joinLines hvalid.1
  have hnew := Utf8.isValid_joinLines hvalid.2
  rw [Bytes.joinLines_append, if_neg hne]
  by_cases hnil : fed = []
  · subst hnil
    rfl
  · have hbuffer : (Utf8.tail (Bytes.joinLines fed) limit).isEmpty = false := by
      rw [List.isEmpty_eq_false_iff]
      exact Utf8.tail_ne_nil hold (Bytes.joinLines_ne_nil hnil hfed) hlimit
    have hline : Utf8.isValid (lit "\n" ++ Bytes.joinLines fresh) = true :=
      (Utf8.isValid_append (s := lit "\n") rfl _).trans hnew
    rw [if_neg hnil, grown, hbuffer, if_neg Bool.false_ne_true, List.append_assoc,
      List.append_assoc, Utf8.tail_append_tail hold hline]

theorem Tracks.again {passes : List State} (h : Tracks su passes s) (hrec : su.recursive = true)
    (hlimit : 4 ≤ su.scanner.maxBufferBytes) (hst : step su s = .again t) :
    Tracks su (passes ++ [s]) t := by
  intro hvalid
  rw [List.flatMap_append, List.flatMap_singleton] at hvalid ⊢
  have hbuffer := h (List.forall_mem_append.mp hvalid).1
  have hfed : ∀ x ∈ passes.flatMap (fedTexts su), x ≠ [] := by
    intro x hx
    obtain ⟨r, _, hr⟩ := List.mem_flatMap.mp hx
    exact fedTexts_ne_nil x hr
  rw [buffer_of_again hrec hst, hbuffer]
  split
  · next hnil => rw [hnil, List.append_nil]
  · next hne => exact grown_tail hlimit hfed hne hvalid

end Pass

section Evaluate

variable {sc : Scanner} {books : List Book} {o : Options} {vars : Variables} {random : Random}
  {su : Setup} {s : State}

/-- The buffer of a recursive scan never exceeds its limit. Where what is fed to it is UTF-8, and
one character at least is within the limit, each pass begins with the tail of all that the passes
before it have fed, which is the longest ending of this text that starts with a character. -/
theorem buffer_eq_tail (h : opening? sc books o vars random = some (su, s))
    (hrec : su.recursive = true) :
    (∀ t ∈ trace su (passBound su) s, t.buffer.length ≤ sc.maxBufferBytes ∧
      (step su t).state.buffer.length ≤ sc.maxBufferBytes) ∧
    (4 ≤ sc.maxBufferBytes →
      ∀ before t after, trace su (passBound su) s = before ++ t :: after →
        (∀ x ∈ before.flatMap (fedTexts su), Utf8.isValid x = true) →
        t.buffer
          = Utf8.tail (Bytes.joinLines (before.flatMap (fedTexts su))) sc.maxBufferBytes) ∧
    ∀ x limit, Utf8.isValid x = true → Utf8.Fits x limit (Utf8.tail x limit) ∧
      ∀ v, Utf8.Fits x limit v → v.length ≤ (Utf8.tail x limit).length := by
  obtain ⟨fx, log, rfl, rfl⟩ := opening?_eq_some h
  refine ⟨fun t ht => ?_, fun hlimit before t after hsplit hvalid => ?_, fun x limit hx => ?_⟩
  · have hstart : t.buffer.length ≤ sc.maxBufferBytes := by
      refine trace_keeps (P := fun t => t.buffer.length ≤ sc.maxBufferBytes)
        (fun r u hr hru => ?_) _ _ (Nat.zero_le _) t ht
      have hu : (step (setup sc books o fx) r).state.buffer.length ≤ sc.maxBufferBytes :=
        length_buffer_step hr
      rwa [hru] at hu
    exact ⟨hstart, length_buffer_step hstart⟩
  · have hbegin : Tracks (setup sc books o fx) [] (.initial (setup sc books o fx) random log) := by
      intro _
      rfl
    have hbefore := trace_history (fun _ _ _ hr hst => hr.again hrec hlimit hst) hbegin hsplit
    exact hbefore hvalid
  · exact ⟨Utf8.fits_tail hx limit, fun v hv => hv.length_le_tail hx⟩

def umlautBook : Book where
  recursiveScanning := true
  entries := [
    { uid := lit "1", constant := true,
      content := lit "drag" ++ [0xC3, 0xB6, 0xC3, 0xB6] ++ lit "n" }]

/-- Four bytes have no room for the first of these characters, and less than half of it is lost. -/
theorem buffer_eq_tail_umlautBook :
    let sc : Scanner := { Scanner.standard with maxBufferBytes := 4 }
    ∃ su s t, opening? sc [umlautBook] {} [] (.ofList []) = some (su, s) ∧ su.recursive = true ∧
      trace su (passBound su) s = [s, t] ∧ (∀ x ∈ fedTexts su s, Utf8.isValid x = true) ∧
      t.buffer = [0xC3, 0xB6] ++ lit "n" ∧
      t.buffer = Utf8.tail (Bytes.joinLines (fedTexts su s)) 4 := by
  intro sc
  have hcheck : (opening? sc [umlautBook] {} [] (.ofList [])).any (fun p =>
      p.1.recursive && (trace p.1 (passBound p.1) p.2).length == 2 &&
        (fedTexts p.1 p.2).all (Utf8.isValid ·) &&
        Utf8.tail (Bytes.joinLines (fedTexts p.1 p.2)) 4 == [0xC3, 0xB6] ++ lit "n") = true := by
    decide +kernel
  obtain ⟨⟨su, s⟩, hopen, hcheck⟩ := (Option.any_eq_true _ _).mp hcheck
  simp only [Bool.and_eq_true, beq_iff_eq, List.all_eq_true] at hcheck
  obtain ⟨⟨⟨hrec, hlength⟩, hvalid⟩, htail⟩ := hcheck
  obtain ⟨r, t, htrace⟩ := List.length_eq_two.mp hlength
  obtain rfl : s = r := by
    have hfirst := head?_trace su (passBound_pos su) s
    rw [htrace] at hfirst
    exact (Option.some.inj hfirst).symm
  have hbuffer := (buffer_eq_tail hopen hrec).2.1 (by decide) [s] t [] htrace (by simpa using hvalid)
  rw [List.flatMap_singleton] at hbuffer
  exact ⟨su, s, t, hopen, hrec, htrace, hvalid, hbuffer.trans htail, hbuffer⟩

end Evaluate
end Scan
end Lorebook
