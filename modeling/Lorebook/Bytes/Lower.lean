import Lorebook.Bytes

set_option autoImplicit false

/-!
Lower-casing of UTF-8 text, code point by code point. All case pairs of the scripts covered (Latin
with its first extension, Greek, Cyrillic) are written in two bytes, so the length stays.
-/

namespace Lorebook.Bytes

/-- The lower-case partner of a code point from U+0080 to U+07FF; a code point without one stays. -/
def lowerCodePoint (c : Nat) : Nat :=
  if 0xC0 ≤ c ∧ c ≤ 0xDE ∧ c ≠ 0xD7 then c + 32
  else if (0x100 ≤ c ∧ c ≤ 0x12F) ∨ (0x132 ≤ c ∧ c ≤ 0x137) ∨ (0x14A ≤ c ∧ c ≤ 0x177) then
    c + (1 - c % 2)
  else if (0x139 ≤ c ∧ c ≤ 0x148) ∨ (0x179 ≤ c ∧ c ≤ 0x17E) then c + c % 2
  else if c = 0x178 then 0xFF
  else if 0x391 ≤ c ∧ c ≤ 0x3AB ∧ c ≠ 0x3A2 then c + 32
  else if 0x400 ≤ c ∧ c ≤ 0x40F then c + 80
  else if 0x410 ≤ c ∧ c ≤ 0x42F then c + 32
  else c

def toLowerText : Bytes → Bytes
  | [] => []
  | [b] => [toLowerByte b]
  | a :: b :: r =>
    if 0xC2 ≤ a ∧ a ≤ 0xDF ∧ 0x80 ≤ b ∧ b ≤ 0xBF then
      let c := lowerCodePoint ((a.toNat - 0xC0) * 64 + (b.toNat - 0x80))
      UInt8.ofNat (0xC0 + c / 64) :: UInt8.ofNat (0x80 + c % 64) :: toLowerText r
    else toLowerByte a :: toLowerText (b :: r)

@[simp] theorem length_toLowerText (s : Bytes) : (toLowerText s).length = s.length := by
  fun_induction toLowerText s <;> simp_all

end Lorebook.Bytes
