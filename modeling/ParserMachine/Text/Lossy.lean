/-!
# Reading bytes as UTF-8, with replacements

Bytes that are well-formed UTF-8 are read as the characters they encode. Where they are not, one
replacement character stands for each longest run of bytes that begins a character and cannot be
continued, or for one byte that begins none.
-/

namespace ParserMachine.Text

/-- Stands for bytes that encode no character. -/
def replacement : Char := '\uFFFD'

/-- What a first byte announces: the bits of the code point it holds, and for each byte that has
to follow the range it must lie in. Only the first continuation byte has a narrower range, which
keeps out overlong forms, surrogates and code points that do not exist. -/
def announce (b : UInt8) : Option (Nat × List (UInt8 × UInt8)) :=
  let any : UInt8 × UInt8 := (0x80, 0xbf)
  if b < 0x80 then some (b.toNat, [])
  else if b < 0xc2 then none
  else if b < 0xe0 then some (b.toNat - 0xc0, [any])
  else if b = 0xe0 then some (0, [(0xa0, 0xbf), any])
  else if b = 0xed then some (0xd, [(0x80, 0x9f), any])
  else if b < 0xf0 then some (b.toNat - 0xe0, [any, any])
  else if b = 0xf0 then some (0, [(0x90, 0xbf), any, any])
  else if b < 0xf4 then some (b.toNat - 0xf0, [any, any, any])
  else if b = 0xf4 then some (4, [(0x80, 0x8f), any, any])
  else none

/-- Reads the bytes that a first byte announced. Gives the character, or the replacement if one
of them is missing, and the bytes after those that were used. -/
def continueChar (code : Nat) : List (UInt8 × UInt8) → List UInt8 → Char × List UInt8
  | [], bytes => (Char.ofNat code, bytes)
  | _ :: _, [] => (replacement, [])
  | (lo, hi) :: ranges, b :: bytes =>
    if lo ≤ b && b ≤ hi then continueChar (code * 64 + (b.toNat - 0x80)) ranges bytes
    else (replacement, b :: bytes)

theorem length_continueChar_le (code : Nat) (ranges : List (UInt8 × UInt8)) (bytes : List UInt8) :
    (continueChar code ranges bytes).2.length ≤ bytes.length := by
  induction ranges generalizing code bytes with
  | nil => exact Nat.le_refl _
  | cons r ranges ih =>
    cases bytes with
    | nil => exact Nat.le_refl _
    | cons b bytes =>
      unfold continueChar
      split
      · exact Nat.le_succ_of_le (ih _ _)
      · exact Nat.le_refl _

/-- The characters that bytes encode, with replacements. -/
def lossy : List UInt8 → List Char
  | [] => []
  | b :: bytes =>
    match announce b with
    | none => replacement :: lossy bytes
    | some (code, ranges) =>
      (continueChar code ranges bytes).1 :: lossy (continueChar code ranges bytes).2
termination_by bytes => bytes.length
decreasing_by
  · exact Nat.lt_succ_self _
  · exact Nat.lt_succ_of_le (length_continueChar_le _ _ _)

end ParserMachine.Text
