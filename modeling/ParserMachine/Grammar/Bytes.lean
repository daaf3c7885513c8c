import ParserMachine.Grammar.Combinators
import ParserMachine.Value.Operations

/-!
# Parsers of bytes
-/

namespace ParserMachine.Build.Bytes

/-- Any byte. -/
def anyByte : Build UInt8 NodeId := satisfyLabeled "any byte" fun _ => true

/-- A byte in hexadecimal, with two digits. -/
def hexByte (b : UInt8) : String :=
  let digits := Nat.toDigits 16 b.toNat
  "0x" ++ String.ofList (List.replicate (2 - digits.length) '0' ++ digits)

/-- A byte from `lo` to `hi`, both included. -/
def byteRange (lo hi : UInt8) : Build UInt8 NodeId :=
  satisfyLabeled ("byte in " ++ hexByte lo ++ "..=" ++ hexByte hi) fun b => lo ≤ b && b ≤ hi

/-- The number that follows another one's digits to the base `base`. -/
def appendDigits (base : Nat) : Value UInt8 → Value UInt8 → Value UInt8
  | .int a, .int b => .int (Int64.ofNat (a.toNatClampNeg * base + b.toNatClampNeg))
  | a, b => .pair a b

/-- Two bytes as a number. -/
def joinBytes : Value UInt8 → Value UInt8 → Value UInt8
  | .tok a, .tok b => .int (Int64.ofNat (Value.bigEndian [a, b]))
  | a, b => .pair a b

/-- A number of two bytes, the higher one first. -/
def beU16 : Build UInt8 NodeId := do
  zipWith joinBytes (← anyByte) (← anyByte)

/-- A number of four bytes, the highest one first. -/
def beU32 : Build UInt8 NodeId := do
  zipWith (appendDigits UInt16.size) (← beU16) (← beU16)

end ParserMachine.Build.Bytes
