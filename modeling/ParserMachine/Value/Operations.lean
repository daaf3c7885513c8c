import ParserMachine.Value

/-!
# Operations on values

Total functions on values for use in grammars. Where an operation has no sense for a value, the
comment says what comes instead.
-/

namespace ParserMachine.Value

variable {τ : Type} [Token τ]

/-- Adds one to an integer, wrapping; other values stay as they are. -/
def increment : Value τ → Value τ
  | .int n => .int (n + 1)
  | v => v

/-- The sum of two integers, wrapping; of other values the pair. -/
def add : Value τ → Value τ → Value τ
  | .int a, .int b => .int (a + b)
  | a, b => .pair a b

/-- A list from its end to its beginning; other values stay as they are. -/
def reverse : Value τ → Value τ
  | .list vs => .list vs.reverse
  | v => v

/-- Odd integers as left values, everything else as right ones. -/
def parity : Value τ → Value τ
  | .int n => if n % 2 = 0 then .right (.int n) else .left (.int n)
  | v => .right v

/-- Whether the value is an even integer. -/
def isEven : Value τ → Bool
  | .int n => n % 2 = 0
  | _ => false

/-- Whether the value is an integer less than `bound`. -/
def isBelow (bound : Int64) : Value τ → Bool
  | .int n => n < bound
  | _ => false

/-- The modulus of `number`. -/
def numberModulus : Nat := 1000000007

/-- The number that the decimal digits of a text spell, other characters left out, modulo
`numberModulus`. -/
def number (text : String) : Value τ :=
  let digits := text.toList.filter fun c => '0' ≤ c && c ≤ '9'
  .int (Int64.ofNat (digits.foldl (fun n c => (n * 10 + (c.toNat - 48)) % numberModulus) 0))

/-- The number whose digits to the base 256 are the given bytes, the highest first. -/
def bigEndian (bytes : List UInt8) : Nat := bytes.foldl (fun n b => n * 256 + b.toNat) 0

end ParserMachine.Value
