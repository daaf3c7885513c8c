import ParserMachine.Text.Quoted
import ParserMachine.Text.Lossy

/-!
# Tokens

What a parser reads, one at a time: characters, bytes, or any ordered type of one's own. The order
has to be lawful, because sets of expected tokens and the choice between two unexpected ones are
made by it.
-/

namespace ParserMachine

/-- A type of tokens: a lawful total order, and how a run of tokens is named in messages. -/
class Token (τ : Type) extends Ord τ, Std.TransOrd τ, Std.LawfulEqOrd τ where
  /-- Whether two tokens are the same. -/
  decEq : DecidableEq τ
  /-- How a run of tokens is named in messages. -/
  describe : List τ → String

instance {τ : Type} [Token τ] : DecidableEq τ := Token.decEq

namespace Token

/-- Names a run of tokens by naming each, with a space between. -/
def describeEach {τ : Type} (name : τ → String) (ts : List τ) : String :=
  String.intercalate " " (ts.map name)

end Token

/-- Characters are named as quoted text. -/
instance : Token Char where
  decEq := inferInstance
  describe := Text.quoted

/-- Bytes are named as the quoted text that they encode, after a `b`. -/
instance : Token UInt8 where
  decEq := inferInstance
  describe bs := "b" ++ Text.quoted (Text.lossy bs)

/-- Numbers are named one by one, each after a `#`. -/
instance : Token Int64 where
  decEq := inferInstance
  describe := Token.describeEach fun n => "#" ++ toString n.toInt

end ParserMachine
