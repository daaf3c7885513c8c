/-!
# Why a grammar has no program
-/

namespace ParserMachine

/-- A reason why a grammar cannot be compiled. -/
inductive CompileError where
  /-- A forward reference was never defined. -/
  | undefinedReference
  /-- Forward references lead only to one another. -/
  | cyclicReference
  /-- A repeated parser of this name succeeds without consuming input, so it would never end. -/
  | nonConsumingRepeat (name : String)
  /-- A jump or call goes to a label that marks nothing. -/
  | unresolvedLabel (label : Nat)
deriving DecidableEq

namespace CompileError

/-- The kind of the error. -/
def kind : CompileError → String
  | undefinedReference => "UndefinedReference"
  | cyclicReference => "CyclicReference"
  | nonConsumingRepeat _ => "NonConsumingRepeat"
  | unresolvedLabel _ => "UnresolvedLabel"

/-- The error in words. -/
def message : CompileError → String
  | undefinedReference => "reference to a parser that was never defined"
  | cyclicReference => "a forward reference refers to itself without any parser in between"
  | nonConsumingRepeat name =>
    "\x60many\x60 over a parser (" ++ name ++ ") that succeeds without consuming input"
  | unresolvedLabel label => "jump to unresolved label " ++ toString label

end CompileError

end ParserMachine
