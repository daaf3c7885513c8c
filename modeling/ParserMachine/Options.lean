/-!
# Compile options

Which transformations the compiler applies. None of them changes what a grammar accepts.
-/

namespace ParserMachine

/-- Which transformations the compiler applies. -/
structure Options where
  /-- Whether expressions are simplified. -/
  optimize : Bool := true
  /-- Whether alternatives with distinct first tokens are chosen by a table. -/
  dispatchTables : Bool := true
  /-- Whether the repetition of a one-token parser is one instruction. -/
  fuseRepetition : Bool := true
  /-- Whether neighbouring instructions are joined. -/
  fuseInstructions : Bool := true
  /-- Subroutines of at most so many instructions are inlined; zero turns inlining off. -/
  inlineThreshold : Nat := 4
  /-- How often a transformation is repeated at most while it still changes something; zero counts
  as one. -/
  maxPasses : Nat := 8
deriving DecidableEq

namespace Options

/-- Every transformation off. -/
def unoptimized : Options :=
  { optimize := false
    dispatchTables := false
    fuseRepetition := false
    fuseInstructions := false
    inlineThreshold := 0 }

/-- How often a transformation runs at most. -/
def passes (o : Options) : Nat := max o.maxPasses 1

end Options

end ParserMachine
