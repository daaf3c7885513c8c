import ParserMachine.Text.Quoted
import ParserMachine.SortedSet

/-!
# Deliberate failures

A grammar may fail on purpose: with messages, by naming what it found, or with an error of the
user's own. A user's error carries an identity, and two of them are the same only if their
identities are, whatever their texts. A run may make one anew (`CustomError.renew`); the new one is
another error than the old one and than those made at other times.
-/

namespace ParserMachine

/-- An error of the user's own, told apart by its identity. -/
structure CustomError where
  /-- Its text in messages. -/
  text : String
  /-- What tells it apart from others of the same text. -/
  id : Nat
  /-- At which time a run made it anew; 0 if none did. -/
  time : Nat := 0
deriving DecidableEq

/-- The error made anew at a time. -/
def CustomError.renew (time : Nat) (e : CustomError) : CustomError := { e with time }

/-- One line of a deliberate error. -/
inductive Detail where
  /-- A message. -/
  | message (text : String)
  /-- An error of the user's own. -/
  | custom (e : CustomError)
deriving DecidableEq

namespace Detail

/-- Its text in messages. -/
def render : Detail → String
  | message text => text
  | custom e => e.text

/-- The line with a user's error made anew. -/
def renew (time : Nat) : Detail → Detail
  | message text => message text
  | custom e => custom (e.renew time)

/-- Messages come before user errors; each are ordered by their text, and user errors of one text
by their identity. -/
instance : Ord Detail where
  compare
    | .message a, .message b => compare a b
    | .message _, .custom _ => .lt
    | .custom _, .message _ => .gt
    | .custom a, .custom b =>
      (compare a.text b.text).then ((compare a.id b.id).then (compare a.time b.time))

instance : Std.OrientedOrd Detail where
  eq_swap {a b} :=
    match a, b with
    | .message x, .message y => Std.OrientedOrd.eq_swap (a := x) (b := y)
    | .message _, .custom _ | .custom _, .message _ => rfl
    | .custom x, .custom y => by
      show (compare x.text y.text).then ((compare x.id y.id).then (compare x.time y.time)) =
        ((compare y.text x.text).then ((compare y.id x.id).then (compare y.time x.time))).swap
      rw [Ordering.swap_then, Ordering.swap_then, ← Std.OrientedOrd.eq_swap,
        ← Std.OrientedOrd.eq_swap, ← Std.OrientedOrd.eq_swap]

instance : Std.TransOrd Detail where
  isLE_trans {a b c} hab hbc :=
    match a, b, c, hab, hbc with
    | .message _, .message _, .message _, hab, hbc =>
      Std.TransOrd.isLE_trans (α := String) hab hbc
    | .message _, _, .custom _, _, _ => rfl
    | .custom _, .message _, _, hab, _ => by cases hab
    | _, .custom _, .message _, _, hbc => by cases hbc
    | .custom x, .custom y, .custom z, hab, hbc =>
      let lex := compareLex (compareOn CustomError.text)
        (compareLex (compareOn CustomError.id) (compareOn CustomError.time))
      (inferInstance : Std.TransCmp lex).isLE_trans (a := x) (b := y) (c := z) hab hbc

instance : Std.LawfulEqOrd Detail where
  compare_self {a} :=
    match a with
    | .message x => Std.compare_self (a := x)
    | .custom x => by
      show (compare x.text x.text).then ((compare x.id x.id).then (compare x.time x.time)) = .eq
      rw [Std.compare_self, Std.compare_self, Std.compare_self]
      rfl
  eq_of_compare {a b} h :=
    match a, b, h with
    | .message _, .message _, h => congrArg _ (Std.LawfulEqOrd.eq_of_compare (α := String) h)
    | .custom ⟨_, _, _⟩, .custom ⟨_, _, _⟩, h => by
      obtain ⟨ht, h⟩ := Ordering.then_eq_eq.1 h
      obtain ⟨hi, hr⟩ := Ordering.then_eq_eq.1 h
      cases Std.LawfulEqOrd.eq_of_compare ht
      cases Std.LawfulEqOrd.eq_of_compare hi
      cases Std.LawfulEqOrd.eq_of_compare hr
      rfl

end Detail

/-- A way of failing on purpose. -/
inductive Failure where
  /-- With messages. -/
  | message (texts : List String)
  /-- By naming what was found. -/
  | unexpected (name : String)
  /-- With an error of the user's own. -/
  | custom (e : CustomError)
deriving DecidableEq

/-- The failure as a term, its texts quoted; the identity of a user's error is not shown. -/
def Failure.render : Failure → String
  | message texts =>
    "Message([" ++ String.intercalate ", " (texts.map fun s => Text.quoted s.toList) ++ "])"
  | unexpected name => "Unexpected(" ++ Text.quoted name.toList ++ ")"
  | custom _ => "Custom(CustomError@_)"

end ParserMachine
