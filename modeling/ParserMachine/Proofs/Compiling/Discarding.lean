import ParserMachine.Proofs.Generation.Success
import ParserMachine.Proofs.Linking.Reaching
import ParserMachine.Proofs.Linking.Within
import ParserMachine.Proofs.Typing.Grammars

/-!
# Results that are discarded

The code of an expression whose result is not needed does what its other code does, but for the result
(`Bound.Typed.discarding_keeps_course`): begun in the same state of the machine, with whatever is on the stacks, both
end or none does (`State.SameCourse`).
-/

namespace ParserMachine

variable {τ : Type} [Token τ]

/-- Two machines take the same course from a state, up to the positions `i` and `j`, and the first one pushes a value
where it succeeds, which the second one does not. -/
inductive State.SameCourse (s : State τ) (f g : State τ → Option (State τ)) (i j : Nat) : Prop where
  /-- Both succeed, with the same reading. -/
  | done (v : Value τ) (r : Reading τ) (hf : Ends f s (((s.read r).push v).goto i)) (hg : Ends g s ((s.read r).goto j))
  /-- Both fail with the same error and the same reading, and go on at the same handler. -/
  | failed (e : ParseError τ) (r : Reading τ) (t u : State τ) (hf : Ends f s t) (hg : Ends g s u)
    (ht : s.Escapes e r t) (hu : s.Escapes e r u)
  /-- Neither comes to an end. -/
  | endless (hf : ∀ n, Lasts f n s) (hg : ∀ n, Lasts g n s)

namespace Bound

variable {discard : Bool} {o : Options} {b : Bound τ} {a : Assembly τ} {p : Program τ} {s : State τ}

/-- The evaluation of the main expression where the machine stands. -/
def evalIn (o : Options) (b : Bound τ) (s : State τ) (depth : Nat) : Option (Reply τ) :=
  b.main.evalAt ⟨o, b.subroutines.toArray⟩ s.input depth s.reading

namespace GeneratesIn

variable (h : b.GeneratesIn discard o a) (hlink : a.link = .ok p) (hs : s.Begins)
include h hlink hs

theorem ends_of_done {depth : Nat} {v : Value τ} {r : Reading τ} (hreply : b.evalIn o s depth = some (.done v r)) :
    Ends (p.stepWithin (a.around s)) s ((s.succeed discard v r).goto (Code.size a.main)) := by
  have hanswers := h.answers_begin hs depth
  rw [show b.main.evalAt _ _ depth _ = _ from hreply] at hanswers
  exact Assembly.ends_of_succeeds h.sound hlink hs.pc hs.status hanswers

theorem exists_ends_of_failed {depth : Nat} {e : ParseError τ} {r : Reading τ}
    (hreply : b.evalIn o s depth = some (.failed e r)) :
    ∃ t, Ends (p.stepWithin (a.around s)) s t ∧ s.Escapes e r t := by
  have hanswers := h.answers_begin hs depth
  rw [show b.main.evalAt _ _ depth _ = _ from hreply] at hanswers
  obtain ⟨t, hover, rfl, hreach⟩ := hanswers
  exact Assembly.exists_ends_of_fails h.sound hlink hs.pc hs.status hover hreach

theorem lasts_of_none (hnone : ∀ depth, b.evalIn o s depth = none) (n : Nat) :
    Lasts (p.stepWithin (a.around s)) n s := by
  refine Assembly.lasts_within h.sound hlink hs.pc hs.status (fun depth => ?_) n
  have hanswers := h.answers_begin hs depth
  rw [show b.main.evalAt _ _ depth _ = _ from hnone depth] at hanswers
  exact hanswers

end GeneratesIn

/-- Discard mode agrees with value mode. The code of typed trees whose result is needed (`P`) and their code whose
result is not needed (`D`) take the same course from every state in which they may be begun. -/
theorem Typed.discarding_keeps_course {S : Nat → Value τ → Prop} (htyped : b.Typed S) (hclosed : b.Closed)
    (o : Options) :
    ∃ a d P D, b.generateIn false o = .ok a ∧ a.link = .ok P ∧ b.generateIn true o = .ok d ∧ d.link = .ok D ∧
      ∀ s : State τ, s.Begins →
        s.SameCourse (P.stepWithin (a.around s)) (D.stepWithin (d.around s)) (Code.size a.main) (Code.size d.main) := by
  obtain ⟨a, ha⟩ := hclosed.exists_generateIn false o
  obtain ⟨d, hd⟩ := hclosed.exists_generateIn true o
  have hvalue := generatesIn_of_generateIn ha
  have hdiscard := generatesIn_of_generateIn hd
  obtain ⟨P, hP⟩ := hvalue.sound.exists_link
  obtain ⟨D, hD⟩ := hdiscard.sound.exists_link
  refine ⟨a, d, P, D, ha, hP, hd, hD, fun s hs => ?_⟩
  by_cases hends : ∃ depth reply, b.evalIn o s depth = some reply
  · obtain ⟨depth, reply, hreply⟩ := hends
    cases reply with
    | done v r => exact .done v r (hvalue.ends_of_done hP hs hreply) (hdiscard.ends_of_done hD hs hreply)
    | failed e r =>
      obtain ⟨t, hf, ht⟩ := hvalue.exists_ends_of_failed hP hs hreply
      obtain ⟨u, hg, hu⟩ := hdiscard.exists_ends_of_failed hD hs hreply
      exact .failed e r t u hf hg ht hu
    | stuck => exact absurd hreply (htyped.ne_stuck htyped.main o s.input depth s.reading)
  · have hnone (depth : Nat) : b.evalIn o s depth = none :=
      Option.eq_none_iff_forall_ne_some.2 fun reply hreply => hends ⟨depth, reply, hreply⟩
    exact .endless (hvalue.lasts_of_none hP hs hnone) (hdiscard.lasts_of_none hD hs hnone)

/-- A pair of letters, of which the first is read by a subroutine, or any number of these. -/
def pairOrRun : Bound Char where
  main := .alt
    (.attempt (.seq (.both .pair) (.leaf (.call 0 false)) (.leaf (.single 'b' (ExpectedSet.tokens ['b'])))))
    (.many (.leaf (.call 0 false)))
  subroutines := [⟨.leaf (.single 'a' (ExpectedSet.tokens ['a'])), false⟩]

/-- In the middle of the input, with a value, a position to return to and a handler on the stacks. -/
def pairOrRunState : State Char where
  input := #['x', 'a', 'a', 'b']
  more := false
  offset := 1
  data := .push .unit .empty
  calls := .push 40 .empty
  handlers := [⟨60, 1, 1, 0⟩]

theorem discarding_keeps_course_pairOrRun :
    ∃ a d P D, pairOrRun.generateIn false {} = .ok a ∧ a.link = .ok P ∧ pairOrRun.generateIn true {} = .ok d ∧
      d.link = .ok D ∧
      pairOrRunState.SameCourse (P.stepWithin (a.around pairOrRunState)) (D.stepWithin (d.around pairOrRunState))
        (Code.size a.main) (Code.size d.main) := by
  have htyped : pairOrRun.Typed fun _ _ => True :=
    ⟨⟨⟨trivial, trivial, trivial⟩, trivial, trivial⟩, fun l s hs => by
      obtain rfl : s = ⟨.leaf (.single 'a' (ExpectedSet.tokens ['a'])), false⟩ :=
        List.mem_singleton.1 (List.mem_of_getElem? hs)
      exact ⟨trivial, fun _ _ => trivial⟩⟩
  have hclosed : pairOrRun.Closed := by
    refine ⟨⟨⟨Nat.one_pos, trivial⟩, Nat.one_pos⟩, fun s hs => ?_⟩
    obtain rfl := List.mem_singleton.1 hs
    trivial
  obtain ⟨a, d, P, D, ha, hP, hd, hD, hcourse⟩ := htyped.discarding_keeps_course hclosed {}
  exact ⟨a, d, P, D, ha, hP, hd, hD, hcourse _ ⟨rfl, rfl, rfl, rfl, rfl⟩⟩

end Bound

end ParserMachine
