import ParserMachine.Proofs.Binding.Ranking
import ParserMachine.Proofs.Compiling.Discipline
import ParserMachine.Proofs.Machine.Rounds
import ParserMachine.Proofs.Recognition.Ending

/-!
# Repetitions end

A parse with the program of a grammar in which no subroutine is recursive comes to an end, whatever the options and
the input: trees reply as deep as there are subroutines (`Bound.Simplifies.exists_reply`). In any program, a
repetition goes into no more further rounds than tokens are left (`Grammar.TypeCorrect.repetitions_end`).
-/

namespace ParserMachine

variable {τ : Type} [Token τ]

namespace Bound

variable {b b' : Bound τ} {o : Options}

/-- Simplified trees reply where each subroutine called only those before it. -/
theorem Simplifies.exists_reply (h : b.Simplifies b') (hclosed : b.Closed)
    (hranked : ∀ (l : Nat) (s : Subroutine τ), b.subroutines[l]? = some s → s.body.CallsBelow l) (o : Options)
    (input : List τ) : ∃ depth reply, b'.evalAt o input depth = some reply := by
  have hbodies (l : Nat) (s' : Subroutine τ) (hs' : b'.subroutines.toArray[l]? = some s') : s'.body.CallsBelow l := by
    rw [List.getElem?_toArray] at hs'
    obtain ⟨s, hs, hbody⟩ := getElem?_of_forall₂ h.subroutines.flip hs'
    exact hbody.body.callsBelow (hranked l s hs)
  have hmain := (h.closed hclosed).main
  have hreplies : (b'.main.evalAt ⟨o, b'.subroutines.toArray⟩ input.toArray _).Replies input.toArray :=
    Expr.evalAt_replies hbodies hmain (Nat.le_refl _) input.toArray (Nat.le_refl _)
  obtain ⟨reply, hreply, -⟩ := hreplies .first (Nat.zero_le _)
  exact ⟨_, reply, hreply⟩

end Bound

namespace Program

/-- The machine is about to begin a repetition: it installs the handler of one. -/
def beginsRepetition (p : Program τ) (s : State τ) : Bool :=
  match p.code[s.pc]? with
  | some (.checkpoint h _) =>
    match p.code[h]? with
    | some .manyDone => true
    | _ => false
  | _ => false

variable {p : Program τ} {s s' : State τ}

/-- A repetition makes at most one round more than tokens are left where it begins. -/
theorem rounds_le_of_beginsRepetition (h : p.beginsRepetition s = true) (hs : s.Ordered) (hstep : p.step? s = some s')
    (steps : Nat) : p.furtherRounds s'.checks.height steps s' + 1 ≤ s.input.size - s.offset + 1 := by
  obtain ⟨target, snapshot, hcode⟩ : ∃ target snapshot, p.code[s.pc]? = some (.checkpoint target snapshot) := by
    unfold beginsRepetition at h
    split at h
    · exact ⟨_, _, ‹_›⟩
    · cases h
  obtain ⟨-, i, hi, rfl⟩ := step?_eq_some_iff.1 hstep
  obtain rfl := Option.some.inj (hi.symm.trans hcode)
  have hbegun := hs.exec p.size (.checkpoint target snapshot)
  have hheight : s.checks.toList.length + 1 = s.checks.height + 1 := congrArg (· + 1) s.checks.height_eq.symm
  exact Nat.succ_le_succ (furtherRounds_le hbegun (List.suffix_refl _) hheight steps)

end Program

/-- A parse ends with the program of a type-correct grammar in which no subroutine is recursive. Each repetition
makes at most one round more than tokens are left where it begins, for as long as its check is there: where a round
has ended, the cursor does not lie before the check, and the repetition ends if it lies at the check; else the check
goes to the cursor, and there is another round. A repetition in one instruction reads no more than the tokens that
are left. -/
theorem Grammar.TypeCorrect.repetitions_end {g : Grammar τ} (htyped : g.TypeCorrect) (hcalls : g.CallFree)
    {o : Options} {root : NodeId} {b : Bound τ} {p : Program τ} (hbind : g.bind root = .ok b)
    (hloops : ∀ s ∈ b.subroutines, s.recursive = false) (hcompile : g.compile o root = .ok p) (input : List τ) :
    (∃ n r, p.parse n input = some r) ∧
      ∀ n s s', Leads p.step? n (Program.wholeStart input) s → p.step? s = some s' →
        (p.beginsRepetition s = true → ∀ steps,
          p.furtherRounds s'.checks.height steps s' + 1 ≤ input.length - s.offset + 1) ∧
        (∀ body exit pushes, p.code[s.pc]? = some (.loop body exit pushes) →
          ∃ c rest, s.checks = Stack.push c rest ∧
            (c.offset = s.offset ∧ s'.checks = rest ∧ s'.handlers = s.handlers.tail ∧ s'.pc = exit ∨
              c.offset < s.offset ∧ s'.checks = rest.push { c with offset := s.offset } ∧
                s'.handlers = s.handlers ∧ s'.pc = body)) ∧
        (∀ test e pushes, p.code[s.pc]? = some (.satisfyMany test e pushes) →
          s.offset ≤ s'.offset ∧ s'.offset ≤ input.length) := by
  refine ⟨?_, fun n s s' hleads hstep => ?_⟩
  · obtain ⟨b₁, b', _, hbind₁, -, hsimplifies, -, -, hrealizes⟩ := htyped.realizes hcalls hcompile
    obtain rfl : b₁ = b := by
      rw [hbind] at hbind₁
      cases hbind₁
      rfl
    obtain ⟨depth, reply, hreply⟩ := hsimplifies.exists_reply (hcalls.closed hbind)
      (fun l s hs => hcalls.callsBelow hbind hloops hs) o input
    obtain ⟨n, hn⟩ := hrealizes.parse_iff.2 ⟨depth, reply, hreply, rfl⟩
    exact ⟨n, _, hn⟩
  · have hreached : p.Reachable s :=
      hleads.preserves (fun _ _ h hstep => h.step hstep) (Program.Reachable.whole input)
    have hinput : s.input = input.toArray :=
      hleads.preserves (I := fun s => s.input = input.toArray) (fun _ _ h hstep => by
        obtain ⟨-, i, -, rfl⟩ := Program.step?_eq_some_iff.1 hstep
        rw [State.exec_input, h]) rfl
    have hsize : s.input.size = input.length := by rw [hinput, List.size_toArray]
    obtain ⟨hfaults, -⟩ := htyped.stack_discipline hcalls hcompile (hreached.step hstep)
    obtain ⟨-, i, hi, rfl⟩ := Program.step?_eq_some_iff.1 hstep
    refine ⟨fun hbegins steps => ?_, fun body exit pushes hcode => ?_, fun test e pushes hcode => ?_⟩
    · rw [← hsize]
      exact Program.rounds_le_of_beginsRepetition hbegins hreached.ordered hstep steps
    · obtain rfl := Option.some.inj (hi.symm.trans hcode)
      cases hpop : s.checks.pop? with
      | none =>
        obtain ⟨f, hf⟩ := State.exec_loop_of_empty (Stack.pop?_eq_none_iff.1 hpop) p.size body exit pushes
        exact absurd hf (hfaults f)
      | some x =>
        obtain ⟨c, rest⟩ := x
        have hchecks := Stack.pop?_eq_some_iff.1 hpop
        have hback : c.offset ≤ s.offset :=
          hreached.ordered.checks_le c (by rw [hchecks]; exact List.mem_cons_self ..)
        refine ⟨c, rest, hchecks, ?_⟩
        exact (State.exec_loop hchecks p.size body exit pushes).imp_right fun ⟨hmoved, hrest⟩ =>
          ⟨Nat.lt_of_le_of_ne hback hmoved, hrest⟩
    · obtain rfl := Option.some.inj (hi.symm.trans hcode)
      have hoffset : (s.exec p.size (.satisfyMany test e pushes)).offset = spanEnd test s.input s.offset :=
        State.offset_satisfyMany test e pushes
      rw [hoffset, ← hsize]
      exact ⟨le_spanEnd test s.input s.offset, spanEnd_le_size test s.input hreached.ordered.offset_le⟩

/-- Runs of `a`, each followed by any number of `b`, twice: the part that is used twice is a subroutine. -/
def Grammar.nestedRuns : Grammar Char where
  nodes := #[.leaf (.single 'a' (ExpectedSet.tokens ['a'])), .leaf (.single 'b' (ExpectedSet.tokens ['b'])),
    .unary (.label none) 1, .unary .many 2, .binary (.seq .right) 0 3, .unary .many 4,
    .binary (.seq .right) 5 5]

/-- The inner repetition, begun after one `a`, makes at most four rounds. -/
theorem Grammar.repetitions_end_nestedRuns :
    ∃ b p, nestedRuns.bind 6 = .ok b ∧ (b.subroutines.map fun s => s.recursive) = [false] ∧
      nestedRuns.compile {} 6 = .ok p ∧ (∃ n r, p.parse n ['a', 'b', 'b', 'a'] = some r) ∧
      ∃ s s', Leads p.step? 5 (Program.wholeStart ['a', 'b', 'b', 'a']) s ∧ p.step? s = some s' ∧
        p.beginsRepetition s = true ∧ s.offset = 1 ∧
        ∀ steps, p.furtherRounds s'.checks.height steps s' + 1 ≤ 4 := by
  have htyped : nestedRuns.TypeCorrect := typeCorrect_of_forall (by simp [nestedRuns])
  have hcalls : nestedRuns.CallFree := callFree_of_forall (by simp [nestedRuns])
  have hbind : ((nestedRuns.bind 6).toOption.map fun b => b.subroutines.map fun s => s.recursive) =
      some [false] := by decide +kernel
  have hbegins : ((nestedRuns.compile {} 6).toOption.bind fun p =>
      (stepsFor p.step? 5 (Program.wholeStart ['a', 'b', 'b', 'a'])).map fun s =>
        ((p.step? s).isSome, p.beginsRepetition s, s.offset)) = some (true, true, 1) := by decide +kernel
  obtain ⟨b, hb, hflags⟩ := Option.map_eq_some_iff.1 hbind
  obtain ⟨p, hp, hbegins⟩ := Option.bind_eq_some_iff.1 hbegins
  obtain ⟨s, hs, hbegins⟩ := Option.map_eq_some_iff.1 hbegins
  simp only [Prod.mk.injEq, Option.isSome_iff_exists] at hbegins
  obtain ⟨⟨s', hs'⟩, hbegins, hoffset⟩ := hbegins
  have hloops : ∀ s ∈ b.subroutines, s.recursive = false := by
    intro s hs
    have hflag := List.mem_map_of_mem (f := fun s : Subroutine Char => s.recursive) hs
    rw [hflags] at hflag
    exact List.mem_singleton.1 hflag
  have hbind := eq_ok_of_toOption hb
  have hcompile := eq_ok_of_toOption hp
  obtain ⟨hends, hrepeats⟩ := htyped.repetitions_end hcalls hbind hloops hcompile ['a', 'b', 'b', 'a']
  refine ⟨b, p, hbind, hflags, hcompile, hends, s, s', hs, hs', hbegins, hoffset, fun steps => ?_⟩
  have hrounds := (hrepeats 5 s s' hs hs').1 hbegins steps
  rwa [hoffset] at hrounds

end ParserMachine
