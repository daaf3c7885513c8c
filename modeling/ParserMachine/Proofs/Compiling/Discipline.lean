import ParserMachine.Proofs.Compiling.Realizing
import ParserMachine.Proofs.Streaming.Reachable

/-!
# Stack discipline

The program of a type-correct grammar never takes from an empty stack and never looks beyond a table or the
buffer, whatever the options, the input and its chunks; and where it comes to its end only the result is left
on the stacks (`Grammar.TypeCorrect.stack_discipline`). A missing value, check, verdict or target is a fault
of the machine, so that the first part says that no reachable state is faulted.
-/

namespace ParserMachine

variable {τ : Type} [Token τ] {p : Program τ}

namespace Program

variable {o : Options} {b : Bound τ} {S : Nat → Value τ → Prop} {s w : State τ}

/-- Where a parse of a whole input stands still there is no fault, and at its end only the result is left
on the stacks. -/
theorem Realizes.stands (h : p.Realizes o b) (hb : b.Typed S) {input : List τ} {n : Nat}
    (hw : Leads p.step? n (wholeStart input) w) (hstop : p.step? w = none) :
    (∀ f, w.status ≠ .faulted f) ∧ (w.status = .running → w.Clean ∧ w.calls = .empty) := by
  obtain ⟨depth, reply, hreply, houtcome, hclean⟩ := h.exists_reply (run_of_leads hw hstop)
  refine ⟨fun f hf => ?_, hclean⟩
  have hfault : w.outcome = .faulted f := by
    unfold State.outcome
    rw [hf]
  rw [hfault] at houtcome
  cases reply with
  | done v r => cases houtcome
  | failed e r => cases houtcome
  | stuck => exact hb.evalAt_ne_stuck o input depth hreply

/-- The same of a parse whose input arrives in chunks. -/
theorem Realizes.reachable (h : p.Realizes o b) (hb : b.Typed S) (hs : p.Reachable s) :
    (∀ f, s.status ≠ .faulted f) ∧
      (s.status = .running → p.step? s = none → s.Clean ∧ s.calls = .empty) := by
  have hfollows : p.Follows s.input s := hs.follows ⟨#[], Array.append_empty.symm⟩ fun _ => rfl
  obtain ⟨n, w, hw, htracks⟩ := hfollows
  have hwhole : wholeStart s.input.toList = { input := s.input, more := false } := by
    unfold wholeStart
    rw [Array.toArray_toList]
  rw [← hwhole] at hw
  by_cases hsuspended : s.status = .suspended
  · rw [hsuspended]
    exact ⟨nofun, nofun⟩
  rw [State.wake_of_awake hsuspended] at htracks
  have hstands (hstop : p.step? s = none) := h.stands hb hw (htracks.step?_eq_none_iff.1 hstop)
  refine ⟨fun f hf => ?_, fun hrunning hstop => ?_⟩
  · have hstop : p.step? s = none := step?_eq_none_of_status (by rw [hf]; nofun)
    exact (hstands hstop).1 f (htracks.status_eq.trans hf)
  · obtain ⟨hclean, hcalls⟩ := (hstands hstop).2 (htracks.status_eq.trans hrunning)
    rcases htracks with hin | hmid
    · rw [hin.eq] at hclean hcalls
      exact ⟨⟨hclean.data, hclean.handlers, hclean.checks⟩, hcalls⟩
    · rw [hmid.eq] at hclean hcalls
      exact ⟨⟨hclean.data, hclean.handlers, hclean.checks⟩, hcalls⟩

end Program

/-- In every state that a parse goes through with the program of a type-correct grammar the machine has not
faulted, no check lies beyond the cursor and the cursor not beyond the buffer; and where the program has come
to its end there is one value and nothing on the other stacks, so that the value and the input from the cursor
on are the outcome. -/
theorem Grammar.TypeCorrect.stack_discipline {g : Grammar τ} (htyped : g.TypeCorrect)
    (hcalls : g.CallFree) {o : Options} {root : NodeId} (hcompile : g.compile o root = .ok p)
    {s : State τ} (hs : p.Reachable s) :
    (∀ f, s.status ≠ .faulted f) ∧ (∀ c ∈ s.checks.toList, c.offset ≤ s.offset) ∧
      s.offset ≤ s.input.size ∧
      (s.status = .running → p.step? s = none →
        s.calls = .empty ∧ s.handlers = [] ∧ s.checks = .empty ∧
          ∃ v, s.data = .push v .empty ∧ s.outcome = .done v (s.input.toList.drop s.offset)) := by
  obtain ⟨_, b, S, -, -, -, -, hb, hrealizes⟩ := htyped.realizes hcalls hcompile
  obtain ⟨hfaults, hend⟩ := hrealizes.reachable hb hs
  have hordered := hs.ordered
  refine ⟨hfaults, hordered.checks_le, hordered.offset_le, fun hrunning hstop => ?_⟩
  obtain ⟨hclean, hempty⟩ := hend hrunning hstop
  obtain ⟨v, hv⟩ := hclean.data
  refine ⟨hempty, hclean.handlers, hclean.checks, v, hv, ?_⟩
  unfold State.outcome
  rw [hrunning, hv]
  show Outcome.done v (s.input.extract s.offset s.input.size).toList = _
  rw [toList_extract_size]

/-- A digit, or a minus sign and then a digit. The sign tells a branch to look for the digit. -/
def Grammar.signed : Grammar Char where
  nodes := #[.leaf (.single '-' (ExpectedSet.tokens ['-'])), .unary (.map .leftBranch) 0,
    .leaf (.single '1' (ExpectedSet.tokens ['1'])), .unary (.map .rightBranch) 2, .binary .alt 1 3,
    .binary (.branch fun _ v => v) 4 2]

theorem Grammar.typeCorrect_signed : signed.TypeCorrect := by
  have hbranch : ∀ n ∈ signed.nodes, ∀ f k l, n = .binary (.branch f) k l → k = 4 := by
    simp [signed]
  refine ⟨fun p v => p ∈ [1, 3, 4] → v.IsVerdict, ⟨?_, ?_, ?_, ?_, ?_⟩⟩
  · intro p l hnode v hv hp
    simp only [List.mem_cons, List.not_mem_nil, or_false] at hp
    rcases hp with rfl | rfl | rfl <;> cases hnode
  · intro p u k hnode v hv hp
    simp only [List.mem_cons, List.not_mem_nil, or_false] at hp
    rcases hp with rfl | rfl | rfl <;> cases hnode <;> obtain ⟨w, -, rfl⟩ := hv <;> trivial
  · intro p b k l hnode v hv hp
    simp only [List.mem_cons, List.not_mem_nil, or_false] at hp
    rcases hp with rfl | rfl | rfl <;> cases hnode
    exact hv.elim (fun h => h (by decide)) fun h => h (by decide)
  · intro p b k l hnode
    cases b with
    | branch f =>
      have hk := forall_node hbranch nofun p f k l hnode
      exact fun v hv => hv (by rw [hk]; decide)
    | seq | alt => trivial
  · intro p c q hnode
    exact absurd hnode (forall_node (P := fun n => ∀ c, n ≠ .lazy c) (by simp [signed]) nofun p c)

theorem Grammar.stack_discipline_signed :
    ∃ p n s, signed.compile {} 5 = .ok p ∧ p.run n (Program.wholeStart ['-', '1', '!']) = some s ∧
      s.calls = .empty ∧ s.handlers = [] ∧ s.checks = .empty ∧
      ∃ v, s.data = .push v .empty ∧ s.outcome = .done v (s.input.toList.drop s.offset) := by
  have hcalls : signed.CallFree := callFree_of_forall (by simp [signed])
  have hrun : ((signed.compile {} 5).toOption.bind fun p =>
      (p.run 100 (Program.wholeStart ['-', '1', '!'])).map State.status) = some .running := by
    decide +kernel
  obtain ⟨p, hp, hstatus⟩ := Option.bind_eq_some_iff.1 hrun
  obtain ⟨s, hs, hrunning⟩ := Option.map_eq_some_iff.1 hstatus
  have hcompile : signed.compile {} 5 = .ok p := eq_ok_of_toOption hp
  have hreached : p.Reachable s := (Program.Reachable.whole ['-', '1', '!']).run hs
  obtain ⟨-, -, -, hend⟩ := typeCorrect_signed.stack_discipline hcalls hcompile hreached
  exact ⟨p, 100, s, hcompile, hs, hend hrunning (Program.step?_eq_none_of_run hs)⟩

end ParserMachine
