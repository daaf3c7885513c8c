import ParserMachine.Proofs.Generation.Answers
import ParserMachine.Proofs.Linking.Placement

/-!
# Code that is run until it is left

The main code of an assembly may be begun in any state of the machine: return positions and handlers that are there
stay below and around it. A run within the code (`Program.stepWithin`) ends at the end of the code, or where a failure
leaves it for a handler around it (`State.Escapes`). It ends as the run of the activations does
(`Assembly.ends_of_succeeds`, `Assembly.exists_ends_of_fails`), and lasts where that lasts
(`Assembly.lasts_within`).
-/

namespace ParserMachine

variable {τ : Type} [Token τ]

namespace Stack

variable {α : Type}

/-- What lies above a stack does not matter where it is cut back further. -/
theorem lowest_eq_of_suffix {s t : Stack α} (h : s.toList <:+ t.toList) {n : Nat} (hn : n ≤ s.height) :
    t.lowest n = s.lowest n := by
  obtain ⟨l, hl⟩ := h
  apply ext
  rw [s.height_eq] at hn
  rw [toList_lowest, toList_lowest, ← hl, List.length_append,
    show l.length + s.toList.length - n = l.length + (s.toList.length - n) by omega, List.drop_append,
    List.drop_eq_nil_of_le (Nat.le_add_right _ _), List.nil_append, Nat.add_sub_cancel_left]

end Stack

/-- A failure has left the code that was begun in the first state, for the innermost handler that was there. Stacks are
cut back to what the handler remembers, of which nothing has been touched. -/
structure State.Escapes (s : State τ) (e : ParseError τ) (r : Reading τ) (t : State τ) : Prop where
  /-- The error is in flight. -/
  error : t.error = some e
  /-- The cursor, the hints and the count of renewals. -/
  reading : t.reading = r
  /-- The handler is removed. -/
  handlers : t.handlers = s.handlers.tail
  /-- The machine goes on at the handler. -/
  caught : ∀ h ∈ s.handlers.head?, t.status = .running ∧ t.pc = h.pc ∧
    (h.data ≤ s.data.height → t.data = s.data.lowest h.data) ∧
    (h.calls ≤ s.calls.height → t.calls = s.calls.lowest h.calls) ∧
    (h.checks ≤ s.checks.height → t.checks = s.checks.lowest h.checks)
  /-- Without a handler the run has failed. -/
  uncaught : s.handlers = [] → t.status = .failed

/-- Raising an error above what was there escapes. -/
theorem State.escapes_fail {s t : State τ} (e : ParseError τ) (hstatus : t.status = .running)
    (hhandlers : t.handlers = s.handlers) (hdata : s.data.toList <:+ t.data.toList)
    (hcalls : s.calls.toList <:+ t.calls.toList) (hchecks : s.checks.toList <:+ t.checks.toList) :
    s.Escapes e t.reading (t.fail e) := by
  unfold State.fail State.unwind
  cases hs : s.handlers with
  | nil =>
    simp only [hhandlers, hs]
    refine ⟨rfl, rfl, congrArg List.tail hs.symm, fun h hh => ?_, fun _ => rfl⟩
    rw [hs] at hh
    cases hh
  | cons h rest =>
    simp only [hhandlers, hs]
    refine ⟨rfl, rfl, congrArg List.tail hs.symm, fun h' hh' => ?_, fun hnil => nomatch hs.symm.trans hnil⟩
    rw [hs] at hh'
    cases hh'
    exact ⟨hstatus, rfl, Stack.lowest_eq_of_suffix hdata, Stack.lowest_eq_of_suffix hcalls,
      Stack.lowest_eq_of_suffix hchecks⟩

instance (A : Around) (S : State τ) : Decidable (A.Left S) := inferInstanceAs (Decidable (_ ∧ _ ∨ _))

namespace Program

variable {p : Program τ} {pos : Label → Nat} {good : Label → Prop} {codeOf : Label → Code τ} {A : Around}

/-- A step of code that has not been left. -/
def stepWithin (p : Program τ) (A : Around) (S : State τ) : Option (State τ) := if A.Left S then none else p.step? S

theorem stepWithin_of_left {S : State τ} (h : A.Left S) : p.stepWithin A S = none := if_pos h

/-- A failure that escapes ends the run. -/
theorem stepWithin_of_escapes {s t : State τ} {e : ParseError τ} {r : Reading τ} (h : s.Escapes e r t) (stop : Nat) :
    p.stepWithin ⟨s.calls, s.handlers, stop⟩ t = none := by
  cases hs : s.handlers with
  | nil =>
    have hfailed : t.status ≠ .running := fun hrunning => nomatch hrunning.symm.trans (h.uncaught hs)
    unfold stepWithin
    rw [step?_eq_none_of_status hfailed, ite_self]
  | cons h' rest =>
    refine stepWithin_of_left (.inr ?_)
    rw [h.handlers, hs]
    exact Nat.lt_succ_self _

/-- The run within the code simulates the activations. -/
theorem simulates_within (hcalls : ∀ l, good l → ∃ stop, p.At pos good stop (pos l) (codeOf l))
    (hclosed : ∀ l, (codeOf l).Closed) :
    Simulates (Config.step? codeOf) (p.stepWithin A) (fun x S => p.Runs pos good A x S ∨ Leaves A x S)
      fun x => x.rest.length :=
  simulates_of_step?_eq hcalls hclosed fun _ hnot => if_neg hnot

end Program

namespace Assembly

variable {a : Assembly τ} {p : Program τ} {s : State τ}

section Runs

variable (h : a.Sound) (hlink : a.link = .ok p) (hpc : s.pc = 0) (hstatus : s.status = .running)
include h hlink hpc hstatus

/-- Where the activations last, so does the run within the code. -/
theorem lasts_within (hlasts : ∀ n, Lasts (Config.step? a.codeOf) n (a.begin s)) (n : Nat) :
    Lasts (p.stepWithin (a.around s)) n s :=
  (Program.simulates_within (at_of_link h hlink).2 h.codeOf_closed).lasts
    (.inl (runs_begin h hlink hpc hstatus)) hlasts n

/-- Where the activations come to an end, the run within the code leads to a state that goes with it. -/
theorem exists_leads_within {y : Config τ} (hreach : Config.Reaches a.codeOf (a.begin s) y)
    (hy : Config.step? a.codeOf y = none) :
    ∃ n T, Leads (p.stepWithin (a.around s)) n s T ∧
      (p.Runs a.pos a.IsEntry (a.around s) y T ∨ Program.Leaves (a.around s) y T) :=
  (Program.simulates_within (at_of_link h hlink).2 h.codeOf_closed).leads_of_ends
    (.inl (runs_begin h hlink hpc hstatus)) ⟨hreach, hy⟩

/-- Where the activation comes to its end, the run within the code ends there, with the value and the reading. -/
theorem ends_of_succeeds {discard : Bool} {v : Value τ} {r : Reading τ}
    (hreach : Config.Reaches a.codeOf (a.begin s)
      ⟨a.main, [], (a.begin s).state.succeed discard v r, []⟩) :
    Ends (p.stepWithin (a.around s)) s ((s.succeed discard v r).goto (Code.size a.main)) := by
  have hsame : (a.begin s).state.succeed discard v r =
      { s.succeed discard v r with calls := .empty, handlers := [] } := by
    cases discard <;> rfl
  rw [hsame] at hreach
  have hfields : (s.succeed discard v r).status = .running ∧ (s.succeed discard v r).pc = 0 ∧
      (s.succeed discard v r).calls = s.calls ∧ (s.succeed discard v r).handlers = s.handlers := by
    cases discard <;> exact ⟨hstatus, hpc, rfl, rfl⟩
  generalize s.succeed discard v r = u at hreach hfields
  obtain ⟨hu, hupc, hucalls, huhandlers⟩ := hfields
  have hend : Config.step? a.codeOf ⟨a.main, [], { u with calls := .empty, handlers := [] }, []⟩ = none := by
    unfold Config.step?
    simp only [hu]
  obtain ⟨n, T, hn, hT | hT⟩ := exists_leads_within h hlink hpc hstatus hreach hend
  · obtain ⟨base, stop, K, H, -, ⟨hstop, -⟩, hwaits, hstate⟩ := hT.state
    cases hwaits
    have hT : T = u.goto (Code.size a.main) := by
      rw [hstate]
      unfold State.embed State.goto
      dsimp only
      rw [hupc, hu, place_zero, hstop, hucalls, huhandlers]
      rfl
    subst hT
    exact ⟨⟨n, hn⟩, Program.stepWithin_of_left (.inl ⟨rfl, congrArg Stack.height hucalls⟩)⟩
  · cases hT with
    | failed hfailed => exact nomatch hu.symm.trans hfailed
    | halted hx => exact absurd hu hx

/-- Where a failure leaves the activation, the run within the code ends with it. -/
theorem exists_ends_of_fails {e : ParseError τ} {t : State τ} (hover : (a.begin s).state.Over t)
    (hreach : Config.Reaches a.codeOf (a.begin s) (Config.arrive a.main [] (t.fail e) [])) :
    ∃ T, Ends (p.stepWithin (a.around s)) s T ∧ s.Escapes e t.reading T := by
  have hfail : t.fail e = { t with error := some e, status := .failed } := by
    have hhandlers : t.handlers = [] := congrArg State.handlers hover.eq
    unfold State.fail State.unwind
    simp only [hhandlers]
  rw [hfail] at hreach
  have hend : Config.step? a.codeOf (Config.arrive a.main [] { t with error := some e, status := .failed } []) =
      none := rfl
  obtain ⟨n, T, hn, hT | hT⟩ := exists_leads_within h hlink hpc hstatus hreach hend
  · exact nomatch hT.status
  · cases hT with
    | @failed _ _ _ q K hfailed hcalls =>
      let u : State τ := { t with pc := q, status := .running, calls := K, handlers := s.handlers }
      have hescapes : s.Escapes e t.reading (u.fail e) :=
        State.escapes_fail (t := u) e rfl rfl hover.data hcalls hover.checks
      exact ⟨u.fail e, ⟨⟨n, hn⟩, Program.stepWithin_of_escapes hescapes _⟩, hescapes⟩
    | halted hx hfailed => exact absurd rfl hfailed

end Runs

end Assembly

end ParserMachine
