import ParserMachine.Proofs.Machine.Unwinding
import ParserMachine.Proofs.Streaming.Reachable

/-!
# What failures leave

The stacks of every state that a parse goes through are laid out over the start (`Program.FlowsBy.grows`), and as long
as a handler stays installed, over what was there when it was (`Program.FlowsBy.grows_of_runsUnder`). So where the
machine ends a failure by a value or by success, the cursor, the hints and the stacks are as they were at the checkpoint
(`Program.FlowsBy.restores`).
-/

namespace ParserMachine

variable {τ : Type} [Token τ] {bad : Unary τ → Prop} {into : Nat → Flow → Prop} {b : Footing τ}

/-- What the instruction makes of an error that has come to it, where it ends the failure. -/
def Instr.caught? {ι : Type} : Instr τ ι → Option (ParseError τ → List (Value τ))
  | negSucceed pushes => some fun _ => if pushes then [.unit] else []
  | guardErr .capture pushes => some fun e => if pushes then [.err e] else []
  | _ => none

/-- The second state has the cursor, the hints and the stacks of the first one, with these values on top, and no error
is in flight. -/
structure State.Restores (s t : State τ) (vs : List (Value τ)) : Prop where
  offset : t.offset = s.offset
  hints : t.hints = s.hints
  calls : t.calls = s.calls
  handlers : t.handlers = s.handlers
  checks : t.checks = s.checks
  data : t.data.toList = vs ++ s.data.toList
  error : t.error = none

/-- Where a failure comes to an instruction that ends it, and the stacks are as they were but for the check of a
snapshot, the instruction restores what the check has kept. -/
theorem State.restores_exec {s t : State τ} {i : Instr τ Nat} {f : ParseError τ → List (Value τ)}
    (hf : i.caught? = some f) (ht : t.status = .running) (hstacks : t.allStacks = s.allStacks.upon [] [] [⟨s.offset, some s.hints⟩] [])
    {e : ParseError τ} (he : t.error = some e) (size : Nat) :
    (t.exec size i).status = .running ∧ (t.exec size i).pc = t.pc + 1 ∧ s.Restores (t.exec size i) (f e) := by
  obtain ⟨rest, hchecks, hrest⟩ := exists_of_check hstacks
  have hcalls : t.calls = s.calls := Stack.ext (congrArg Stacks.calls hrest)
  have hhandlers : t.handlers = s.handlers := congrArg Stacks.handlers hrest
  have hdata : t.data.toList = s.data.toList := congrArg Stacks.data hrest
  have hbelow : rest = s.checks := Stack.ext (congrArg Stacks.checks hrest)
  cases i with
  | negSucceed pushes =>
    cases hf
    rw [State.exec, State.negSucceed, withCheck_of_push hchecks]
    cases pushes with
    | true => exact ⟨ht, rfl, rfl, rfl, hcalls, hhandlers, hbelow, congrArg (Value.unit :: ·) hdata, rfl⟩
    | false => exact ⟨ht, rfl, rfl, rfl, hcalls, hhandlers, hbelow, hdata, rfl⟩
  | guardErr mode pushes =>
    cases mode with
    | capture =>
      cases hf
      have hflying (offset : Nat) (hints : Option (ParseError τ)) :
          State.inFlight { t with checks := rest, offset, hints } = e := by
        show t.error.getD _ = e
        rw [he]
        rfl
      rw [State.exec, State.guardErr, withCheck_of_push hchecks]
      dsimp only
      rw [hflying]
      cases pushes with
      | true => exact ⟨ht, rfl, rfl, rfl, hcalls, hhandlers, hbelow, congrArg (Value.err e :: ·) hdata, rfl⟩
      | false => exact ⟨ht, rfl, rfl, rfl, hcalls, hhandlers, hbelow, hdata, rfl⟩
    | amend | merge => cases hf
  | _ => cases hf

namespace Program

open State

variable {p : Program τ} {s t u : State τ} {hs : List Handler}

/-- The machine comes from the first state to the second one, and more input may arrive on the way. These handlers stay
installed. -/
inductive RunsUnder (p : Program τ) (hs : List Handler) (s : State τ) : State τ → Prop where
  /-- It has not taken a step. -/
  | refl : RunsUnder p hs s s
  /-- It takes a step. -/
  | step {t u : State τ} : RunsUnder p hs s t → p.step? t = some u → hs <:+ u.handlers → RunsUnder p hs s u
  /-- The next chunk arrives, or the end of the stream is told. -/
  | feed {t : State τ} (chunk : Option (List τ)) : RunsUnder p hs s t → t.more = true → RunsUnder p hs s (t.feed chunk)

theorem feed_keeps (s : State τ) (chunk : Option (List τ)) :
    (s.feed chunk).pc = s.pc ∧ (s.feed chunk).error = s.error ∧ (s.feed chunk).allStacks = s.allStacks := by
  unfold State.feed
  by_cases hsuspended : s.status = .suspended
  · simp only [if_pos hsuspended]
    cases chunk <;> exact ⟨rfl, rfl, rfl⟩
  · simp only [if_neg hsuspended]
    cases chunk <;> exact ⟨rfl, rfl, rfl⟩

theorem grows_feed (h : s.Grows into b) (chunk : Option (List τ)) : (s.feed chunk).Grows into b := by
  obtain ⟨hpc, herror, hstacks⟩ := feed_keeps s chunk
  cases h with
  | runs herror' hinto hover => exact .runs (herror.trans herror') (hpc ▸ hinto) (hstacks ▸ hover)
  | fails herror' hinto hst hover => exact .fails (herror.trans herror') (hpc ▸ hinto) (hstacks.trans hst) hover

/-- The machine takes no step from the state on, whatever arrives. -/
def Halted (p : Program τ) (s : State τ) : Prop :=
  s.status = .failed ∨ (∃ f, s.status = .faulted f) ∨ p.code[s.pc]? = none

theorem Halted.step?_eq_none (h : p.Halted s) : p.step? s = none := by
  cases hstep : p.step? s with
  | none => rfl
  | some t =>
    obtain ⟨hrunning, i, hi, -⟩ := step?_eq_some_iff.1 hstep
    rcases h with h | ⟨f, h⟩ | h
    · cases h.symm.trans hrunning
    · cases h.symm.trans hrunning
    · cases h.symm.trans hi

theorem Halted.feed (h : p.Halted s) (chunk : Option (List τ)) : p.Halted (s.feed chunk) := by
  have hstatus (hs : s.status ≠ .suspended) : (s.feed chunk).status = s.status := by
    unfold State.feed
    simp only [if_neg hs]
    cases chunk <;> rfl
  rcases h with h | ⟨f, h⟩ | h
  · exact .inl ((hstatus (by rw [h]; nofun)).trans h)
  · exact .inr (.inl ⟨f, (hstatus (by rw [h]; nofun)).trans h⟩)
  · exact .inr (.inr ((feed_keeps s chunk).1 ▸ h))

/-- Every state that a parse goes through is laid out over the start, unless the parse is over. -/
theorem FlowsBy.grows (hflows : p.FlowsBy bad into) (h : p.Reachable s) : s.Grows into .start ∨ p.Halted s := by
  induction h with
  | whole input => exact .inl (.runs rfl hflows.main .base)
  | stream chunk => exact .inl (.runs rfl hflows.main .base)
  | @step s t _ hstep ih =>
    obtain ⟨-, i, hi, rfl⟩ := step?_eq_some_iff.1 hstep
    rcases ih with h | h
    · refine (h.exec hflows hi).imp_right fun hleaves => ?_
      cases hleaves with
      | stopped h => exact h.imp_right .inl
      | ended hpc => exact .inr (.inr (Array.getElem?_eq_none (Nat.le_of_eq hpc.symm)))
    · cases h.step?_eq_none.symm.trans hstep
  | feed chunk _ _ ih => exact ih.imp (grows_feed · chunk) (·.feed chunk)

/-- A parse that can go on is not over. -/
theorem FlowsBy.grows_of_code (hflows : p.FlowsBy bad into) (hs : p.Reachable s) (hrunning : s.status = .running)
    {i : Instr τ Nat} (hi : p.code[s.pc]? = some i) : s.Grows into .start := by
  refine (hflows.grows hs).resolve_right fun hhalted => ?_
  cases (step?_of_code hrunning hi).symm.trans hhalted.step?_eq_none

/-- Where a handler has been installed, the stacks stay laid out over what was there as long as it stays installed. -/
theorem FlowsBy.grows_of_runsUnder (hflows : p.FlowsBy bad into) {ks : List Slot} {st : Stacks τ} {q : Nat}
    {snapshot : Bool} {c : Check τ} (h : s.Grows into (.guarding ks st q snapshot c))
    (hruns : p.RunsUnder (st.handler q :: st.handlers) s t) :
    t.Grows into (.guarding ks st q snapshot c) ∨ p.Halted t := by
  induction hruns with
  | refl => exact .inl h
  | @step t u _ hstep hsuffix ih =>
    obtain ⟨-, i, hi, rfl⟩ := step?_eq_some_iff.1 hstep
    rcases ih with h | h
    · refine (h.exec hflows hi).imp_right fun hleaves => ?_
      have hlength := hsuffix.length_le
      rw [List.length_cons] at hlength
      cases hleaves with
      | stopped h => exact h.imp_right .inl
      | removed _ hhandlers => exact absurd (hhandlers ▸ hlength) (Nat.not_succ_le_self _)
      | passed hlt => exact absurd hlength (by omega)
      | caught _ _ hstacks =>
        have hhandlers : State.handlers _ = st.handlers := congrArg Stacks.handlers hstacks
        exact absurd (hhandlers ▸ hlength) (Nat.not_succ_le_self _)
    · cases h.step?_eq_none.symm.trans hstep
  | feed chunk _ _ ih => exact ih.imp (grows_feed · chunk) (·.feed chunk)

/-- An instruction that ends a failure stands at the handler of a snapshot only. -/
theorem FlowsBy.snapshot_of_caught (hflows : p.FlowsBy bad into) {q : Nat} {k : Slot} {ks : List Slot}
    {i : Instr τ Nat} {f : ParseError τ → List (Value τ)} (hinto : into q (.fails k ks)) (hi : p.code[q]? = some i)
    (hf : i.caught? = some f) : k = .guard true := by
  rcases hflows.next hinto hi with ⟨-, hruns⟩ | ⟨-, f', hpasses, -⟩
  · cases hruns
  · cases hpasses with
    | negSucceed | guardErr | labelErr => rfl
    | recover | manyDone | rewind => cases hf

/-- A checkpoint whose handler ends the failure makes a snapshot. No error is in flight there, and control flows into
the body under the handler. -/
theorem FlowsBy.guards_of_caught (hflows : p.FlowsBy bad into) (h : s.Grows into .start) {q : Nat} {snapshot : Bool}
    (hcheckpoint : p.code[s.pc]? = some (.checkpoint q snapshot)) {i : Instr τ Nat} (hi : p.code[q]? = some i)
    {f : ParseError τ → List (Value τ)} (hf : i.caught? = some f) :
    ∃ ks, snapshot = true ∧ s.error = none ∧ into (s.pc + 1) (.runs (.guard true :: ks)) := by
  cases h with
  | fails _ hinto =>
    rcases hflows.next hinto hcheckpoint with ⟨h, -⟩ | ⟨-, f', hpasses, -⟩
    · cases h
    · cases hpasses
  | @runs ks herror hinto =>
    rcases hflows.next hinto hcheckpoint with ⟨h, -⟩ | ⟨-, f', hpasses, hnext⟩
    · cases h
    cases hpasses with
    | steady h => cases h
    | failing h => cases h
    | checkpoint hq =>
      cases hflows.snapshot_of_caught hq hi hf
      exact ⟨ks, rfl, herror, hnext⟩
    | round hq => cases hflows.snapshot_of_caught hq hi hf

/-- Where a handler has been installed and a step removes it with an error in flight, control has come to it, and the
stacks are as they were when it was installed, but for the check that went with it. -/
theorem FlowsBy.caught_of_removed (hflows : p.FlowsBy bad into) {ks : List Slot} {st : Stacks τ} {q : Nat}
    {snapshot : Bool} {c : Check τ} (h : s.Grows into (.guarding ks st q snapshot c))
    (hruns : p.RunsUnder (st.handler q :: st.handlers) s u) (hstep : p.step? u = some t) (ht : t.status = .running)
    (hhandlers : t.handlers = st.handlers) {e : ParseError τ} (he : t.error = some e) :
    t.pc = q ∧ t.allStacks = st.upon [] [] [c] [] := by
  obtain ⟨hrunning, i, hi, rfl⟩ := step?_eq_some_iff.1 hstep
  have hu : u.Grows into (.guarding ks st q snapshot c) :=
    (hflows.grows_of_runsUnder h hruns).resolve_right fun h => by cases h.step?_eq_none.symm.trans hstep
  have hlength : (u.exec p.size i).handlers.length = st.handlers.length := congrArg List.length hhandlers
  rcases hu.exec hflows hi with h | h
  · have hle := h.handlers_suffix.length_le
    rw [hlength] at hle
    exact absurd hle (Nat.not_succ_le_self _)
  · cases h with
    | stopped h =>
      rcases h with h | ⟨f, h⟩
      · cases h.symm.trans ht
      · cases h.symm.trans ht
    | removed hnone => cases hnone.symm.trans he
    | passed hlt => exact absurd hlength (Nat.ne_of_lt hlt)
    | caught _ hpc hstacks => exact ⟨hpc, hstacks⟩

/-- In the first state the machine goes into a parser whose failure is ended at `q`, where this is made of its error. As
long as the parser runs the handler of the failure stays installed, and in the second state this error has removed
it. -/
structure Settles (p : Program τ) (q : Nat) (f : ParseError τ → List (Value τ)) (e : ParseError τ) (s t : State τ) :
    Prop where
  reachable : p.Reachable s
  running : s.status = .running
  handler : ∃ i, p.code[q]? = some i ∧ i.caught? = some f
  body : ∃ snapshot u, p.code[s.pc]? = some (.checkpoint q snapshot) ∧
    p.RunsUnder (s.checkpoint q snapshot).handlers (s.checkpoint q snapshot) u ∧ p.step? u = some t
  awake : t.status = .running
  removed : t.handlers = s.handlers
  error : t.error = some e

/-- Where a failure comes to the handler of a checkpoint and is ended there, the next step comes to what follows it with
everything as it was at the checkpoint. -/
theorem FlowsBy.restores (hflows : p.FlowsBy bad into) {q : Nat} {f : ParseError τ → List (Value τ)}
    {e : ParseError τ} (h : p.Settles q f e s t) :
    t.pc = q ∧ ∃ t', p.step? t = some t' ∧ t'.status = .running ∧ t'.pc = q + 1 ∧ s.Restores t' (f e) := by
  obtain ⟨hs, hrunning, ⟨i, hi, hf⟩, ⟨snapshot, u, hcheckpoint, hruns, hstep⟩, ht, hhandlers, he⟩ := h
  have hgrows := hflows.grows_of_code hs hrunning hcheckpoint
  obtain ⟨ks, rfl, herror, hnext⟩ := hflows.guards_of_caught hgrows hcheckpoint hi hf
  -- the body runs over the stacks that the checkpoint has left
  have hbody : (s.checkpoint q true).Grows into (.guarding ks s.allStacks q true ⟨s.offset, some s.hints⟩) := by
    refine .runs herror hnext ?_
    rw [allStacks_checkpoint]
    exact .base
  have hinstalled : (s.checkpoint q true).handlers = s.allStacks.handler q :: s.allStacks.handlers :=
    congrArg Stacks.handlers (allStacks_checkpoint s q true)
  obtain ⟨rfl, hstacks⟩ := hflows.caught_of_removed hbody (hinstalled ▸ hruns) hstep ht hhandlers he
  exact ⟨rfl, _, step?_of_code ht hi, State.restores_exec hf ht hstacks he p.size⟩

end Program

end ParserMachine
