import ParserMachine.Proofs.Machine.Restoring

/-!
# Where control goes from an instruction

An instruction other than a call, a return and a checkpoint goes on with the next one if it is not terminal, at one of
its targets, or, with an error in flight, at a handler that it takes (`State.exec_departs`). Handlers are installed by
checkpoints and return positions by calls only, so that the checkpoints and calls of a program tell where its failures
and returns can go (`Program.FlowsBy.rooted`).
-/

namespace ParserMachine

variable {τ : Type} [Token τ]

/-- Whether an instruction stands where handlers point. -/
def Instr.reacts {ι : Type} : Instr τ ι → Bool
  | recover | manyDone | rewind | negSucceed _ | labelErr _ | guardErr _ _ => true
  | _ => false

namespace State

/-- With an error in flight the machine has taken a handler and goes on there. -/
structure Unwinds (s t : State τ) : Prop where
  error : t.error.isSome = true
  handler : ∃ h : Handler, h :: t.handlers <:+ s.handlers ∧ t.pc = h.pc

/-- The second state has no handler and no return position but those of the first one. -/
structure Trims (s t : State τ) : Prop where
  handlers : t.handlers <:+ s.handlers
  calls : t.calls.toList <:+ s.calls.toList

/-- What comes of a state by an instruction that installs no handler and neither calls nor returns. -/
inductive Departs (s : State τ) (i : Instr τ Nat) (t : State τ) : Prop where
  /-- The program was not well formed. -/
  | faults {f : Fault} (h : t.status = .faulted f)
  /-- The machine stands still. -/
  | stands (h : s.Trims t) (ht : t.status ≠ .running)
  /-- It goes on. -/
  | goes (h : s.Trims t) (hpc : (t.pc = s.pc + 1 ∧ i.isTerminal = false) ∨ t.pc ∈ i.targets ∨ s.Unwinds t)

variable {s t : State τ} {i : Instr τ Nat}

theorem Trims.refl (s : State τ) : s.Trims s := ⟨List.suffix_rfl, List.suffix_rfl⟩

theorem Trims.dropHandler (h : s.Trims t) : s.Trims t.dropHandler :=
  ⟨(List.tail_suffix t.handlers).trans h.handlers, h.calls⟩

theorem Beside.trims (h : s.Beside t) : s.Trims t := ⟨h.handlers ▸ List.suffix_rfl, h.calls ▸ List.suffix_rfl⟩

theorem Trims.collect (s : State τ) : s.Trims s.collect := by
  unfold State.collect withValue
  split
  · exact ⟨List.suffix_rfl, List.suffix_rfl⟩
  · dsimp only
    split <;> exact ⟨List.suffix_rfl, List.suffix_rfl⟩

theorem Trims.next (h : s.Trims t) (hpc : t.pc = s.pc) (hi : i.isTerminal = false) : s.Departs i t.next :=
  .goes ⟨h.handlers, h.calls⟩ (.inl ⟨congrArg (· + 1) hpc, hi⟩)

theorem Trims.goto (h : s.Trims t) {q : Nat} (hq : q ∈ i.targets) : s.Departs i (t.goto q) :=
  .goes ⟨h.handlers, h.calls⟩ (.inr (.inl hq))

theorem Trims.unwind (h : s.Trims t) (he : t.error.isSome = true) : s.Departs i t.unwind := by
  unfold State.unwind
  split
  · exact .stands ⟨h.handlers, h.calls⟩ nofun
  · rename_i handler rest hhandlers
    have hsuffix : handler :: rest <:+ s.handlers := hhandlers ▸ h.handlers
    have hcalls : (t.calls.lowest handler.calls).toList <:+ s.calls.toList := by
      rw [Stack.toList_lowest]
      exact (List.drop_suffix _ _).trans h.calls
    exact .goes ⟨(List.suffix_cons handler rest).trans hsuffix, hcalls⟩ (.inr (.inr ⟨he, handler, hsuffix, rfl⟩))

theorem Trims.fail (h : s.Trims t) (e : ParseError τ) : s.Departs i (t.fail e) :=
  Trims.unwind ⟨h.handlers, h.calls⟩ rfl

theorem Trims.withValue (h : s.Trims t) {k : Value τ → State τ → State τ}
    (hk : ∀ v data, s.Trims { t with data } → s.Departs i (k v { t with data })) : s.Departs i (t.withValue k) := by
  unfold State.withValue
  split
  · exact .faults rfl
  · exact hk _ _ ⟨h.handlers, h.calls⟩

theorem Trims.withCheck (h : s.Trims t) {k : Check τ → State τ → State τ}
    (hk : ∀ c checks, s.Trims { t with checks } → s.Departs i (k c { t with checks })) :
    s.Departs i (t.withCheck k) := by
  unfold State.withCheck
  split
  · exact .faults rfl
  · exact hk _ _ ⟨h.handlers, h.calls⟩

theorem Acts.departs (h : s.Acts i t) : s.Departs i t := by
  cases h with
  | faults hfaulted => exact .faults hfaulted
  | waits hbeside =>
    have htrims : s.suspend.Trims t := hbeside.trims
    exact .stands ⟨htrims.handlers, htrims.calls⟩ (by rw [hbeside.status]; nofun)
  | fails _ _ _ hbeside => exact hbeside.trims.fail _
  | goes _ hbeside _ _ hpc => exact .goes hbeside.trims (hpc.imp And.symm .inl)

/-! ### Instructions that take checks -/

theorem leave_departs (rewinds : Bool) {q : Nat} (hq : q ∈ i.targets) : s.Departs i (s.leave rewinds q) := by
  refine (Trims.refl s).dropHandler.withCheck fun c checks h => ?_
  rw [reinstate_eq]
  refine Trims.goto ?_ hq
  exact ⟨h.handlers, h.calls⟩

theorem labelOk_departs (name : Option String) {q : Nat} (hq : q ∈ i.targets) : s.Departs i (s.labelOk name q) := by
  refine (Trims.refl s).dropHandler.withCheck fun c checks h => ?_
  dsimp only
  refine Trims.goto ?_ hq
  exact ⟨h.handlers, h.calls⟩

theorem negFail_departs : s.Departs i s.negFail := by
  have hdrop := (Trims.refl s).dropHandler
  unfold State.negFail
  split
  · exact .faults rfl
  · split
    · exact .stands ⟨List.suffix_rfl, List.suffix_rfl⟩ nofun
    · dsimp only
      refine Trims.fail ?_ _
      exact ⟨hdrop.handlers, hdrop.calls⟩

theorem Trims.loop (h : s.Trims t) {body exit : Nat} (hbody : body ∈ i.targets) (hexit : exit ∈ i.targets) :
    s.Departs i (t.loop body exit) := by
  have hdrop := h.dropHandler
  unfold State.loop
  split
  · exact .faults rfl
  · split
    · rw [reinstate_eq]
      refine Trims.goto ?_ hexit
      exact ⟨hdrop.handlers, hdrop.calls⟩
    · refine Trims.goto ?_ hbody
      exact ⟨h.handlers, h.calls⟩

theorem recover_departs (hi : i.isTerminal = false) (he : s.error.isSome = true) : s.Departs i s.recover := by
  refine (Trims.refl s).withCheck fun c checks h => ?_
  dsimp only
  rw [reinstate_eq]
  split
  · refine Trims.next ?_ rfl hi
    exact ⟨h.handlers, h.calls⟩
  · refine Trims.unwind ?_ he
    exact ⟨h.handlers, h.calls⟩

theorem rewind_departs (he : s.error.isSome = true) : s.Departs i s.rewind := by
  refine (Trims.refl s).withCheck fun c checks h => ?_
  rw [reinstate_eq]
  refine Trims.unwind ?_ he
  exact ⟨h.handlers, h.calls⟩

theorem negSucceed_departs (hi : i.isTerminal = false) (pushes : Bool) : s.Departs i (s.negSucceed pushes) := by
  refine (Trims.refl s).withCheck fun c checks h => ?_
  cases pushes <;> refine Trims.next ?_ rfl hi <;> exact ⟨h.handlers, h.calls⟩

theorem labelErr_departs (name : Option String) : s.Departs i (s.labelErr name) := by
  refine (Trims.refl s).withCheck fun c checks h => ?_
  refine Trims.unwind ?_ rfl
  exact ⟨h.handlers, h.calls⟩

theorem guardErr_departs (hi : i.isTerminal = false) (mode : GuardMode τ) (pushes : Bool) :
    s.Departs i (s.guardErr mode pushes) := by
  refine (Trims.refl s).withCheck fun c checks h => ?_
  cases mode with
  | capture => cases pushes <;> refine Trims.next ?_ rfl hi <;> exact ⟨h.handlers, h.calls⟩
  | amend | merge =>
    refine Trims.unwind ?_ rfl
    exact ⟨h.handlers, h.calls⟩

theorem slice_departs (hi : i.isTerminal = false) (mode : SliceMode) : s.Departs i (s.slice mode) := by
  refine (Trims.refl s).withCheck fun c checks h => ?_
  cases mode with
  | chunk =>
    refine Trims.next ?_ rfl hi
    exact ⟨h.handlers, h.calls⟩
  | pair =>
    refine h.withValue fun v data h => Trims.next ?_ rfl hi
    exact ⟨h.handlers, h.calls⟩

/-- Where an instruction leads that installs no handler and neither calls nor returns. What stands where handlers point
finds an error in flight. -/
theorem exec_departs (hcall : ∀ q, i ≠ .call q) (hret : i ≠ .ret)
    (hcheckpoint : ∀ q snapshot, i ≠ .checkpoint q snapshot)
    (hflying : i.reacts = true → s.error.isSome = true) (size : Nat) : s.Departs i (s.exec size i) := by
  by_cases hforward : i.isForward = true
  · exact (acts_exec hforward size).departs
  cases i with
  | call q => exact absurd rfl (hcall q)
  | ret => exact absurd rfl hret
  | checkpoint q snapshot => exact absurd rfl (hcheckpoint q snapshot)
  | commit q | release q => exact leave_departs false (List.mem_singleton_self q)
  | restore q => exact leave_departs true (List.mem_singleton_self q)
  | negFail => exact negFail_departs
  | labelOk name q => exact labelOk_departs name (List.mem_singleton_self q)
  | loop body exit pushes =>
    have hexit : exit ∈ [body, exit] := List.mem_cons_of_mem _ (List.mem_singleton_self exit)
    cases pushes with
    | false => exact (Trims.refl s).loop (List.mem_cons_self ..) hexit
    | true => exact (Trims.collect s).loop (List.mem_cons_self ..) hexit
  | recover | manyDone => exact recover_departs rfl (hflying rfl)
  | rewind => exact rewind_departs (hflying rfl)
  | negSucceed pushes => exact negSucceed_departs rfl pushes
  | labelErr name => exact labelErr_departs name
  | guardErr mode pushes => exact guardErr_departs rfl mode pushes
  | mark => exact Trims.next ⟨List.suffix_rfl, List.suffix_rfl⟩ rfl rfl
  | slice mode => exact slice_departs rfl mode
  | _ => exact absurd rfl hforward

/-! ### Handlers and return positions -/

/-- The handlers of the state were installed by checkpoints of the program, and its return positions lie after calls. -/
structure Rooted (p : Program τ) (s : State τ) : Prop where
  handlers : ∀ h ∈ s.handlers, ∃ (q : Nat) (snapshot : Bool), p.code[q]? = some (.checkpoint h.pc snapshot)
  calls : ∀ r ∈ s.calls.toList, ∃ q t : Nat, p.code[q]? = some (.call t) ∧ r = q + 1

variable {p : Program τ}

theorem Rooted.trims (hs : s.Rooted p) (h : s.Trims t) : t.Rooted p :=
  ⟨fun handler hmem => hs.handlers handler (h.handlers.subset hmem), fun r hmem => hs.calls r (h.calls.subset hmem)⟩

theorem Rooted.exec (hs : s.Rooted p) (hi : p.code[s.pc]? = some i)
    (hflying : i.reacts = true → s.error.isSome = true) :
    (∃ f, (s.exec p.size i).status = .faulted f) ∨ (s.exec p.size i).Rooted p := by
  by_cases hcall : ∃ q, i = .call q
  · obtain ⟨q, rfl⟩ := hcall
    exact .inr ⟨hs.handlers, List.forall_mem_cons.2 ⟨⟨s.pc, q, hi, rfl⟩, hs.calls⟩⟩
  by_cases hret : i = .ret
  · subst hret
    exact .inr ⟨hs.handlers, fun r hr => hs.calls r (List.mem_of_mem_tail hr)⟩
  by_cases hcheckpoint : ∃ q snapshot, i = .checkpoint q snapshot
  · obtain ⟨q, snapshot, rfl⟩ := hcheckpoint
    exact .inr ⟨List.forall_mem_cons.2 ⟨⟨s.pc, snapshot, hi⟩, hs.handlers⟩, hs.calls⟩
  have hdeparts := exec_departs (s := s) (fun q h => hcall ⟨q, h⟩) hret (fun q b h => hcheckpoint ⟨q, b, h⟩)
    hflying p.size
  cases hdeparts with
  | faults h => exact .inl ⟨_, h⟩
  | stands h _ => exact .inr (hs.trims h)
  | goes h _ => exact .inr (hs.trims h)

end State

namespace Program

open State

variable {bad : Unary τ → Prop} {into : Nat → Flow → Prop} {p : Program τ} {s : State τ} {i : Instr τ Nat}

/-- What stands where handlers point finds an error in flight. -/
theorem FlowsBy.error_of_reacts (hflows : p.FlowsBy bad into) (hs : p.Reachable s) (hi : p.code[s.pc]? = some i)
    (hrunning : s.status = .running) (hreacts : i.reacts = true) : s.error.isSome = true := by
  cases hflows.grows_of_code hs hrunning hi with
  | fails herror => exact Option.isSome_of_eq_some herror
  | runs _ hinto =>
    rcases hflows.next hinto hi with ⟨rfl, -⟩ | ⟨-, f', hpasses, -⟩
    · cases hreacts
    · cases hpasses with
      | steady h | failing h => cases i <;> cases hreacts <;> cases h
      | _ => cases hreacts

/-- What a parse has on its stacks stems from the program. -/
theorem FlowsBy.rooted (hflows : p.FlowsBy bad into) (hs : p.Reachable s) :
    (∃ f, s.status = .faulted f) ∨ s.Rooted p := by
  induction hs with
  | whole input | stream chunk => exact .inr ⟨List.forall_mem_nil _, List.forall_mem_nil _⟩
  | @step s t hs hstep ih =>
    obtain ⟨hrunning, i, hi, rfl⟩ := step?_eq_some_iff.1 hstep
    rcases ih with ⟨f, hf⟩ | h
    · cases hf.symm.trans hrunning
    · exact h.exec hi (hflows.error_of_reacts hs hi hrunning)
  | @feed s chunk _ _ ih =>
    rcases ih with ⟨f, hf⟩ | h
    · refine .inl ⟨f, ?_⟩
      unfold State.feed
      simp only [hf]
      cases chunk <;> exact hf
    · obtain ⟨-, -, hstacks⟩ := feed_keeps s chunk
      have hhandlers : (s.feed chunk).handlers = s.handlers := congrArg Stacks.handlers hstacks
      have hcalls : (s.feed chunk).calls.toList = s.calls.toList := congrArg Stacks.calls hstacks
      exact .inr (h.trims ⟨hhandlers ▸ List.suffix_rfl, hcalls ▸ List.suffix_rfl⟩)

end Program

end ParserMachine
