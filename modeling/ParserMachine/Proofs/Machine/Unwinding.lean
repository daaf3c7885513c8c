import ParserMachine.Proofs.Machine.Keeping
import ParserMachine.Proofs.Machine.Layout

/-!
# Steps over a footing

Where the stacks of a state are laid out over a footing (`State.Grows`), a step keeps that, or it leaves the footing
(`State.Leaves`): the handler that was installed there is removed, or a failure comes to it and finds the stacks as they
were (`State.Grows.exec`).
-/

namespace ParserMachine

variable {τ : Type} [Token τ] {bad : Unary τ → Prop} {into : Nat → Flow → Prop} {b : Footing τ}

theorem Stack.exists_push {α : Type} {s : Stack α} {a : α} {l : List α} (h : s.toList = a :: l) :
    ∃ t : Stack α, s = t.push a ∧ t.toList = l := by
  refine ⟨s.below, Stack.ext ?_, ?_⟩
  · rw [toList_push, toList_below, h]
    rfl
  · rw [toList_below, h]
    rfl

namespace State

open Stacks

/-- Control has come to the state by a flow, and its stacks are laid out over the footing. -/
inductive Grows (into : Nat → Flow → Prop) (b : Footing τ) (s : State τ) : Prop where
  /-- No error is in flight. -/
  | runs {ks : List Slot} : s.error = none → into s.pc (.runs ks) → Stacks.Over into b ks s.allStacks → Grows into b s
  /-- An error in flight has met a handler, and the check that went with it lies on top. -/
  | fails {k : Slot} {ks : List Slot} {e : ParseError τ} {c : Check τ} {st : Stacks τ} : s.error = some e →
    into s.pc (.fails k ks) → s.allStacks = st.upon [] [] [c] [] → Stacks.Over into b ks st → Grows into b s

/-- What a step that leaves the footing leads to, or the end of the run. -/
inductive Leaves (size : Nat) (t : State τ) : Footing τ → Prop where
  /-- The machine has stopped. -/
  | stopped {b : Footing τ} : t.status = .failed ∨ (∃ f, t.status = .faulted f) → Leaves size t b
  /-- The program has come to its end. -/
  | ended : t.pc = size → Leaves size t .start
  /-- The handler was removed, and no error is in flight. -/
  | removed {ks : List Slot} {st : Stacks τ} {q : Nat} {snapshot : Bool} {c : Check τ} : t.error = none →
    t.handlers = st.handlers → Leaves size t (.guarding ks st q snapshot c)
  /-- The handler was removed, and an error has come to one that was there before. -/
  | passed {ks : List Slot} {st : Stacks τ} {q : Nat} {snapshot : Bool} {c : Check τ} :
    t.handlers.length < st.handlers.length → Leaves size t (.guarding ks st q snapshot c)
  /-- An error has come to the handler. All stacks are as they were, with the check on top. -/
  | caught {ks : List Slot} {st : Stacks τ} {q : Nat} {snapshot : Bool} {c : Check τ} {e : ParseError τ} :
    t.error = some e → t.pc = q → t.allStacks = st.upon [] [] [c] [] → Leaves size t (.guarding ks st q snapshot c)

theorem Grows.handlers_suffix {s : State τ} (h : s.Grows into b) : b.allStacks.handlers <:+ s.handlers := by
  cases h with
  | runs _ _ hover => exact hover.handlers_suffix
  | fails _ _ hst hover =>
    have hhandlers : s.handlers = _ := congrArg Stacks.handlers hst
    exact hhandlers ▸ hover.handlers_suffix

variable {s t : State τ} {size : Nat} {k : Slot} {ks ks' : List Slot} {n m : Nat} {i : Instr τ Nat}

/-! ### Stacks of states -/

theorem Beside.allStacks_eq (h : s.Beside t) (hdata : t.data = s.data) : t.allStacks = s.allStacks := by
  unfold allStacks
  rw [h.calls, h.handlers, h.checks, hdata]

/-- A handler remembers how high the stacks are when it is installed. -/
theorem allStacks_checkpoint (s : State τ) (q : Nat) (snapshot : Bool) : (s.checkpoint q snapshot).allStacks =
    s.allStacks.upon [] [s.allStacks.handler q] [⟨s.offset, if snapshot then some s.hints else none⟩] [] := by
  unfold State.checkpoint allStacks Stacks.handler Stacks.upon
  rw [s.data.height_eq, s.calls.height_eq, s.checks.height_eq]
  rfl

/-- Values are taken and given at the top. -/
theorem Trades.over (h : s.Trades n m t) (hbeside : s.Beside t)
    (hover : Stacks.Over into b (Slot.values n ++ ks) s.allStacks) :
    Stacks.Over into b (Slot.values m ++ ks) t.allStacks := by
  obtain ⟨vs, ws, rest, hvs, rfl, hdata, hdata'⟩ := h
  obtain ⟨vs', st, hvs', hst, hover⟩ := hover.of_values
  have hsame : vs ++ rest = vs' ++ st.data := hdata.symm.trans (congrArg Stacks.data hst)
  obtain ⟨rfl, rfl⟩ := List.append_inj hsame (hvs.trans hvs'.symm)
  have hstacks : t.allStacks = st.upon [] [] [] ws := by
    have hbelow : ({ s.allStacks with data := t.data.toList } : Stacks τ) = st.upon [] [] [] ws := by
      rw [hst, hdata']
      rfl
    rw [← hbelow]
    unfold allStacks
    rw [hbeside.calls, hbeside.handlers, hbeside.checks]
  rw [hstacks]
  exact hover.values ws

/-! ### Failures -/

/-- A failure comes to a handler that was installed since, to that of the footing, or to none. -/
theorem unwind_over {e : ParseError τ} (he : s.error = some e) (h : Stacks.Over into b ks s.allStacks) :
    s.unwind.Grows into b ∨ s.unwind.Leaves size b := by
  cases hhandlers : s.handlers with
  | nil =>
    refine .inr (.stopped (.inl ?_))
    unfold State.unwind
    rw [hhandlers]
  | cons hd hs =>
    have hunwind : s.unwind.allStacks = s.allStacks.cutTo hd ∧ s.unwind.error = s.error ∧ s.unwind.pc = hd.pc := by
      unfold State.unwind
      rw [hhandlers]
      refine ⟨?_, rfl, rfl⟩
      unfold allStacks cutTo
      simp only [Stack.toList_lowest, hhandlers]
      rfl
    obtain ⟨hstacks, herror, hpc⟩ := hunwind
    rw [he] at herror
    obtain ⟨-, ⟨k, ks', c, st, hcut, hinto, hover⟩ | ⟨ks', c, st, snapshot, hcut, rfl⟩⟩ :=
      h.unwinds (show s.allStacks.handlers = hd :: hs from hhandlers)
    · exact .inl (.fails herror (hpc ▸ hinto) (hstacks.trans hcut) hover)
    · exact .inr (.caught herror hpc (hstacks.trans hcut))

theorem fail_over (e : ParseError τ) (h : Stacks.Over into b ks s.allStacks) :
    (s.fail e).Grows into b ∨ (s.fail e).Leaves size b := unwind_over (s := { s with error := some e }) rfl h

/-! ### Instructions -/

theorem forward_over (hi : i.isForward = true) (herror : s.error = none)
    (hinto : into s.pc (.runs (Slot.values i.takes ++ ks)))
    (h : Stacks.Over into b (Slot.values i.takes ++ ks) s.allStacks)
    (htargets : ∀ t ∈ i.targets, into t (.runs (Slot.values i.gives ++ ks)))
    (hnext : i.isTerminal = false → into (s.pc + 1) (.runs (Slot.values i.gives ++ ks))) :
    (s.exec size i).Grows into b ∨ (s.exec size i).Leaves size b := by
  generalize hs' : s.exec size i = s'
  have hacts := hs' ▸ acts_exec (s := s) hi size
  cases hacts with
  | faults hfaulted => exact .inr (.stopped (.inr ⟨_, hfaulted⟩))
  | waits hbeside hdata hpc =>
    exact .inl (.runs (hbeside.error.trans herror) (hpc ▸ hinto) (Beside.allStacks_eq hbeside hdata ▸ h))
  | fails _ _ _ hbeside hdata _ => exact fail_over _ (hbeside.allStacks_eq hdata ▸ h)
  | goes _ hbeside htrades _ hpc =>
    refine .inl (.runs (hbeside.error.trans herror) ?_ (htrades.over hbeside h))
    rcases hpc with ⟨hterminal, hpc⟩ | hpc
    · exact hpc ▸ hnext hterminal
    · exact htargets _ hpc

theorem call_over {q : Nat} (herror : s.error = none) (hq : into q (.runs []))
    (hnext : into (s.pc + 1) (.runs (.value :: ks))) (h : Stacks.Over into b ks s.allStacks) :
    (s.exec size (.call q)).Grows into b := .runs herror hq (.called h hnext)

theorem ret_over (herror : s.error = none) (h : Stacks.Over into b [.value] s.allStacks) :
    (s.exec size .ret).Grows into b ∨ (s.exec size .ret).Leaves size b := by
  obtain ⟨v, st, hst, h⟩ := h.of_value
  have hcalls : s.calls.toList = st.calls := congrArg Stacks.calls hst
  have hpc : (s.exec size .ret).pc = st.calls.head?.getD size := by
    rw [← hcalls]
    rfl
  have hstacks : (s.exec size .ret).allStacks = ⟨st.calls.tail, st.handlers, st.checks, v :: st.data⟩ := by
    have hbelow : ({ s.allStacks with calls := s.calls.toList.tail } : Stacks τ) =
        ⟨st.calls.tail, st.handlers, st.checks, v :: st.data⟩ := by
      rw [hst, hcalls]
      rfl
    exact hbelow
  rcases h.of_nil with ⟨q, ks, st', rfl, hinto, hover⟩ | ⟨rfl, rfl⟩
  · have hback : into (s.exec size .ret).pc (.runs (.value :: ks)) := by
      rw [hpc]
      exact hinto
    refine .inl (.runs herror hback ?_)
    rw [hstacks]
    exact .value hover
  · exact .inr (.ended hpc)

theorem checkpoint_over {q : Nat} {snapshot : Bool} (herror : s.error = none) (hk : k.handles = true)
    (hq : into q (.fails k ks)) (hnext : into (s.pc + 1) (.runs (k :: ks))) (h : Stacks.Over into b ks s.allStacks) :
    (s.checkpoint q snapshot).Grows into b := by
  refine .runs herror hnext ?_
  rw [allStacks_checkpoint]
  exact .guard hk h hq

/-- Where a handler lies below the result, it goes with the top check. -/
theorem exists_of_over_guard (hk : k.handles = true) (h : Stacks.Over into b (Slot.values n ++ k :: ks) s.allStacks) :
    ∃ c rest vs st, s.checks = Stack.push c rest ∧ vs.length = n ∧
      allStacks { s.dropHandler with checks := rest } = st.upon [] [] [] vs ∧
      (Stacks.Over into b ks st ∨ ∃ q snapshot, b = .guarding ks st q snapshot c) := by
  obtain ⟨vs, st', hvs, hst, hbelow⟩ := h.of_values
  obtain ⟨q, c, st, rfl, hover⟩ := hbelow.of_guard hk
  obtain ⟨rest, hchecks, hrest⟩ := Stack.exists_push (congrArg Stacks.checks hst : s.checks.toList = c :: st.checks)
  refine ⟨c, rest, vs, st, hchecks, hvs, ?_, hover.imp And.right fun ⟨snapshot, _, hb⟩ => ⟨q, snapshot, hb⟩⟩
  have hcalls : s.calls.toList = st.calls := congrArg Stacks.calls hst
  have hhandlers : s.handlers.tail = st.handlers := congrArg (fun st : Stacks τ => st.handlers.tail) hst
  have hdata : s.data.toList = vs ++ st.data := congrArg Stacks.data hst
  unfold allStacks dropHandler upon
  rw [hcalls, hhandlers, hrest, hdata]
  rfl

/-- A handler has been removed where no error is in flight. -/
theorem removed_over {c : Check τ} {st : Stacks τ} {vs : List (Value τ)} (herror : t.error = none)
    (hinto : into t.pc (.runs (Slot.values vs.length ++ ks))) (hstacks : t.allStacks = st.upon [] [] [] vs)
    (h : Stacks.Over into b ks st ∨ ∃ q snapshot, b = .guarding ks st q snapshot c) :
    t.Grows into b ∨ t.Leaves size b := by
  rcases h with h | ⟨q, snapshot, rfl⟩
  · exact .inl (.runs herror hinto (hstacks ▸ h.values vs))
  · exact .inr (.removed herror (congrArg Stacks.handlers hstacks))

theorem leave_over {rewinds : Bool} {q : Nat} (herror : s.error = none) (hk : k.handles = true)
    (hq : into q (.runs (Slot.values n ++ ks))) (h : Stacks.Over into b (Slot.values n ++ k :: ks) s.allStacks) :
    (s.leave rewinds q).Grows into b ∨ (s.leave rewinds q).Leaves size b := by
  obtain ⟨c, rest, vs, st, hchecks, rfl, hstacks, h⟩ := exists_of_over_guard hk h
  rw [State.leave, withCheck_of_push (s := s.dropHandler) hchecks, reinstate_eq]
  exact removed_over (c := c) herror hq hstacks h

theorem labelOk_over {name : Option String} {q : Nat} (herror : s.error = none) (hk : k.handles = true)
    (hq : into q (.runs (Slot.values n ++ ks))) (h : Stacks.Over into b (Slot.values n ++ k :: ks) s.allStacks) :
    (s.labelOk name q).Grows into b ∨ (s.labelOk name q).Leaves size b := by
  obtain ⟨c, rest, vs, st, hchecks, rfl, hstacks, h⟩ := exists_of_over_guard hk h
  rw [State.labelOk, withCheck_of_push (s := s.dropHandler) hchecks]
  exact removed_over (c := c) herror hq hstacks h

theorem negFail_over (herror : s.error = none) (hinto : into s.pc (.runs (k :: ks))) (hk : k.handles = true)
    (h : Stacks.Over into b (k :: ks) s.allStacks) : s.negFail.Grows into b ∨ s.negFail.Leaves size b := by
  obtain ⟨c, rest, vs, st, hchecks, hvs, hstacks, hover⟩ := exists_of_over_guard (n := 0) hk h
  obtain rfl := List.length_eq_zero_iff.1 hvs
  rw [State.negFail, Stack.pop?_eq_some_iff.2 hchecks]
  dsimp only
  split
  · exact .inl (.runs herror hinto h)
  · rcases hover with hover | ⟨q, snapshot, rfl⟩
    · exact fail_over (s := { s.dropHandler with checks := rest, hints := _, offset := _ }) _
        (hstacks ▸ hover : Stacks.Over into b ks (allStacks { s.dropHandler with checks := rest }))
    · -- the error does not come to the handler that was just removed
      have hhandlers : s.handlers.tail = st.handlers := congrArg Stacks.handlers hstacks
      unfold State.fail State.unwind dropHandler
      dsimp only
      rw [hhandlers]
      cases hst : st.handlers with
      | nil => exact .inr (.stopped (.inl rfl))
      | cons hd hs =>
        refine .inr (.passed ?_)
        rw [hst]
        exact Nat.lt_succ_self _

theorem loop_over {body exit : Nat} (herror : s.error = none) (hbody : into body (.runs (.round :: ks)))
    (hexit : into exit (.runs ks)) (h : Stacks.Over into b (.round :: ks) s.allStacks) :
    (s.loop body exit).Grows into b := by
  obtain ⟨q, c, st, hst, hq, hover⟩ := h.of_round
  obtain ⟨rest, hchecks, hrest⟩ := Stack.exists_push (congrArg Stacks.checks hst : s.checks.toList = c :: st.checks)
  have hcalls : s.calls.toList = st.calls := congrArg Stacks.calls hst
  have hhandlers : s.handlers = st.handler q :: st.handlers := congrArg Stacks.handlers hst
  have hdata : s.data.toList = st.data := congrArg Stacks.data hst
  rw [State.loop, Stack.pop?_eq_some_iff.2 hchecks]
  dsimp only
  split
  · rw [reinstate_eq]
    refine .runs herror hexit ?_
    show Stacks.Over into b ks ⟨s.calls.toList, s.handlers.tail, rest.toList, s.data.toList⟩
    rw [hcalls, hhandlers, hrest, hdata]
    exact hover
  · refine .runs herror hbody ?_
    show Stacks.Over into b (.round :: ks) ⟨s.calls.toList, s.handlers, _ :: rest.toList, s.data.toList⟩
    rw [hcalls, hhandlers, hrest, hdata]
    exact .guard rfl hover hq

/-- The value of a round goes into the list below the handler of the repetition. -/
theorem collect_over (h : Stacks.Over into b (.value :: .round :: .value :: ks) s.allStacks) :
    Stacks.Over into b (.round :: .value :: ks) s.collect.allStacks ∧ s.collect.error = s.error ∧
      s.collect.pc = s.pc := by
  obtain ⟨v, st₁, hst, hround⟩ := h.of_value
  obtain ⟨q, c, st₂, rfl, hq, hlist⟩ := hround.of_round
  obtain ⟨list, st, rfl, hover⟩ := hlist.of_value
  obtain ⟨data, hdata, hbelow⟩ := Stack.exists_push (congrArg Stacks.data hst : s.data.toList = v :: list :: st.data)
  obtain ⟨rest, rfl, hrest⟩ := Stack.exists_push hbelow
  have hcollect : s.collect = { s with data := rest.push (list.append v) } := by
    unfold State.collect withValue
    rw [Stack.pop?_eq_some_iff.2 hdata]
    rfl
  have hcalls : s.calls.toList = st.calls := congrArg Stacks.calls hst
  have hhandlers : s.handlers = _ :: st.handlers := congrArg Stacks.handlers hst
  have hchecks : s.checks.toList = c :: st.checks := congrArg Stacks.checks hst
  rw [hcollect]
  refine ⟨?_, rfl, rfl⟩
  show Stacks.Over into b _ ⟨s.calls.toList, s.handlers, s.checks.toList, list.append v :: rest.toList⟩
  rw [hcalls, hhandlers, hchecks, hrest]
  have hlonger : Stacks.Over into b (.value :: ks) (st.upon [] [] [] [list.append v]) := .value hover
  exact hlonger.guard rfl hq

/-! ### Instructions at handlers -/

/-- The check that goes with the handler is taken. -/
theorem exists_of_check {c : Check τ} {st : Stacks τ} (h : s.allStacks = st.upon [] [] [c] []) :
    ∃ rest, s.checks = Stack.push c rest ∧ allStacks { s with checks := rest } = st := by
  obtain ⟨rest, hchecks, hrest⟩ := Stack.exists_push (congrArg Stacks.checks h : s.checks.toList = c :: st.checks)
  refine ⟨rest, hchecks, ?_⟩
  have hcalls : s.calls.toList = st.calls := congrArg Stacks.calls h
  have hhandlers : s.handlers = st.handlers := congrArg Stacks.handlers h
  have hdata : s.data.toList = st.data := congrArg Stacks.data h
  unfold allStacks
  rw [hcalls, hhandlers, hrest, hdata]
  rfl

section Handlers

variable {e : ParseError τ} {c : Check τ} {st : Stacks τ} (hst : s.allStacks = st.upon [] [] [c] [])
  (h : Stacks.Over into b ks st)
include hst h

theorem recover_over (herror : s.error = some e) (hnext : into (s.pc + 1) (.runs ks)) :
    s.recover.Grows into b ∨ s.recover.Leaves size b := by
  obtain ⟨rest, hchecks, hrest⟩ := exists_of_check hst
  rw [State.recover, withCheck_of_push hchecks]
  dsimp only
  rw [reinstate_eq]
  split
  · exact .inl (.runs rfl hnext (hrest ▸ h : Stacks.Over into b ks (allStacks { s with checks := rest })))
  · exact unwind_over (s := { s with checks := rest, hints := _ }) herror
      (hrest ▸ h : Stacks.Over into b ks (allStacks { s with checks := rest }))

theorem rewind_over (herror : s.error = some e) : s.rewind.Grows into b ∨ s.rewind.Leaves size b := by
  obtain ⟨rest, hchecks, hrest⟩ := exists_of_check hst
  rw [State.rewind, withCheck_of_push hchecks, reinstate_eq]
  exact unwind_over (s := { s with checks := rest, offset := _, hints := _ }) herror
    (hrest ▸ h : Stacks.Over into b ks (allStacks { s with checks := rest }))

theorem labelErr_over {name : Option String} : (s.labelErr name).Grows into b ∨ (s.labelErr name).Leaves size b := by
  obtain ⟨rest, hchecks, hrest⟩ := exists_of_check hst
  rw [State.labelErr, withCheck_of_push hchecks]
  exact unwind_over (s := { s with checks := rest, error := _, hints := _ }) rfl
    (hrest ▸ h : Stacks.Over into b ks (allStacks { s with checks := rest }))

theorem negSucceed_over {pushes : Bool} (hnext : into (s.pc + 1) (.runs (Slot.result pushes ++ ks))) :
    (s.negSucceed pushes).Grows into b := by
  obtain ⟨rest, hchecks, hrest⟩ := exists_of_check hst
  have hover : Stacks.Over into b ks (allStacks { s with checks := rest }) := hrest ▸ h
  rw [State.negSucceed, withCheck_of_push hchecks]
  cases pushes with
  | true => exact .runs rfl hnext (.value hover)
  | false => exact .runs rfl hnext hover

theorem guardErr_over {mode : GuardMode τ} {pushes : Bool}
    (hnext : mode = .capture → into (s.pc + 1) (.runs (Slot.result pushes ++ ks))) :
    (s.guardErr mode pushes).Grows into b ∨ (s.guardErr mode pushes).Leaves size b := by
  obtain ⟨rest, hchecks, hrest⟩ := exists_of_check hst
  have hover : Stacks.Over into b ks (allStacks { s with checks := rest }) := hrest ▸ h
  rw [State.guardErr, withCheck_of_push hchecks]
  cases mode with
  | capture =>
    cases pushes with
    | true => exact .inl (.runs rfl (hnext rfl) (.value hover))
    | false => exact .inl (.runs rfl (hnext rfl) hover)
  | amend f => exact unwind_over (s := { s with checks := rest, error := _, hints := _ }) rfl hover
  | merge other => exact unwind_over (s := { s with checks := rest, renewals := _, error := _, hints := _ }) rfl hover

end Handlers

/-! ### Spans -/

theorem slice_over {mode : SliceMode} (herror : s.error = none) (hnext : into (s.pc + 1) (.runs (.value :: ks)))
    (h : Stacks.Over into b (Slot.values mode.takes ++ .span :: ks) s.allStacks) : (s.slice mode).Grows into b := by
  obtain ⟨vs, st', hvs, hst, hbelow⟩ := h.of_values
  obtain ⟨c, st, rfl, hover⟩ := hbelow.of_span
  obtain ⟨rest, hchecks, hrest⟩ := Stack.exists_push (congrArg Stacks.checks hst : s.checks.toList = c :: st.checks)
  have hcalls : s.calls.toList = st.calls := congrArg Stacks.calls hst
  have hhandlers : s.handlers = st.handlers := congrArg Stacks.handlers hst
  have hdata : s.data.toList = vs ++ st.data := congrArg Stacks.data hst
  rw [State.slice, withCheck_of_push hchecks]
  cases mode with
  | chunk =>
    obtain rfl := List.length_eq_zero_iff.1 hvs
    refine .runs herror hnext ?_
    show Stacks.Over into b _ ⟨s.calls.toList, s.handlers, rest.toList, _ :: s.data.toList⟩
    rw [hcalls, hhandlers, hrest, hdata]
    exact .value hover
  | pair =>
    obtain ⟨v, rfl⟩ := List.length_eq_one_iff.1 hvs
    obtain ⟨data, hdata, hunder⟩ := Stack.exists_push (hdata : s.data.toList = v :: st.data)
    dsimp only
    rw [withValue, Stack.pop?_eq_some_iff.2 (show State.data { s with checks := rest } = data.push v from hdata)]
    refine .runs herror hnext ?_
    show Stacks.Over into b _ ⟨s.calls.toList, s.handlers, rest.toList, _ :: data.toList⟩
    rw [hcalls, hhandlers, hrest, hunder]
    exact .value hover

/-! ### Steps -/

variable {p : Program τ}

/-- By every instruction the stacks stay laid out over the footing, or that is left. -/
theorem Grows.exec (hflows : p.FlowsBy bad into) (hi : p.code[s.pc]? = some i) (h : s.Grows into b) :
    (s.exec p.size i).Grows into b ∨ (s.exec p.size i).Leaves p.size b := by
  cases h with
  | @runs ks herror hinto hover =>
    rcases hflows.next hinto hi with ⟨rfl, hf⟩ | ⟨hcall, f', hpasses, hnext⟩
    · cases hf
      exact ret_over herror hover
    cases hpasses with
    | steady hsteady =>
      rcases Instr.forward_or_call hsteady with ⟨hforward, htargets⟩ | ⟨q, rfl⟩
      · exact forward_over hforward herror hinto hover (by rw [htargets]; exact List.forall_mem_nil _) fun _ => hnext
      · exact .inl (call_over herror (hcall q rfl) hnext hover)
    | failing hfailing =>
      obtain ⟨hforward, htargets, hterminal⟩ := Instr.forward_of_isFailing hfailing
      have htakes : i.takes = 0 := by cases i <;> first | rfl | cases hfailing
      have hks : ks = Slot.values i.takes ++ ks := by rw [htakes, Slot.values_zero, List.nil_append]
      rw [hks] at hinto hover
      exact forward_over hforward herror hinto hover (by rw [htargets]; exact List.forall_mem_nil _)
        fun h => absurd (h.symm.trans hterminal) Bool.false_ne_true
    | jump ht =>
      exact forward_over rfl herror hinto hover (List.forall_mem_singleton.2 ht)
        fun h => absurd h.symm Bool.false_ne_true
    | case ht => exact forward_over rfl herror hinto hover (List.forall_mem_singleton.2 ht) fun _ => hnext
    | dispatch hts => exact forward_over rfl herror hinto hover hts fun h => absurd h.symm Bool.false_ne_true
    | checkpoint ht => exact .inl (checkpoint_over herror rfl ht hnext hover)
    | round ht => exact .inl (checkpoint_over herror rfl ht hnext hover)
    | commit ht => exact leave_over herror rfl ht hover
    | release ht => exact leave_over herror rfl ht hover
    | restore ht => exact leave_over herror rfl ht hover
    | negFail _ => exact negFail_over herror hinto rfl hover
    | labelOk _ ht => exact labelOk_over herror rfl ht hover
    | @loop body exit pushes ks _ hbody hexit =>
      cases pushes with
      | false => exact .inl (loop_over herror hbody hexit hover)
      | true =>
        obtain ⟨hcollect, herror', -⟩ := collect_over hover
        exact .inl (loop_over (s := s.collect) (herror'.trans herror) hbody hexit hcollect)
    | mark => exact .inl (.runs herror hnext (.span hover))
    | slice => exact .inl (slice_over herror hnext hover)
  | fails herror hinto hst hover =>
    rcases hflows.next hinto hi with ⟨rfl, hf⟩ | ⟨-, f', hpasses, hnext⟩
    · cases hf
    cases hpasses with
    | recover => exact recover_over hst hover herror hnext
    | manyDone => exact recover_over hst hover herror hnext
    | rewind => exact rewind_over hst hover herror
    | negSucceed _ => exact .inl (negSucceed_over hst hover hnext)
    | labelErr _ => exact labelErr_over hst hover
    | guardErr _ hf => exact guardErr_over hst hover fun hmode => hf hmode ▸ hnext

end State

end ParserMachine
