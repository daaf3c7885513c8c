import ParserMachine.Proofs.Machine.Acting
import ParserMachine.Proofs.Lists
import ParserMachine.Proofs.Machine.Guards

/-!
# Errors are kept

By every instruction control comes to the next state as the flows say (`State.Comes.exec`), and what the
instruction notes is merged with the errors that the state holds: none of them is lost, unless it stems from a
form that drops or rewords errors. So the error that a failed parse reports is the merge of all that were noted
in the run (`Program.FlowsBy.reports`).
-/

namespace ParserMachine

variable {τ : Type} [Token τ] {bad : Unary τ → Prop} {into : Nat → Flow → Prop}

open ParseError Checks

namespace Instr

variable {ι : Type} {i : Instr τ ι}

theorem forward_or_call (hi : i.isSteady = true) :
    (i.isForward = true ∧ i.targets = []) ∨ ∃ t, i = .call t := by
  cases i <;> first | exact .inl ⟨rfl, rfl⟩ | exact .inr ⟨_, rfl⟩ | exact absurd hi Bool.false_ne_true

theorem forward_of_isFailing (hi : i.isFailing = true) :
    i.isForward = true ∧ i.targets = [] ∧ i.isTerminal = true := by
  cases i <;> first | exact ⟨rfl, rfl, rfl⟩ | exact absurd hi Bool.false_ne_true

end Instr

namespace State

variable {s : State τ}

/-! ### Instructions that handle checks -/

section Checks

variable {c : Check τ} {rest : Stack (Check τ)}

theorem withCheck_of_push (h : s.checks = rest.push c) (k : Check τ → State τ → State τ) :
    s.withCheck k = k c { s with checks := rest } := by
  rw [withCheck, h]
  rfl

theorem reinstate_eq (s : State τ) (saved : Option (Option (ParseError τ))) :
    s.reinstate saved = { s with hints := mergeOpt saved.join s.hints } := by
  cases saved <;> rfl

theorem pending_of_push (h : s.checks = rest.push c) :
    s.pending = mergeOpt (mergeOpt s.hints s.error) (mergeOpt c.saved.join (saved rest.toList)) := by
  unfold pending
  rw [h]
  rfl

/-- Where a handler was installed last, it goes with the top check. -/
theorem exists_of_guard {k : Slot} {ks : List Slot} (hk : k.handles = true)
    (h : Upheld into (k :: ks) s.calls.toList s.handlers s.checks.toList) :
    ∃ hd hs c rest, s.handlers = hd :: hs ∧ s.checks = Stack.push c rest ∧ into hd.pc (.fails k ks) ∧
      hd.calls = s.calls.toList.length ∧ hd.checks = rest.toList.length + 1 ∧
      Upheld into ks s.calls.toList hs rest.toList := by
  generalize hcalls : s.calls.toList = calls at h
  generalize hhandlers : s.handlers = hs at h
  generalize hchecks : s.checks.toList = cs at h
  cases h with
  | value => cases hk
  | span => cases hk
  | @guard _ _ _ hd hs cs c _ hrest hinto hd hd' =>
    have htop : s.checks = s.checks.below.push c := by
      apply Stack.ext
      rw [Stack.toList_push, Stack.toList_below, hchecks]
      rfl
    have hbelow : s.checks.below.toList = cs := by
      rw [Stack.toList_below, hchecks]
      rfl
    refine ⟨_, _, c, s.checks.below, rfl, htop, hinto, hd, ?_, ?_⟩
    · rw [hbelow]
      exact hd'
    · rw [hbelow]
      exact hrest

/-- Where a span was begun last, the top check has set nothing aside. -/
theorem exists_of_span {ks : List Slot}
    (h : Upheld into (.span :: ks) s.calls.toList s.handlers s.checks.toList) :
    ∃ c rest, s.checks = Stack.push c rest ∧ c.saved = none ∧ Upheld into ks s.calls.toList s.handlers rest.toList := by
  generalize hcalls : s.calls.toList = calls at h
  generalize hhandlers : s.handlers = hs at h
  generalize hchecks : s.checks.toList = cs at h
  cases h with
  | guard hk => cases hk
  | @span _ _ _ cs c hrest hsaved =>
    have hbelow : s.checks.below.toList = cs := by
      rw [Stack.toList_below, hchecks]
      rfl
    refine ⟨c, s.checks.below, ?_, hsaved, hbelow ▸ hrest⟩
    apply Stack.ext
    rw [Stack.toList_push, Stack.toList_below, hchecks]
    rfl

end Checks

/-! ### Steps -/

namespace Comes

variable {p : Program τ} {i : Instr τ Nat} {k : Slot} {ks ks' : List Slot} {n : Nat}

theorem forward (hrunning : s.status = .running) (hcomes : s.Comes into (.runs ks)) (hi : i.isForward = true)
    (hvalues : ∀ calls hs (cs : List (Check τ)), Upheld into ks calls hs cs → Upheld into ks' calls hs cs)
    (htargets : ∀ t ∈ i.targets, into t (.runs ks')) (hnext : i.isTerminal = false → into (s.pc + 1) (.runs ks')) :
    (s.exec p.size i).Stands p into (Unary.Keeps bad (mergeOpt (s.noted i) s.pending)) := by
  cases hcomes with
  | runs herror hupheld =>
    generalize hs' : s.exec p.size i = s'
    have hacts := hs' ▸ acts_exec (s := s) hi p.size
    cases hacts with
    | faults hfaulted => exact .of_faulted hfaulted
    | waits hbeside _ _ =>
      exact .of_stopped (fun h => nomatch hbeside.status.symm.trans h) fun h => nomatch hbeside.status.symm.trans h
    | fails hraised hrecorded hoffset hbeside _ hhints =>
      rw [← hbeside.calls, ← hbeside.handlers, ← hbeside.checks] at hupheld
      refine .fail (hbeside.status.trans hrunning) (hbeside.error.trans herror) (Nat.le_of_eq hoffset.symm) hupheld
        (.of_eq ?_)
      unfold noted pending
      rw [hraised, hrecorded, mergeOpt_none, hhints, hbeside.error, hbeside.checks]
    | goes hraised hbeside _ hhints hpc =>
      have hinto : into s'.pc (.runs ks') := by
        rcases hpc with ⟨hterminal, hpc⟩ | hpc
        · exact hpc ▸ hnext hterminal
        · exact htargets _ hpc
      refine .of_comes (hbeside.status.trans hrunning) hinto (.runs (hbeside.error.trans herror) ?_) (.of_eq ?_)
      · rw [hbeside.calls, hbeside.handlers, hbeside.checks]
        exact hvalues _ _ _ hupheld
      · unfold noted pending
        rw [hraised, none_mergeOpt, hhints, hbeside.error, hbeside.checks]
        ac_rfl

/-- An activation goes back to the one below. -/
theorem ret (hrunning : s.status = .running) (hcomes : s.Comes into (.runs [.value])) :
    (s.exec p.size .ret).Stands p into (Unary.Keeps bad s.pending) := by
  cases hcomes with
  | runs herror hupheld =>
    replace hupheld := upheld_value.1 hupheld
    generalize hcalls : s.calls.toList = calls at hupheld
    generalize hhandlers : s.handlers = hs at hupheld
    generalize hchecks : s.checks.toList = cs at hupheld
    have hpc : (s.exec p.size .ret).pc = calls.head?.getD p.size := by
      rw [← hcalls]
      rfl
    cases hupheld with
    | start =>
      refine ⟨fun _ => .inl ?_, fun h => absurd (h.symm.trans hrunning) nofun⟩
      rw [hpc]
      exact Array.getElem?_eq_none (Nat.le_refl _)
    | @called ks q calls _ _ hrest hinto =>
      refine .of_comes hrunning (f := .runs (.value :: ks)) ?_ (.runs herror (.value ?_)) (.refl _)
      · rw [hpc]
        exact hinto
      · show Upheld into ks s.calls.toList.tail s.handlers s.checks.toList
        rw [hcalls, hhandlers, hchecks]
        exact hrest

theorem checkpoint {t : Nat} {snapshot : Bool} (hrunning : s.status = .running) (hcomes : s.Comes into (.runs ks))
    (hk : k.handles = true) (ht : into t (.fails k ks)) (hnext : into (s.pc + 1) (.runs (k :: ks))) :
    (s.checkpoint t snapshot).Stands p into (Unary.Keeps bad s.pending) := by
  cases hcomes with
  | runs herror hupheld =>
    refine .of_comes hrunning hnext (.runs herror (.guard hk hupheld ht s.calls.height_eq ?_)) (.of_eq ?_)
    · exact congrArg (· + 1) s.checks.height_eq
    · cases snapshot with
      | true =>
        show mergeOpt (mergeOpt none s.error) (mergeOpt s.hints (saved s.checks.toList)) = s.pending
        unfold pending
        rw [none_mergeOpt]
        ac_rfl
      | false => rfl

theorem leave {rewinds : Bool} {t : Nat} (hrunning : s.status = .running)
    (hcomes : s.Comes into (.runs (Slot.values n ++ k :: ks))) (hk : k.handles = true)
    (ht : into t (.runs (Slot.values n ++ ks))) : (s.leave rewinds t).Stands p into (Unary.Keeps bad s.pending) := by
  cases hcomes with
  | runs herror hupheld =>
    obtain ⟨hd, hs, c, rest, hhandlers, hchecks, -, -, -, hrest⟩ := exists_of_guard hk (upheld_values.1 hupheld)
    rw [State.leave, withCheck_of_push (s := s.dropHandler) hchecks, reinstate_eq]
    refine .of_comes hrunning ht (.runs herror (upheld_values.2 ?_)) (.of_eq ?_)
    · show Upheld into ks s.calls.toList s.handlers.tail rest.toList
      rw [hhandlers]
      exact hrest
    · rw [pending_of_push hchecks]
      show mergeOpt (mergeOpt (mergeOpt c.saved.join s.hints) s.error) (saved rest.toList) = _
      ac_rfl

theorem negFail (hrunning : s.status = .running) (hcomes : s.Comes into (.runs (.guard true :: ks)))
    (hgood : ¬ bad .notFollowedBy) (m : Option (ParseError τ)) : s.negFail.Stands p into (Unary.Keeps bad m) := by
  cases hcomes with
  | runs herror hupheld =>
    obtain ⟨hd, hs, c, rest, hhandlers, hchecks, -, -, -, hrest⟩ := exists_of_guard rfl hupheld
    rw [State.negFail, Stack.pop?_eq_some_iff.2 hchecks]
    dsimp only
    split
    · exact .suspend s
    · have hupheld : Upheld into ks s.calls.toList s.handlers.tail rest.toList := by
        rw [hhandlers]
        exact hrest
      exact .fail hrunning herror (Nat.le_refl _) hupheld (.of_forgets hgood trivial _ _)

/-- The label that stands for hints lies as far ahead as those that it stands for. -/
theorem labelOk {name : Option String} {t : Nat} (hrunning : s.status = .running)
    (hcomes : s.Comes into (.runs (Slot.values n ++ .guard true :: ks))) (hgood : ¬ bad (.label name))
    (ht : into t (.runs (Slot.values n ++ ks))) :
    (s.labelOk name t).Stands p into (Unary.Keeps bad s.pending) := by
  cases hcomes with
  | runs herror hupheld =>
    obtain ⟨hd, hs, c, rest, hhandlers, hchecks, -, -, -, hrest⟩ := exists_of_guard rfl (upheld_values.1 hupheld)
    rw [State.labelOk, withCheck_of_push (s := s.dropHandler) hchecks]
    refine .of_comes hrunning ht (.runs herror (upheld_values.2 ?_))
      ⟨fun hbad n hn => ?_, fun hbad => absurd (hbad (.label name) .intro) hgood⟩
    · show Upheld into ks s.calls.toList s.handlers.tail rest.toList
      rw [hhandlers]
      exact hrest
    · cases name with
      | none => exact absurd (hbad (.label none) .intro) hgood
      | some l =>
        have hsaved : c.saved.getD none = c.saved.join := by cases c.saved <;> rfl
        rw [pending_of_push hchecks, herror, mergeOpt_none, reaches_mergeOpt, reaches_mergeOpt] at hn
        unfold pending
        show Reaches (mergeOpt (mergeOpt (mergeOpt (c.saved.getD none) _) s.error) (saved rest.toList)) n
        rw [herror, mergeOpt_none, reaches_mergeOpt, reaches_mergeOpt, hsaved]
        rcases hn with ⟨h, hh, hle⟩ | hn | hn
        · refine .inl (.inr ?_)
          split
          · rw [reaches_mergeOpt]
            by_cases hfar : h.offset > c.offset
            · exact .inl ⟨h, Option.mem_filter_iff.2 ⟨hh, by simpa using hfar⟩, hle⟩
            · exact .inr ⟨_, rfl, Nat.le_trans hle (Nat.le_of_not_lt hfar)⟩
          · exact ⟨h, hh, hle⟩
        · exact .inl (.inl hn)
        · exact .inr hn

theorem loop {body exit : Nat} (hrunning : s.status = .running) (hcomes : s.Comes into (.runs (.round :: ks)))
    (hbody : into body (.runs (.round :: ks))) (hexit : into exit (.runs ks)) :
    (s.loop body exit).Stands p into (Unary.Keeps bad s.pending) := by
  cases hcomes with
  | runs herror hupheld =>
    obtain ⟨hd, hs, c, rest, hhandlers, hchecks, hinto, hcalls, hheight, hrest⟩ := exists_of_guard rfl hupheld
    rw [State.loop, Stack.pop?_eq_some_iff.2 hchecks]
    dsimp only
    split
    · rw [reinstate_eq]
      refine .of_comes hrunning hexit (.runs herror ?_) (.of_eq ?_)
      · show Upheld into ks s.calls.toList s.handlers.tail rest.toList
        rw [hhandlers]
        exact hrest
      · rw [pending_of_push hchecks]
        show mergeOpt (mergeOpt (mergeOpt c.saved.join s.hints) s.error) (saved rest.toList) = _
        ac_rfl
    · refine .of_comes hrunning hbody (.runs herror ?_) (.of_eq ?_)
      · show Upheld into (.round :: ks) s.calls.toList s.handlers (_ :: rest.toList)
        rw [hhandlers]
        exact .guard rfl hrest hinto hcalls hheight
      · rw [pending_of_push hchecks]
        rfl

/-- The values that a round leaves are collected before it is decided whether there is another one. -/
theorem collectLoop {body exit : Nat} (hrunning : s.status = .running)
    (hcomes : s.Comes into (.runs (.value :: .round :: ks))) (hbody : into body (.runs (.round :: ks)))
    (hexit : into exit (.runs ks)) : (s.collect.loop body exit).Stands p into (Unary.Keeps bad s.pending) := by
  have hfault (t : State τ) (f : Nat → Fault) : ((t.fault f).loop body exit).Stands p into (Unary.Keeps bad s.pending) := by
    rw [State.loop]
    split
    · exact .fault _ _
    · split
      · rw [reinstate_eq]
        exact .of_faulted rfl
      · exact .of_faulted rfl
  rw [collect, withValue]
  split
  · exact hfault _ _
  · rw [withValue]
    split
    · exact hfault _ _
    · rename_i list data _
      cases hcomes with
      | runs herror hupheld =>
        exact loop (s := { s with data := data.push _ }) hrunning (.runs herror (upheld_value.1 hupheld)) hbody hexit

theorem recover (hrunning : s.status = .running) (hcomes : s.Comes into (.fails k ks))
    (hnext : into (s.pc + 1) (.runs ks)) : s.recover.Stands p into (Unary.Keeps bad s.pending) := by
  cases hcomes with
  | @fails _ _ e c rest herror hle hchecks hupheld =>
    rw [State.recover, withCheck_of_push hchecks]
    dsimp only
    rw [reinstate_eq]
    split
    · refine .of_comes hrunning hnext (.runs rfl hupheld) (.of_eq ?_)
      show mergeOpt (mergeOpt (mergeOpt (mergeOpt c.saved.join s.hints) (some (s.error.getD _))) none)
        (saved rest.toList) = _
      rw [pending_of_push hchecks, herror, mergeOpt_none, Option.getD_some]
      ac_rfl
    · refine .unwind hrunning herror hle hupheld (.of_eq ?_)
      rw [pending_of_push hchecks]
      show mergeOpt (mergeOpt (mergeOpt c.saved.join s.hints) s.error) (saved rest.toList) = _
      ac_rfl

theorem rewind (hs : s.Ordered) (hrunning : s.status = .running) (hcomes : s.Comes into (.fails k ks)) :
    s.rewind.Stands p into (Unary.Keeps bad s.pending) := by
  cases hcomes with
  | @fails _ _ e c rest herror hle hchecks hupheld =>
    have hback : c.offset ≤ s.offset := hs.checks_le c (by rw [hchecks]; exact List.mem_cons_self ..)
    rw [State.rewind, withCheck_of_push hchecks, reinstate_eq]
    refine .unwind hrunning herror (Nat.le_trans hback hle) hupheld (.of_eq ?_)
    rw [pending_of_push hchecks]
    show mergeOpt (mergeOpt (mergeOpt c.saved.join s.hints) s.error) (saved rest.toList) = _
    ac_rfl

theorem negSucceed {pushes : Bool} (hrunning : s.status = .running) (hcomes : s.Comes into (.fails k ks))
    (hgood : ¬ bad .notFollowedBy) (hnext : into (s.pc + 1) (.runs (Slot.result pushes ++ ks)))
    (m : Option (ParseError τ)) :
    (s.negSucceed pushes).Stands p into (Unary.Keeps bad m) := by
  cases hcomes with
  | @fails _ _ e c rest herror hle hchecks hupheld =>
    rw [State.negSucceed, withCheck_of_push hchecks]
    cases pushes <;>
      exact .of_comes hrunning hnext (.runs rfl (upheld_values.2 hupheld)) (.of_forgets hgood trivial _ _)

/-- Hints that a label replaces lie where the error does. -/
theorem labelErr {name : Option String} (hrunning : s.status = .running) (hcomes : s.Comes into (.fails k ks))
    (hgood : ¬ bad (.label name)) : (s.labelErr name).Stands p into (Unary.Keeps bad s.pending) := by
  cases hcomes with
  | @fails _ _ e c rest herror hle hchecks hupheld =>
    have hflying : State.inFlight { s with checks := rest } = e := by
      show s.error.getD _ = e
      rw [herror]
      rfl
    have hoffset (expected : ExpectedSet τ) : (e.withExpected expected).offset = e.offset := by cases e <;> rfl
    have hsaved : c.saved.getD none = c.saved.join := by cases c.saved <;> rfl
    rw [State.labelErr, withCheck_of_push hchecks]
    dsimp only
    rw [hflying]
    refine .unwind hrunning rfl ?_ hupheld
      ⟨fun hbad n hn => ?_, fun hbad => absurd (hbad (.label name) .intro) hgood⟩
    · show s.offset ≤ _
      split
      · rw [hoffset]
        exact hle
      · exact hle
    · rw [pending_of_push hchecks, reaches_mergeOpt, reaches_mergeOpt, reaches_mergeOpt, herror] at hn
      show Reaches (mergeOpt (mergeOpt (mergeOpt (c.saved.getD none) _) (some _)) (saved rest.toList)) n
      rw [reaches_mergeOpt, reaches_mergeOpt, reaches_mergeOpt, hsaved]
      rcases hn with (⟨h, hh, hn⟩ | ⟨e', he', hn⟩) | hn | hn
      · by_cases hstart : e.offset = c.offset
        · rw [if_pos hstart, if_pos hstart]
          by_cases hfar : h.offset = c.offset
          · exact .inl (.inr ⟨_, rfl, by rw [hoffset, hstart, ← hfar]; exact hn⟩)
          · exact .inl (.inl (.inr ⟨h, Option.mem_filter_iff.2 ⟨hh, by simpa using hfar⟩, hn⟩))
        · rw [if_neg hstart, if_neg hstart]
          exact .inl (.inl (.inr ⟨h, hh, hn⟩))
      · cases he'
        refine .inl (.inr ⟨_, rfl, ?_⟩)
        split
        · rw [hoffset]
          exact hn
        · exact hn
      · exact .inl (.inl (.inl hn))
      · exact .inr hn

theorem capture {pushes : Bool} (hrunning : s.status = .running) (hcomes : s.Comes into (.fails k ks))
    (hgood : ¬ bad (.guard .capture)) (hnext : into (s.pc + 1) (.runs (Slot.result pushes ++ ks)))
    (m : Option (ParseError τ)) :
    (s.guardErr .capture pushes).Stands p into (Unary.Keeps bad m) := by
  cases hcomes with
  | @fails _ _ e c rest herror hle hchecks hupheld =>
    rw [State.guardErr, withCheck_of_push hchecks]
    cases pushes <;>
      exact .of_comes hrunning hnext (.runs rfl (upheld_values.2 hupheld)) (.of_forgets hgood trivial _ _)

theorem mark (hrunning : s.status = .running) (hcomes : s.Comes into (.runs ks))
    (hnext : into (s.pc + 1) (.runs (.span :: ks))) :
    (s.exec p.size .mark).Stands p into (Unary.Keeps bad s.pending) := by
  cases hcomes with
  | runs herror hupheld => exact .of_comes hrunning hnext (.runs herror (.span hupheld rfl)) (.refl _)

theorem slice {mode : SliceMode} (hrunning : s.status = .running)
    (hcomes : s.Comes into (.runs (Slot.values n ++ .span :: ks))) (hnext : into (s.pc + 1) (.runs (.value :: ks))) :
    (s.slice mode).Stands p into (Unary.Keeps bad s.pending) := by
  cases hcomes with
  | runs herror hupheld =>
    obtain ⟨c, rest, hchecks, hsaved, hrest⟩ := exists_of_span (upheld_values.1 hupheld)
    have hpending : mergeOpt (mergeOpt s.hints s.error) (saved rest.toList) = s.pending := by
      rw [pending_of_push hchecks, hsaved]
      exact congrArg (mergeOpt _) (none_mergeOpt _).symm
    rw [State.slice, withCheck_of_push hchecks]
    cases mode with
    | chunk => exact .of_comes hrunning hnext (.runs herror (.value hrest)) (.of_eq hpending)
    | pair =>
      dsimp only
      rw [withValue]
      split
      · exact .fault _ _
      · exact .of_comes hrunning hnext (.runs herror (.value hrest)) (.of_eq hpending)

/-- By every instruction control comes to the next state as the flows say, and of errors nothing is lost but by
forms that occur. -/
theorem exec {f : Flow} (hflows : p.FlowsBy bad into) (hamends : ∀ u, Unary.Amends u → bad u) (hs : s.Ordered)
    (hrunning : s.status = .running) (hi : p.code[s.pc]? = some i) (hinto : into s.pc f) (hcomes : s.Comes into f) :
    (s.exec p.size i).Stands p into (Unary.Keeps bad (mergeOpt (s.noted i) s.pending)) := by
  rcases hflows.next hinto hi with ⟨rfl, rfl⟩ | ⟨hcall, f', hpasses, hnext⟩
  · exact ret hrunning hcomes
  cases hpasses with
  | steady hsteady =>
    rcases Instr.forward_or_call hsteady with ⟨hforward, htargets⟩ | ⟨t, rfl⟩
    · exact hcomes.forward hrunning hforward (fun _ _ _ h => upheld_values.2 (upheld_values.1 h))
        (by rw [htargets]; exact List.forall_mem_nil _) fun _ => hnext
    · cases hcomes with
      | runs herror hupheld =>
        exact .of_comes hrunning (hcall t rfl) (.runs herror (.called hupheld hnext)) (.refl _)
  | failing hfailing =>
    obtain ⟨hforward, htargets, hterminal⟩ := Instr.forward_of_isFailing hfailing
    exact hcomes.forward hrunning hforward (fun _ _ _ => id) (by rw [htargets]; exact List.forall_mem_nil _)
      fun h => absurd (h.symm.trans hterminal) Bool.false_ne_true
  | jump ht =>
    exact hcomes.forward hrunning rfl (fun _ _ _ => id) (by simpa [Instr.targets] using ht)
      fun h => absurd h.symm Bool.false_ne_true
  | case ht =>
    exact hcomes.forward hrunning rfl (fun _ _ _ => id) (by simpa [Instr.targets] using ht) fun _ => hnext
  | dispatch hts =>
    exact hcomes.forward hrunning rfl (fun _ _ _ => id) hts fun h => absurd h.symm Bool.false_ne_true
  | checkpoint ht => exact hcomes.checkpoint hrunning rfl ht hnext
  | round ht => exact hcomes.checkpoint hrunning rfl ht hnext
  | commit ht => exact hcomes.leave hrunning rfl ht
  | release ht => exact hcomes.leave hrunning rfl ht
  | restore ht => exact hcomes.leave hrunning rfl ht
  | negFail hgood => exact hcomes.negFail hrunning hgood _
  | labelOk hgood ht => exact hcomes.labelOk hrunning hgood ht
  | @loop body exit pushes ks f hbody hexit =>
    cases pushes with
    | true => exact hcomes.collectLoop hrunning hbody hexit
    | false => exact hcomes.loop hrunning hbody hexit
  | recover => exact hcomes.recover hrunning hnext
  | manyDone => exact hcomes.recover hrunning hnext
  | rewind => exact hcomes.rewind hs hrunning
  | negSucceed hgood => exact hcomes.negSucceed hrunning hgood hnext _
  | labelErr hgood => exact hcomes.labelErr hrunning hgood
  | @guardErr mode pushes ks f' hgood hf' =>
    cases mode with
    | capture => exact hcomes.capture hrunning hgood (hf' rfl ▸ hnext) _
    | amend g => exact absurd (hamends (.guard (.amend g)) .intro) hgood
    | merge other => exact absurd (hamends (.guard (.merge other)) .intro) hgood
  | mark => exact hcomes.mark hrunning hnext
  | slice => exact hcomes.slice hrunning hnext

end Comes

end State

/-! ### Runs -/

namespace Program

variable {p : Program τ} {s t : State τ}

/-- What the instructions raise and record in the first steps of a run. -/
def notedAlong (p : Program τ) (n : Nat) (s : State τ) : List (ParseError τ) :=
  p.along State.raised n s ++ p.along State.recorded n s

theorem along_of_step?_eq_none (note : State τ → Instr τ Nat → Option (ParseError τ)) (h : p.step? s = none) (n : Nat) :
    p.along note n s = [] := by
  cases n with
  | zero => rfl
  | succ n => rw [along, h]

theorem along_succ (note : State τ → Instr τ Nat → Option (ParseError τ)) {i : Instr τ Nat}
    (hrunning : s.status = .running) (hi : p.code[s.pc]? = some i) (n : Nat) :
    p.along note (n + 1) s = (note s i).toList ++ p.along note n (s.exec p.size i) := by
  rw [along, step?_of_code hrunning hi, hi]

theorem mergeAll_notedAlong_succ {i : Instr τ Nat} (hrunning : s.status = .running) (hi : p.code[s.pc]? = some i)
    (n : Nat) : mergeAll (p.notedAlong (n + 1) s) = mergeOpt (mergeAll (p.notedAlong n (s.exec p.size i))) (s.noted i) := by
  have hone (m : Option (ParseError τ)) : mergeAll m.toList = m := by cases m <;> rfl
  unfold notedAlong State.noted
  rw [along_succ _ hrunning hi, along_succ _ hrunning hi]
  simp only [mergeAll_append, hone]
  ac_rfl

/-- A run begins without errors. -/
theorem FlowsBy.begins (hflows : p.FlowsBy bad into) (input : List τ) :
    State.Stands p into (Unary.Keeps bad none) { input := input.toArray, more := false } :=
  .of_comes rfl hflows.main (.runs rfl .start) (.refl _)

variable (hflows : p.FlowsBy bad into) (hamends : ∀ u, Unary.Amends u → bad u)
include hflows hamends

/-- What holds of the state after one step. -/
theorem FlowsBy.step {m : Option (ParseError τ)} (hs : s.Ordered) (h : s.Stands p into (Unary.Keeps bad m))
    {i : Instr τ Nat} (hrunning : s.status = .running) (hi : p.code[s.pc]? = some i) :
    (s.exec p.size i).Stands p into (Unary.Keeps bad (mergeOpt (s.noted i) m)) := by
  rcases h.running hrunning with hnone | ⟨f, hinto, hcomes, hkeeps⟩
  · rw [hi] at hnone
    cases hnone
  · exact (hcomes.exec hflows hamends hs hrunning hi hinto).mono fun m' => ((hkeeps.merge _).trans ·)

/-- What holds of the state after any number of steps. -/
theorem FlowsBy.run {n : Nat} {m : Option (ParseError τ)} (hs : s.Ordered) (h : s.Stands p into (Unary.Keeps bad m))
    (hrun : p.run n s = some t) :
    t.Stands p into (Unary.Keeps bad (mergeOpt (mergeAll (p.notedAlong n s)) m)) := by
  induction n generalizing s m with
  | zero =>
    have hstop : p.step? s = none := by
      cases hstep : p.step? s with
      | none => rfl
      | some s' =>
        rw [run_zero_of_step? hstep] at hrun
        cases hrun
    rw [run_of_step?_eq_none hstop] at hrun
    cases hrun
    exact h
  | succ n ih =>
    cases hstep : p.step? s with
    | none =>
      rw [run_of_step?_eq_none hstep] at hrun
      cases hrun
      unfold notedAlong
      rw [along_of_step?_eq_none _ hstep, along_of_step?_eq_none _ hstep]
      exact h
    | some s' =>
      rw [run_succ_of_step? hstep] at hrun
      obtain ⟨hrunning, i, hi, rfl⟩ := step?_eq_some_iff.1 hstep
      have hrest := ih (hs.exec p.size i) (hflows.step hamends hs h hrunning hi) hrun
      rwa [← mergeOpt_assoc, ← mergeAll_notedAlong_succ hrunning hi] at hrest

/-- A parse that fails reports what was noted in its run, and not behind the cursor. -/
theorem FlowsBy.reports {n : Nat} {input : List τ} {e : ParseError τ} {rest : List τ}
    (h : p.parse n input = some (.failed e rest)) :
    Unary.Keeps bad (mergeAll (p.notedAlong n { input := input.toArray, more := false })) (some e) ∧
      ∃ t, p.run n { input := input.toArray, more := false } = some t ∧ mergeOpt t.hints t.error = some e ∧
        t.offset ≤ e.offset ∧ rest = input.drop t.offset := by
  obtain ⟨t, hrun, houtcome⟩ := Option.map_eq_some_iff.1 h
  have hstands := hflows.run hamends (.start input.toArray false) (hflows.begins input) hrun
  have hinput : t.input = input.toArray := (sameBuffer_of_run hrun).1
  unfold State.outcome at houtcome
  cases hstatus : t.status with
  | failed =>
    rw [hstatus] at houtcome
    obtain ⟨e', herror, hle, hkeeps⟩ := hstands.failed hstatus
    obtain ⟨r, hr, hler⟩ : ∃ r, mergeOpt t.hints t.error = some r ∧ e'.offset ≤ r.offset := by
      rw [herror]
      cases t.hints with
      | none => exact ⟨e', rfl, Nat.le_refl _⟩
      | some h => exact ⟨h.merge e', rfl, by rw [offset_merge]; exact Nat.le_max_right _ _⟩
    dsimp only at houtcome
    rw [hr, Option.getD_some, hinput, toList_extract_size] at houtcome
    cases houtcome
    rw [hr, mergeOpt_none] at hkeeps
    exact ⟨hkeeps, t, hrun, hr, Nat.le_trans hle hler, rfl⟩
  | _ =>
    rw [hstatus] at houtcome
    cases houtcome

end Program

end ParserMachine
