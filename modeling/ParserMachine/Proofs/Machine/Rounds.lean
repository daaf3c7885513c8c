import ParserMachine.Proofs.Machine.Acting
import ParserMachine.Proofs.Streaming.Reachable

/-!
# Rounds of a repetition

A repetition keeps a check that says where its last round began. No instruction but the one that ends a round
changes a check (`State.exec_checks`), and that one goes into another round only where the cursor lies ahead of the
check, which it moves there (`State.exec_loop`). So a repetition goes into no more further rounds than tokens were
left when it began (`Program.furtherRounds_le`).
-/

namespace ParserMachine

variable {τ : Type} [Token τ]

/-! ### What becomes of checks -/

namespace State

variable {s t : State τ} {cs : List (Check τ)} {size : Nat} {i : Instr τ Nat}

/-- Of these checks some of the lowest are left. -/
def Sheds (cs : List (Check τ)) (s : State τ) : Prop := s.checks.toList <:+ cs

namespace Sheds

theorem unwind (h : s.Sheds cs) : s.unwind.Sheds cs := by
  rw [State.unwind]
  split
  · exact h
  · unfold Sheds
    rw [Stack.toList_lowest]
    exact (List.drop_suffix _ _).trans h

theorem withCheck (h : s.Sheds cs) {k : Check τ → State τ → State τ}
    (hk : ∀ c {t : State τ}, t.Sheds cs → (k c t).Sheds cs) : (s.withCheck k).Sheds cs := by
  rw [State.withCheck]
  split
  · exact h
  · rename_i c rest hpop
    refine hk c (t := { s with checks := rest }) (List.IsSuffix.trans ?_ h)
    rw [Stack.pop?_eq_some_iff.1 hpop, Stack.toList_push]
    exact List.suffix_cons _ _

theorem reinstate (h : s.Sheds cs) (saved : Option (Option (ParseError τ))) : (s.reinstate saved).Sheds cs := by
  cases saved <;> exact h

theorem leave (h : s.Sheds cs) (rewinds : Bool) (target : Nat) : (s.leave rewinds target).Sheds cs :=
  withCheck (s := s.dropHandler) h fun c t h =>
    reinstate (s := { t with offset := if rewinds then c.offset else t.offset }) h c.saved

theorem recover (h : s.Sheds cs) : s.recover.Sheds cs := by
  refine h.withCheck fun c t h => ?_
  have hsaved := h.reinstate c.saved
  dsimp only
  split
  · exact hsaved
  · exact hsaved.unwind

theorem negFail (h : s.Sheds cs) : s.negFail.Sheds cs := by
  rw [State.negFail]
  split
  · exact h
  · rename_i c rest hpop
    split
    · exact h
    · refine unwind (s := { s.dropHandler with checks := rest, hints := _, offset := _, error := _ })
        (List.IsSuffix.trans ?_ h)
      rw [Stack.pop?_eq_some_iff.1 hpop, Stack.toList_push]
      exact List.suffix_cons _ _

theorem guardErr (h : s.Sheds cs) (mode : GuardMode τ) (pushes : Bool) : (s.guardErr mode pushes).Sheds cs := by
  refine h.withCheck fun c t h => ?_
  cases mode with
  | capture => cases pushes <;> exact h
  | amend f => exact unwind (s := { t with error := _, hints := _ }) h
  | merge other => exact unwind (s := { t with renewals := _, error := _, hints := _ }) h

theorem slice (h : s.Sheds cs) (mode : SliceMode) : (s.slice mode).Sheds cs := by
  refine h.withCheck fun c t h => ?_
  cases mode with
  | chunk => exact h
  | pair =>
    dsimp only
    rw [withValue]
    split <;> exact h

end Sheds

/-- No instruction but the one that ends a round changes a check: it may add one, or take some of the highest. -/
theorem exec_checks (hi : ∀ body exit pushes, i ≠ .loop body exit pushes) (hs : (s.exec size i).status = .running) :
    (s.exec size i).checks.toList <:+ s.checks.toList ∨ ∃ c, (s.exec size i).checks = s.checks.push c := by
  have h : s.Sheds s.checks.toList := List.suffix_refl _
  cases hforward : i.isForward with
  | true =>
    refine .inl ?_
    generalize hs' : s.exec size i = s' at hs
    have hacts := hs' ▸ acts_exec (s := s) hforward size
    cases hacts with
    | faults h => cases h.symm.trans hs
    | waits hbeside _ _ => cases hbeside.status.symm.trans hs
    | @fails t e _ _ _ hbeside _ _ =>
      refine Sheds.unwind (s := { t with error := some e }) ?_
      show t.checks.toList <:+ _
      exact hbeside.checks ▸ List.suffix_refl _
    | goes _ hbeside _ _ _ => exact hbeside.checks ▸ List.suffix_refl _
  | false =>
    cases i with
    | call | ret => exact .inl h
    | checkpoint | mark => exact .inr ⟨_, rfl⟩
    | commit | release | restore => exact .inl (h.leave _ _)
    | negFail => exact .inl h.negFail
    | labelOk => exact .inl (Sheds.withCheck (s := s.dropHandler) h fun _ _ h => h)
    | loop body exit pushes => exact absurd rfl (hi body exit pushes)
    | recover | manyDone => exact .inl h.recover
    | rewind =>
      exact .inl (h.withCheck fun c t h => (Sheds.reinstate (s := { t with offset := c.offset }) h c.saved).unwind)
    | negSucceed pushes =>
      refine .inl (h.withCheck fun c t h => ?_)
      cases pushes <;> exact h
    | labelErr =>
      exact .inl (h.withCheck fun c t h => Sheds.unwind (s := { t with error := _, hints := _ }) h)
    | guardErr => exact .inl (h.guardErr _ _)
    | slice => exact .inl (h.slice _)
    | _ => cases hforward

theorem collect_keeps (s : State τ) :
    s.collect.checks = s.checks ∧ s.collect.offset = s.offset ∧ s.collect.handlers = s.handlers := by
  unfold collect withValue
  split
  · exact ⟨rfl, rfl, rfl⟩
  · dsimp only
    split <;> exact ⟨rfl, rfl, rfl⟩

/-- Without a check the machine stops where a round has ended. -/
theorem exec_loop_of_empty (h : s.checks = .empty) (size body exit : Nat) (pushes : Bool) :
    ∃ f, (s.exec size (.loop body exit pushes)).status = .faulted f := by
  have hloop {t : State τ} (ht : t.checks = s.checks) : ∃ f, (t.loop body exit).status = .faulted f := by
    rw [State.loop, ht, h]
    exact ⟨_, rfl⟩
  cases pushes with
  | false => exact hloop rfl
  | true => exact hloop s.collect_keeps.1

/-- Where a round has ended, the repetition ends if the cursor is where the check is, and goes into another round if
not, with the check at the cursor. -/
theorem exec_loop {c : Check τ} {rest : Stack (Check τ)} (h : s.checks = rest.push c) (size body exit : Nat)
    (pushes : Bool) :
    c.offset = s.offset ∧ (s.exec size (.loop body exit pushes)).checks = rest ∧
        (s.exec size (.loop body exit pushes)).handlers = s.handlers.tail ∧
        (s.exec size (.loop body exit pushes)).pc = exit ∨
      c.offset ≠ s.offset ∧ (s.exec size (.loop body exit pushes)).checks = rest.push { c with offset := s.offset } ∧
        (s.exec size (.loop body exit pushes)).handlers = s.handlers ∧
        (s.exec size (.loop body exit pushes)).pc = body := by
  have hloop {t : State τ} (hchecks : t.checks = s.checks) (hoffset : t.offset = s.offset)
      (hhandlers : t.handlers = s.handlers) :
      c.offset = s.offset ∧ (t.loop body exit).checks = rest ∧ (t.loop body exit).handlers = s.handlers.tail ∧
          (t.loop body exit).pc = exit ∨
        c.offset ≠ s.offset ∧ (t.loop body exit).checks = rest.push { c with offset := s.offset } ∧
          (t.loop body exit).handlers = s.handlers ∧ (t.loop body exit).pc = body := by
    rw [State.loop, Stack.pop?_eq_some_iff.2 (hchecks.trans h)]
    dsimp only
    rw [hoffset, ← hhandlers]
    split
    · rename_i hplace
      refine .inl ⟨hplace, ?_⟩
      cases c.saved <;> exact ⟨rfl, rfl, rfl⟩
    · rename_i hmoved
      exact .inr ⟨hmoved, rfl, rfl, rfl⟩
  cases pushes with
  | false => exact hloop rfl rfl rfl
  | true =>
    obtain ⟨hchecks, hoffset, hhandlers⟩ := s.collect_keeps
    exact hloop hchecks hoffset hhandlers

theorem offset_satisfyMany (test : τ → Bool) (e : ExpectedSet τ) (pushes : Bool) :
    (s.satisfyMany test e pushes).offset = spanEnd test s.input s.offset := by
  rw [satisfyMany]
  dsimp only
  split
  · rfl
  · cases pushes <;> rfl

end State

namespace Program

/-- The instruction at which the machine stands ends a round of the repetition whose check is the topmost of this
many. -/
def endsRound (p : Program τ) (height : Nat) (s : State τ) : Bool :=
  match p.code[s.pc]? with
  | some (.loop _ _ _) => s.checks.height = height
  | _ => false

/-- How often, within so many steps, the repetition whose check is the topmost of this many goes into another round,
before the check is taken away. -/
def furtherRounds (p : Program τ) (height : Nat) : Nat → State τ → Nat
  | 0, _ => 0
  | steps + 1, s =>
    match p.step? s with
    | none => 0
    | some s' =>
      if s'.checks.height < height then 0
      else (if p.endsRound height s then 1 else 0) + furtherRounds p height steps s'

variable {p : Program τ} {s : State τ} {height : Nat}

theorem endsRound_eq_true (h : p.endsRound height s = true) :
    (∃ body exit pushes, p.code[s.pc]? = some (.loop body exit pushes)) ∧ s.checks.height = height := by
  unfold endsRound at h
  split at h
  · exact ⟨⟨_, _, _, ‹_›⟩, of_decide_eq_true h⟩
  · cases h

theorem furtherRounds_of_step?_eq_none (h : p.step? s = none) (height steps : Nat) :
    p.furtherRounds height steps s = 0 := by
  cases steps with
  | zero => rfl
  | succ steps =>
    unfold furtherRounds
    rw [h]

/-- Unless it ends a round of the repetition, a step leaves the check of the repetition as it is, or takes it away. -/
theorem check_stays {c : Check τ} {below : List (Check τ)} {i : Instr τ Nat} (hc : c :: below <:+ s.checks.toList)
    (hheight : below.length + 1 = height) (hi : p.code[s.pc]? = some i) (hround : p.endsRound height s = false)
    (hthere : height ≤ (s.exec p.size i).checks.height) (hs : (s.exec p.size i).status = .running) :
    c :: below <:+ (s.exec p.size i).checks.toList := by
  have hlength : (c :: below).length ≤ (s.exec p.size i).checks.toList.length := by
    rw [← Stack.height_eq, List.length_cons, hheight]
    exact hthere
  by_cases hloop : ∃ body exit pushes, i = .loop body exit pushes
  · obtain ⟨body, exit, pushes, rfl⟩ := hloop
    obtain ⟨top, rest, hchecks⟩ : ∃ top rest, s.checks = Stack.push top rest := by
      cases hpop : s.checks.pop? with
      | none =>
        rw [Stack.pop?_eq_none_iff.1 hpop] at hc
        exact absurd (List.suffix_nil.1 hc) (List.cons_ne_nil _ _)
      | some x => exact ⟨x.1, x.2, Stack.pop?_eq_some_iff.1 hpop⟩
    -- another repetition, inside this one, has ended a round
    have hbelow : c :: below <:+ rest.toList := by
      rw [hchecks, Stack.toList_push] at hc
      refine (List.suffix_cons_iff.1 hc).resolve_left fun heq => ?_
      have hend : p.endsRound height s = true := by
        unfold endsRound
        rw [hi]
        refine decide_eq_true ?_
        rw [Stack.height_eq, hchecks, Stack.toList_push, ← heq, List.length_cons, hheight]
      rw [hround] at hend
      cases hend
    rcases State.exec_loop hchecks p.size body exit pushes with ⟨-, h, -⟩ | ⟨-, h, -⟩
    · rw [h]
      exact hbelow
    · rw [h]
      exact hbelow.trans (List.suffix_cons _ _)
  · simp only [not_exists] at hloop
    rcases State.exec_checks hloop hs with hsuffix | ⟨d, hpush⟩
    · exact List.suffix_of_suffix_length_le hc hsuffix hlength
    · rw [hpush, Stack.toList_push]
      exact hc.trans (List.suffix_cons _ _)

/-- A repetition goes into no more further rounds than tokens are ahead of its check. -/
theorem furtherRounds_le (hs : s.Ordered) {c : Check τ} {below : List (Check τ)}
    (hc : c :: below <:+ s.checks.toList) (hheight : below.length + 1 = height) (steps : Nat) :
    p.furtherRounds height steps s ≤ s.input.size - c.offset := by
  induction steps generalizing s c with
  | zero => exact Nat.zero_le _
  | succ steps ih =>
    unfold furtherRounds
    cases hstep : p.step? s with
    | none => exact Nat.zero_le _
    | some s' =>
      obtain ⟨hrunning, i, hi, rfl⟩ := step?_eq_some_iff.1 hstep
      have hnext := @ih _ (hs.exec p.size i)
      rw [State.exec_input] at hnext
      dsimp only
      split
      · exact Nat.zero_le _
      · rename_i hthere
        cases hround : p.endsRound height s with
        | false =>
          rw [if_neg Bool.false_ne_true, Nat.zero_add]
          by_cases hgoes : (s.exec p.size i).status = .running
          · exact hnext (check_stays hc hheight hi hround (Nat.le_of_not_lt hthere) hgoes)
          · rw [furtherRounds_of_step?_eq_none (step?_eq_none_of_status hgoes)]
            exact Nat.zero_le _
        | true =>
          obtain ⟨⟨body, exit, pushes, hcode⟩, htop⟩ := endsRound_eq_true hround
          obtain rfl := Option.some.inj (hi.symm.trans hcode)
          have hchecks : s.checks = Stack.push c ⟨below, below.length, rfl⟩ := by
            apply Stack.ext
            refine (hc.eq_of_length ?_).symm
            rw [← Stack.height_eq, htop, List.length_cons, hheight]
          rw [if_pos rfl]
          rcases State.exec_loop hchecks p.size body exit pushes with ⟨-, h, -⟩ | ⟨hmoved, h, -⟩
          · refine absurd ?_ hthere
            rw [h]
            exact Nat.lt_of_succ_le (Nat.le_of_eq hheight)
          · have hrest := hnext (c := { c with offset := s.offset }) (by rw [h]; exact List.suffix_refl _)
            have hback : c.offset ≤ s.offset := hs.checks_le c (hc.subset (List.mem_cons_self ..))
            have hend : s.offset ≤ s.input.size := hs.offset_le
            dsimp only at hrest
            omega

end Program

end ParserMachine
