import ParserMachine.Proofs.Generation.Forms
import ParserMachine.Proofs.Streaming.Prefix

/-!
# Code for repetitions

A repetition is a loop under one handler, which is entered anew with every round
(`Config.answers_rounds`). That of a one-token parser is a single instruction, which comes to the same
(`Code.Answers.satisfyMany`).
-/

namespace ParserMachine

variable {τ : Type} [Token τ] {input : Array τ} {codeOf : Label → Code τ}
  {n rounds : Nat} {discard : Bool} {cp : Code τ} {p : Run τ}

open State Config

/-- From the start of a round on, with the items of the rounds before. -/
theorem Config.answers_rounds (hp : Code.Answers codeOf input n discard cp p) {k : Config τ}
    {body h stop : Label} (hready : k.state.Ready input) (hnodup : (Code.marks k.block).Nodup)
    (hsuffix : .mark body :: cp ++ .instr (.loop body stop !discard) :: .mark h ::
      .instr .manyDone :: .mark stop :: k.rest <:+ k.block)
    (rounds : Nat) (items : Array (Value τ)) (r : Reading τ) :
    Config.Answers codeOf (min rounds n) discard
      ⟨k.block, cp ++ .instr (.loop body stop !discard) :: .mark h :: .instr .manyDone ::
          .mark stop :: k.rest,
        (k.state.succeed discard (.list items) r).install h false, k.frames⟩ k
      (p.collect rounds items r) := by
  have hbody := Code.after_of_suffix hnodup hsuffix
  have hhandler : .mark h :: .instr .manyDone :: .mark stop :: k.rest <:+ k.block :=
    ((List.suffix_cons _ _).trans (List.suffix_append _ _)).trans
      ((List.suffix_cons _ _).trans hsuffix)
  have hstop := Code.after_of_suffix hnodup
    ((List.suffix_cons _ _).trans ((List.suffix_cons _ _).trans hhandler))
  induction rounds generalizing items r with
  | zero =>
    rw [Nat.zero_min]
    exact Lasts.zero _ _
  | succ rounds ih =>
    have hstart := hready.succeed discard (.list items) r
    have hround := hp ⟨k.block, .instr (.loop body stop !discard) :: .mark h :: .instr .manyDone ::
          .mark stop :: k.rest,
        (k.state.succeed discard (.list items) r).install h false, k.frames⟩
      (hstart.install h false) hnodup ((List.suffix_cons _ _).trans hsuffix)
    rw [reading_install, if_neg (by decide), reading_succeed] at hround
    refine Answers.handle (hround.mono (Nat.min_le_right _ _)) ?_ ?_
    · intro v r'
      refine (Answers.step_succ (n := min rounds n)
        (step?_loop hready h body stop items r v r') ?_).mono (by omega)
      by_cases hplace : r.offset = r'.offset
      · rw [if_pos hplace, if_pos hplace, hstop]
        exact answers_done_self _ _
      · rw [if_neg hplace, if_neg hplace, hbody]
        exact ih (items.push v) r'
    · intro e t ht
      rw [arrive_fail_install h false hstart ht, Code.after_of_suffix hnodup hhandler]
      have hcheck : (k.state.succeed discard (.list items) r).check false = ⟨r.offset, none⟩ := by
        cases discard <;> rfl
      rw [hcheck]
      refine Answers.step (step?_manyDone hstart r.offset) ?_
      by_cases hplace : t.reading.offset = r.offset
      · rw [if_pos hplace, if_pos hplace]
        refine Answers.mark (l := stop) hready ?_
        have hread : (k.state.succeed discard (.list items) r).read (t.reading.hint e) =
            k.state.succeed discard (.list items) (t.reading.hint e) := by
          cases discard <;> rfl
        rw [hread]
        exact answers_done_self _ _
      · rw [if_neg hplace, if_neg hplace]
        exact ⟨_, ((Over.refl _).succeed discard _ r).read t.reading, rfl, Reaches.refl _ _⟩

theorem Code.Answers.many (hp : Code.Answers codeOf input n discard cp p) (hrounds : n ≤ rounds)
    (body h stop : Label) :
    Code.Answers codeOf input n discard
      ((Draft.only (!discard) .newList).toCode ++
        [Line.instr (.checkpoint h false), .mark body] ++ cp ++
        [Line.instr (.loop body stop !discard), .mark h, .instr .manyDone, .mark stop])
      (Unary.run input rounds p .many) := by
  intro k hready hnodup hsuffix
  simp only [List.append_assoc, List.cons_append, List.nil_append] at hsuffix ⊢
  have hstart := hready.succeed discard (.list #[]) k.state.reading
  have hrest := (List.suffix_append (Draft.only (!discard) .newList).toCode _).trans hsuffix
  have hbody := (List.suffix_cons _ _).trans hrest
  have hanswers := Config.answers_rounds hp hready hnodup hbody rounds #[] k.state.reading
  rw [Nat.min_eq_right hrounds] at hanswers
  have henter : Config.Answers codeOf n discard
      ⟨k.block, .instr (.checkpoint h false) :: .mark body :: (cp ++
        .instr (.loop body stop !discard) :: .mark h :: .instr .manyDone :: .mark stop :: k.rest),
        k.state.succeed discard (.list #[]) k.state.reading, k.frames⟩ k
      (p.collect rounds #[] k.state.reading) := by
    refine Answers.step (step?_checkpoint hstart h false) ?_
    exact Answers.step (step?_mark body (hstart.install h false).status) hanswers
  cases discard with
  | true => exact henter
  | false => exact Answers.step (step?_newList hready) henter

/-- What a repetition of a one-token parser comes to. -/
theorem Run.collect_one (input : Array τ) (test : τ → Bool) (e : ExpectedSet τ)
    {rounds : Nat} {items : Array (Value τ)} {r : Reading τ}
    (hrounds : input.size - r.offset < rounds) :
    (Run.one input test e).collect rounds items r =
      let stop : Reading τ := { r with offset := spanEnd test input r.offset }
      some (.done (.list (items ++ (input.extract r.offset stop.offset).map .tok))
        (stop.hint (stop.errorHere input e))) := by
  induction rounds generalizing items r with
  | zero => exact absurd hrounds (Nat.not_lt_zero _)
  | succ rounds ih =>
    unfold Run.collect
    by_cases hpasses : ∃ h : r.offset < input.size, test input[r.offset] = true
    · obtain ⟨hlt, htest⟩ := hpasses
      have hone : Run.one input test e r =
          some (.done (.tok input[r.offset]) { r with offset := r.offset + 1 }) := by
        simp [Run.one, Reading.current?, hlt, htest]
      have hspan : spanEnd test input r.offset = spanEnd test input (r.offset + 1) := by
        rw [spanEnd, dif_pos hlt, if_pos htest]
      have hle := le_spanEnd test input (r.offset + 1)
      have hitems : items.push (.tok input[r.offset]) ++
          (input.extract (r.offset + 1) (spanEnd test input (r.offset + 1))).map Value.tok =
          items ++ (input.extract r.offset (spanEnd test input (r.offset + 1))).map Value.tok := by
        have hfirst : input.extract r.offset (r.offset + 1) = #[input[r.offset]] := by
          rw [Array.extract_succ_right (Nat.lt_succ_self _) hlt,
            Array.extract_eq_empty_of_le (Nat.min_le_left _ _)]
          rfl
        have hall := @Array.extract_append_extract _ input r.offset (r.offset + 1)
          (spanEnd test input (r.offset + 1))
        rw [hfirst, Nat.min_eq_left (Nat.le_succ _), Nat.max_eq_right hle] at hall
        rw [← hall]
        simp
      rw [Run.handle_of_done hone, if_neg (by simp), ih (by simp; omega), hspan]
      exact congrArg (fun vs => some (Reply.done (Value.list vs) _)) hitems
    · have hone : Run.one input test e r = some (.failed (r.errorHere input e) r) := by
        unfold Run.one Reading.current?
        by_cases hlt : r.offset < input.size
        · have htest : test input[r.offset] = false := by
            simpa using fun h => hpasses ⟨hlt, h⟩
          simp [hlt, htest]
        · rw [Array.getElem?_eq_none (Nat.le_of_not_lt hlt)]
      have hspan : spanEnd test input r.offset = r.offset := by
        unfold spanEnd
        split
        · rename_i hlt
          exact if_neg fun h => hpasses ⟨hlt, h⟩
        · rfl
      have hempty := Array.extract_eq_empty_of_le (Nat.min_le_left r.offset input.size)
      rw [Run.handle_of_failed hone, if_pos rfl, hspan]
      simp only [hempty, Array.map_empty, Array.append_empty]

/-- What the instruction for such a repetition does. -/
theorem State.satisfyMany_eq {s : State τ} (hready : s.Ready input) (test : τ → Bool)
    (e : ExpectedSet τ) (discard : Bool) :
    let stop : Reading τ := { s.reading with offset := spanEnd test input s.offset }
    s.satisfyMany test e (!discard) =
      (s.succeed discard (.list ((input.extract s.offset stop.offset).map .tok))
        (stop.hint (stop.errorHere input e))).next := by
  obtain rfl := hready.input
  have hended : (s.more && decide (s.input.size ≤ spanEnd test s.input s.offset)) = false := by
    rw [hready.more]
    rfl
  have hparked := hready.parked
  unfold State.satisfyMany
  simp only [hended, Bool.false_eq_true, if_false]
  obtain ⟨_, _, _, _, _, _, _, _, _, _, _, parked, _⟩ := s
  subst hparked
  cases discard with
  | true => rfl
  | false =>
    simp only [Bool.not_false, if_true, Array.empty_append]
    rfl

theorem Code.Answers.satisfyMany {test : τ → Bool} {e : ExpectedSet τ}
    (hp : p = Run.one input test e) (hrounds : input.size < rounds) :
    Code.Answers codeOf input n discard [.instr (.satisfyMany test e !discard)]
      (Unary.run input rounds p .many) := by
  subst hp
  intro k hready _ _
  have hfew : input.size - k.state.reading.offset < rounds := by omega
  rw [Unary.run, Run.collect_one input test e hfew]
  simp only [Array.empty_append]
  exact answers_done rfl hready (State.satisfyMany_eq hready test e discard)

end ParserMachine
