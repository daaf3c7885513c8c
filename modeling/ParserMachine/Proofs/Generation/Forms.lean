import ParserMachine.Proofs.Generation.Steps

/-!
# Code for forms

The code of a form does what the form does, given that the code of its parts does what the parts do.
The parts of a form with a handler are under that handler (`Config.answers_guarded`).
-/

namespace ParserMachine

variable {τ : Type} [Token τ] {input : Array τ} {codeOf : Label → Code τ}
  {n rounds : Nat} {discard d₁ : Bool} {cp cq : Code τ} {p q : Run τ}

open State

namespace Config

variable {k : Config τ}

/-- The next line is reached at once. -/
theorem answers_done_self {block rest : Code τ} {s : State τ} {frames : List (Frame τ)}
    (v : Value τ) (r : Reading τ) :
    Answers codeOf n discard ⟨block, rest, s.succeed discard v r, frames⟩ ⟨block, rest, s, frames⟩
      (some (.done v r)) := Reaches.refl _ _

theorem Answers.step {x y : Config τ} {o : Option (Reply τ)} (h : step? codeOf x = some y)
    (h' : Answers codeOf n discard y k o) : Answers codeOf n discard x k o :=
  Answers.of_reaches (.single h) h'

/-- What leads on to the next line may be added. -/
theorem Answers.follow {x : Config τ} {o : Option (Reply τ)} {rest : Code τ}
    (h : Answers codeOf n discard x { k with rest } o)
    (hrest : ∀ v r, Reaches codeOf ⟨k.block, rest, k.state.succeed discard v r, k.frames⟩
      { k with state := k.state.succeed discard v r }) :
    Answers codeOf n discard x k o := by
  match o, h with
  | none, h => exact h
  | some .stuck, h => exact h
  | some (.failed e r), h => exact h
  | some (.done v r), h => exact Reaches.trans h (hrest v r)

/-- A mark before the next line is passed. -/
theorem Answers.mark {x : Config τ} {o : Option (Reply τ)} {l : Label}
    (hready : k.state.Ready input)
    (h : Answers codeOf n discard x { k with rest := .mark l :: k.rest } o) :
    Answers codeOf n discard x k o :=
  Answers.follow h fun v r => .single (step?_mark l (hready.succeed discard v r).status)

theorem Answers.step_succ {x y : Config τ} {o : Option (Reply τ)} (h : step? codeOf x = some y)
    (h' : Answers codeOf n discard y k o) : Answers codeOf (n + 1) discard x k o := by
  match o, h' with
  | none, ⟨z, hz⟩ => exact ⟨z, Leads.cons h hz⟩
  | some (.done _ _), h' | some (.failed _ _), h' | some .stuck, h' =>
    exact Answers.of_reaches (.single h) h'

/-- Failing on with another reading. -/
theorem answers_failed_read {block rest : Code τ} {s : State τ} {frames : List (Frame τ)}
    (e : ParseError τ) (r : Reading τ) :
    Answers codeOf n discard (arrive block [] ((s.read r).fail e) frames)
      ⟨block, rest, s, frames⟩ (some (.failed e r)) :=
  ⟨s.read r, (Over.refl _).read r, rfl, Reaches.refl _ _⟩

/-- A part whose failure is the failure of the whole. -/
theorem answers_andThen (hp : Code.Answers codeOf input n d₁ cp p) {s : State τ} {rest : Code τ}
    {r : Reading τ} {onDone : Value τ → Reading τ → Option (Reply τ)} (hready : s.Ready input)
    (hr : s.reading = r)
    (hnodup : (Code.marks k.block).Nodup) (hsuffix : cp ++ rest <:+ k.block)
    (hover : k.state.Over s)
    (hd : ∀ v r, Answers codeOf n discard ⟨k.block, rest, s.succeed d₁ v r, k.frames⟩ k
      (onDone v r)) :
    Answers codeOf n discard ⟨k.block, cp ++ rest, s, k.frames⟩ k (p.andThen r onDone) := by
  subst hr
  have h := hp ⟨k.block, rest, s, k.frames⟩ hready hnodup hsuffix
  exact Answers.handle h hd fun e t ht =>
    ⟨t, hover.trans ht, rfl, Reaches.refl _ _⟩

/-- Two parts in a row. -/
theorem answers_seq {d₂ : Bool} (hp : Code.Answers codeOf input n d₁ cp p)
    (hq : Code.Answers codeOf input n d₂ cq q) {rest : Code τ}
    {onDone : Value τ → Value τ → Reading τ → Option (Reply τ)} (hready : k.state.Ready input)
    (hnodup : (Code.marks k.block).Nodup) (hsuffix : cp ++ (cq ++ rest) <:+ k.block)
    (hd : ∀ v w r r', Answers codeOf n discard
      ⟨k.block, rest, (k.state.succeed d₁ v r).succeed d₂ w r', k.frames⟩ k (onDone v w r')) :
    Answers codeOf n discard ⟨k.block, cp ++ (cq ++ rest), k.state, k.frames⟩ k
      (p.andThen k.state.reading fun v r => q.andThen r fun w r' => onDone v w r') := by
  refine answers_andThen hp hready rfl hnodup hsuffix (Over.refl _) fun v r => ?_
  exact answers_andThen hq (hready.succeed d₁ v r) (reading_succeed ..) hnodup
    ((List.suffix_append _ _).trans hsuffix) ((Over.refl _).succeed d₁ v r) fun w r' => hd v w r r'

/-- A part under a handler: if it fails, the run goes on at the label of the handler. -/
theorem answers_guarded (hp : Code.Answers codeOf input n d₁ cp p) {l : Label} {snapshot : Bool}
    {rest : Code τ} {onDone : Value τ → Reading τ → Option (Reply τ)}
    {onFailed : ParseError τ → Reading τ → Option (Reply τ)} (hready : k.state.Ready input)
    (hnodup : (Code.marks k.block).Nodup)
    (hsuffix : .instr (.checkpoint l snapshot) :: cp ++ rest <:+ k.block)
    (hd : ∀ v r, Answers codeOf n discard
      ⟨k.block, rest, (k.state.install l snapshot).succeed d₁ v r, k.frames⟩ k (onDone v r))
    (hf : ∀ e r, Answers codeOf n discard
      ⟨k.block, Code.after l k.block, k.state.caught (k.state.check snapshot) e r, k.frames⟩ k
      (onFailed e r)) :
    Answers codeOf n discard
      ⟨k.block, .instr (.checkpoint l snapshot) :: cp ++ rest, k.state, k.frames⟩ k
      (p.handle (if snapshot then k.state.reading.bare else k.state.reading) onDone onFailed) := by
  refine Answers.step (step?_checkpoint hready l snapshot) ?_
  have hinner := hp ⟨k.block, rest, k.state.install l snapshot, k.frames⟩
    (hready.install l snapshot) hnodup ((List.suffix_cons _ _).trans hsuffix)
  rw [reading_install] at hinner
  refine Answers.handle hinner hd ?_
  intro e t ht
  rw [arrive_fail_install l snapshot hready ht]
  exact hf e t.reading

end Config

namespace Code.Answers

open Config

/-! ### Unary forms -/

theorem map (hp : Code.Answers codeOf input n discard cp p) (f : Value τ → Value τ) :
    Code.Answers codeOf input n discard (cp ++ (Draft.only (!discard) (.map f)).toCode)
      (Unary.run input rounds p (.map f)) := by
  intro k hready hnodup hsuffix
  rw [List.append_assoc] at hsuffix ⊢
  refine answers_andThen hp hready rfl hnodup hsuffix (Over.refl _) fun v r => ?_
  cases discard with
  | true => exact answers_done_self (f v) r
  | false =>
    exact Answers.step (step?_map hready f v r) (answers_done_self (f v) r)

/-- A part with a handler and a way out. -/
theorem guarded (hp : Code.Answers codeOf input n discard cp p) {snapshot : Bool} {l stop : Label}
    {leave : Code τ} {react : Instr τ Label} {s : Run τ}
    {onDone : Reading τ → Value τ → Reading τ → Reply τ}
    {onFailed : Reading τ → ParseError τ → Reading τ → Reply τ}
    (hs : ∀ r, s r = p.handle (if snapshot then r.bare else r) (fun v r' => some (onDone r v r'))
      fun e r' => some (onFailed r e r'))
    (hd : ∀ (k : Config τ) (rest : Code τ) v r, k.state.Ready input →
      Config.Answers codeOf n discard
        ⟨k.block, leave ++ rest, (k.state.install l snapshot).succeed discard v r, k.frames⟩
        ⟨k.block, after stop k.block, k.state, k.frames⟩
        (some (onDone k.state.reading v r)))
    (hf : ∀ (k : Config τ) (rest : Code τ) e r, k.state.Ready input →
      Config.Answers codeOf n discard
        ⟨k.block, .instr react :: rest, k.state.caught (k.state.check snapshot) e r, k.frames⟩
        { k with rest } (some (onFailed k.state.reading e r))) :
    Code.Answers codeOf input n discard
      (.instr (.checkpoint l snapshot) :: cp ++ leave ++
        [Line.mark l, .instr react, .mark stop]) s := by
  intro k hready hnodup hsuffix
  rw [hs]
  simp only [List.append_assoc, List.cons_append, List.nil_append] at hsuffix ⊢
  have htail : .mark l :: .instr react :: .mark stop :: k.rest <:+ k.block :=
    ((List.suffix_append _ _).trans (List.suffix_append _ _)).trans
      ((List.suffix_cons _ _).trans hsuffix)
  have hstop : after stop k.block = k.rest :=
    after_of_suffix hnodup
      ((List.suffix_cons _ _).trans ((List.suffix_cons _ _).trans htail))
  refine answers_guarded hp hready hnodup hsuffix ?_ ?_
  · intro v r
    have h := hd k (.mark l :: .instr react :: .mark stop :: k.rest) v r hready
    rwa [hstop] at h
  · intro e r
    rw [after_of_suffix hnodup htail]
    exact Answers.mark hready (hf k (.mark stop :: k.rest) e r hready)

theorem lookAhead (hp : Code.Answers codeOf input n discard cp p) (l stop : Label) :
    Code.Answers codeOf input n discard
      (.instr (.checkpoint l false) :: cp ++ [Line.instr (.restore stop)] ++
        [Line.mark l, .instr .rewind, .mark stop])
      (Unary.run input rounds p .lookAhead) := by
  refine guarded hp (fun r => rfl) ?_ ?_
  · intro k rest v r hready
    exact Answers.step (step?_restore discard l stop v r hready) (answers_done_self _ _)
  · intro k rest e r hready
    exact Answers.step (step?_rewind hready) (answers_failed_read e _)

theorem attempt (hp : Code.Answers codeOf input n discard cp p) (l stop : Label) :
    Code.Answers codeOf input n discard
      (.instr (.checkpoint l false) :: cp ++ [Line.instr (.release stop)] ++
        [Line.mark l, .instr .rewind, .mark stop])
      (Unary.run input rounds p .attempt) := by
  refine guarded hp (fun r => rfl) ?_ ?_
  · intro k rest v r hready
    exact Answers.step (step?_release discard l stop v r hready false) (answers_done_self _ _)
  · intro k rest e r hready
    exact Answers.step (step?_rewind hready) (answers_failed_read e _)

theorem label (hp : Code.Answers codeOf input n discard cp p) (name : Option String)
    (l stop : Label) :
    Code.Answers codeOf input n discard
      (.instr (.checkpoint l true) :: cp ++ [Line.instr (.labelOk name stop)] ++
        [Line.mark l, .instr (.labelErr name), .mark stop])
      (Unary.run input rounds p (.label name)) := by
  refine guarded hp (fun r => rfl) ?_ ?_
  · intro k rest v r hready
    exact Answers.step (step?_labelOk discard l stop v r hready name) (answers_done_self _ _)
  · intro k rest e r hready
    exact Answers.step (step?_labelErr hready name rfl) (answers_failed_read _ _)

theorem capture (hp : Code.Answers codeOf input n discard cp p) (l stop : Label) :
    Code.Answers codeOf input n discard
      (.instr (.checkpoint l true) :: cp ++
        ((Draft.only (!discard) (.map .ok)).toCode ++ [Line.instr (.release stop)]) ++
        [Line.mark l, .instr (.guardErr .capture !discard), .mark stop])
      (Unary.run input rounds p (.guard .capture)) := by
  refine guarded hp (fun r => rfl) ?_ ?_
  · intro k rest v r hready
    cases discard with
    | true =>
      exact Answers.step (step?_release true l stop v r hready true)
        (answers_done_self (n := n) (.ok v) _)
    | false =>
      refine Answers.step (step?_map (hready.install l true) .ok v r) ?_
      exact Answers.step (step?_release false l stop (.ok v) r hready true)
        (answers_done_self (n := n) (.ok v) _)
  · intro k rest e r hready
    exact Answers.step (step?_capture hready) (answers_done_self _ _)

/-- A guard that amends errors. -/
theorem amended (hp : Code.Answers codeOf input n discard cp p) {mode : GuardMode τ}
    (hmode : mode ≠ .capture) (l stop : Label) :
    Code.Answers codeOf input n discard
      (.instr (.checkpoint l true) :: cp ++ [Line.instr (.release stop)] ++
        [Line.mark l, .instr (.guardErr mode false), .mark stop])
      (Unary.run input rounds p (.guard mode)) := by
  refine guarded hp (fun r => rfl) ?_ ?_
  · intro k rest v r hready
    have hvalue : mode.value v = v := by
      cases mode with
      | capture => exact absurd rfl hmode
      | _ => rfl
    rw [hvalue]
    exact Answers.step (step?_release discard l stop v r hready true) (answers_done_self _ _)
  · intro k rest e r hready
    cases mode with
    | capture => exact absurd rfl hmode
    | amend f =>
      exact Answers.step (step?_guardErr hready rfl) (answers_failed_read _ _)
    | merge other =>
      exact Answers.step (step?_guardErr hready rfl) (answers_failed_read _ _)

theorem notFollowedBy (hp : Code.Answers codeOf input n true cp p) (l : Label) :
    Code.Answers codeOf input n discard
      (.instr (.checkpoint l true) :: cp ++
        [Line.instr .negFail, .mark l, .instr (.negSucceed !discard)])
      (Unary.run input rounds p .notFollowedBy) := by
  intro k hready hnodup hsuffix
  simp only [List.append_assoc, List.cons_append, List.nil_append] at hsuffix ⊢
  have htail : .mark l :: .instr (.negSucceed !discard) :: k.rest <:+ k.block :=
    ((List.suffix_cons _ _).trans (List.suffix_append _ _)).trans
      ((List.suffix_cons _ _).trans hsuffix)
  refine answers_guarded hp hready hnodup hsuffix ?_ ?_
  · intro v r
    exact Answers.step (step?_negFail l v r hready) (answers_failed_read _ _)
  · intro e r
    rw [after_of_suffix hnodup htail]
    exact Answers.step (step?_negSucceed hready) (answers_done_self _ _)

/-- Where the result is not needed, it may be changed. -/
theorem of_discard (hp : Code.Answers codeOf input n true cp p)
    (f : Reading τ → Value τ → Reading τ → Value τ) :
    Code.Answers codeOf input n true cp
      (fun r => p.andThen r fun v r' => some (.done (f r v r') r')) := by
  intro k hready hnodup hsuffix
  refine answers_andThen hp hready rfl hnodup hsuffix (Over.refl _) fun v r => ?_
  exact answers_done_self (f k.state.reading v r) r

theorem chunk (hp : Code.Answers codeOf input n true cp p) :
    Code.Answers codeOf input n false (.instr .mark :: cp ++ [Line.instr (.slice .chunk)])
      (Unary.run input rounds p .chunk) := by
  intro k hready hnodup hsuffix
  simp only [List.append_assoc, List.cons_append, List.nil_append] at hsuffix ⊢
  refine Answers.step (step?_markSpan hready) ?_
  refine answers_andThen hp (hready.over (over_marked _)) rfl hnodup
    ((List.suffix_cons _ _).trans hsuffix) (over_marked _) fun v r => ?_
  exact Answers.step (step?_slice hready v r) (answers_done_self _ _)

theorem matchChunk (hp : Code.Answers codeOf input n false cp p) :
    Code.Answers codeOf input n false (.instr .mark :: cp ++ [Line.instr (.slice .pair)])
      (Unary.run input rounds p .matchChunk) := by
  intro k hready hnodup hsuffix
  simp only [List.append_assoc, List.cons_append, List.nil_append] at hsuffix ⊢
  refine Answers.step (step?_markSpan hready) ?_
  refine answers_andThen hp (hready.over (over_marked _)) rfl hnodup
    ((List.suffix_cons _ _).trans hsuffix) (over_marked _) fun v r => ?_
  exact Answers.step (step?_slicePair hready v r) (answers_done_self _ _)

/-! ### Sequences and branches -/

theorem both (hp : Code.Answers codeOf input n discard cp p)
    (hq : Code.Answers codeOf input n discard cq q) (f : Value τ → Value τ → Value τ) :
    Code.Answers codeOf input n discard (cp ++ cq ++ (Draft.only (!discard) (.lift2 f)).toCode)
      (Binary.run p q (.seq (.both f))) := by
  intro k hready hnodup hsuffix
  simp only [List.append_assoc] at hsuffix ⊢
  refine answers_seq hp hq hready hnodup hsuffix fun v w r r' => ?_
  cases discard with
  | true => exact answers_done_self (s := k.state) (f v w) r'
  | false => exact Answers.step (step?_lift2 hready f v w r r') (answers_done_self _ _)

theorem left (hp : Code.Answers codeOf input n discard cp p)
    (hq : Code.Answers codeOf input n true cq q) :
    Code.Answers codeOf input n discard (cp ++ cq) (Binary.run p q (.seq .left)) := by
  intro k hready hnodup hsuffix
  rw [List.append_assoc] at hsuffix ⊢
  refine answers_seq hp hq hready hnodup hsuffix fun v w r r' => ?_
  have hstate : (k.state.succeed discard v r).succeed true w r' = k.state.succeed discard v r' := by
    cases discard <;> rfl
  rw [hstate]
  exact answers_done_self v r'

theorem right (hp : Code.Answers codeOf input n true cp p)
    (hq : Code.Answers codeOf input n discard cq q) :
    Code.Answers codeOf input n discard (cp ++ cq) (Binary.run p q (.seq .right)) := by
  intro k hready hnodup hsuffix
  rw [List.append_assoc] at hsuffix ⊢
  refine answers_seq hp hq hready hnodup hsuffix fun v w r r' => ?_
  have hstate : (k.state.succeed true v r).succeed discard w r' = k.state.succeed discard w r' := by
    cases discard <;> rfl
  rw [hstate]
  exact answers_done_self w r'

theorem branch (hp : Code.Answers codeOf input n false cp p)
    (hq : Code.Answers codeOf input n false cq q) (f : Value τ → Value τ → Value τ)
    (l stop : Label) :
    Code.Answers codeOf input n discard
      (cp ++ [Line.instr (.case l), .instr (.jump stop), .mark l] ++ cq ++
        [Line.instr (.lift2 f), .mark stop] ++ (Draft.only discard .pop).toCode)
      (Binary.run p q (.branch f)) := by
  intro k hready hnodup hsuffix
  simp only [List.append_assoc, List.cons_append, List.nil_append] at hsuffix ⊢
  have hleft := (List.suffix_cons _ _).trans
    ((List.suffix_cons _ _).trans ((List.suffix_append _ _).trans hsuffix))
  have hq' := (List.suffix_cons _ _).trans hleft
  have hstop := (List.suffix_cons _ _).trans ((List.suffix_append _ _).trans hq')
  -- at the end a value is dropped that is not needed
  have hend : ∀ v r, Config.Answers codeOf n discard
      ⟨k.block, (Draft.only discard .pop).toCode ++ k.rest, k.state.succeed false v r, k.frames⟩ k
      (some (.done v r)) := by
    intro v r
    cases discard with
    | true => exact Answers.step (step?_pop hready v r) (answers_done_self v r)
    | false => exact answers_done_self v r
  refine answers_andThen hp hready rfl hnodup hsuffix (Over.refl _) fun v r => ?_
  have hmid := hready.succeed false v r
  cases v with
  | leftBranch v =>
    refine Answers.step (step?_goto rfl hmid.status (hready.succeed false v r).pc (l := l) rfl) ?_
    rw [after_of_suffix hnodup hleft]
    refine answers_andThen hq (hready.succeed false v r) (reading_succeed ..) hnodup hq'
      ((Over.refl _).succeed false v r) fun w r' => ?_
    refine Answers.step (step?_lift2 hready f v w r r') ?_
    exact Answers.step (step?_mark stop (hready.succeed false _ _).status) (hend (f v w) r')
  | rightBranch v =>
    refine Answers.step (step?_next rfl hmid.status (hready.succeed false v r).pc rfl) ?_
    refine Answers.step (step?_jump (hready.succeed false v r) stop) ?_
    rw [after_of_suffix hnodup hstop]
    exact hend v r
  | _ =>
    refine ⟨_, .single (step?_instr hmid.status rfl), 0, ?_⟩
    exact congrArg (fun pc => Status.faulted (.noVerdict pc)) hready.pc

/-! ### Leaves -/

theorem call {ofCall : Run τ} (l : Label)
    (hl : Code.Answers codeOf input n false (codeOf l) ofCall)
    (hnodup : (marks (codeOf l)).Nodup) :
    Code.Answers codeOf input (n + 1) discard
      (.instr (.call l) :: (Draft.only discard .pop).toCode) ofCall := by
  intro k hready _ hsuffix
  have hinner := hl
    ⟨codeOf l, [], { k.state with handlers := [] },
      ⟨k.block, (Draft.only discard .pop).toCode ++ k.rest, k.state.handlers⟩ :: k.frames⟩
    ⟨hready.input, hready.more, hready.pc, hready.status, hready.calls, hready.error, hready.parked,
      nofun⟩ hnodup (by simp)
  have hreading : State.reading { k.state with handlers := [] } = k.state.reading := rfl
  rw [List.append_nil, hreading] at hinner
  refine Answers.step_succ (step?_call l hready.status) ?_
  match ofCall k.state.reading, hinner with
  | none, h => exact h
  | some .stuck, h => exact h
  | some (.done v r), h =>
    refine Reaches.trans h (.trans (.single (step?_end _ (hready.succeed false v r).status rfl)) ?_)
    cases discard with
    | true => exact .single (step?_pop hready v r)
    | false => exact .refl _ _
  | some (.failed e r), ⟨t, ht, hr, h⟩ =>
    -- the callee has no handler, so its failure goes on in the caller
    have hhandlers : t.handlers = [] := by rw [ht.eq]; rfl
    have hpc : t.pc = 0 := by rw [ht.eq]; exact hready.pc
    have hstatus : t.status = .running := by rw [ht.eq]; exact hready.status
    have hfail : t.fail e = { t with error := some e, status := .failed } := by
      unfold State.fail State.unwind
      simp only [hhandlers]
    have hsame : ({ t with pc := 0, status := .running } : State τ) = t := by
      rw [← hpc, ← hstatus]
    refine ⟨{ t with handlers := k.state.handlers }, ⟨?_, ht.data, ht.checks⟩, hr, h.trans ?_⟩
    · exact congrArg (fun u : State τ => { u with handlers := k.state.handlers }) ht.eq
    · rw [hfail]
      refine Reaches.single ((step?_failed _ rfl).trans ?_)
      exact congrArg
        (fun u : State τ => some (arrive k.block []
          (State.unwind { u with error := some e, handlers := k.state.handlers }) k.frames)) hsame

theorem leaf_pure (v : Value τ) :
    Code.Answers codeOf input n discard (Draft.only (!discard) (.push v)).toCode
      (Leaf.run input (fun _ => .never) (.pure v)) := by
  intro k hready _ _
  cases discard with
  | true => exact answers_done_self v k.state.reading
  | false => exact Answers.step (step?_push hready v) (answers_done_self _ _)

end Code.Answers

end ParserMachine
