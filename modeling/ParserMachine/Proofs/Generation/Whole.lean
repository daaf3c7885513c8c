import ParserMachine.Proofs.Generation.Blocks

/-!
# Whole parses

A parse begins at the first token, without hints (`Reading.first`). Generated code comes to the outcome of
the reply of the main expression (`Reply.outcome`), and its run does not end where no depth is enough
for a reply.
-/

namespace ParserMachine

variable {τ : Type} [Token τ]

/-- What a parse begins with. -/
def Reading.first : Reading τ := ⟨0, none, 0⟩

/-- The outcome of a parse that comes to this reply: what was survived joins the error, and what was
not consumed is left. A branch that met no verdict is a fault. -/
def Reply.outcome (input : List τ) : Reply τ → Outcome τ
  | done v r => .done v (input.drop r.offset)
  | failed e r => .failed ((r.hints.map fun h => h.merge e).getD e) (input.drop r.offset)
  | stuck => .faulted (.noVerdict 0)

namespace Config

variable {codeOf : Label → Code τ}

/-- A run of main that answers comes to the outcome of the reply. -/
theorem Answers.finished {n : Nat} {main : Code τ} {input : List τ} {reply : Reply τ} {x : Config τ}
    (h : Answers codeOf n false x ⟨main, [], { input := input.toArray, more := false }, []⟩
      (some reply)) :
    ∃ y, Ends (step? codeOf) x y ∧ y.Finished ∧ (reply.outcome input).Agrees y.state.outcome := by
  have hrest (offset : Nat) : (input.toArray.extract offset input.toArray.size).toList =
      input.drop offset := toList_extract_size input.toArray offset
  cases reply with
  | done v r =>
    obtain ⟨m, hm⟩ := h
    refine ⟨_, ⟨⟨m, hm⟩, rfl⟩, ⟨rfl, ⟨⟨v, rfl⟩, rfl, rfl⟩, rfl⟩, ?_⟩
    show Outcome.done v (input.drop r.offset) =
      .done v (input.toArray.extract r.offset input.toArray.size).toList
    rw [hrest]
  | failed e r =>
    obtain ⟨t, ht, rfl, m, hm⟩ := h
    have hhandlers : t.handlers = [] := by
      rw [ht.eq]
      rfl
    have hinput : t.input = input.toArray := by
      rw [ht.eq]
      rfl
    have hfail : t.fail e = { t with error := some e, status := .failed } := by
      unfold State.fail State.unwind
      simp only [hhandlers]
    rw [hfail] at hm
    refine ⟨_, ⟨⟨m, hm⟩, rfl⟩, rfl, ?_⟩
    show Outcome.failed ((t.hints.map fun h => h.merge e).getD e) (input.drop t.offset) =
      .failed ((ParseError.mergeOpt t.hints (some e)).getD _)
        (t.input.extract t.offset t.input.size).toList
    rw [hinput, hrest]
    cases t.hints <;> rfl
  | stuck =>
    obtain ⟨y, ⟨m, hm⟩, pc, hpc⟩ := h
    refine ⟨y, ⟨⟨m, hm⟩, ?_⟩, ?_, ?_⟩
    · unfold step?
      simp only [hpc]
    · unfold Finished
      simp only [hpc]
    · unfold State.outcome
      simp only [hpc]
      trivial

end Config

/-- What the main expression does on a whole input, with calls followed less than `depth` deep. -/
def Bound.evalAt (o : Options) (b : Bound τ) (input : List τ) (depth : Nat) :
    Option (Reply τ) :=
  b.main.evalAt ⟨o, b.subroutines.toArray⟩ input.toArray depth .first

/-- The code of an expression may be begun: the machine stands where the code does, all input is there, no error is in
flight, and no repetition has been interrupted. -/
structure State.Begins (s : State τ) : Prop where
  /-- The code stands at the beginning of the program. -/
  pc : s.pc = 0
  /-- The machine can go on. -/
  status : s.status = .running
  /-- No more input will arrive. -/
  more : s.more = false
  /-- No error is in flight. -/
  error : s.error = none
  /-- No repetition has been interrupted. -/
  parked : s.parked = #[]

/-- Main answers from every state in which it may be begun. -/
theorem Bound.GeneratesIn.answers_begin {discard : Bool} {o : Options} {b : Bound τ} {a : Assembly τ}
    (h : b.GeneratesIn discard o a) {s : State τ} (hs : s.Begins) (depth : Nat) :
    Config.Answers a.codeOf depth discard (a.begin s) ⟨a.main, [], (a.begin s).state, []⟩
      (b.main.evalAt ⟨o, b.subroutines.toArray⟩ s.input depth s.reading) := by
  have hready : (a.begin s).state.Ready s.input :=
    ⟨rfl, hs.more, hs.pc, hs.status, rfl, hs.error, hs.parked, nofun⟩
  have hmain := (h.sound.closed a.main (List.mem_cons_self ..)).nodup
  have hanswers := h.answers s.input depth ⟨a.main, [], (a.begin s).state, []⟩ hready hmain
    ⟨[], List.append_nil _⟩
  simp only [List.append_nil] at hanswers
  exact hanswers

namespace Bound.Generates

variable {o : Options} {b : Bound τ} {a : Assembly τ}

theorem answers_start (h : b.Generates o a) (input : List τ) (depth : Nat) :
    Config.Answers a.codeOf depth false (a.start input)
      ⟨a.main, [], { input := input.toArray, more := false }, []⟩ (b.evalAt o input depth) :=
  h.answers_begin (s := { input := input.toArray, more := false }) ⟨rfl, rfl, rfl, rfl, rfl⟩ depth

/-- Generated code comes to the outcome of the reply. -/
theorem parses (h : b.Generates o a) {input : List τ} {depth : Nat} {reply : Reply τ}
    (hreply : b.evalAt o input depth = some reply) : a.Parses input (reply.outcome input) :=
  Config.Answers.finished (hreply ▸ h.answers_start input depth)

/-- Where no depth is enough for a reply, the run of generated code does not end. -/
theorem loops (h : b.Generates o a) {input : List τ}
    (hnone : ∀ depth, b.evalAt o input depth = none) : a.Loops input := by
  intro depth
  have hanswers := h.answers_start input depth
  rw [hnone depth] at hanswers
  exact hanswers

end Bound.Generates

end ParserMachine
