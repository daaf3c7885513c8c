import ParserMachine.Proofs.Machine.Activation

/-!
# Code that answers

Code answers a parser if a run of the code does what the parser replies (`Config.Answers`): it comes
to the next line with the value on the stack, or fails on with the error, or lasts for as many steps
as there were too few for a reply. How a parser goes on after one of its parts
(`Run.handle`) becomes how the run goes on after the code of that part (`Config.Answers.handle`).
-/

namespace ParserMachine

variable {τ : Type} [Token τ] {input : Array τ}

namespace State

/-- The state after a parser has succeeded; its value is pushed unless it is not needed. -/
def succeed (discard : Bool) (v : Value τ) (r : Reading τ) (s : State τ) : State τ :=
  if discard then s.read r else (s.read r).push v

/-- The second state differs from the first in its reading, and in values and checks that lie upon
those of the first. -/
structure Over (s t : State τ) : Prop where
  /-- All else is the same. -/
  eq : t = { s.read t.reading with data := t.data, checks := t.checks }
  /-- The values of the first state are at the bottom. -/
  data : s.data.toList <:+ t.data.toList
  /-- The checks of the first state are at the bottom. -/
  checks : s.checks.toList <:+ t.checks.toList

variable {s t u : State τ}

theorem Over.refl (s : State τ) : s.Over s := ⟨rfl, List.suffix_refl _, List.suffix_refl _⟩

theorem Over.trans (h : s.Over t) (h' : t.Over u) : s.Over u := by
  refine ⟨?_, h.data.trans h'.data, h.checks.trans h'.checks⟩
  have hu := h'.eq
  rw [h.eq] at hu
  exact hu

theorem Over.read (h : s.Over t) (r : Reading τ) : s.Over (t.read r) :=
  h.trans ⟨rfl, List.suffix_refl _, List.suffix_refl _⟩

theorem Over.push (h : s.Over t) (v : Value τ) : s.Over (t.push v) :=
  h.trans ⟨rfl, List.suffix_cons _ _, List.suffix_refl _⟩

theorem Over.succeed (h : s.Over t) (discard : Bool) (v : Value τ) (r : Reading τ) :
    s.Over (t.succeed discard v r) := by
  unfold State.succeed
  split
  · exact h.read r
  · exact (h.read r).push v

theorem Ready.over (h : s.Ready input) (h' : s.Over t) : t.Ready input := by
  rw [h'.eq]
  exact h.change _ _ _

theorem Ready.succeed (h : s.Ready input) (discard : Bool) (v : Value τ) (r : Reading τ) :
    (s.succeed discard v r).Ready input := h.over ((Over.refl s).succeed discard v r)

@[simp] theorem reading_succeed (discard : Bool) (v : Value τ) (r : Reading τ) (s : State τ) :
    (s.succeed discard v r).reading = r := by
  unfold State.succeed
  split <;> rfl

@[simp] theorem succeed_true (v : Value τ) (r : Reading τ) (s : State τ) :
    s.succeed true v r = s.read r := rfl

@[simp] theorem succeed_false (v : Value τ) (r : Reading τ) (s : State τ) :
    s.succeed false v r = (s.read r).push v := rfl

end State

namespace Config

/-- The machine stands still because a branch met no verdict. -/
def IsStuck (x : Config τ) : Prop := ∃ pc, x.state.status = .faulted (.noVerdict pc)

/-- Some steps lead from one configuration to another. -/
def Reaches (codeOf : Label → Code τ) (x y : Config τ) : Prop := ∃ n, Leads (step? codeOf) n x y

/-- The run from `x` does what a parser replies that was begun in the state of `k`: it comes to `k`
with the value, or fails on from there. Without a reply, it lasts for `n` steps. -/
def Answers (codeOf : Label → Code τ) (n : Nat) (discard : Bool) (x k : Config τ) :
    Option (Reply τ) → Prop
  | none => Lasts (step? codeOf) n x
  | some (.done v r) => Reaches codeOf x { k with state := k.state.succeed discard v r }
  | some (.failed e r) =>
    ∃ t, k.state.Over t ∧ t.reading = r ∧
      Reaches codeOf x (arrive k.block [] (t.fail e) k.frames)
  | some .stuck => ∃ y, Reaches codeOf x y ∧ y.IsStuck

variable {codeOf : Label → Code τ} {n m : Nat} {discard d₁ : Bool} {x y z k k₁ : Config τ}
  {o : Option (Reply τ)}

theorem Reaches.refl (codeOf : Label → Code τ) (x : Config τ) : Reaches codeOf x x :=
  ⟨0, Leads.refl _ x⟩

theorem Reaches.trans (h : Reaches codeOf x y) (h' : Reaches codeOf y z) : Reaches codeOf x z := by
  obtain ⟨n, hn⟩ := h
  obtain ⟨m, hm⟩ := h'
  exact ⟨n + m, hn.trans hm⟩

theorem Reaches.single (h : step? codeOf x = some y) : Reaches codeOf x y := ⟨1, Leads.single h⟩

theorem Answers.of_reaches (h : Reaches codeOf x y) (h' : Answers codeOf n discard y k o) :
    Answers codeOf n discard x k o := by
  cases o with
  | none =>
    obtain ⟨m, hm⟩ := h
    exact hm.lasts_of_lasts h' (Nat.le_add_left n m)
  | some reply =>
    cases reply with
    | done v r => exact h.trans h'
    | failed e r =>
      obtain ⟨t, ht, hr, hreaches⟩ := h'
      exact ⟨t, ht, hr, h.trans hreaches⟩
    | stuck =>
      obtain ⟨z, hz, hstuck⟩ := h'
      exact ⟨z, h.trans hz, hstuck⟩

theorem Answers.mono (h : Answers codeOf n discard x k o) (hm : m ≤ n) :
    Answers codeOf m discard x k o := by
  cases o with
  | none => exact Lasts.mono h hm
  | some reply => cases reply <;> exact h

/-- What follows the code of a part: the reply of the part decides where the run goes on. -/
theorem Answers.handle {p : Run τ} {r : Reading τ}
    {onDone : Value τ → Reading τ → Option (Reply τ)}
    {onFailed : ParseError τ → Reading τ → Option (Reply τ)}
    (hp : Answers codeOf n d₁ x k₁ (p r))
    (hd : ∀ v r', Answers codeOf n discard { k₁ with state := k₁.state.succeed d₁ v r' } k
      (onDone v r'))
    (hf : ∀ e t, k₁.state.Over t →
      Answers codeOf n discard (arrive k₁.block [] (t.fail e) k₁.frames) k
        (onFailed e t.reading)) :
    Answers codeOf n discard x k (p.handle r onDone onFailed) := by
  cases hr : p r with
  | none =>
    rw [Run.handle_of_none hr]
    rwa [hr] at hp
  | some reply =>
    rw [hr] at hp
    cases reply with
    | done v r' =>
      rw [Run.handle_of_done hr]
      exact Answers.of_reaches hp (hd v r')
    | failed e r' =>
      obtain ⟨t, ht, rfl, hreaches⟩ := hp
      rw [Run.handle_of_failed hr]
      exact Answers.of_reaches hreaches (hf e t ht)
    | stuck =>
      rw [Run.handle_of_stuck hr]
      exact hp

/-- A failure of a part fails the whole, if the part was begun with no handler of the whole. -/
theorem Answers.failed {e : ParseError τ} {t : State τ} (hblock : k₁.block = k.block)
    (hframes : k₁.frames = k.frames) (ht : k.state.Over t) :
    Answers codeOf n discard (arrive k₁.block [] (t.fail e) k₁.frames) k
      (some (.failed e t.reading)) := by
  rw [hblock, hframes]
  exact ⟨t, ht, rfl, Reaches.refl _ _⟩

theorem Answers.andThen {p : Run τ} {r : Reading τ}
    {onDone : Value τ → Reading τ → Option (Reply τ)} (hblock : k₁.block = k.block)
    (hframes : k₁.frames = k.frames) (hover : k.state.Over k₁.state)
    (hp : Answers codeOf n d₁ x k₁ (p r))
    (hd : ∀ v r', Answers codeOf n discard { k₁ with state := k₁.state.succeed d₁ v r' } k
      (onDone v r')) :
    Answers codeOf n discard x k (p.andThen r onDone) :=
  Answers.handle hp hd fun _ _ ht => Answers.failed hblock hframes (hover.trans ht)

end Config

/-! ### Code -/

/-- The code does what the parser replies, wherever it stands. -/
def Code.Answers (codeOf : Label → Code τ) (input : Array τ) (n : Nat) (discard : Bool) (c : Code τ)
    (p : Run τ) : Prop :=
  ∀ k : Config τ, k.state.Ready input → (Code.marks k.block).Nodup → c ++ k.rest <:+ k.block →
    Config.Answers codeOf n discard { k with rest := c ++ k.rest } k (p k.state.reading)

end ParserMachine
