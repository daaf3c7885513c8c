import ParserMachine.Machine.State
import ParserMachine.Proofs.Assembly.Flows

/-!
# How the stacks are laid out

What the activations have put on the four stacks since some place of a run lies over what was there (`Stacks.Over`):
calls, values, spans, and handlers that remember how high the other stacks were. So the top of each stack is what the
highest slot says, and a failure cuts the stacks back to a layout over the same place, or to what its own handler
remembers (`Stacks.Over.unwinds`).
-/

namespace ParserMachine

variable {τ : Type} [Token τ]

/-- The four stacks of a state, the highest entries first. -/
structure Stacks (τ : Type) [Token τ] where
  /-- The return positions. -/
  calls : List Nat
  /-- The handlers. -/
  handlers : List Handler
  /-- The checks. -/
  checks : List (Check τ)
  /-- The values. -/
  data : List (Value τ)

/-- The stacks of the state. -/
def State.allStacks (s : State τ) : Stacks τ := ⟨s.calls.toList, s.handlers, s.checks.toList, s.data.toList⟩

namespace Stacks

/-- With more return positions, handlers, checks and values on top. -/
def upon (st : Stacks τ) (qs : List Nat) (hs : List Handler) (cs : List (Check τ)) (vs : List (Value τ)) : Stacks τ :=
  ⟨qs ++ st.calls, hs ++ st.handlers, cs ++ st.checks, vs ++ st.data⟩

/-- The handler that remembers how high the stacks are, with a check upon them. -/
def handler (st : Stacks τ) (pc : Nat) : Handler := ⟨pc, st.data.length, st.calls.length, st.checks.length + 1⟩

/-- Cut back to what a handler remembers, without the top handler. -/
def cutTo (st : Stacks τ) (h : Handler) : Stacks τ :=
  ⟨st.calls.drop (st.calls.length - h.calls), st.handlers.tail, st.checks.drop (st.checks.length - h.checks),
    st.data.drop (st.data.length - h.data)⟩

/-- No handler remembers higher stacks. -/
def Fits (st : Stacks τ) (h : Handler) : Prop :=
  h.calls ≤ st.calls.length ∧ h.checks ≤ st.checks.length ∧ h.data ≤ st.data.length

/-- What lies higher than a handler remembers does not matter to it. -/
theorem Fits.cutTo_upon {st : Stacks τ} {h : Handler} (hfits : st.Fits h) (qs : List Nat) (cs : List (Check τ))
    (vs : List (Value τ)) : (st.upon qs [] cs vs).Fits h ∧ (st.upon qs [] cs vs).cutTo h = st.cutTo h := by
  have hdrop {α : Type} {n : Nat} {l : List α} (as : List α) (hn : n ≤ l.length) :
      n ≤ (as ++ l).length ∧ (as ++ l).drop ((as ++ l).length - n) = l.drop (l.length - n) := by
    rw [List.length_append, Nat.add_sub_assoc hn, List.drop_length_add_append]
    exact ⟨Nat.le_add_left_of_le hn, rfl⟩
  obtain ⟨hcalls, hchecks, hdata⟩ := hfits
  refine ⟨⟨(hdrop qs hcalls).1, (hdrop cs hchecks).1, (hdrop vs hdata).1⟩, ?_⟩
  simp only [cutTo, upon, (hdrop qs hcalls).2, (hdrop cs hchecks).2, (hdrop vs hdata).2, List.nil_append]

/-- Where a handler was installed, it cuts the stacks back to what was there and the check. -/
theorem cutTo_handler (st : Stacks τ) (c : Check τ) (pc : Nat) :
    (st.upon [] [st.handler pc] [c] []).cutTo (st.handler pc) = st.upon [] [] [c] [] := by
  simp [cutTo, handler, upon]

end Stacks

/-- A place of a run, from which the stacks grow. -/
inductive Footing (τ : Type) [Token τ] where
  /-- The start of the run. -/
  | start
  /-- Upon these stacks a handler has just been installed. The slots are those of the activation. -/
  | guarding (ks : List Slot) (st : Stacks τ) (pc : Nat) (snapshot : Bool) (c : Check τ)

namespace Footing

/-- What the activation has put on the stacks. -/
def slots : Footing τ → List Slot
  | start => []
  | guarding ks _ _ snapshot _ => .guard snapshot :: ks

/-- The stacks. -/
def allStacks : Footing τ → Stacks τ
  | start => ⟨[], [], [], []⟩
  | guarding _ st pc _ c => st.upon [] [st.handler pc] [c] []

end Footing

namespace Stacks

variable {into : Nat → Flow → Prop} {b : Footing τ}

/-- The stacks have grown from the footing, by slots of these kinds. -/
inductive Over (into : Nat → Flow → Prop) (b : Footing τ) : List Slot → Stacks τ → Prop where
  /-- They have not grown. -/
  | base : Over into b b.slots b.allStacks
  /-- A subroutine was called, which returns with a value. -/
  | called {ks : List Slot} {st : Stacks τ} {q : Nat} : Over into b ks st → into q (.runs (.value :: ks)) →
    Over into b [] (st.upon [q] [] [] [])
  /-- A value was pushed. -/
  | value {ks : List Slot} {st : Stacks τ} {v : Value τ} : Over into b ks st →
    Over into b (.value :: ks) (st.upon [] [] [] [v])
  /-- A span was begun. -/
  | span {ks : List Slot} {st : Stacks τ} {c : Check τ} : Over into b ks st →
    Over into b (.span :: ks) (st.upon [] [] [c] [])
  /-- A handler was installed. -/
  | guard {k : Slot} {ks : List Slot} {st : Stacks τ} {q : Nat} {c : Check τ} : k.handles = true → Over into b ks st →
    into q (.fails k ks) → Over into b (k :: ks) (st.upon [] [st.handler q] [c] [])

namespace Over

variable {k : Slot} {ks : List Slot} {st : Stacks τ} {n : Nat}

/-! ### What lies on top -/

theorem of_value (h : Over into b (.value :: ks) st) : ∃ v st', st = st'.upon [] [] [] [v] ∧ Over into b ks st' := by
  generalize hks : .value :: ks = all at h
  cases h with
  | base => cases b <;> cases hks
  | called => cases hks
  | value h =>
    cases hks
    exact ⟨_, _, rfl, h⟩
  | span => cases hks
  | guard hk =>
    cases hks
    cases hk

theorem of_values (h : Over into b (Slot.values n ++ ks) st) :
    ∃ vs st', vs.length = n ∧ st = st'.upon [] [] [] vs ∧ Over into b ks st' := by
  induction n generalizing st with
  | zero => exact ⟨[], st, rfl, rfl, h⟩
  | succ n ih =>
    have hvalue : Over into b (.value :: (Slot.values n ++ ks)) st := h
    obtain ⟨v, st₁, rfl, hrest⟩ := hvalue.of_value
    obtain ⟨vs, st', rfl, rfl, hbelow⟩ := ih hrest
    exact ⟨v :: vs, st', rfl, rfl, hbelow⟩

theorem values (h : Over into b ks st) (vs : List (Value τ)) :
    Over into b (Slot.values vs.length ++ ks) (st.upon [] [] [] vs) := by
  induction vs with
  | nil => exact h
  | cons v vs ih => exact .value ih

theorem of_span (h : Over into b (.span :: ks) st) : ∃ c st', st = st'.upon [] [] [c] [] ∧ Over into b ks st' := by
  generalize hks : .span :: ks = all at h
  cases h with
  | base => cases b <;> cases hks
  | called => cases hks
  | value => cases hks
  | span h =>
    cases hks
    exact ⟨_, _, rfl, h⟩
  | guard hk =>
    cases hks
    cases hk

/-- The top handler was installed since, or it is that of the footing. -/
theorem of_guard (h : Over into b (k :: ks) st) (hk : k.handles = true) :
    ∃ q c st', st = st'.upon [] [st'.handler q] [c] [] ∧ (into q (.fails k ks) ∧ Over into b ks st' ∨
      ∃ snapshot, k = .guard snapshot ∧ b = .guarding ks st' q snapshot c) := by
  generalize hks : k :: ks = all at h
  cases h with
  | base =>
    cases b with
    | start => cases hks
    | guarding ks' st' q snapshot c =>
      cases hks
      exact ⟨q, c, st', rfl, .inr ⟨snapshot, rfl, rfl⟩⟩
  | called => cases hks
  | value =>
    cases hks
    cases hk
  | span =>
    cases hks
    cases hk
  | guard _ h hinto =>
    cases hks
    exact ⟨_, _, _, rfl, .inl ⟨hinto, h⟩⟩

/-- The handler of a repetition was installed since. -/
theorem of_round (h : Over into b (.round :: ks) st) :
    ∃ q c st', st = st'.upon [] [st'.handler q] [c] [] ∧ into q (.fails .round ks) ∧ Over into b ks st' := by
  obtain ⟨q, c, st', hst, hsince | ⟨snapshot, hk, -⟩⟩ := h.of_guard rfl
  · exact ⟨q, c, st', hst, hsince⟩
  · cases hk

/-- An activation that has put nothing on the stacks was called since, or the run has only started. -/
theorem of_nil (h : Over into b [] st) :
    (∃ q ks st', st = st'.upon [q] [] [] [] ∧ into q (.runs (.value :: ks)) ∧ Over into b ks st') ∨
      b = .start ∧ st = ⟨[], [], [], []⟩ := by
  generalize hks : [] = all at h
  cases h with
  | base =>
    cases b with
    | start => exact .inr ⟨rfl, rfl⟩
    | guarding => cases hks
  | called h hinto => exact .inl ⟨_, _, _, rfl, hinto, h⟩
  | value | span | guard => cases hks

/-! ### What lies below -/

/-- The handlers of the footing are still installed. -/
theorem handlers_suffix (h : Over into b ks st) : b.allStacks.handlers <:+ st.handlers := by
  induction h with
  | base => exact List.suffix_refl _
  | called _ _ ih | value _ ih | span _ ih => exact ih
  | guard _ _ _ ih => exact ih.trans (List.suffix_cons _ _)

/-- A failure cuts the stacks back to a layout where the check of a handler lies on top, or to what there was in the
footing. -/
theorem unwinds (h : Over into b ks st) {hd : Handler} {hs : List Handler} (hst : st.handlers = hd :: hs) :
    st.Fits hd ∧
      ((∃ k ks' c st', st.cutTo hd = st'.upon [] [] [c] [] ∧ into hd.pc (.fails k ks') ∧ Over into b ks' st') ∨
        ∃ ks' c st' snapshot, st.cutTo hd = st'.upon [] [] [c] [] ∧ b = .guarding ks' st' hd.pc snapshot c) := by
  have hfits (st : Stacks τ) (q : Nat) (c : Check τ) : (st.upon [] [st.handler q] [c] []).Fits (st.handler q) :=
    ⟨Nat.le_refl _, Nat.le_refl _, Nat.le_refl _⟩
  induction h with
  | base =>
    cases b with
    | start => cases hst
    | guarding ks' st' q snapshot c =>
      cases hst
      exact ⟨hfits st' q c, .inr ⟨ks', c, st', snapshot, cutTo_handler st' c q, rfl⟩⟩
  | @called _ _ q _ _ ih =>
    obtain ⟨hbelow, ih⟩ := ih hst
    obtain ⟨hfits, heq⟩ := hbelow.cutTo_upon [q] [] []
    exact ⟨hfits, by rw [heq]; exact ih⟩
  | @value _ _ v _ ih =>
    obtain ⟨hbelow, ih⟩ := ih hst
    obtain ⟨hfits, heq⟩ := hbelow.cutTo_upon [] [] [v]
    exact ⟨hfits, by rw [heq]; exact ih⟩
  | @span _ _ c _ ih =>
    obtain ⟨hbelow, ih⟩ := ih hst
    obtain ⟨hfits, heq⟩ := hbelow.cutTo_upon [] [c] []
    exact ⟨hfits, by rw [heq]; exact ih⟩
  | @guard k ks st q c _ h hinto _ =>
    cases hst
    exact ⟨hfits st q c, .inl ⟨k, ks, c, st, cutTo_handler st c q, hinto, h⟩⟩

end Over

end Stacks

end ParserMachine
