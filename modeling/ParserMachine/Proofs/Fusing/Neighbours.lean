import ParserMachine.Assembly.Fuse
import ParserMachine.Proofs.Machine.Activation

/-!
# Neighbours as one instruction

Two instructions that can be joined do one after the other what the joined one does: either the first
of them leaves the way, and the joined one does exactly this, or it goes on to the second one, and
what that comes to is what the joined one comes to (`Instr.Follows`).
-/

namespace ParserMachine

variable {τ : Type} [Token τ] {s : State τ}

/-- The state at the beginning of a line. All input is there, and handlers point to labels. -/
structure State.AtLine (s : State τ) : Prop where
  /-- The machine can go on. -/
  status : s.status = .running
  /-- The current instruction stands at 0. -/
  pc : s.pc = 0
  /-- No more input will arrive. -/
  more : s.more = false
  /-- Handlers point to labels. -/
  handlers : ∀ h ∈ s.handlers, 2 ≤ h.pc

namespace Instr

variable {a b j : Instr τ Label} {g : Value τ → Value τ} {out out' : Output τ}

/-- The instruction `j` does in the state what `a` and then `b` do. -/
inductive Follows (a b j : Instr τ Label) (s : State τ) : Prop where
  /-- The first instruction does not go on to the next line. -/
  | leaves : (s.exec 0 a.shifted).pc ≠ 1 → s.exec 0 j.shifted = s.exec 0 a.shifted →
    Follows a b j s
  /-- The second instruction is run in a state that the first one has come to. -/
  | goes (t : State τ) : s.exec 0 a.shifted = t.next → t.status = .running → t.pc = 0 →
    s.exec 0 j.shifted = t.exec 0 b.shifted → Follows a b j s

theorem exec_emit_map (hout : out ≠ .discard) (v : Value τ) :
    (s.emit out v).exec 0 (.map g) = (s.emit (out.andThen g) v).next := by
  cases out with
  | discard => exact absurd rfl hout
  | keep => rfl
  | map f => rfl

theorem exec_emit_pop (hout : out ≠ .discard) (v : Value τ) :
    (s.emit out v).exec 0 .pop = (s.emit .discard v).next := by
  cases out with
  | discard => exact absurd rfl hout
  | keep => rfl
  | map f => rfl

theorem status_emit (out : Output τ) (v : Value τ) : (s.emit out v).status = s.status := by
  cases out <;> rfl

theorem pc_emit (out : Output τ) (v : Value τ) : (s.emit out v).pc = s.pc := by
  cases out <;> rfl

/-- One token and then an instruction that takes its value. -/
theorem one_follows (hs : s.AtLine) {accept : τ → Bool} {e : ExpectedSet τ}
    (ha : s.exec 0 a.shifted = s.one accept e out) (hj : s.exec 0 j.shifted = s.one accept e out')
    (hb : ∀ (t : State τ) v, (t.emit out v).exec 0 b.shifted = (t.emit out' v).next) :
    Follows a b j s := by
  have hwhole : ¬ s.more = true := by simp [hs.more]
  have hfail (err : ParseError τ) (ha : s.exec 0 a.shifted = s.fail err)
      (hj : s.exec 0 j.shifted = s.fail err) : Follows a b j s := by
    refine .leaves ?_ (hj.trans ha.symm)
    rw [ha]
    apply Config.pc_unwind_ne_one
    · exact hs.pc
    · exact hs.handlers
  unfold State.one at ha hj
  cases hcurrent : s.current? with
  | none =>
    simp only [hcurrent, if_neg hwhole] at ha hj
    exact hfail _ ha hj
  | some u =>
    simp only [hcurrent] at ha hj
    by_cases haccept : accept u = true
    · rw [if_pos haccept] at ha hj
      refine .goes _ ha ?_ ?_ (hj.trans (hb _ _).symm)
      · rw [status_emit]
        exact hs.status
      · rw [pc_emit]
        exact hs.pc
    · rw [if_neg haccept] at ha hj
      exact hfail _ ha hj

/-- Several tokens and then an instruction that takes their value. -/
theorem literal_follows (hs : s.AtLine) {ts : List τ} {v : Value τ} {e : ExpectedSet τ}
    (hb : ∀ t : State τ, (t.emit out v).exec 0 b.shifted = (t.emit out' v).next) :
    Follows (.literal ts v e out) b (.literal ts v e out') s := by
  have ha : s.exec 0 (shifted (.literal ts v e out)) = s.literal ts v e out := rfl
  have hj : s.exec 0 (shifted (.literal ts v e out')) = s.literal ts v e out' := rfl
  have hwhole : ¬ (s.more && s.input.size ≤ s.offset + matchLength s.input s.offset ts) = true := by
    simp [hs.more]
  unfold State.literal at ha hj
  by_cases hall : matchLength s.input s.offset ts = ts.length
  · simp only [if_pos hall] at ha hj
    refine .goes _ ha ?_ ?_ (hj.trans (hb _).symm)
    · rw [status_emit]
      exact hs.status
    · rw [pc_emit]
      exact hs.pc
  · simp only [if_neg hall, if_neg hwhole] at ha hj
    refine .leaves ?_ (hj.trans ha.symm)
    rw [ha]
    apply Config.pc_unwind_ne_one
    · exact hs.pc
    · exact hs.handlers

/-- A function on the top value and then an instruction that takes its result. -/
theorem map_follows (hs : s.AtLine) {f : Value τ → Value τ}
    (hj : s.exec 0 j.shifted = s.withValue fun v t => (t.push (f v)).exec 0 b.shifted) :
    Follows (.map f) b j s := by
  have ha : s.exec 0 (shifted (.map f)) = s.withValue fun v s => (s.push (f v)).next := rfl
  unfold State.withValue at ha hj
  cases hpop : s.data.pop? with
  | none =>
    simp only [hpop] at ha hj
    refine .leaves ?_ (hj.trans ha.symm)
    rw [ha]
    show s.pc ≠ 1
    rw [hs.pc]
    decide
  | some top =>
    simp only [hpop] at ha hj
    exact .goes _ ha hs.status hs.pc hj

/-- A repetition whose list is not needed. -/
theorem satisfyMany_follows (hs : s.AtLine) (test : τ → Bool) (e : ExpectedSet τ) :
    Follows (.satisfyMany test e true) .pop (.satisfyMany test e false) s := by
  have hwhole (stop : Nat) : ¬ (s.more && s.input.size ≤ stop) = true := by simp [hs.more]
  have ha : s.exec 0 (shifted (.satisfyMany test e true)) = s.satisfyMany test e true := rfl
  have hj : s.exec 0 (shifted (.satisfyMany test e false)) = s.satisfyMany test e false := rfl
  unfold State.satisfyMany at ha hj
  simp only [if_neg (hwhole _)] at ha hj
  exact .goes _ ha hs.status hs.pc hj

/-- Neighbours that are joined to one instruction. -/
theorem follows_of_fuse? (hs : s.AtLine) (h : a.fuse? b = some (some j)) : Follows a b j s := by
  unfold fuse? at h
  split at h
  · cases h
  · cases h
    exact .goes _ rfl hs.status hs.pc rfl
  · cases h
    exact map_follows hs rfl
  · cases h
    exact map_follows hs rfl
  · cases h
    exact satisfyMany_follows hs _ _
  · cases h
  · cases h
  · cases h
  · rename_i hout
    cases h
    exact one_follows hs rfl rfl fun t v => exec_emit_map hout v
  · rename_i hout
    cases h
    exact one_follows hs rfl rfl fun t v => exec_emit_pop hout v
  · rename_i hout
    cases h
    exact one_follows hs rfl rfl fun t v => exec_emit_map hout v
  · rename_i hout
    cases h
    exact one_follows hs rfl rfl fun t v => exec_emit_pop hout v
  · rename_i hout
    cases h
    exact literal_follows hs fun t => exec_emit_map hout _
  · rename_i hout
    cases h
    exact literal_follows hs fun t => exec_emit_pop hout _
  · cases h

/-- What the first of two neighbours does where both are left out. -/
theorem exec_of_fuse?_none (s : State τ) (h : a.fuse? b = some none) :
    ∃ t : State τ, s.exec 0 a.shifted = t.next ∧ t.status = s.status ∧ t.pc = s.pc ∧
      t.exec 0 b.shifted = s.next := by
  unfold fuse? at h
  split at h
  · exact ⟨_, rfl, rfl, rfl, rfl⟩
  all_goals cases h

/-- Whether an instruction goes on to the next line or fails, and removes no handler. -/
def isStraight (i : Instr τ Label) : Bool := i.isPlain && !i.leaves && i.targets.isEmpty

/-- Neighbours that are joined are straight, and so is what they become. -/
theorem isStraight_of_fuse? {o : Option (Instr τ Label)} (h : a.fuse? b = some o) :
    a.isStraight = true ∧ b.isStraight = true ∧ ∀ j ∈ o, j.isStraight = true := by
  unfold fuse? at h
  split at h
  all_goals
    cases h
    try
      refine ⟨rfl, rfl, ?_⟩
      rintro j ⟨⟩ <;> rfl

section Straight

variable {i : Instr τ Label} (h : i.isStraight = true)
include h

theorem isPlain_of_isStraight : i.isPlain = true := by
  unfold isStraight at h
  simp only [Bool.and_eq_true] at h
  exact h.1.1

theorem fits_of_isStraight (s : State τ) : i.fits s = true := by
  unfold isStraight at h
  simp only [Bool.and_eq_true, Bool.not_eq_true'] at h
  unfold fits
  rw [h.1.1, h.1.2]
  rfl

theorem targets_of_isStraight : i.targets = [] := by
  unfold isStraight at h
  simp only [Bool.and_eq_true, List.isEmpty_iff] at h
  exact h.2

theorem call?_of_isStraight : (Line.instr i).call? = none := by
  have hplain := isPlain_of_isStraight h
  cases i <;> first | rfl | cases hplain

end Straight

end Instr

end ParserMachine
