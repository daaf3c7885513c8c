import ParserMachine.Machine.Run
import ParserMachine.Proofs.Machine.Buffer
import ParserMachine.Proofs.Machine.Simulation

/-!
# Runs

A run takes steps until there is none. What it comes to does not depend on how many steps it is
given, once they are enough (`Program.run_mono`, `Program.parse_mono`).
-/

namespace ParserMachine.Program

variable {τ : Type} [Token τ] {p : Program τ} {s s' t t' : State τ}

/-- A machine that can go on has an instruction to run. -/
theorem step?_eq_some_iff :
    p.step? s = some s' ↔
      s.status = .running ∧ ∃ i, p.code[s.pc]? = some i ∧ s' = s.exec p.size i := by
  unfold step?
  by_cases h : s.status = .running
  · cases hi : p.code[s.pc]? <;> simp [h, eq_comm]
  · simp [h]

theorem step?_of_code (hr : s.status = .running) {i : Instr τ Nat} (hi : p.code[s.pc]? = some i) :
    p.step? s = some (s.exec p.size i) :=
  step?_eq_some_iff.2 ⟨hr, i, hi, rfl⟩

theorem step?_eq_none_of_status (h : s.status ≠ .running) : p.step? s = none := if_neg h

theorem step?_eq_none_of_code (h : p.code[s.pc]? = none) : p.step? s = none := by
  rw [step?, h, Option.map_none, ite_self]

theorem run_of_step?_eq_none (h : p.step? s = none) (n : Nat) : p.run n s = some s := by
  cases n with
  | zero => simp [run, h]
  | succ n => simp [run, h]

theorem run_succ_of_step? (h : p.step? s = some s') (n : Nat) : p.run (n + 1) s = p.run n s' := by
  rw [run, h]

theorem run_zero_of_step? (h : p.step? s = some s') : p.run 0 s = none := by
  simp [run, h]

/-- Where a run stops there is no further step. -/
theorem step?_eq_none_of_run {n : Nat} (h : p.run n s = some t) : p.step? t = none := by
  induction n generalizing s with
  | zero =>
    cases hs : p.step? s with
    | none =>
      rw [run_of_step?_eq_none hs] at h
      cases h
      exact hs
    | some s' =>
      rw [run_zero_of_step? hs] at h
      cases h
  | succ n ih =>
    cases hs : p.step? s with
    | none =>
      rw [run_of_step?_eq_none hs] at h
      cases h
      exact hs
    | some s' =>
      rw [run_succ_of_step? hs] at h
      exact ih h

/-- More steps do not change what a finished run has come to. -/
theorem run_mono {n m : Nat} (h : p.run n s = some t) (hnm : n ≤ m) : p.run m s = some t := by
  induction n generalizing s m with
  | zero =>
    cases hs : p.step? s with
    | none => rwa [run_of_step?_eq_none hs] at h ⊢
    | some s' =>
      rw [run_zero_of_step? hs] at h
      cases h
  | succ n ih =>
    cases hs : p.step? s with
    | none => rwa [run_of_step?_eq_none hs] at h ⊢
    | some s' =>
      obtain ⟨m, rfl⟩ := Nat.exists_eq_succ_of_ne_zero (Nat.ne_zero_of_lt hnm)
      rw [run_succ_of_step? hs] at h ⊢
      exact ih h (Nat.le_of_succ_le_succ hnm)

/-- A run comes to one state. -/
theorem run_unique {n m : Nat} (h : p.run n s = some t) (h' : p.run m s = some t') : t = t' := by
  have hmax := run_mono h (Nat.le_max_left n m)
  rw [run_mono h' (Nat.le_max_right n m)] at hmax
  exact (Option.some.inj hmax).symm

/-- A run leads to what it comes to. -/
theorem exists_leads_of_run {n : Nat} {s t : State τ} (h : p.run n s = some t) : ∃ m, Leads p.step? m s t := by
  induction n generalizing s with
  | zero =>
    cases hs : p.step? s with
    | none =>
      rw [run_of_step?_eq_none hs] at h
      cases h
      exact ⟨0, Leads.refl _ _⟩
    | some s' =>
      rw [run_zero_of_step? hs] at h
      cases h
  | succ n ih =>
    cases hs : p.step? s with
    | none =>
      rw [run_of_step?_eq_none hs] at h
      cases h
      exact ⟨0, Leads.refl _ _⟩
    | some s' =>
      rw [run_succ_of_step? hs] at h
      obtain ⟨m, hm⟩ := ih h
      exact ⟨m + 1, hm.cons hs⟩

/-- A run does not change the buffer. -/
theorem sameBuffer_of_run {n : Nat} (h : p.run n s = some t) : s.SameBuffer t := by
  obtain ⟨m, hm⟩ := exists_leads_of_run h
  refine hm.preserves (fun u u' hu hstep => ?_) (.refl s)
  obtain ⟨-, i, -, rfl⟩ := step?_eq_some_iff.1 hstep
  exact hu.trans (State.sameBuffer_exec p.size u i)

theorem parse_mono {n m : Nat} {input : List τ} {o : Outcome τ} (h : p.parse n input = some o)
    (hnm : n ≤ m) : p.parse m input = some o := by
  obtain ⟨t, ht, rfl⟩ := Option.map_eq_some_iff.1 h
  exact Option.map_eq_some_iff.2 ⟨t, run_mono ht hnm, rfl⟩

theorem parse_unique {n m : Nat} {input : List τ} {o o' : Outcome τ} (h : p.parse n input = some o)
    (h' : p.parse m input = some o') : o = o' := by
  obtain ⟨t, ht, rfl⟩ := Option.map_eq_some_iff.1 h
  obtain ⟨t', ht', rfl⟩ := Option.map_eq_some_iff.1 h'
  rw [run_unique ht ht']

end ParserMachine.Program
