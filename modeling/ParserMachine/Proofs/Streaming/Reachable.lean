import ParserMachine.Proofs.Machine.Order
import ParserMachine.Proofs.Machine.Simulation
import ParserMachine.Proofs.Streaming.Outcome

/-!
# Reachable states

The states that a parse goes through, of a whole input or of one that arrives in chunks
(`Program.Reachable`). Each is as far as some state of the parse of what has arrived, and of every input that
begins with it if more may come (`Program.Reachable.follows`), and its offsets are in order
(`Program.Reachable.ordered`).
-/

namespace ParserMachine

variable {τ : Type} [Token τ] {p : Program τ} {s s' w : State τ} {whole : Array τ}

namespace Program

/-- The states that a parse goes through. -/
inductive Reachable (p : Program τ) : State τ → Prop where
  /-- A whole input is given. -/
  | whole (input : List τ) : Reachable p { input := input.toArray, more := false }
  /-- A first chunk is given. -/
  | stream (chunk : List τ) : Reachable p { input := chunk.toArray, more := true }
  /-- The machine takes a step. -/
  | step {s s' : State τ} : Reachable p s → p.step? s = some s' → Reachable p s'
  /-- The next chunk arrives, or the end of the stream is told. -/
  | feed {s : State τ} (chunk : Option (List τ)) : Reachable p s → s.more = true →
    Reachable p (s.feed chunk)

/-- A run goes through reachable states. -/
theorem Reachable.run {n : Nat} (h : p.Reachable s) (hrun : p.run n s = some s') : p.Reachable s' := by
  induction n generalizing s with
  | zero =>
    cases hstep : p.step? s with
    | none =>
      rw [run_of_step?_eq_none hstep] at hrun
      cases hrun
      exact h
    | some t =>
      rw [run_zero_of_step? hstep] at hrun
      cases hrun
  | succ n ih =>
    cases hstep : p.step? s with
    | none =>
      rw [run_of_step?_eq_none hstep] at hrun
      cases hrun
      exact h
    | some t =>
      rw [run_succ_of_step? hstep] at hrun
      exact ih (h.step hstep) hrun

/-- A parse that waits after a run was reached, and more may come. -/
theorem Reachable.waiting {n : Nat} (h : p.Reachable s) (hmore : s.more = true)
    (hrun : (p.run n s).map State.streaming = some (.waiting s')) :
    p.Reachable s' ∧ s'.more = true := by
  obtain ⟨t, ht, hstreaming⟩ := Option.map_eq_some_iff.1 hrun
  unfold State.streaming at hstreaming
  split at hstreaming
  · cases hstreaming
    exact ⟨h.run ht, (sameBuffer_of_run ht).2.trans hmore⟩
  · cases hstreaming

/-- The states in which a parse waits between two chunks are reachable. -/
theorem reachable_of_feedAll {steps : Nat} {first : List τ} {chunks : List (List τ)}
    (h : (p.begin steps first).bind (p.feedAll steps chunks) = some (.waiting s)) :
    p.Reachable s ∧ s.more = true := by
  have hcomplete (chunks : List (List τ)) (o : Outcome τ) :
      p.feedAll steps chunks (.complete o) = some (.complete o) := by
    induction chunks with
    | nil => rfl
    | cons chunk chunks ih => exact (feedAll_cons chunk chunks _).trans ih
  have hfeed (chunks : List (List τ)) (t : State τ) (ht : p.Reachable t ∧ t.more = true)
      (hall : p.feedAll steps chunks (.waiting t) = some (.waiting s)) :
      p.Reachable s ∧ s.more = true := by
    induction chunks generalizing t with
    | nil =>
      cases hall
      exact ht
    | cons chunk chunks ih =>
      rw [feedAll_cons] at hall
      obtain ⟨u, hu, hall⟩ := Option.bind_eq_some_iff.1 hall
      cases u with
      | complete o =>
        rw [hcomplete] at hall
        cases hall
      | waiting u =>
        have hfed := ht.1.feed (some chunk) ht.2
        exact ih u (hfed.waiting ((State.wake_more t).trans ht.2) hu) hall
  obtain ⟨t, ht, hall⟩ := Option.bind_eq_some_iff.1 h
  cases t with
  | complete o =>
    rw [hcomplete] at hall
    cases hall
  | waiting t => exact hfeed chunks t ((Reachable.stream first).waiting rfl ht) hall

/-- The offsets of reachable states are in order. -/
theorem Reachable.ordered (h : p.Reachable s) : s.Ordered := by
  induction h with
  | whole input => exact .start _ _
  | stream chunk => exact .start _ _
  | step _ hstep ih =>
    obtain ⟨-, i, -, rfl⟩ := step?_eq_some_iff.1 hstep
    exact ih.exec p.size i
  | @feed s chunk _ _ ih =>
    have hwake : s.wake.Ordered := by
      rw [State.wake]
      split <;> exact ih
    cases chunk with
    | none => exact hwake
    | some ts =>
      have hle : s.wake.input.size ≤ (s.wake.input ++ ts.toArray).size := by
        rw [Array.size_append]
        exact Nat.le_add_right _ _
      exact ⟨Nat.le_trans hwake.offset_le hle, hwake.checks_le, hwake.sorted⟩

/-- The state is as far as one of the parse of this input. -/
def Follows (p : Program τ) (whole : Array τ) (s : State τ) : Prop :=
  ∃ n w, Leads p.step? n { input := whole, more := false } w ∧ State.Tracks p whole s.wake w

/-- A reachable state is as far as one of the parse of each input that can still come. -/
theorem Reachable.follows (h : p.Reachable s) (hpart : ∃ rest, whole = s.input ++ rest)
    (hended : s.more = false → whole = s.input) : p.Follows whole s := by
  have hstart {input : Array τ} {more : Bool} (hpart : ∃ rest, whole = input ++ rest)
      (hended : more = false → whole = input) : p.Follows whole { input, more } :=
    ⟨0, _, Leads.refl _ _, .inl ⟨⟨hpart, hended, Nat.zero_le _, List.forall_mem_nil _⟩, rfl, rfl, by rintro ⟨⟩⟩⟩
  induction h with
  | whole input => exact hstart hpart hended
  | stream chunk => exact hstart hpart hended
  | @step s s' _ hstep ih =>
    obtain ⟨hrunning, i, hi, rfl⟩ := step?_eq_some_iff.1 hstep
    rw [State.exec_input] at hpart hended
    rw [State.exec_more] at hended
    obtain ⟨n, w, hw, htracks⟩ := ih hpart hended
    rw [State.wake_of_awake (by rw [hrunning]; rintro ⟨⟩)] at htracks
    rcases htracks.exec hrunning hi with ⟨hsuspended, -, hstill⟩ | hin
    · rw [← State.wake_of_suspended hsuspended] at hstill
      exact ⟨n, w, hw, hstill⟩
    · have hwstep : p.step? w = some (w.exec p.size i) :=
        step?_of_code (htracks.status_eq.trans hrunning) (htracks.pc_eq ▸ hi)
      refine ⟨n + 1, _, hw.trans (Leads.single hwstep), .inl ?_⟩
      rwa [State.wake_of_awake hin.awake]
  | @feed s chunk _ hmore ih =>
    have hinput : s.wake.input = s.input := by rw [State.wake]; split <;> rfl
    cases chunk with
    | none =>
      have hwhole : whole = s.input := by
        rw [← hinput]
        exact hended rfl
      obtain ⟨n, w, hw, htracks⟩ := ih ⟨#[], by rw [hwhole, Array.append_empty]⟩ fun _ => hwhole
      refine ⟨n, w, hw, ?_⟩
      rw [State.wake_of_awake (s := s.feed none) htracks.awake]
      exact htracks.feed_none hwhole
    | some ts =>
      rw [State.feed_some, hinput] at hpart
      obtain ⟨rest, hrest⟩ := hpart
      obtain ⟨n, w, hw, htracks⟩ := ih ⟨ts.toArray ++ rest, by rw [hrest, Array.append_assoc]⟩
        (by rw [hmore]; rintro ⟨⟩)
      refine ⟨n, w, hw, ?_⟩
      rw [State.wake_of_awake (s := s.feed (some ts)) htracks.awake]
      exact htracks.feed hmore ⟨rest, hrest⟩

end Program

end ParserMachine
