import ParserMachine.Proofs.Streaming.Tracking
import ParserMachine.Proofs.Machine.Buffer
import ParserMachine.Proofs.Machine.Runs

/-!
# Parsing a stream

A parse that receives its input in chunks comes to the outcome of the whole input, wherever the input
is cut (`Program.streaming_eq_parse`).

Between two chunks the machine is compared with one that has the whole input
(`State.Awaits`): it is as far as that machine is after some steps of its run, and what is left of
that run leads to the same end. A chunk keeps this (`State.Awaits.feed`), and so does a run until the
machine stands still again (`State.Awaits.run`).
-/

namespace ParserMachine

variable {τ : Type} [Token τ]

namespace State

/-- The state in which a suspended machine goes on. -/
def wake (s : State τ) : State τ :=
  if s.status = .suspended then { s with status := .running } else s

theorem wake_of_suspended {s : State τ} (h : s.status = .suspended) :
    s.wake = { s with status := .running } := if_pos h

theorem wake_of_awake {s : State τ} (h : s.status ≠ .suspended) : s.wake = s := if_neg h

theorem wake_more (s : State τ) : s.wake.more = s.more := by
  rw [wake]
  split <;> rfl

theorem feed_some (ts : List τ) (s : State τ) :
    s.feed (some ts) = { s.wake with input := s.wake.input ++ ts.toArray } := rfl

theorem feed_none (s : State τ) : s.feed none = { s.wake with more := false } := rfl

/-- The machine in state `s` has seen a part of the input. On the whole of it the run comes to `f`
in at most `n` steps from a state that `s` has reached. -/
def Awaits (p : Program τ) (n : Nat) (whole : Array τ) (s f : State τ) : Prop :=
  ∃ k ≤ n, ∃ w, Tracks p whole s.wake w ∧ p.run k w = some f

section Tracks

variable {p : Program τ} {whole : Array τ} {s w f : State τ}

theorem Tracks.within (h : Tracks p whole s w) : s.Within whole := h.elim (·.within) (·.within)

theorem Tracks.pc_eq (h : Tracks p whole s w) : w.pc = s.pc := by
  rcases h with h | h <;> rw [h.eq] <;> rfl

theorem Tracks.status_eq (h : Tracks p whole s w) : w.status = s.status := by
  rcases h with h | h <;> rw [h.eq] <;> rfl

theorem Tracks.awake (h : Tracks p whole s w) : s.status ≠ .suspended := by
  rcases h with h | h
  · exact h.awake
  · rw [h.running]
    decide

/-- Of two machines in step both can go on or neither. -/
theorem Tracks.step?_eq_none_iff (h : Tracks p whole s w) : p.step? s = none ↔ p.step? w = none := by
  rw [Program.step?, Program.step?, h.pc_eq, h.status_eq]
  split <;> simp

/-- A machine that cannot go on is not inside a repetition. -/
theorem Tracks.inStep_of_step?_eq_none (h : Tracks p whole s w) (hw : p.step? w = none) :
    InStep whole s w := by
  refine h.resolve_right fun hmid => ?_
  obtain ⟨_, _, _, hi, _⟩ := hmid.reading
  have hs := h.step?_eq_none_iff.2 hw
  rw [Program.step?_of_code hmid.running hi] at hs
  cases hs

/-- The run of the machine that has seen a part of the input, until it stands still. -/
theorem Tracks.run {n : Nat} (h : Tracks p whole s w) (hw : p.run n w = some f) {m : Nat}
    (hm : n < m) :
    ∃ s', p.run m s = some s' ∧ s'.more = s.more ∧
      ((s'.status = .suspended ∧ s'.more = true ∧ s'.Awaits p n whole f) ∨
        InStep whole s' f) := by
  induction n generalizing s w m with
  | zero =>
    cases hstep : p.step? w with
    | none =>
      rw [Program.run_of_step?_eq_none hstep] at hw
      cases hw
      exact ⟨s, Program.run_of_step?_eq_none (h.step?_eq_none_iff.2 hstep) m, rfl, .inr (h.inStep_of_step?_eq_none hstep)⟩
    | some w' =>
      rw [Program.run_zero_of_step? hstep] at hw
      cases hw
  | succ n ih =>
    cases hstep : p.step? w with
    | none =>
      rw [Program.run_of_step?_eq_none hstep] at hw
      cases hw
      exact ⟨s, Program.run_of_step?_eq_none (h.step?_eq_none_iff.2 hstep) m, rfl, .inr (h.inStep_of_step?_eq_none hstep)⟩
    | some w' =>
      obtain ⟨m, rfl⟩ := Nat.exists_eq_succ_of_ne_zero (Nat.ne_zero_of_lt hm)
      obtain ⟨hr, i, hi, rfl⟩ := Program.step?_eq_some_iff.1 hstep
      rw [h.pc_eq] at hi
      rw [h.status_eq] at hr
      rw [Program.run_succ_of_step? (Program.step?_of_code hr hi)]
      rcases h.exec hr hi with ⟨hsusp, hmore, htracks⟩ | hin
      · -- the machine waits, so the other one has not moved
        have hstill : p.step? (s.exec p.size i) = none :=
          Program.step?_eq_none_of_status (by rw [hsusp]; decide)
        refine ⟨_, Program.run_of_step?_eq_none hstill m, exec_more _ _ _, .inl ⟨hsusp, hmore, ?_⟩⟩
        rw [← wake_of_suspended hsusp] at htracks
        exact ⟨n + 1, Nat.le_refl _, w, htracks, hw⟩
      · rw [Program.run_succ_of_step? hstep] at hw
        obtain ⟨s', hrun, hmore, hend⟩ := ih (.inl hin) hw (Nat.lt_of_succ_lt_succ hm)
        refine ⟨s', hrun, by rw [hmore, exec_more], hend.imp_left ?_⟩
        rintro ⟨hsusp, hmore', k, hk, hawaits⟩
        exact ⟨hsusp, hmore', k, Nat.le_succ_of_le hk, hawaits⟩

/-- A chunk that is a part of the input takes nothing away. -/
theorem Tracks.feed (h : Tracks p whole s.wake w) (hmore : s.more = true) {chunk : List τ}
    (hpart : ∃ rest, whole = s.input ++ chunk.toArray ++ rest) :
    Tracks p whole (s.feed (some chunk)) w := by
  have hinput : s.wake.input = s.input := by rw [wake]; split <;> rfl
  have hle : s.wake.input.size ≤ (s.feed (some chunk)).input.size := by
    rw [feed_some, Array.size_append]
    exact Nat.le_add_right _ _
  have hwithin : (s.feed (some chunk)).Within whole := by
    refine ⟨?_, fun hm => ?_, Nat.le_trans h.within.offset_le hle,
      fun c hc => Nat.le_trans (h.within.checks_le c hc) hle⟩
    · rwa [feed_some, hinput]
    · have hwake : s.wake.more = false := hm
      rw [wake_more, hmore] at hwake
      cases hwake
  rcases h with h | h
  · exact .inl ⟨hwithin, h.eq, h.parked, h.awake⟩
  · exact .inr ⟨hwithin, h.running, h.eq, h.le, h.reading⟩

/-- The end of the stream takes nothing away once the buffer is the whole input. -/
theorem Tracks.feed_none (h : Tracks p whole s.wake w) (hwhole : whole = s.input) :
    Tracks p whole (s.feed none) w := by
  have hinput : s.wake.input = s.input := by rw [wake]; split <;> rfl
  have hwithin : (s.feed none).Within whole :=
    ⟨h.within.part, fun _ => by rw [State.feed_none, hinput, hwhole], h.within.offset_le,
      h.within.checks_le⟩
  rcases h with h | h
  · exact .inl ⟨hwithin, h.eq, h.parked, h.awake⟩
  · exact .inr ⟨hwithin, h.running, h.eq, h.le, h.reading⟩

end Tracks

section Awaits

variable {p : Program τ} {n : Nat} {whole : Array τ} {s f : State τ}

/-- A run of a machine that waited or was just begun, until it stands still again. -/
theorem Awaits.run (h : s.Awaits p n whole f) {m : Nat} (hm : n < m) :
    ∃ s', p.run m s.wake = some s' ∧ s'.more = s.more ∧ s'.Awaits p n whole f ∧
      ((s'.status = .suspended ∧ s'.more = true) ∨ InStep whole s' f) := by
  obtain ⟨k, hk, w, htracks, hw⟩ := h
  obtain ⟨s', hrun, hmore, hend⟩ := htracks.run hw (Nat.lt_of_le_of_lt hk hm)
  rw [wake_more] at hmore
  refine ⟨s', hrun, hmore, ?_, hend.imp_left fun hsusp => ⟨hsusp.1, hsusp.2.1⟩⟩
  rcases hend with ⟨-, -, k', hk', hawaits⟩ | hin
  · exact ⟨k', Nat.le_trans hk' hk, hawaits⟩
  · refine ⟨0, Nat.zero_le _, f, .inl ?_, ?_⟩
    · rwa [wake_of_awake hin.awake]
    · exact Program.run_of_step?_eq_none (Program.step?_eq_none_of_run hw) 0

theorem Awaits.feed (h : s.Awaits p n whole f) (hmore : s.more = true) {chunk : List τ}
    (hpart : ∃ rest, whole = s.input ++ chunk.toArray ++ rest) :
    (s.feed (some chunk)).Awaits p n whole f := by
  obtain ⟨k, hk, w, htracks, hw⟩ := h
  have hwake : (s.feed (some chunk)).wake = s.feed (some chunk) := wake_of_awake htracks.awake
  refine ⟨k, hk, w, ?_, hw⟩
  rw [hwake]
  exact htracks.feed hmore hpart

theorem Awaits.feed_none (h : s.Awaits p n whole f) (hwhole : whole = s.input) :
    (s.feed none).Awaits p n whole f := by
  obtain ⟨k, hk, w, htracks, hw⟩ := h
  have hwake : (s.feed none).wake = s.feed none := wake_of_awake htracks.awake
  refine ⟨k, hk, w, ?_, hw⟩
  rw [hwake]
  exact htracks.feed_none hwhole

/-- Once the stream has ended, the run comes to the end of the run on the whole input. -/
theorem Awaits.run_ended (h : s.Awaits p n whole f) (hm : s.more = false) {m : Nat} (hnm : n < m) :
    p.run m s.wake = some f ∧ f.more = false ∧ f.status ≠ .suspended := by
  obtain ⟨s', hrun, hmore, -, hend⟩ := h.run hnm
  rw [hm] at hmore
  rcases hend with ⟨-, hsusp⟩ | hin
  · rw [hmore] at hsusp
    cases hsusp
  · have hf : f = s' := by rw [hin.eq, onWhole_eq_self (hin.within.ended hmore) hmore]
    exact ⟨by rw [hrun, hf], hf ▸ hmore, hf ▸ hin.awake⟩

end Awaits

/-! ### What a state is shown as -/

theorem streaming_of_more {s : State τ} (hm : s.more = true) (hf : s.isFaulted = false) :
    s.streaming = .waiting s := by
  rw [streaming, hm, hf, Bool.or_true]
  rfl

theorem streaming_of_ended {s : State τ} (hm : s.more = false) (hs : s.status ≠ .suspended) :
    s.streaming = .complete s.outcome := by
  rw [streaming, hm, decide_eq_false hs]
  rfl

theorem isFaulted_eq_false_of_outcome {s : State τ} (h : ∀ fault, s.outcome ≠ .faulted fault) :
    s.isFaulted = false := by
  rw [isFaulted]
  split
  · rename_i fault hs
    exact absurd (by rw [outcome, hs]) (h fault)
  · rfl

end State

namespace Program

variable {p : Program τ} {n steps : Nat} {whole : Array τ} {f : State τ}

/-- Goes on with several chunks, one after another. -/
def feedAll (p : Program τ) (steps : Nat) (chunks : List (List τ)) (s : Streaming τ) :
    Option (Streaming τ) :=
  chunks.foldlM (fun s c => p.resume steps (some c) s) s

theorem feedAll_cons (chunk : List τ) (chunks : List (List τ)) (s : Streaming τ) :
    p.feedAll steps (chunk :: chunks) s =
      (p.resume steps (some chunk) s).bind (p.feedAll steps chunks) := List.foldlM_cons

theorem finish_eq (chunks : List (List τ)) (s : Streaming τ) :
    p.finish steps chunks s = (p.feedAll steps chunks s).bind (p.conclude steps) := rfl

/-- A stream whose end was not told yet, of which `seen` has arrived. -/
structure Pending (p : Program τ) (n : Nat) (whole : Array τ) (f : State τ) (seen : List τ)
    (s : State τ) : Prop where
  /-- What is left of the run on the whole input leads on from the state. -/
  awaits : s.Awaits p n whole f
  /-- The end was not told. -/
  more : s.more = true
  /-- The buffer holds what has arrived. -/
  input : s.input = seen.toArray

/-- A run before the end of the stream leaves a parse that waits. -/
theorem Pending.run {seen : List τ} {s : State τ} (h : Pending p n whole f seen s)
    (hf : f.isFaulted = false) (hsteps : n < steps) :
    ∃ s', (p.run steps s.wake).map State.streaming = some (.waiting s') ∧
      Pending p n whole f seen s' := by
  obtain ⟨s', hrun, hmore, hawaits, hend⟩ := h.awaits.run hsteps
  have hinput : s'.input = seen.toArray := by
    rw [(sameBuffer_of_run hrun).1, ← h.input, State.wake]
    split <;> rfl
  have hfaulted : s'.isFaulted = false := by
    rcases hend with ⟨hsusp, -⟩ | hin
    · rw [State.isFaulted, hsusp]
    · rw [hin.eq] at hf
      exact hf
  rw [h.more] at hmore
  refine ⟨s', ?_, hawaits, hmore, hinput⟩
  rw [hrun, Option.map_some, State.streaming_of_more hmore hfaulted]

theorem Pending.feed {seen : List τ} {s : State τ} (h : Pending p n whole f seen s)
    {chunk : List τ} (hpart : ∃ rest, whole = (seen ++ chunk).toArray ++ rest) :
    Pending p n whole f (seen ++ chunk) (s.feed (some chunk)) ∧
      (s.feed (some chunk)).wake = s.feed (some chunk) := by
  have hpart' : ∃ rest, whole = s.input ++ chunk.toArray ++ rest := by
    rwa [h.input, List.append_toArray]
  have hawake : s.wake.status ≠ .suspended := by
    obtain ⟨_, _, _, htracks, _⟩ := h.awaits
    exact htracks.awake
  have hinput : s.wake.input = s.input := by rw [State.wake]; split <;> rfl
  refine ⟨⟨h.awaits.feed h.more hpart', ?_, ?_⟩, State.wake_of_awake hawake⟩
  · exact (State.wake_more s).trans h.more
  · rw [State.feed_some, hinput, h.input, List.append_toArray]

/-- Chunks leave a parse that waits. -/
theorem Pending.feedAll {seen : List τ} {s : State τ} (h : Pending p n whole f seen s)
    (hf : f.isFaulted = false) (hsteps : n < steps) {chunks : List (List τ)}
    (hpart : ∃ rest, whole = (seen ++ chunks.flatten).toArray ++ rest) :
    ∃ s', p.feedAll steps chunks (.waiting s) = some (.waiting s') ∧
      Pending p n whole f (seen ++ chunks.flatten) s' := by
  induction chunks generalizing seen s with
  | nil => exact ⟨s, rfl, by simpa using h⟩
  | cons chunk chunks ih =>
    have hchunk : ∃ rest, whole = (seen ++ chunk).toArray ++ rest := by
      obtain ⟨rest, hrest⟩ := hpart
      refine ⟨chunks.flatten.toArray ++ rest, ?_⟩
      rw [hrest, List.flatten_cons, ← List.append_assoc, ← List.append_toArray, Array.append_assoc]
    obtain ⟨hfed, hwake⟩ := h.feed hchunk
    obtain ⟨s', hrun, hpending⟩ := hfed.run hf hsteps
    obtain ⟨s'', hall, hpending'⟩ := ih hpending (by simpa using hpart)
    rw [hwake] at hrun
    refine ⟨s'', ?_, by simpa using hpending'⟩
    rw [feedAll_cons, resume, hrun]
    exact hall

/-- The end of the stream completes the parse. -/
theorem Pending.resume_none {seen : List τ} {s : State τ} (h : Pending p n whole f seen s)
    (hsteps : n < steps) (hwhole : whole = seen.toArray) :
    p.resume steps none (.waiting s) = some (.complete f.outcome) := by
  have hended := h.awaits.feed_none (by rw [hwhole, h.input])
  have hawake : s.wake.status ≠ .suspended := by
    obtain ⟨_, _, _, htracks, _⟩ := h.awaits
    exact htracks.awake
  have hwake : (s.feed none).wake = s.feed none := State.wake_of_awake hawake
  obtain ⟨hrun, hmore, hsusp⟩ := hended.run_ended rfl hsteps
  rw [hwake] at hrun
  rw [resume, hrun, Option.map_some, State.streaming_of_ended hmore hsusp]

/-- Parsing a stream comes to the outcome of the whole input, wherever the input is cut into chunks:
if the parse of the whole ends in `n` steps without a fault, then with more than `n` steps for every
chunk the parse waits as long as the end of the stream was not told, is complete with that outcome
afterwards, and comes to that outcome too when the chunks that are left are fed at once and the
stream is ended. -/
theorem streaming_eq_parse (p : Program τ) {n steps : Nat} {first : List τ}
    {chunks : List (List τ)} {o : Outcome τ} (hparse : p.parse n (first ++ chunks.flatten) = some o)
    (hfault : ∀ fault, o ≠ .faulted fault) (hsteps : n < steps) :
    (∀ fed rest, chunks = fed ++ rest →
      ∃ s, (p.begin steps first).bind (p.feedAll steps fed) = some (.waiting s) ∧
        p.finish steps rest (.waiting s) = some o) ∧
    (∀ s, (p.begin steps first).bind (p.feedAll steps chunks) = some s →
      p.resume steps none s = some (.complete o) ∧ p.conclude steps s = some o) ∧
    p.conclude steps (.complete o) = some o := by
  obtain ⟨f, hrun, rfl⟩ := Option.map_eq_some_iff.1 hparse
  have hf := State.isFaulted_eq_false_of_outcome hfault
  have hbegin : Pending p n (first ++ chunks.flatten).toArray f first
      { input := first.toArray, more := true } := by
    have hpart : (first ++ chunks.flatten).toArray = first.toArray ++ chunks.flatten.toArray :=
      (List.append_toArray ..).symm
    refine ⟨⟨n, Nat.le_refl _, _, .inl ⟨⟨⟨chunks.flatten.toArray, hpart⟩, nofun,
      Nat.zero_le _, nofun⟩, rfl, rfl, nofun⟩, hrun⟩, rfl, rfl⟩
  obtain ⟨s₀, hs₀, hpending₀⟩ := hbegin.run hf hsteps
  have hfeed : ∀ fed rest, chunks = fed ++ rest →
      ∃ s, (p.begin steps first).bind (p.feedAll steps fed) = some (.waiting s) ∧
        Pending p n (first ++ chunks.flatten).toArray f (first ++ fed.flatten) s := by
    rintro fed rest rfl
    have hpart : ∃ more, (first ++ (fed ++ rest).flatten).toArray =
        (first ++ fed.flatten).toArray ++ more := ⟨rest.flatten.toArray, by simp⟩
    obtain ⟨s, hs, hpending⟩ := hpending₀.feedAll hf hsteps hpart
    refine ⟨s, ?_, hpending⟩
    rw [← hs]
    exact congrArg (Option.bind · (p.feedAll steps fed)) hs₀
  refine ⟨?_, ?_, rfl⟩
  · rintro fed rest rfl
    obtain ⟨s, hs, hpending⟩ := hfeed fed rest rfl
    have hpart : ∃ more, (first ++ (fed ++ rest).flatten).toArray =
        (first ++ fed.flatten ++ rest.flatten).toArray ++ more := ⟨#[], by simp⟩
    obtain ⟨s', hs', hpending'⟩ := hpending.feedAll hf hsteps hpart
    refine ⟨s, hs, ?_⟩
    rw [finish_eq, hs', Option.bind_some]
    have hend := hpending'.resume_none hsteps (by simp)
    rw [conclude, hend]
    rfl
  · intro s hs
    obtain ⟨s', hs', hpending⟩ := hfeed chunks [] (by simp)
    obtain rfl : .waiting s' = s := Option.some.inj (hs'.symm.trans hs)
    have hend := hpending.resume_none hsteps rfl
    refine ⟨hend, ?_⟩
    rw [conclude, hend]
    rfl

/-- Reads `ab`, then ones, then the end of the input. -/
def readOnes : Program Char :=
  ⟨#[.literal ['a', 'b'] .unit .empty .discard, .satisfyMany (· = '1') .empty true, .eof .empty,
    .ret]⟩

/-- `ab11` in the chunks `a`, `b1`, nothing and `1`: cut inside the literal and inside the
repetition. -/
theorem streaming_eq_parse_readOnes :
    ∃ s, (readOnes.begin 5 ['a']).bind (readOnes.feedAll 5 [['b', '1'], []]) =
        some (.waiting s) ∧
      readOnes.finish 5 [['1']] (.waiting s) = some (.done (.list #[.tok '1', .tok '1']) []) := by
  have hparse : readOnes.parse 4 (['a'] ++ [['b', '1'], [], ['1']].flatten) =
      some (.done (.list #[.tok '1', .tok '1']) []) := by with_unfolding_all rfl
  exact (streaming_eq_parse readOnes hparse (by rintro _ ⟨⟩) (by decide)).1 [['b', '1'], []] [['1']] rfl

end Program

end ParserMachine
