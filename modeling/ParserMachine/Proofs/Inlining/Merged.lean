import Mathlib.Algebra.GroupWithZero.Nat
import ParserMachine.Proofs.Inlining.Copies
import ParserMachine.Proofs.Machine.Embedding

/-!
# Running copies

Code in which calls were replaced by copies runs a subroutine within the activation of its caller: one
activation stands for two (`Code.Stands`), with the handlers of the callee, moved to the labels of the copy,
upon those of the caller (`around`). A failure that the callee does not catch goes at once to the
handlers of the caller, which the code that calls looks for in a step of its own.
-/

namespace ParserMachine

variable {τ : Type} [Token τ] {bodies : Std.TreeMap Label (Block τ)}

/-- Where positions within a copy are. -/
abbrev seat (f : Label → Label) : Nat → Nat := place (fun l => f l + 2) 0

theorem mapTargets_seat (f : Label → Label) (i : Instr τ Label) :
    i.shifted.mapTargets (seat f) = (i.mapTargets f).shifted := by
  rw [mapTargets_shifted]
  exact (Instr.mapTargets_mapTargets f (· + 2) i).symm

/-- Between instructions positions stand in handlers only. -/
theorem State.embed_seat {s : State τ} (hpc : s.pc = 0) (hs : s.status = .running)
    (ρ ρ' : Label → Label) (hs' : List Handler) (H H' : List Handler) :
    ({ s.embed (seat ρ) .empty H with
      handlers := hs'.map (Handler.embed (seat ρ') 0) ++ H' } : State τ) =
      State.embed (seat ρ') .empty H' { s with handlers := hs' } := by
  unfold State.embed
  simp only [hpc, hs, place_zero, Status.mapPc]
  rfl

/-- Handlers may move between those of an activation and those around it. -/
theorem State.embed_seat_eq {s : State τ} (hpc : s.pc = 0) (hs : s.status = .running)
    {ρ ρ' : Label → Label} {hs' H H' : List Handler}
    (h : s.handlers.map (Handler.embed (seat ρ) 0) ++ H = hs'.map (Handler.embed (seat ρ') 0) ++ H') :
    s.embed (seat ρ) .empty H = State.embed (seat ρ') .empty H' { s with handlers := hs' } :=
  (congrArg (fun hs => ({ s.embed (seat ρ) .empty H with handlers := hs } : State τ)) h).trans
    (embed_seat hpc hs ρ ρ' hs' H H')

/-- Positions have no part in an outcome, but for the position of a fault. -/
theorem State.agrees_embed {f : Nat → Nat} {K : Stack Nat} {H : List Handler} (s : State τ) :
    s.outcome.Agrees (s.embed f K H).outcome := by
  have hstatus : (s.embed f K H).status = s.status.mapPc f := rfl
  unfold State.outcome
  rw [hstatus]
  cases s.status with
  | faulted f => trivial
  | _ => exact Outcome.Agrees.refl _

/-- The handlers of the activations around a copy. -/
def around (outer : List (Frame τ)) : List Handler :=
  outer.flatMap fun f => f.handlers.map (Handler.embed (seat id) 0)

theorem around_singleton (f : Frame τ) :
    around [f] = f.handlers.map (Handler.embed (seat id) 0) := List.append_nil _

/-- Subroutines that are replaced by copies: calls find their code, and what they call is not
replaced. -/
structure Bodies (bodies : Std.TreeMap Label (Block τ)) (codeOf : Label → Code τ) : Prop where
  /-- Calls find the code. -/
  code : ∀ (l : Nat) b, bodies[l]? = some b → codeOf l = b.code
  /-- The code is closed. -/
  closed : ∀ (l : Nat) b, bodies[l]? = some b → b.code.Closed
  /-- Calls in it are not replaced. -/
  calls : ∀ (l : Nat) b, bodies[l]? = some b → ∀ m : Nat, m ∈ Code.calls b.code → bodies[m]? = none
  /-- It does not mark what it calls. -/
  marks : ∀ (l : Nat) b, bodies[l]? = some b → ∀ m ∈ Code.calls b.code, m ∉ Code.marks b.code

namespace Code

/-- The lines that are left of a block and those that are left of the block with copies: either in the
block itself, or in a copy that stands for a call in the block of an activation around. -/
inductive Stands (bodies : Std.TreeMap Label (Block τ)) (block' : Code τ) :
    (Label → Label) → List (Frame τ) → Code τ → Code τ → Code τ → Prop where
  /-- In the block itself. -/
  | own {k k' j j' : Nat} {block rest rest' : Code τ} : Inlines bodies k block block' k' →
    Inlines bodies j rest rest' j' → rest' <:+ block' → Stands bodies block' id [] block rest rest'
  /-- In a copy. -/
  | copied {k k' j j' m l : Nat} {b : Block τ} {f : Frame τ} {rest tail : Code τ} :
    bodies[l]? = some b → Inlines bodies k f.block block' k' → Inlines bodies j f.rest tail j' →
    renamed (newName m b.code) b.code ++ tail <:+ block' → rest <:+ b.code →
    Stands bodies block' (newName m b.code) [f] b.code rest
      (renamed (newName m b.code) rest ++ tail)

variable {block block' rest rest' : Code τ} {ρ : Label → Label} {outer : List (Frame τ)} {l : Nat}

theorem renamed_suffix (f : Label → Label) {c d : Code τ} (h : c <:+ d) :
    renamed f c <:+ renamed f d := by
  obtain ⟨pre, rfl⟩ := h
  exact ⟨renamed f pre, (renamed_append f pre c).symm⟩

/-- Both go on after a mark. -/
theorem Stands.after (h : Stands bodies block' ρ outer block rest rest')
    (hnodup : (marks block').Nodup) (hl : l ∈ marks block) :
    Stands bodies block' ρ outer block (after l block) (after (ρ l) block') := by
  cases h with
  | own hblock _ _ =>
    obtain ⟨j, hafter⟩ := hblock.after hl hnodup
    exact .own hblock hafter (after_suffix _ _)
  | @copied k k' j j' m _ b f _ tail hb hblock htail hsuffix _ =>
    have hmark := renamed_suffix (newName m b.code) (suffix_of_mem_marks hl)
    obtain ⟨pre, hpre⟩ := hmark
    rw [← hpre, List.append_assoc] at hsuffix
    rw [after_of_suffix hnodup ((List.suffix_append _ _).trans hsuffix)]
    rw [← List.append_assoc, hpre] at hsuffix
    exact .copied hb hblock htail hsuffix (after_suffix l _)

/-- Both have a mark. -/
theorem Stands.mark (h : Stands bodies block' ρ outer block (.mark l :: rest) rest') :
    ∃ rest'', rest' = .mark (ρ l) :: rest'' ∧ Stands bodies block' ρ outer block rest rest'' := by
  cases h with
  | own hblock hrest hsuffix =>
    cases hrest with
    | line _ hrest => exact ⟨_, rfl, .own hblock hrest ((List.suffix_cons _ _).trans hsuffix)⟩
  | copied hb hblock htail hsuffix hrest =>
    exact ⟨_, rfl, .copied hb hblock htail hsuffix ((List.suffix_cons _ _).trans hrest)⟩

/-- Both have an instruction that stays in the activation. -/
theorem Stands.instr {i : Instr τ Label} (hplain : i.isPlain = true)
    (h : Stands bodies block' ρ outer block (.instr i :: rest) rest') :
    ∃ rest'', rest' = .instr (i.mapTargets ρ) :: rest'' ∧
      Stands bodies block' ρ outer block rest rest'' := by
  cases h with
  | own hblock hrest hsuffix =>
    cases hrest with
    | line _ hrest =>
      refine ⟨_, ?_, .own hblock hrest ((List.suffix_cons _ _).trans hsuffix)⟩
      exact congrArg (Line.instr · :: _) (Instr.mapTargets_id i).symm
    | copy hb _ => cases hplain
  | copied hb hblock htail hsuffix hrest =>
    exact ⟨_, rfl, .copied hb hblock htail hsuffix ((List.suffix_cons _ _).trans hrest)⟩

end Code

/-- Activations that wait, and those that stand for them. -/
inductive Frames.Inlined (bodies : Std.TreeMap Label (Block τ)) :
    List (Frame τ) → List (Frame τ) → Prop where
  /-- None. -/
  | nil : Inlined bodies [] []
  /-- One that stands for itself or, in a copy, also for the one around. -/
  | cons {ρ : Label → Label} {f f' : Frame τ} {outer gs gs' : List (Frame τ)} :
    (Code.marks f'.block).Nodup → Code.Stands bodies f'.block ρ outer f.block f.rest f'.rest →
    f'.handlers = f.handlers.map (Handler.embed (seat ρ) 0) ++ around outer → Inlined bodies gs gs' →
    Inlined bodies (f :: (outer ++ gs)) (f' :: gs')

/-- An activation, and one with copies that stands for it. -/
inductive Config.Inlined (bodies : Std.TreeMap Label (Block τ)) (x y : Config τ) : Prop where
  /-- They run. -/
  | runs {ρ : Label → Label} {outer gs : List (Frame τ)} : x.Sound → x.state.status = .running →
    (Code.marks y.block).Nodup → Code.Stands bodies y.block ρ outer x.block x.rest y.rest →
    x.frames = outer ++ gs → Frames.Inlined bodies gs y.frames →
    y.state = x.state.embed (seat ρ) .empty (around outer) → Inlined bodies x y
  /-- They have failed. -/
  | failed : x.Sound → x.state.status = .failed → Frames.Inlined bodies x.frames y.frames →
    y.state = x.state.embed (seat id) .empty [] → Inlined bodies x y
  /-- They have stopped. -/
  | stopped (ρ : Label → Label) : x.state.status ≠ .running → x.state.status ≠ .failed →
    y.state.status = x.state.status.mapPc (seat ρ) → Inlined bodies x y

namespace Config

variable {codeOf codeOf' : Label → Code τ} {x x' y : Config τ} {block rest block' rest' : Code τ}
  {s u : State τ} {outer gs gs' : List (Frame τ)} {ρ : Label → Label}

/-- Where code with copies arrives, unless a failure leaves a copy. -/
theorem inlined_arrive (hsound : (arrive block rest u (outer ++ gs)).Sound)
    (hpc : u.status = .running → u.pc = 1 ∨ ∃ l ∈ Code.marks block, u.pc = l + 2)
    (hnodup : (Code.marks block').Nodup) {c c' : Code τ}
    (hstands : Code.Stands bodies block' ρ outer block c c')
    (hrest : u.pc = 1 → Code.Stands bodies block' ρ outer block rest rest')
    (hframes : Frames.Inlined bodies gs gs') (houter : u.status = .failed → outer = []) :
    Inlined bodies (arrive block rest u (outer ++ gs))
      (arrive block' rest' (u.land (seat ρ) .empty (around outer)) gs') := by
  cases hs : u.status with
  | running =>
    rw [State.land_of_running hs]
    refine .runs hsound hs hnodup ?_ rfl hframes rfl
    rcases hpc hs with hnext | ⟨l, hl, hlabel⟩
    · have hnext' : (u.embed (seat ρ) .empty (around outer)).pc = 1 := congrArg (seat ρ) hnext
      unfold arrive
      rw [if_pos hnext, if_pos hnext']
      exact hrest hnext
    · have hlabel' : (u.embed (seat ρ) .empty (around outer)).pc = ρ l + 2 :=
        congrArg (seat ρ) hlabel
      unfold arrive
      rw [hlabel', hlabel, if_neg (by omega), if_neg (by omega)]
      exact hstands.after hnodup hl
  | failed =>
    obtain rfl := houter hs
    have hhandlers : u.handlers = [] := hsound.failed hs
    refine .failed hsound hs hframes ?_
    have hland : u.land (seat ρ) .empty [] = { u.embed (seat ρ) .empty [] with status := .failed } := by
      refine (if_pos hs).trans ?_
      unfold State.unwind State.embed
      rw [hhandlers]
      rfl
    show ({ u.land (seat ρ) .empty [] with pc := 0 } : State τ) = _
    rw [hland]
    unfold arrive State.embed
    dsimp only
    rw [hs, hhandlers]
    rfl
  | suspended | faulted =>
    refine .stopped ρ (hs ▸ nofun) (hs ▸ nofun) ?_
    rw [State.land_of_ne (hs ▸ nofun)]
    rfl

/-- Where code with copies arrives, after the code has gone on with a failure that leaves a copy. -/
theorem leads_inlined_arrive (hclosed : ∀ l, (codeOf l).Closed)
    (hsound : (arrive block rest u (outer ++ gs)).Sound)
    (hpc : u.status = .running → u.pc = 1 ∨ ∃ l ∈ Code.marks block, u.pc = l + 2)
    (hnodup : (Code.marks block').Nodup) {c c' : Code τ}
    (hstands : Code.Stands bodies block' ρ outer block c c')
    (hrest : u.pc = 1 → Code.Stands bodies block' ρ outer block rest rest')
    (hframes : Frames.Inlined bodies gs gs') :
    ∃ n x, Leads (step? codeOf) n (arrive block rest u (outer ++ gs)) x ∧
      Inlined bodies x (arrive block' rest' (u.land (seat ρ) .empty (around outer)) gs') := by
  by_cases hs : u.status = .failed
  swap
  · exact ⟨0, _, Leads.refl _ _,
      inlined_arrive hsound hpc hnodup hstands hrest hframes fun h => absurd h hs⟩
  cases hstands with
  | own hblock hrest' hsuffix =>
    exact ⟨0, _, Leads.refl _ _, inlined_arrive hsound hpc hnodup
      (.own hblock hrest' hsuffix) hrest hframes fun _ => rfl⟩
  | @copied k k' j j' m l b f _ tail hb hblock htail hsuffix hrest' =>
    have hhandlers : u.handlers = [] := hsound.failed hs
    let t : State τ := { u with status := .running, handlers := f.handlers, pc := 0 }
    have hstep : Step codeOf (arrive b.code rest u ([f] ++ gs)) (arrive f.block [] t.unwind gs) :=
      .failed hs
    have hsound' := hstep.sound hclosed hsound
    have hf := hsound.frames f (List.mem_cons_self ..)
    have hgoes : State.Goes [] t t.unwind := State.Still.unwind ⟨rfl, rfl, fun _ h => h⟩
    have hne : t.unwind.pc ≠ 1 := by
      apply pc_unwind_ne_one rfl
      intro h hh
      obtain ⟨l, -, hl⟩ := hf.handlers h hh
      rw [hl]
      exact Nat.le_add_left 2 l
    have hland : u.land (seat (Code.newName m b.code)) .empty (around [f]) =
        State.unwind { t.embed (seat id) .empty [] with
          pc := seat (Code.newName m b.code) u.pc } := by
      refine (if_pos hs).trans ?_
      unfold State.embed
      rw [hhandlers]
      simp [around, t]
      rfl
    refine ⟨1, _, Leads.single hstep.step?, ?_⟩
    rw [hland]
    cases hfh : f.handlers with
    | nil =>
      -- no handler is left
      refine .failed hsound' ?_ hframes ?_
      · unfold arrive State.unwind
        simp [t, hfh]
      · unfold arrive State.unwind State.embed
        simp [t, hfh, Status.mapPc]
    | cons h hs =>
      have hsame : State.unwind { t.embed (seat id) .empty [] with
          pc := seat (Code.newName m b.code) u.pc } = t.unwind.land (seat id) .empty [] := by
        rw [State.land_unwind rfl]
        unfold State.unwind State.embed
        simp [t, hfh]
      rw [hsame]
      show Inlined bodies (arrive f.block [] t.unwind ([] ++ gs)) _
      refine inlined_arrive hsound' (fun hr => ?_) hnodup
        (.own hblock htail ((List.suffix_append _ _).trans hsuffix)) (fun h => absurd h hne) hframes
        fun _ => rfl
      rcases hgoes.pc hr with hnext | htarget | ⟨h, hh, hpc⟩
      · exact absurd hnext hne
      · cases htarget
      · rw [hpc]
        exact .inr (hf.handlers h hh)

/-- Code with copies has finished where the code has. -/
theorem Inlined.finished (h : Inlined bodies x y) (hx : x.Finished) : y.Finished := by
  unfold Finished at hx ⊢
  cases h with
  | @runs ρ outer gs hsound hs hnodup hstands houter hframes hstate =>
    have hs' : y.state.status = .running := by
      rw [hstate]
      show x.state.status.mapPc _ = _
      rw [hs]
      rfl
    rw [hs] at hx
    rw [hs']
    obtain ⟨hrest, hclean, hempty⟩ := hx
    rw [hempty] at houter
    obtain ⟨rfl, rfl⟩ := List.append_eq_nil_iff.1 houter.symm
    dsimp only
    generalize y.rest = rest' at hstands ⊢
    generalize y.block = block' at hstands
    generalize y.frames = gs' at hframes ⊢
    rw [hrest] at hstands
    cases hstands with
    | own _ hrest' _ =>
      cases hrest'
      cases hframes
      refine ⟨rfl, ?_, rfl⟩
      rw [hstate]
      exact hclean.embed _
  | failed hsound hs hframes hstate =>
    have hs' : y.state.status = .failed := by
      rw [hstate]
      show x.state.status.mapPc _ = _
      rw [hs]
      rfl
    rw [hs] at hx
    rw [hs']
    dsimp only at hx ⊢
    rw [hx] at hframes
    generalize y.frames = gs' at hframes ⊢
    cases hframes
    rfl
  | stopped ρ hrun hfailed hstatus =>
    cases hs : x.state.status with
    | running => exact absurd hs hrun
    | failed => exact absurd hs hfailed
    | suspended =>
      rw [hs] at hx
      cases hx
    | faulted f =>
      rw [hstatus, hs]
      trivial

/-- Both come to the same outcome. -/
theorem Inlined.agrees (h : Inlined bodies x y) (hx : x.Finished) :
    x.state.outcome.Agrees y.state.outcome := by
  cases h with
  | runs _ _ _ _ _ _ hstate =>
    rw [hstate]
    exact State.agrees_embed _
  | failed _ _ _ hstate =>
    rw [hstate]
    exact State.agrees_embed _
  | stopped ρ hrun hfailed hstatus =>
    cases hs : x.state.status with
    | running => exact absurd hs hrun
    | failed => exact absurd hs hfailed
    | suspended =>
      unfold Finished at hx
      rw [hs] at hx
      cases hx
    | faulted f =>
      rw [hs] at hstatus
      unfold State.outcome
      rw [hs, hstatus]
      trivial

end Config

/-! ### Simulation -/

/-- How long a line takes at most until the code with copies goes on. -/
def Line.weight (bodies : Std.TreeMap Label (Block τ)) (line : Line τ) : Nat :=
  match line.call?.bind fun l => bodies[l]? with
  | some b => b.code.length + 2
  | none => 1

/-- How long lines take at most. -/
def Code.weight (bodies : Std.TreeMap Label (Block τ)) (c : Code τ) : Nat :=
  (c.map (Line.weight bodies)).sum

/-- How long the lines that are left take at most. -/
def Config.weight (bodies : Std.TreeMap Label (Block τ)) (x : Config τ) : Nat :=
  Code.weight bodies x.rest + (x.frames.map fun f => Code.weight bodies f.rest + 1).sum

/-- No line of a copy takes more than a step. -/
theorem Bodies.weight {codeOf : Label → Code τ} (h : Bodies bodies codeOf) {l : Nat} {b : Block τ}
    (hb : bodies[l]? = some b) : Code.weight bodies b.code = b.code.length := by
  have hlines (c : Code τ) (hc : c <:+ b.code) : Code.weight bodies c = c.length := by
    induction c with
    | nil => rfl
    | cons line c ih =>
      have hline : Line.weight bodies line = 1 := by
        unfold Line.weight
        cases hcall : line.call? with
        | none => rfl
        | some m =>
          have hmem : m ∈ Code.calls b.code := by
            obtain ⟨pre, hpre⟩ := hc
            rw [← hpre, Code.calls_append, Code.calls_cons, hcall]
            exact List.mem_append_right _ (List.mem_cons_self ..)
          rw [Option.bind_some, h.calls l b hb m hmem]
      have hrest := ih ((List.suffix_cons _ _).trans hc)
      unfold Code.weight at hrest ⊢
      rw [List.map_cons, List.sum_cons, hline, hrest, List.length_cons, Nat.add_comm]
  exact hlines b.code (List.suffix_refl _)

/-- An instruction fits into an activation that stands for others, too. -/
theorem Instr.fits_embed {i : Instr τ Label} {s : State τ} (ρ : Label → Label) (H : List Handler)
    (h : i.fits s = true) : (i.mapTargets ρ).fits (s.embed (seat ρ) .empty H) = true := by
  have hplain : (i.mapTargets ρ).isPlain = i.isPlain := by cases i <;> rfl
  have hleaves : (i.mapTargets ρ).leaves = i.leaves := by cases i <;> rfl
  unfold Instr.fits at h ⊢
  rw [hplain, hleaves]
  unfold State.embed
  cases hs : s.handlers with
  | nil =>
    rw [hs] at h
    simp_all
  | cons x xs => simp_all

namespace Config

variable {codeOf codeOf' : Label → Code τ} {x x' y : Config τ}

/-- An instruction of code with copies. -/
theorem Inlined.instr (codeOf' : Label → Code τ) {block rest block' rest' : Code τ} {s : State τ} {i : Instr τ Label}
    {outer gs gs' : List (Frame τ)} {ρ : Label → Label} (hclosed : ∀ l, (codeOf l).Closed)
    (hsound : Sound ⟨block, .instr i :: rest, s, outer ++ gs⟩) (hs : s.status = .running)
    (hfits : i.fits s = true) (hnodup : (Code.marks block').Nodup)
    (hstands : Code.Stands bodies block' ρ outer block (.instr i :: rest) rest')
    (hframes : Frames.Inlined bodies gs gs') :
    ∃ n x y, Leads (step? codeOf) n (arrive block rest (s.exec 0 i.shifted) (outer ++ gs)) x ∧
      Leads (step? codeOf') 1 ⟨block', rest', s.embed (seat ρ) .empty (around outer), gs'⟩ y ∧
      Inlined bodies x y := by
  have hstep : Step codeOf ⟨block, .instr i :: rest, s, outer ++ gs⟩
      (arrive block rest (s.exec 0 i.shifted) (outer ++ gs)) := .instr hs hfits
  obtain ⟨hhandlers, -, hpc⟩ := hsound.goes hs hfits
  obtain ⟨rest', rfl, hrest⟩ := hstands.instr (Instr.isPlain_of_fits hfits)
  obtain ⟨n, x, hn, hx⟩ := leads_inlined_arrive hclosed (hstep.sound hclosed hsound) hpc hnodup hrest
    (fun _ => hrest) hframes
  refine ⟨n, x, _, hn, Leads.single (step?_instr ?_ (Instr.fits_embed ρ _ hfits)), ?_⟩
  · show s.status.mapPc _ = _
    rw [hs]
    rfl
  · have hland := State.land_exec (f := seat ρ) (K := .empty) (H := around outer) hs
      (by rw [hsound.pc]; rfl) ((Instr.fits_shifted i s).trans hfits) 0 0
    rw [mapTargets_seat] at hland
    rw [← hland]
    exact hx

/-- An activation has come to its end. -/
theorem Inlined.back (codeOf' : Label → Code τ) {block block' rest' : Code τ} {s : State τ} {f : Frame τ}
    {outer gs gs' frames : List (Frame τ)} {ρ : Label → Label}
    (hsound : Sound ⟨f.block, f.rest, { s with handlers := f.handlers }, frames⟩)
    (hs : s.status = .running) (hhandlers : s.handlers = []) (hnodup : (Code.marks block').Nodup)
    (hstands : Code.Stands bodies block' ρ outer block [] rest') (houter : f :: frames = outer ++ gs)
    (hframes : Frames.Inlined bodies gs gs') :
    ∃ n y, Leads (step? codeOf') n ⟨block', rest', s.embed (seat ρ) .empty (around outer), gs'⟩ y ∧
      Inlined bodies ⟨f.block, f.rest, { s with handlers := f.handlers }, frames⟩ y ∧
      (n = 0 → weight bodies ⟨f.block, f.rest, { s with handlers := f.handlers }, frames⟩ <
        weight bodies ⟨block, [], s, f :: frames⟩) := by
  have hpc : s.pc = 0 := hsound.pc
  cases hstands with
  | own hblock hrest' hsuffix =>
    cases hrest'
    obtain rfl : f :: frames = gs := houter
    cases hframes with
    | @cons ρ' _ f' outer' gs gs' hnodup' hstands' hhandlers' hframes' =>
      have hembed : ({ s.embed (seat id) .empty (around ([] : List (Frame τ))) with handlers := f'.handlers } : State τ) =
          State.embed (seat ρ') .empty (around outer') { s with handlers := f.handlers } := by
        rw [hhandlers']
        exact State.embed_seat hpc hs id ρ' _ _ _
      refine ⟨1, _, Leads.single (step?_end f' ?_ ?_), ?_, nofun⟩
      · show s.status.mapPc _ = _
        rw [hs]
        rfl
      · unfold State.embed
        rw [hhandlers]
        rfl
      · exact .runs hsound hs hnodup' hstands' rfl hframes' hembed
  | @copied _ _ _ _ m _ b _ _ _ hb hblock htail hsuffix hrest' =>
    obtain ⟨rfl, rfl⟩ := List.cons.inj houter
    refine ⟨0, _, Leads.refl _ _, ?_, fun _ => ?_⟩
    · refine .runs hsound hs hnodup (.own hblock htail ((List.suffix_append _ _).trans hsuffix)) rfl
        hframes ?_
      refine State.embed_seat_eq hpc hs ?_
      rw [hhandlers, around_singleton]
      exact (List.append_nil _).symm
    · unfold weight
      simp [Code.weight]

/-- A subroutine is called, or its copy is entered. -/
theorem Inlined.call {block block' rest rest' : Code τ} {s : State τ} {l : Label}
    {outer gs gs' : List (Frame τ)} {ρ : Label → Label} (hbodies : Bodies bodies codeOf)
    (hcode : ∀ l : Nat, bodies[l]? = none →
      (∃ k k', Code.Inlines bodies k (codeOf l) (codeOf' l) k') ∧ (Code.marks (codeOf' l)).Nodup)
    (hsound : Sound ⟨codeOf l, codeOf l, { s with handlers := [] },
      ⟨block, rest, s.handlers⟩ :: (outer ++ gs)⟩)
    (hs : s.status = .running) (hnodup : (Code.marks block').Nodup)
    (hstands : Code.Stands bodies block' ρ outer block (.instr (.call l) :: rest) rest')
    (hframes : Frames.Inlined bodies gs gs') :
    ∃ n y, Leads (step? codeOf') n ⟨block', rest', s.embed (seat ρ) .empty (around outer), gs'⟩ y ∧
      Inlined bodies ⟨codeOf l, codeOf l, { s with handlers := [] },
        ⟨block, rest, s.handlers⟩ :: (outer ++ gs)⟩ y ∧
      (n = 0 → weight bodies ⟨codeOf l, codeOf l, { s with handlers := [] },
          ⟨block, rest, s.handlers⟩ :: (outer ++ gs)⟩ <
        weight bodies ⟨block, .instr (.call l) :: rest, s, outer ++ gs⟩) := by
  have hpc : s.pc = 0 := hsound.pc
  -- a call that is left: the activation that calls stands for those that it stood for
  have hcalls (rest'' : Code τ) (hnone : bodies[l]? = none)
      (hrest' : rest' = .instr (.call l) :: rest'')
      (hstands : Code.Stands bodies block' ρ outer block rest rest'') :
      ∃ y, Leads (step? codeOf') 1 ⟨block', rest', s.embed (seat ρ) .empty (around outer), gs'⟩ y ∧
        Inlined bodies ⟨codeOf l, codeOf l, { s with handlers := [] },
          ⟨block, rest, s.handlers⟩ :: (outer ++ gs)⟩ y := by
    obtain ⟨⟨k, k', hinlines⟩, hnodup'⟩ := hcode l hnone
    rw [hrest']
    refine ⟨_, Leads.single (step?_call l ?_), ?_⟩
    · show s.status.mapPc _ = _
      rw [hs]
      rfl
    · have hown : Code.Stands bodies (codeOf' l) id [] (codeOf l) (codeOf l) (codeOf' l) :=
        .own hinlines hinlines (List.suffix_refl _)
      exact .runs hsound hs hnodup' hown rfl (.cons hnodup hstands rfl hframes)
        (State.embed_seat hpc hs ρ id [] _ _)
  cases hstands with
  | @own _ _ k _ _ _ _ hblock hrest' hsuffix =>
    cases hrest' with
    | line hnone hrest' =>
      obtain ⟨y, hy, hxy⟩ := hcalls _ hnone rfl
        (.own hblock hrest' ((List.suffix_cons _ _).trans hsuffix))
      exact ⟨1, y, hy, hxy, nofun⟩
    | @copy _ _ _ _ _ b hb hrest' =>
      have hcodeOf := hbodies.code l b hb
      refine ⟨0, _, Leads.refl _ _, ?_, fun _ => ?_⟩
      · rw [hcodeOf] at hsound ⊢
        have hcopied : Code.Stands bodies block' (Code.newName k b.code) [⟨block, rest, s.handlers⟩]
            b.code b.code _ := .copied hb hblock hrest' hsuffix (List.suffix_refl _)
        refine .runs hsound hs hnodup hcopied rfl hframes ?_
        refine State.embed_seat_eq hpc hs ?_
        rw [around_singleton]
        exact List.append_nil _
      · have hweight := hbodies.weight hb
        have hline : Line.weight bodies (.instr (.call l) : Line τ) = b.code.length + 2 := by
          unfold Line.weight Line.call?
          simp only [Option.bind_some, hb]
        unfold weight
        simp only [Code.weight, List.map_cons, List.sum_cons, hcodeOf, hline] at hweight ⊢
        omega
  | @copied _ _ _ _ m _ b f _ tail hb hblock htail hsuffix hrest' =>
    have hmem : l ∈ Code.calls b.code := by
      obtain ⟨pre, hpre⟩ := hrest'
      rw [← hpre, Code.calls_append]
      exact List.mem_append_right _ (List.mem_cons_self ..)
    have hname : Code.newName m b.code l = l :=
      Code.newName_of_not_mem (hbodies.marks _ b hb l hmem)
    have hline : Line.renamed (Code.newName m b.code) (.instr (.call l) : Line τ) =
        .instr (.call l) := congrArg (fun l => Line.instr (Instr.call l)) hname
    obtain ⟨y, hy, hxy⟩ := hcalls _ (hbodies.calls _ b hb l hmem) (congrArg (· :: _) hline)
      (.copied hb hblock htail hsuffix ((List.suffix_cons _ _).trans hrest'))
    exact ⟨1, y, hy, hxy, nofun⟩

/-- A failure goes on in the activations that wait. -/
theorem Inlined.unwind (codeOf' : Label → Code τ) {block rest : Code τ} {s : State τ} {f : Frame τ} {frames : List (Frame τ)}
    {y : Config τ} (hclosed : ∀ l, (codeOf l).Closed)
    (hsound : Sound ⟨block, rest, s, f :: frames⟩) (hs : s.status = .failed)
    (hframes : Frames.Inlined bodies (f :: frames) y.frames)
    (hstate : y.state = s.embed (seat id) .empty []) :
    ∃ n x y', Leads (step? codeOf) n (arrive f.block []
        (State.unwind { s with status := .running, handlers := f.handlers }) frames) x ∧
      Leads (step? codeOf') 1 y y' ∧ Inlined bodies x y' := by
  have hpc : s.pc = 0 := hsound.pc
  have hf := hsound.frames f (List.mem_cons_self ..)
  have hstep : Step codeOf ⟨block, rest, s, f :: frames⟩ _ := .failed hs
  have hsound' := hstep.sound hclosed hsound
  obtain ⟨block', rest', s', frames'⟩ := y
  dsimp only at hframes hstate
  cases hframes with
  | @cons ρ _ f' outer gs gs' hnodup hstands hhandlers hframes =>
    let t : State τ := { s with status := .running, handlers := f.handlers }
    have hgoes : State.Goes [] t t.unwind := State.Still.unwind ⟨rfl, rfl, fun _ h => h⟩
    have hne : t.unwind.pc ≠ 1 := by
      apply pc_unwind_ne_one (s := t) hpc
      intro h hh
      obtain ⟨l, -, hl⟩ := hf.handlers h hh
      rw [hl]
      exact Nat.le_add_left 2 l
    have hland : t.unwind.land (seat ρ) .empty (around outer) =
        State.unwind { s' with status := .running, handlers := f'.handlers } := by
      rw [State.land_unwind rfl, hstate, hhandlers]
      unfold State.embed
      simp only [t, hpc, place_zero, Status.mapPc]
      rfl
    have hat (hr : t.unwind.status = .running) :
        t.unwind.pc = 1 ∨ ∃ l ∈ Code.marks f.block, t.unwind.pc = l + 2 := by
      rcases hgoes.pc hr with hnext | htarget | ⟨h, hh, hat⟩
      · exact absurd (hnext.trans (congrArg (· + 1) hpc)) hne
      · cases htarget
      · exact .inr (hat ▸ hf.handlers h hh)
    have hnext (h : t.unwind.pc = 1) : Code.Stands bodies f'.block ρ outer f.block [] [] :=
      absurd h hne
    obtain ⟨n, x, hn, hx⟩ := leads_inlined_arrive hclosed hsound' hat hnodup hstands hnext hframes
    refine ⟨n, x, _, hn, Leads.single (step?_failed f' ?_), ?_⟩
    · rw [hstate]
      show s.status.mapPc _ = _
      rw [hs]
      rfl
    · rw [← hland]
      exact hx

/-- Code with copies runs through the same states. -/
theorem inlined_simulates (hbodies : Bodies bodies codeOf) (hclosed : ∀ l, (codeOf l).Closed)
    (hcode : ∀ l : Nat, bodies[l]? = none →
      (∃ k k', Code.Inlines bodies k (codeOf l) (codeOf' l) k') ∧ (Code.marks (codeOf' l)).Nodup) :
    Simulates (step? codeOf) (step? codeOf') (Inlined bodies) (weight bodies) := by
  intro x x' y h hstep
  cases h with
  | @runs ρ outer gs hsound hs hnodup hstands houter hframes hstate =>
    have hret : .instr .ret ∉ x.rest := fun hmem => hsound.closed.noRet (hsound.suffix.subset hmem)
    have hstep := Step.of_step? hstep hret
    have hsound' := hstep.sound hclosed hsound
    obtain ⟨block', rest', s', gs'⟩ := y
    dsimp only at hnodup hstands hframes hstate
    subst hstate
    cases hstep with
    | back _ hhandlers =>
      dsimp only at hstands houter
      obtain ⟨n, y, hy, hxy, hrank⟩ := Inlined.back codeOf' hsound' hs hhandlers hnodup hstands
        houter hframes
      exact ⟨0, n, _, y, Leads.refl _ _, hy, hxy, hrank⟩
    | @mark block rest s l frames _ =>
      dsimp only at hstands houter ⊢
      obtain ⟨rest'', rfl, hrest⟩ := hstands.mark
      refine ⟨0, 1, _, _, Leads.refl _ _, Leads.single (step?_mark _ ?_), ?_, nofun⟩
      · show Status.mapPc _ _ = _
        rw [hs]
        rfl
      · refine .runs hsound' hs hnodup ?_ houter hframes rfl
        exact hrest
    | call _ =>
      dsimp only at houter
      subst houter
      obtain ⟨n, y, hy, hxy, hrank⟩ := Inlined.call hbodies hcode hsound' hs hnodup hstands hframes
      exact ⟨0, n, _, y, Leads.refl _ _, hy, hxy, hrank⟩
    | instr _ hfits =>
      dsimp only at houter
      subst houter
      obtain ⟨n, x, y, hn, hy, hxy⟩ := Inlined.instr codeOf' hclosed hsound hs hfits hnodup hstands
        hframes
      exact ⟨n, 1, x, y, hn, hy, hxy, nofun⟩
    | failed hfailed => exact absurd (hs.symm.trans hfailed) nofun
  | failed hsound hs hframes hstate =>
    obtain ⟨block, rest, s, frames⟩ := x
    cases frames with
    | nil =>
      unfold step? at hstep
      dsimp only at hs hstep
      rw [hs] at hstep
      cases hstep
    | cons f frames =>
      rw [step?_failed f hs] at hstep
      cases hstep
      obtain ⟨n, x, y', hn, hy, hxy⟩ := Inlined.unwind codeOf' hclosed hsound hs hframes hstate
      exact ⟨n, 1, x, y', hn, hy, hxy, nofun⟩
  | stopped ρ hrun hfailed hstatus =>
    have hnone : step? codeOf x = none := by
      unfold step?
      split
      · rename_i hs
        exact absurd hs hrun
      · rename_i hs
        exact absurd hs hfailed
      · rfl
    rw [hnone] at hstep
    cases hstep

end Config

end ParserMachine
