import ParserMachine.Proofs.Machine.Embedding
import ParserMachine.Proofs.Machine.Invariant
import ParserMachine.Proofs.Machine.Runs

/-!
# Activations in one program

A program holds the blocks of an assembly one after another (`Program.At`), and keeps on one stack
the positions to return to and in one list the handlers of all activations (`Program.Waits`), above those
that were there before (`Around`). So it simulates the machine that runs block by block (`Program.simulates`):
a mark takes no step, and a failure goes at once to the handler that the activations look for one by one.
-/

namespace ParserMachine

variable {τ : Type} [Token τ]

namespace Program

/-- The lines of code, up to the end of its block at `stop`, stand in the program from a position on, with
labels at `pos`; the labels that it calls are good. -/
def At (p : Program τ) (pos : Label → Nat) (good : Label → Prop) (stop : Nat) : Nat → Code τ → Prop
  | q, [] => q = stop ∧ p.code[q]? = some .ret
  | q, .mark l :: rest => pos l = q ∧ At p pos good stop q rest
  | q, .instr i :: rest =>
    p.code[q]? = some (i.mapTargets pos) ∧ (∀ l ∈ Line.call? (.instr i), good l) ∧
      At p pos good stop (q + 1) rest

variable {p : Program τ} {pos : Label → Nat} {good : Label → Prop} {q stop : Nat}

theorem At.le {c : Code τ} (h : p.At pos good stop q c) : q ≤ stop := by
  induction c generalizing q with
  | nil => exact Nat.le_of_eq h.1
  | cons line c ih =>
    cases line with
    | mark m => exact ih h.2
    | instr i => exact Nat.le_of_succ_le (ih h.2.2)

/-- After a mark, the code stands at the position of the label. -/
theorem At.after {c : Code τ} {l : Label} (h : p.At pos good stop q c) (hl : l ∈ Code.marks c) :
    p.At pos good stop (pos l) (Code.after l c) := by
  induction c generalizing q with
  | nil => cases hl
  | cons line c ih =>
    cases line with
    | instr i => exact ih h.2.2 hl
    | mark m =>
      obtain ⟨hpos, hrest⟩ := h
      unfold Code.after
      by_cases hml : m = l
      · rw [if_pos hml, ← hml, hpos]
        exact hrest
      · rw [if_neg hml]
        exact ih hrest ((List.mem_cons.1 hl).resolve_left (Ne.symm hml))

/-- Handlers in the program. -/
def placeHandlers (pos : Label → Nat) (calls : Nat) (handlers : List Handler) : List Handler :=
  handlers.map (Handler.embed (place pos 0) calls)

end Program

/-- What there is around code that runs in a program. -/
structure Around where
  /-- The positions to return to that were there before. -/
  calls : Stack Nat
  /-- The handlers that were there before. -/
  handlers : List Handler
  /-- Where the code ends. -/
  stop : Nat

/-- The code has run to its end, with its calls returned, or is left for a handler around it. -/
def Around.Left (A : Around) (S : State τ) : Prop :=
  S.pc = A.stop ∧ S.calls.height = A.calls.height ∨ S.handlers.length < A.handlers.length

namespace Program

variable {p : Program τ} {pos : Label → Nat} {good : Label → Prop} {A : Around}

/-- The positions to return to and the handlers of the activations that wait, for one that ends at a position. -/
inductive Waits (p : Program τ) (pos : Label → Nat) (good : Label → Prop) (A : Around) :
    List (Frame τ) → Nat → Stack Nat → List Handler → Prop where
  /-- No activation waits. -/
  | nil : Waits p pos good A [] A.stop A.calls A.handlers
  /-- One waits upon others. -/
  | cons {f : Frame τ} {frames : List (Frame τ)} {K : Stack Nat} {H : List Handler}
    {base q stop stop' : Nat} : f.Sound → p.At pos good stop base f.block → p.At pos good stop q f.rest →
    Waits p pos good A frames stop K H →
    Waits p pos good A (f :: frames) stop' (K.push q) (placeHandlers pos K.height f.handlers ++ H)

/-- An activation runs in the program. -/
structure Runs (p : Program τ) (pos : Label → Nat) (good : Label → Prop) (A : Around) (x : Config τ)
    (S : State τ) : Prop where
  /-- The activation is sound. -/
  sound : x.Sound
  /-- It can go on. -/
  status : x.state.status = .running
  /-- Its block stands somewhere, what is left stands where the program is, and the state is that of the
  activation upon those that wait. -/
  state : ∃ base stop K H, p.At pos good stop base x.block ∧ p.At pos good stop S.pc x.rest ∧
    p.Waits pos good A x.frames stop K H ∧ S = x.state.embed (place pos S.pc) K H

section Waits

variable {frames : List (Frame τ)} {stop : Nat} {K : Stack Nat} {H : List Handler}

theorem Waits.handlers_suffix (h : p.Waits pos good A frames stop K H) : A.handlers <:+ H := by
  induction h with
  | nil => exact List.suffix_refl _
  | cons _ _ _ _ ih => exact ih.trans (List.suffix_append _ _)

theorem Waits.calls_suffix (h : p.Waits pos good A frames stop K H) : A.calls.toList <:+ K.toList := by
  induction h with
  | nil => exact List.suffix_refl _
  | cons _ _ _ _ ih => exact ih.trans (List.suffix_cons _ _)

/-- Code that runs has not been left where an activation waits, or where not all of it has run. -/
theorem Waits.not_left (h : p.Waits pos good A frames stop K H) {S : State τ} (hcalls : S.calls = K)
    (hhandlers : H <:+ S.handlers) (hpc : S.pc < stop ∨ frames ≠ []) : ¬ A.Left S := by
  have hlength := (h.handlers_suffix.trans hhandlers).length_le
  rintro (⟨hstop, hheight⟩ | hfewer)
  · cases h with
    | nil =>
      have hlt := hpc.resolve_right fun hne => hne rfl
      omega
    | @cons _ _ K _ _ q _ _ _ _ _ hwaits =>
      have hle := hwaits.calls_suffix.length_le
      rw [hcalls, Stack.height_eq, Stack.height_eq] at hheight
      have hpush : (K.push q).toList.length = K.toList.length + 1 := rfl
      omega
  · omega

end Waits

/-- Where the activation has its handlers does not depend on where it is. -/
theorem map_embed_place {block : Code τ} {handlers : List Handler} (h : block.Holds handlers)
    (q n : Nat) : handlers.map (Handler.embed (place pos q) n) = placeHandlers pos n handlers := by
  refine List.map_congr_left fun x hx => ?_
  obtain ⟨l, -, hl⟩ := h x hx
  unfold Handler.embed
  rw [hl, place_label, place_label]

end Program

namespace Program

variable {p : Program τ} {pos : Label → Nat} {good : Label → Prop} {A : Around} {codeOf : Label → Code τ}

/-- The activations have come to a stop, and the program has left their code for a handler around it or stands
still. -/
inductive Leaves (A : Around) : Config τ → State τ → Prop where
  /-- A failure has met no handler of the activations. -/
  | failed {block rest : Code τ} {t : State τ} {q : Nat} {K : Stack Nat} (hstatus : t.status = .failed)
    (hcalls : A.calls.toList <:+ K.toList) :
    Leaves A ⟨block, rest, t, []⟩
      (State.unwind { t with status := .running, pc := q, calls := K, handlers := A.handlers })
  /-- The machine stands still for another reason, and the outcomes agree. -/
  | halted {x : Config τ} {S : State τ} (hx : x.state.status ≠ .running) (hfailed : x.state.status ≠ .failed)
    (hS : S.status ≠ .running) (houtcome : x.state.outcome.Agrees S.outcome) : Leaves A x S

theorem Leaves.step?_eq_none {x : Config τ} {S : State τ} (h : Leaves A x S) : Config.step? codeOf x = none := by
  unfold Config.step?
  cases h with
  | failed hstatus => simp only [hstatus]
  | halted hx hfailed =>
    split
    · exact absurd ‹_› hx
    · exact absurd ‹_› hfailed
    · rfl

/-- A failure without a handler looks for one in the activations that wait, where the program finds
it at once. -/
theorem Waits.leads_of_failed {frames : List (Frame τ)} {stop : Nat} {K : Stack Nat} {H : List Handler}
    (hwaits : p.Waits pos good A frames stop K H) {block rest : Code τ} {t S : State τ} (K' : Stack Nat)
    (hframes : ∀ f ∈ frames, Frame.Sound f) (hstatus : t.status = .failed) (hpc : t.pc = 0)
    (hS : S = { t with status := .running, pc := S.pc, calls := K', handlers := H })
    (hcalls : K.toList <:+ K'.toList) :
    ∃ n y, Leads (Config.step? codeOf) n ⟨block, rest, t, frames⟩ y ∧
      (p.Runs pos good A y S.unwind ∨ Leaves A y S.unwind) := by
  induction hwaits generalizing block rest t S with
  | nil =>
    refine ⟨0, _, Leads.refl _ _, .inr ?_⟩
    rw [hS]
    exact .failed hstatus hcalls
  | @cons f frames K H base q stop _ hf hbase hrest hwaits ih =>
    have hframes : ∀ g ∈ frames, Frame.Sound g := fun g hg => hframes g (List.mem_cons_of_mem _ hg)
    have hstep := @Config.step?_failed _ _ codeOf block rest t frames f hstatus
    have hK : K.toList <:+ K'.toList := (List.suffix_cons q K.toList).trans hcalls
    cases hh : f.handlers with
    | nil =>
      have hunwind : State.unwind { t with status := .running, handlers := f.handlers } =
          { t with status := .failed, handlers := [] } := by
        rw [hh]
        rfl
      rw [hunwind] at hstep
      obtain ⟨n, y, hn, hy⟩ := @ih f.block _ { t with status := .failed, handlers := [], pc := 0 }
        S hframes rfl rfl (by rw [hS, hh]; rfl) hK
      exact ⟨n + 1, y, Leads.cons hstep hn, hy⟩
    | cons h hs =>
      obtain ⟨l, hl, hpcl⟩ := hf.handlers h (by rw [hh]; exact List.mem_cons_self ..)
      -- the activation below goes on at the label of its innermost handler
      let u : State τ := { t with
        status := .running
        handlers := hs
        pc := 0
        data := t.data.lowest h.data
        calls := t.calls.lowest h.calls
        checks := t.checks.lowest h.checks }
      have hcaught : State.unwind { t with status := .running, handlers := f.handlers } =
          u.goto (l + 2) := by
        rw [hh, ← hpcl]
        rfl
      have hprogram : S.unwind =
          { t with
            status := .running
            handlers := placeHandlers pos K.height hs ++ H
            pc := pos l
            data := t.data.lowest h.data
            calls := K
            checks := t.checks.lowest h.checks } := by
        have hplace : place pos 0 h.pc = pos l := by rw [hpcl, place_label]
        have hlowest : K'.lowest K.height = K := Stack.lowest_of_suffix hK
        rw [hS, hh]
        unfold State.unwind placeHandlers
        simp only [List.map_cons, List.cons_append, Handler.embed, hplace, hlowest]
      have hin : f.block.Holds hs :=
        fun x hx => hf.handlers x (by rw [hh]; exact List.mem_cons_of_mem _ hx)
      rw [hcaught, Config.arrive_goto l rfl] at hstep
      refine ⟨1, _, Leads.single hstep, .inl ⟨⟨hf.closed, Code.after_suffix l _, hin, rfl, by rintro ⟨⟩,
        hframes⟩, rfl, base, stop, K, H, hbase, ?_, hwaits, ?_⟩⟩
      · rw [hprogram]
        exact hbase.after hl
      · rw [hprogram]
        unfold State.embed
        dsimp only
        rw [map_embed_place hin, place_zero]
        rfl

theorem Runs.running {x : Config τ} {S : State τ} (h : p.Runs pos good A x S) : S.status = .running := by
  obtain ⟨_, _, _, _, -, -, -, hS⟩ := h.state
  rw [hS]
  unfold State.embed
  rw [h.status]
  rfl

variable (codeOf) in
/-- An instruction that stays in its activation does the same in the program. -/
theorem Runs.instr {block rest : Code τ} {s S : State τ} {i : Instr τ Label}
    {frames : List (Frame τ)} (h : p.Runs pos good A ⟨block, .instr i :: rest, s, frames⟩ S)
    (hfits : i.fits s = true) :
    ∃ S', p.step? S = some S' ∧ ∃ n y,
      Leads (Config.step? codeOf) n
        (Config.arrive block rest (s.exec 0 i.shifted) frames) y ∧
      (p.Runs pos good A y S' ∨ Leaves A y S') := by
  have hrunning := h.running
  obtain ⟨hsound, hstatus, base, stop, K, H, hbase, ⟨hcode, -, hrest⟩, hwaits, hS⟩ := h
  have hs : s.status = .running := hstatus
  obtain ⟨hhandlers, hfailed, hpc⟩ := hsound.goes hs hfits
  have hnext : place pos S.pc (s.pc + 1) = place pos S.pc s.pc + 1 := by
    have hzero : s.pc = 0 := hsound.pc
    rw [hzero]
    rfl
  have hexec := State.land_exec (f := place pos S.pc) (K := K) (H := H) hs hnext
    ((Instr.fits_shifted i s).trans hfits) 0 p.size
  rw [mapTargets_shifted, ← hS] at hexec
  refine ⟨_, step?_of_code hrunning hcode, ?_⟩
  rw [← hexec]
  generalize s.exec 0 i.shifted = t at hhandlers hfailed hpc
  have hrestSuffix : rest <:+ block := (List.suffix_cons _ _).trans hsound.suffix
  have hsound' := Config.arrive_sound hsound.closed hrestSuffix hhandlers hfailed hsound.frames
  cases ht : t.status with
  | running =>
    have hland := State.land_of_running (f := place pos S.pc) (K := K) (H := H) ht
    rw [hland]
    refine ⟨0, _, Leads.refl _ _, .inl ⟨hsound', ht, base, stop, K, H, hbase, ?_, hwaits, ?_⟩⟩
    · show p.At pos good stop (place pos S.pc t.pc) (if t.pc = 1 then rest else _)
      rcases hpc ht with hone | ⟨l, hl, hlabel⟩
      · rw [if_pos hone, hone, place_one]
        exact hrest
      · rw [if_neg (by omega), hlabel, place_label]
        exact hbase.after hl
    · unfold State.embed Config.arrive
      dsimp only
      rw [map_embed_place hhandlers, map_embed_place hhandlers, place_zero, ht]
      rfl
  | failed =>
    have hland : t.land (place pos S.pc) K H =
        (State.embed (place pos S.pc) K H { t with status := .running }).unwind := if_pos ht
    rw [hland]
    refine hwaits.leads_of_failed K hsound.frames ht rfl ?_ (List.suffix_refl _)
    unfold State.embed
    dsimp only
    rw [hfailed ht]
    rfl
  | suspended | faulted g =>
    have hland := State.land_of_ne (f := place pos S.pc) (K := K) (H := H)
      (show t.status ≠ .failed by rw [ht]; nofun)
    rw [hland]
    refine ⟨0, _, Leads.refl _ _, .inr (.halted ?_ ?_ ?_ ?_)⟩
    · exact fun h => nomatch ht.symm.trans h
    · exact fun h => nomatch ht.symm.trans h
    · unfold State.embed
      simp only [ht]
      exact nofun
    · unfold State.outcome State.embed Config.arrive
      simp only [ht, Status.mapPc]
      first | exact Outcome.Agrees.refl _ | trivial

/-- At the end of an activation the program goes back to the one that waits. -/
theorem Runs.back {block : Code τ} {s S : State τ} {f : Frame τ} {frames : List (Frame τ)}
    (h : p.Runs pos good A ⟨block, [], s, f :: frames⟩ S) (hhandlers : s.handlers = [])
    (hsound : Config.Sound ⟨f.block, f.rest, { s with handlers := f.handlers }, frames⟩) :
    ¬ A.Left S ∧ ∃ S', p.step? S = some S' ∧
      p.Runs pos good A ⟨f.block, f.rest, { s with handlers := f.handlers }, frames⟩ S' := by
  obtain ⟨_, _, _, _, hbase, hrest, hwaits, hS⟩ := h.state
  have hnot : ¬ A.Left S :=
    hwaits.not_left (congrArg State.calls hS) (hS ▸ List.suffix_append _ _) (.inr (List.cons_ne_nil _ _))
  cases hwaits with
  | @cons _ _ K H base q stop _ hf hbase hq hwaits =>
    have hs : s.status = .running := h.status
    have hpc : (S.exec p.size .ret).pc = q := by
      rw [hS]
      rfl
    refine ⟨hnot, _, step?_of_code h.running hrest.2, hsound, hs, base, stop, K, H, hbase, hpc ▸ hq, hwaits, ?_⟩
    have hbelow : (K.push q).below = K := Stack.ext rfl
    have hzero : s.pc = 0 := h.sound.pc
    rw [hS]
    unfold State.embed
    dsimp only [State.exec]
    rw [hhandlers, map_embed_place hf.handlers, hbelow, hs, hzero]
    rfl

/-- A call begins an activation in the program, upon the one that makes it. -/
theorem Runs.call (hcalls : ∀ l, good l → ∃ stop, p.At pos good stop (pos l) (codeOf l)) {block rest : Code τ}
    {s S : State τ} {l : Label} {frames : List (Frame τ)}
    (h : p.Runs pos good A ⟨block, .instr (.call l) :: rest, s, frames⟩ S)
    (hsound : Config.Sound ⟨codeOf l, codeOf l, { s with handlers := [] }, ⟨block, rest, s.handlers⟩ :: frames⟩) :
    ¬ A.Left S ∧ ∃ S', p.step? S = some S' ∧
      p.Runs pos good A ⟨codeOf l, codeOf l, { s with handlers := [] }, ⟨block, rest, s.handlers⟩ :: frames⟩ S' := by
  obtain ⟨base, stop, K, H, hbase, ⟨hcode, hgood, hrest⟩, hwaits, hS⟩ := h.state
  obtain ⟨stop', hl⟩ := hcalls l (hgood l rfl)
  have hs : s.status = .running := h.status
  have hnot : ¬ A.Left S :=
    hwaits.not_left (congrArg State.calls hS) (hS ▸ List.suffix_append _ _) (.inl hrest.le)
  refine ⟨hnot, _, step?_of_code h.running hcode, hsound, hs, pos l, stop', _, _, hl, hl,
    .cons (hsound.frames _ (List.mem_cons_self ..)) hbase hrest hwaits, ?_⟩
  have hpc : s.pc = 0 := h.sound.pc
  have hhandlers : block.Holds s.handlers := h.sound.handlers
  have hexec : S.exec p.size (.call (pos l)) = { S with calls := S.calls.push (S.pc + 1), pc := pos l } := rfl
  show S.exec p.size (.call (pos l)) = _
  rw [hexec]
  unfold State.embed at hS ⊢
  dsimp only at hS ⊢
  rw [map_embed_place hhandlers, hs, hpc] at hS
  rw [hS, hs, hpc]
  rfl

/-- A step of the activations is a mark, at which the program stays where it is, or a step of the program, which has
not left the code before. -/
theorem Runs.step (hcalls : ∀ l, good l → ∃ stop, p.At pos good stop (pos l) (codeOf l))
    (hclosed : ∀ l, (codeOf l).Closed) {x y : Config τ} {S : State τ} (h : p.Runs pos good A x S)
    (hstep : Config.step? codeOf x = some y) :
    (p.Runs pos good A y S ∧ y.rest.length < x.rest.length) ∨
      ¬ A.Left S ∧ ∃ S', p.step? S = some S' ∧
        ∃ n z, Leads (Config.step? codeOf) n y z ∧ (p.Runs pos good A z S' ∨ Leaves A z S') := by
  have hret : .instr .ret ∉ x.rest := fun hmem => h.sound.closed.noRet (h.sound.suffix.subset hmem)
  have hstep := Config.Step.of_step? hstep hret
  have hsound := hstep.sound hclosed h.sound
  cases hstep with
  | back hs hhandlers =>
    obtain ⟨hnot, S', hS', hy⟩ := h.back hhandlers hsound
    exact .inr ⟨hnot, S', hS', 0, _, Leads.refl _ _, .inl hy⟩
  | mark hs =>
    obtain ⟨base, stop, K, H, hbase, hrest, hwaits, hS⟩ := h.state
    exact .inl ⟨⟨hsound, hs, base, stop, K, H, hbase, hrest.2, hwaits, hS⟩, Nat.lt_succ_self _⟩
  | call hs =>
    obtain ⟨hnot, S', hS', hy⟩ := h.call hcalls hsound
    exact .inr ⟨hnot, S', hS', 0, _, Leads.refl _ _, .inl hy⟩
  | instr hs hfits =>
    obtain ⟨S', hS', hleads⟩ := Runs.instr codeOf h hfits
    obtain ⟨_, _, _, _, _, hrest, hwaits, hS⟩ := h.state
    refine .inr ⟨hwaits.not_left (congrArg State.calls hS) ?_ (.inl hrest.2.2.le), S', hS', hleads⟩
    exact hS ▸ List.suffix_append _ _
  | failed hs => exact absurd (h.status.symm.trans hs) nofun

/-- Whatever steps as the program does until the code is left simulates the activations. -/
theorem simulates_of_step?_eq (hcalls : ∀ l, good l → ∃ stop, p.At pos good stop (pos l) (codeOf l))
    (hclosed : ∀ l, (codeOf l).Closed) {f : State τ → Option (State τ)} (hf : ∀ S, ¬ A.Left S → f S = p.step? S) :
    Simulates (Config.step? codeOf) f (fun x S => p.Runs pos good A x S ∨ Leaves A x S) fun x => x.rest.length := by
  rintro x y S (h | h) hstep
  · rcases h.step hcalls hclosed hstep with ⟨hy, hrank⟩ | ⟨hnot, S', hS', n, z, hn, hz⟩
    · exact ⟨0, 0, y, S, Leads.refl _ _, Leads.refl _ _, .inl hy, fun _ => hrank⟩
    · exact ⟨n, 1, z, S', hn, Leads.single ((hf S hnot).trans hS'), hz, nofun⟩
  · rw [h.step?_eq_none] at hstep
    cases hstep

/-- The program simulates the activations. -/
theorem simulates (hcalls : ∀ l, good l → ∃ stop, p.At pos good stop (pos l) (codeOf l))
    (hclosed : ∀ l, (codeOf l).Closed) :
    Simulates (Config.step? codeOf) p.step? (fun x S => p.Runs pos good A x S ∨ Leaves A x S)
      fun x => x.rest.length :=
  simulates_of_step?_eq hcalls hclosed fun _ _ => rfl

/-! ### Whole runs -/

/-- What a run comes to within so many steps. -/
theorem run_of_leads {n : Nat} {s t : State τ} (h : Leads p.step? n s t) (ht : p.step? t = none) :
    p.run n s = some t := by
  induction n generalizing s with
  | zero =>
    cases h
    exact run_of_step?_eq_none ht 0
  | succ n ih =>
    obtain ⟨s', hs, hn⟩ := Option.bind_eq_some_iff.1 h
    rw [run_succ_of_step? hs]
    exact ih hn

/-- A run that lasts has come to nothing yet. -/
theorem run_eq_none_of_lasts {n : Nat} {s : State τ} (h : Lasts p.step? (n + 1) s) :
    p.run n s = none := by
  induction n generalizing s with
  | zero =>
    obtain ⟨t, ht⟩ := h
    obtain ⟨s', hs, -⟩ := Option.bind_eq_some_iff.1 ht
    exact run_zero_of_step? hs
  | succ n ih =>
    obtain ⟨t, ht⟩ := h
    obtain ⟨s', hs, hn⟩ := Option.bind_eq_some_iff.1 ht
    rw [run_succ_of_step? hs]
    exact ih ⟨t, hn⟩

variable {x y : Config τ} {S : State τ}

/-- Where the outermost activation has come to its end, the last instruction goes beyond the end of the program. -/
theorem Runs.exists_end {stop : Nat} {block : Code τ} {s T : State τ}
    (h : p.Runs pos good ⟨.empty, [], stop⟩ ⟨block, [], s, []⟩ T) (hclean : s.Clean) :
    ∃ T', p.step? T = some T' ∧ p.step? T' = none ∧ T'.outcome = s.outcome ∧ T'.Clean ∧ T'.calls = .empty := by
  obtain ⟨base, stop', K, H, -, hrest, hwaits, hstate⟩ := h.state
  cases hwaits
  have hs : s.status = .running := h.status
  have hcalls : T.calls = .empty := by
    rw [hstate]
    rfl
  have hexec : T.exec p.size .ret = { T with calls := T.calls.below, pc := p.size } := by
    show { T with calls := T.calls.below, pc := T.calls.top?.getD p.size } = _
    rw [hcalls]
    rfl
  have hcleanT : T.Clean := hstate ▸ hclean.embed _
  refine ⟨_, step?_of_code h.running hrest.2, ?_, ?_, ?_, ?_⟩
  · rw [hexec]
    exact step?_eq_none_of_code (Array.getElem?_eq_none (Nat.le_refl _))
  · rw [hexec, hstate]
    unfold State.outcome State.embed
    dsimp only
    rw [hs]
    rfl
  · rw [hexec]
    exact ⟨hcleanT.data, hcleanT.handlers, hcleanT.checks⟩
  · rw [hexec, hcalls]
    rfl

/-- A run of activations that has finished is a run of the program with the same outcome. If the program
comes to its end, only the result is left on the stacks. -/
theorem ends_of_finished {stop : Nat} (h : Simulates (Config.step? codeOf) p.step?
      (fun x S => p.Runs pos good ⟨.empty, [], stop⟩ x S ∨ Leaves ⟨.empty, [], stop⟩ x S) fun x => x.rest.length)
    (hS : p.Runs pos good ⟨.empty, [], stop⟩ x S) (hx : Ends (Config.step? codeOf) x y) (hy : y.Finished) :
    ∃ n T, p.run n S = some T ∧ y.state.outcome.Agrees T.outcome ∧
      (T.status = .running → T.Clean ∧ T.calls = .empty) := by
  obtain ⟨m, T, hm, hT⟩ := h.leads_of_ends (.inl hS) hx
  have hstands (hT : T.status ≠ .running) (houtcome : y.state.outcome.Agrees T.outcome) :
      ∃ n T, p.run n S = some T ∧ y.state.outcome.Agrees T.outcome ∧
        (T.status = .running → T.Clean ∧ T.calls = .empty) :=
    ⟨m, T, run_of_leads hm (step?_eq_none_of_status hT), houtcome, fun h => absurd h hT⟩
  rcases hT with hT | @⟨_, _, t, q, K, hstatus, -⟩ | ⟨-, -, hT, houtcome⟩
  · obtain ⟨block, rest, s, frames⟩ := y
    have hs : s.status = .running := hT.status
    unfold Config.Finished at hy
    simp only [hs] at hy
    obtain ⟨rfl, hclean, rfl⟩ := hy
    obtain ⟨T', hstep, hstop, houtcome, hend⟩ := hT.exists_end hclean
    exact ⟨m + 1, T', run_of_leads (hm.trans (Leads.single hstep)) hstop, houtcome ▸ Outcome.Agrees.refl _,
      fun _ => hend⟩
  · refine hstands nofun ?_
    unfold State.outcome State.unwind
    simp only [hstatus]
    exact Outcome.Agrees.refl _
  · exact hstands hT houtcome

end Program

end ParserMachine
