import ParserMachine.Proofs.Assembly.Targets
import ParserMachine.Proofs.Machine.Activation

/-!
# Running code inside other code

What an instruction does depends on positions only in that it goes to some of them: where positions
are renamed by `f`, return positions `K` lie below and handlers `H` are installed around, it does the
same (`State.land_exec`). A failure that no handler of the inner code catches goes on to those
around (`State.land`).
-/

namespace ParserMachine

variable {τ : Type} [Token τ]

/-- The fault at another position. -/
def Fault.mapPc (f : Nat → Nat) : Fault → Fault
  | noValue pc => noValue (f pc)
  | noCheck pc => noCheck (f pc)
  | noVerdict pc => noVerdict (f pc)
  | noTarget pc => noTarget (f pc)

/-- The status with the position of a fault renamed. -/
def Status.mapPc (f : Nat → Nat) : Status → Status
  | faulted g => faulted (g.mapPc f)
  | status => status

/-- The handler at another position, with so many return positions below. -/
def Handler.embed (f : Nat → Nat) (calls : Nat) (h : Handler) : Handler :=
  { h with pc := f h.pc, calls }

namespace State

variable {f : Nat → Nat} {K : Stack Nat} {H : List Handler} {s : State τ}

/-- The state with positions renamed, return positions below and handlers around. -/
def embed (f : Nat → Nat) (K : Stack Nat) (H : List Handler) (s : State τ) : State τ :=
  { s with
    pc := f s.pc
    status := s.status.mapPc f
    calls := K
    handlers := s.handlers.map (Handler.embed f K.height) ++ H }

/-- What is clean stays so where nothing is around. -/
theorem Clean.embed {s : State τ} (h : s.Clean) (f : Nat → Nat) : (s.embed f .empty []).Clean := by
  refine ⟨h.data, ?_, h.checks⟩
  unfold State.embed
  rw [h.handlers]
  rfl

/-- What a state comes to after an instruction: a failure goes on to the handlers around. -/
def land (f : Nat → Nat) (K : Stack Nat) (H : List Handler) (s : State τ) : State τ :=
  if s.status = .failed then (embed f K H { s with status := .running }).unwind
  else s.embed f K H

theorem land_of_ne (hs : s.status ≠ .failed) : s.land f K H = s.embed f K H := if_neg hs

theorem land_of_running (hs : s.status = .running) : s.land f K H = s.embed f K H :=
  land_of_ne (by rw [hs]; nofun)

theorem land_goto (hs : s.status ≠ .failed) (t : Nat) :
    (s.goto t).land f K H = (s.embed f K H).goto (f t) := land_of_ne hs

theorem land_next (hs : s.status = .running) (hnext : f (s.pc + 1) = f s.pc + 1) :
    s.next.land f K H = (s.embed f K H).next := by
  have hland : s.next.land f K H = s.next.embed f K H := land_of_running hs
  rw [hland]
  unfold embed next
  simp only [hnext]

theorem land_unwind (hs : s.status = .running) : s.unwind.land f K H = (s.embed f K H).unwind := by
  cases hh : s.handlers with
  | nil =>
    have hfailed : s.unwind = { s with status := .failed } := by
      unfold unwind
      rw [hh]
    have hsame : ({ s with status := .running } : State τ) = s := by rw [← hs]
    rw [hfailed]
    refine (if_pos rfl).trans ?_
    show (embed f K H { s with status := .running }).unwind = _
    rw [hsame]
  | cons h rest =>
    have hcaught : s.unwind = { s with
        handlers := rest
        pc := h.pc
        data := s.data.lowest h.data
        calls := s.calls.lowest h.calls
        checks := s.checks.lowest h.checks } := by
      unfold unwind
      rw [hh]
    rw [hcaught]
    refine (land_of_running ?_).trans ?_
    · exact hs
    · unfold unwind embed
      simp only [hh, List.map_cons, List.cons_append, Handler.embed, Stack.lowest_height]

theorem land_fail (hs : s.status = .running) (e : ParseError τ) :
    (s.fail e).land f K H = (s.embed f K H).fail e := land_unwind (s := { s with error := some e }) hs

theorem land_withValue {k k' : Value τ → State τ → State τ}
    (hk : ∀ v data, (k v { s with data }).land f K H = k' v (embed f K H { s with data })) :
    (s.withValue k).land f K H = (s.embed f K H).withValue k' := by
  have hdata : (s.embed f K H).data = s.data := rfl
  unfold withValue
  rw [hdata]
  cases s.data.pop? with
  | none => rfl
  | some top => exact hk top.1 top.2

theorem land_withCheck {k k' : Check τ → State τ → State τ}
    (hk : ∀ c checks, (k c { s with checks }).land f K H = k' c (embed f K H { s with checks })) :
    (s.withCheck k).land f K H = (s.embed f K H).withCheck k' := by
  have hchecks : (s.embed f K H).checks = s.checks := rfl
  unfold withCheck
  rw [hchecks]
  cases s.checks.pop? with
  | none => rfl
  | some top => exact hk top.1 top.2

/-! ### What instructions do -/

theorem embed_emit (out : Output τ) (v : Value τ) :
    (s.emit out v).embed f K H = (s.embed f K H).emit out v := by
  cases out <;> rfl

theorem embed_reinstate (saved : Option (Option (ParseError τ))) :
    (s.reinstate saved).embed f K H = (s.embed f K H).reinstate saved := by
  cases saved <;> rfl

theorem land_one (hs : s.status = .running) (hnext : f (s.pc + 1) = f s.pc + 1)
    (accept : τ → Bool) (e : ExpectedSet τ) (out : Output τ) :
    (s.one accept e out).land f K H = (s.embed f K H).one accept e out := by
  have hcurrent : (s.embed f K H).current? = s.current? := rfl
  unfold one
  rw [hcurrent]
  cases s.current? with
  | none =>
    dsimp only
    by_cases hmore : s.more
    · rw [if_pos hmore, if_pos (show (s.embed f K H).more = true from hmore)]
      rfl
    · rw [if_neg hmore, if_neg (show ¬(s.embed f K H).more = true from hmore)]
      exact land_fail hs _
  | some t =>
    dsimp only
    by_cases haccept : accept t
    · rw [if_pos haccept, if_pos haccept]
      have hemit := @embed_emit _ _ f K H { s with offset := s.offset + 1 } out (.tok t)
      refine (land_next ?_ ?_).trans (congrArg next hemit)
      · cases out <;> exact hs
      · cases out <;> exact hnext
    · rw [if_neg haccept, if_neg haccept]
      exact land_fail hs _

theorem land_literal (hs : s.status = .running) (hnext : f (s.pc + 1) = f s.pc + 1)
    (ts : List τ) (v : Value τ) (e : ExpectedSet τ) (out : Output τ) :
    (s.literal ts v e out).land f K H = (s.embed f K H).literal ts v e out := by
  unfold literal
  dsimp only
  have hlength : matchLength (s.embed f K H).input (s.embed f K H).offset ts =
      matchLength s.input s.offset ts := rfl
  rw [hlength]
  split
  · have hemit := @embed_emit _ _ f K H
      { s with offset := s.offset + matchLength s.input s.offset ts } out v
    refine (land_next ?_ ?_).trans (congrArg next hemit)
    · cases out <;> exact hs
    · cases out <;> exact hnext
  · by_cases hends : s.more && s.input.size ≤ s.offset + matchLength s.input s.offset ts
    · rw [if_pos hends]
      exact (if_pos hends).symm
    · rw [if_neg hends]
      refine Eq.trans ?_ (if_neg hends).symm
      refine land_fail ?_ _
      exact hs

theorem land_satisfyMany (hs : s.status = .running) (hnext : f (s.pc + 1) = f s.pc + 1)
    (test : τ → Bool) (e : ExpectedSet τ) (pushes : Bool) :
    (s.satisfyMany test e pushes).land f K H = (s.embed f K H).satisfyMany test e pushes := by
  unfold satisfyMany
  dsimp only
  by_cases hends : s.more && s.input.size ≤ spanEnd test s.input s.offset
  · rw [if_pos hends]
    exact (if_pos hends).symm
  · rw [if_neg hends]
    refine Eq.trans ?_ (if_neg hends).symm
    cases pushes with
    | true =>
      refine land_next ?_ ?_
      · exact hs
      · exact hnext
    | false =>
      refine land_next ?_ ?_
      · exact hs
      · exact hnext

theorem land_endOfInput (hs : s.status = .running) (hnext : f (s.pc + 1) = f s.pc + 1)
    (e : ExpectedSet τ) : (s.endOfInput e).land f K H = (s.embed f K H).endOfInput e := by
  have hcurrent : (s.embed f K H).current? = s.current? := rfl
  unfold endOfInput
  rw [hcurrent]
  cases s.current? with
  | some t => exact land_fail hs _
  | none =>
    dsimp only
    by_cases hmore : s.more
    · rw [if_pos hmore, if_pos (show (s.embed f K H).more = true from hmore)]
      rfl
    · rw [if_neg hmore, if_neg (show ¬(s.embed f K H).more = true from hmore)]
      exact land_next hs hnext

theorem land_expect (hs : s.status = .running) (e : ExpectedSet τ) :
    (s.expect e).land f K H = (s.embed f K H).expect e := by
  have hneeds : (s.embed f K H).needsInput = s.needsInput := rfl
  unfold expect
  rw [hneeds]
  split
  · rfl
  · exact land_fail hs _

theorem land_dispatch (hs : s.status = .running) (table : List (τ × Nat)) (targets : List Nat)
    (before : List (ExpectedSet τ)) (all : ExpectedSet τ) (fallback : Option Nat) :
    (s.dispatch table targets before all fallback).land f K H =
      (s.embed f K H).dispatch table (targets.map f) before all (fallback.map f) := by
  have hneeds : (s.embed f K H).needsInput = s.needsInput := rfl
  have hcurrent : (s.embed f K H).current? = s.current? := rfl
  have hrunning : s.status ≠ .failed := by
    rw [hs]
    nofun
  unfold dispatch
  rw [hneeds, hcurrent]
  split
  · rfl
  · cases s.current?.bind fun t => table.lookup t with
    | none =>
      cases fallback with
      | none => exact land_fail hs _
      | some t =>
        refine land_goto ?_ t
        exact hrunning
    | some k =>
      dsimp only
      rw [List.getElem?_map]
      cases before[k]? with
      | none => rfl
      | some e =>
        cases targets[k]? with
        | none => rfl
        | some t =>
          dsimp only [Option.map_some]
          split
          · exact land_goto hrunning t
          · refine land_goto ?_ t
            exact hrunning

theorem land_checkpoint (hs : s.status = .running) (hnext : f (s.pc + 1) = f s.pc + 1)
    (h : Nat) (snapshot : Bool) :
    (s.checkpoint h snapshot).land f K H = (s.embed f K H).checkpoint (f h) snapshot := by
  refine (land_of_running ?_).trans ?_
  · exact hs
  · unfold checkpoint embed
    simp only [hnext, List.map_cons, List.cons_append, Handler.embed]

theorem embed_dropHandler (hne : s.handlers ≠ []) :
    s.dropHandler.embed f K H = (s.embed f K H).dropHandler := by
  unfold dropHandler embed
  cases hh : s.handlers with
  | nil => exact absurd hh hne
  | cons h rest => rfl

theorem status_reinstate (saved : Option (Option (ParseError τ))) :
    (s.reinstate saved).status = s.status := by
  cases saved <;> rfl

theorem pc_reinstate (saved : Option (Option (ParseError τ))) :
    (s.reinstate saved).pc = s.pc := by
  cases saved <;> rfl

theorem land_leave (hs : s.status = .running) (hne : s.handlers ≠ []) (rewinds : Bool)
    (t : Nat) : (s.leave rewinds t).land f K H = (s.embed f K H).leave rewinds (f t) := by
  unfold leave
  rw [← embed_dropHandler hne]
  refine land_withCheck fun c checks => ?_
  refine (land_goto ?_ t).trans (congrArg (goto (f t)) (embed_reinstate c.saved))
  rw [status_reinstate]
  show s.status ≠ .failed
  rw [hs]
  nofun

theorem land_negFail (hs : s.status = .running) (hne : s.handlers ≠ []) :
    s.negFail.land f K H = (s.embed f K H).negFail := by
  have hchecks : (s.embed f K H).checks = s.checks := rfl
  have hneeds : (s.embed f K H).needsInput = s.needsInput := rfl
  unfold negFail
  rw [← embed_dropHandler hne, hchecks]
  cases s.checks.pop? with
  | none => rfl
  | some top =>
    obtain ⟨c, rest⟩ := top
    dsimp only
    rw [hneeds]
    by_cases hends : s.offset = c.offset && s.needsInput
    · rw [if_pos hends]
      exact (if_pos hends).symm
    · rw [if_neg hends]
      refine Eq.trans ?_ (if_neg hends).symm
      refine land_fail ?_ _
      exact hs

theorem land_labelOk (hs : s.status = .running) (hne : s.handlers ≠ []) (name : Option String)
    (t : Nat) : (s.labelOk name t).land f K H = (s.embed f K H).labelOk name (f t) := by
  unfold labelOk
  rw [← embed_dropHandler hne]
  refine land_withCheck fun c checks => ?_
  refine land_goto ?_ t
  show s.status ≠ .failed
  rw [hs]
  nofun

theorem land_loop (hs : s.status ≠ .failed) (hne : s.handlers ≠ []) (body exit : Nat) :
    (s.loop body exit).land f K H = (s.embed f K H).loop (f body) (f exit) := by
  have hchecks : (s.embed f K H).checks = s.checks := rfl
  unfold loop
  rw [← embed_dropHandler hne, hchecks]
  cases s.checks.pop? with
  | none => exact land_of_ne nofun
  | some top =>
    obtain ⟨c, rest⟩ := top
    dsimp only
    by_cases hplace : c.offset = s.offset
    · rw [if_pos hplace]
      refine Eq.trans ?_ (if_pos hplace).symm
      refine (land_goto ?_ exit).trans (congrArg (goto (f exit)) (embed_reinstate c.saved))
      rw [status_reinstate]
      exact hs
    · rw [if_neg hplace]
      refine Eq.trans ?_ (if_neg hplace).symm
      refine land_goto ?_ body
      exact hs

theorem embed_collect : s.collect.embed f K H = (s.embed f K H).collect := by
  have hdata : (s.embed f K H).data = s.data := rfl
  unfold collect withValue
  rw [hdata]
  cases s.data.pop? with
  | none => rfl
  | some top =>
    obtain ⟨v, rest⟩ := top
    dsimp only
    cases rest.pop? with
    | none => rfl
    | some top' => rfl

theorem collect_handlers : s.collect.handlers = s.handlers := by
  unfold collect withValue
  cases s.data.pop? with
  | none => rfl
  | some top =>
    obtain ⟨v, rest⟩ := top
    dsimp only
    cases rest.pop? with
    | none => rfl
    | some top' => rfl

theorem collect_status (hs : s.status ≠ .failed) : s.collect.status ≠ .failed := by
  unfold collect withValue
  cases s.data.pop? with
  | none => exact nofun
  | some top =>
    obtain ⟨v, rest⟩ := top
    dsimp only
    cases rest.pop? with
    | none => exact nofun
    | some top' => exact hs

theorem land_recover (hs : s.status = .running) (hnext : f (s.pc + 1) = f s.pc + 1) :
    s.recover.land f K H = (s.embed f K H).recover := by
  unfold recover
  refine land_withCheck fun c checks => ?_
  dsimp only
  rw [← embed_reinstate]
  have hs' : (State.reinstate c.saved { s with checks }).status = .running := by
    rw [status_reinstate]
    exact hs
  have hpc : (State.reinstate c.saved { s with checks }).pc = s.pc := pc_reinstate _
  by_cases hplace : (State.reinstate c.saved { s with checks }).offset = c.offset
  · rw [if_pos hplace]
    refine Eq.trans ?_ (if_pos hplace).symm
    refine land_next ?_ ?_
    · exact hs'
    · show f ((State.reinstate c.saved { s with checks }).pc + 1) =
        f (State.reinstate c.saved { s with checks }).pc + 1
      rw [hpc]
      exact hnext
  · rw [if_neg hplace]
    refine Eq.trans ?_ (if_neg hplace).symm
    exact land_unwind hs'

theorem land_rewind (hs : s.status = .running) : s.rewind.land f K H = (s.embed f K H).rewind := by
  unfold rewind
  refine land_withCheck fun c checks => ?_
  refine (land_unwind ?_).trans (congrArg unwind (embed_reinstate c.saved))
  rw [status_reinstate]
  exact hs

theorem land_negSucceed (hs : s.status = .running) (hnext : f (s.pc + 1) = f s.pc + 1)
    (pushes : Bool) : (s.negSucceed pushes).land f K H = (s.embed f K H).negSucceed pushes := by
  unfold negSucceed
  refine land_withCheck fun c checks => ?_
  cases pushes <;>
  · refine land_next ?_ ?_
    · exact hs
    · exact hnext

theorem land_labelErr (hs : s.status = .running) (name : Option String) :
    (s.labelErr name).land f K H = (s.embed f K H).labelErr name := by
  unfold labelErr
  refine land_withCheck fun c checks => ?_
  refine land_unwind ?_
  exact hs

theorem land_guardErr (hs : s.status = .running) (hnext : f (s.pc + 1) = f s.pc + 1)
    (mode : GuardMode τ) (pushes : Bool) :
    (s.guardErr mode pushes).land f K H = (s.embed f K H).guardErr mode pushes := by
  unfold guardErr
  refine land_withCheck fun c checks => ?_
  cases mode with
  | capture =>
    cases pushes <;>
    · refine land_next ?_ ?_
      · exact hs
      · exact hnext
  | amend g =>
    refine land_unwind ?_
    exact hs
  | merge other =>
    refine land_unwind ?_
    exact hs

theorem land_slice (hs : s.status = .running) (hnext : f (s.pc + 1) = f s.pc + 1)
    (mode : SliceMode) : (s.slice mode).land f K H = (s.embed f K H).slice mode := by
  unfold slice
  refine land_withCheck fun c checks => ?_
  cases mode with
  | chunk =>
    refine land_next ?_ ?_
    · exact hs
    · exact hnext
  | pair =>
    refine land_withValue fun v data => ?_
    refine land_next ?_ ?_
    · exact hs
    · exact hnext

theorem land_case (hs : s.status = .running) (hnext : f (s.pc + 1) = f s.pc + 1) (t : Nat) :
    (s.case t).land f K H = (s.embed f K H).case (f t) := by
  unfold case
  refine land_withValue fun v data => ?_
  cases v with
  | leftBranch w =>
    refine land_goto ?_ t
    show s.status ≠ .failed
    rw [hs]
    nofun
  | rightBranch w =>
    refine land_next ?_ ?_
    · exact hs
    · exact hnext
  | _ => exact land_of_ne nofun

/-- An instruction inside other code does what it does by itself. -/
theorem land_exec {i : Instr τ Nat} (hs : s.status = .running)
    (hnext : f (s.pc + 1) = f s.pc + 1) (hfits : i.fits s = true) (n m : Nat) :
    (s.exec n i).land f K H = (s.embed f K H).exec m (i.mapTargets f) := by
  have hrunning : s.status ≠ .failed := by
    rw [hs]
    nofun
  have hne (h : i.leaves = true) : s.handlers ≠ [] := by
    intro hnil
    unfold Instr.fits at hfits
    rw [h, hnil] at hfits
    simp at hfits
  cases i with
  | push v =>
    refine land_next ?_ ?_
    · exact hs
    · exact hnext
  | pop =>
    show (s.withValue fun _ s => s.next).land f K H = (s.embed f K H).withValue fun _ s => s.next
    refine land_withValue fun v data => ?_
    refine land_next ?_ ?_
    · exact hs
    · exact hnext
  | map g =>
    show (s.withValue fun v s => (s.push (g v)).next).land f K H =
      (s.embed f K H).withValue fun v s => (s.push (g v)).next
    refine land_withValue fun v data => ?_
    refine land_next ?_ ?_
    · exact hs
    · exact hnext
  | lift2 g =>
    show (s.withValue fun w s => s.withValue fun v s => (s.push (g v w)).next).land f K H =
      (s.embed f K H).withValue fun w s => s.withValue fun v s => (s.push (g v w)).next
    refine land_withValue fun w data => ?_
    refine land_withValue fun v data => ?_
    refine land_next ?_ ?_
    · exact hs
    · exact hnext
  | newList =>
    refine land_next ?_ ?_
    · exact hs
    · exact hnext
  | single t e out => exact land_one hs hnext _ e out
  | satisfy test e out => exact land_one hs hnext test e out
  | literal ts v e out => exact land_literal hs hnext ts v e out
  | satisfyMany test e pushes => exact land_satisfyMany hs hnext test e pushes
  | eof e => exact land_endOfInput hs hnext e
  | fail g => exact land_fail hs _
  | empty => exact land_fail hs _
  | expect e => exact land_expect hs e
  | hint e =>
    refine land_next ?_ ?_
    · exact hs
    · exact hnext
  | call t => cases hfits
  | ret => cases hfits
  | jump t => exact land_goto hrunning t
  | case t => exact land_case hs hnext t
  | dispatch table ts before all fallback =>
    rw [Instr.mapTargets_dispatch]
    exact land_dispatch hs table ts before all fallback
  | checkpoint h snapshot => exact land_checkpoint hs hnext h snapshot
  | commit t => exact land_leave hs (hne rfl) false t
  | release t => exact land_leave hs (hne rfl) false t
  | restore t => exact land_leave hs (hne rfl) true t
  | negFail => exact land_negFail hs (hne rfl)
  | labelOk name t => exact land_labelOk hs (hne rfl) name t
  | loop body exit pushes =>
    cases pushes with
    | false => exact land_loop hrunning (hne rfl) body exit
    | true =>
      show (s.collect.loop body exit).land f K H = (s.embed f K H).collect.loop (f body) (f exit)
      rw [← embed_collect]
      refine land_loop (collect_status hrunning) ?_ body exit
      rw [collect_handlers]
      exact hne rfl
  | recover => exact land_recover hs hnext
  | manyDone => exact land_recover hs hnext
  | rewind => exact land_rewind hs
  | negSucceed pushes => exact land_negSucceed hs hnext pushes
  | labelErr name => exact land_labelErr hs name
  | guardErr mode pushes => exact land_guardErr hs hnext mode pushes
  | mark =>
    refine land_next ?_ ?_
    · exact hs
    · exact hnext
  | slice mode => exact land_slice hs hnext mode

end State

/-! ### Positions of activations -/

/-- Where positions within an activation are: the current instruction at `q`, a label `l`, which
counts as `l + 2`, where it stands in the program. -/
def place (pos : Label → Nat) (q n : Nat) : Nat :=
  if n = 0 then q else if n = 1 then q + 1 else pos (n - 2)

variable {pos : Label → Nat} {q : Nat}

@[simp] theorem place_zero : place pos q 0 = q := rfl

@[simp] theorem place_one : place pos q 1 = q + 1 := rfl

@[simp] theorem place_label (l : Label) : place pos q (l + 2) = pos l := rfl

theorem mapTargets_shifted (i : Instr τ Label) :
    i.shifted.mapTargets (place pos q) = i.mapTargets pos := Instr.mapTargets_mapTargets _ _ i

end ParserMachine
