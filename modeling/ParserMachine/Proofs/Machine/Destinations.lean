import ParserMachine.Proofs.Machine.Activation

/-!
# Where instructions lead

An instruction that stays in its activation goes on with the next one, at one of its targets or at a
handler, and installs handlers only at its targets (`State.exec_goes`).
-/

namespace ParserMachine.State

variable {τ : Type} [Token τ]

/-- The second state is where the first one is, with no other handlers. -/
structure Still (s t : State τ) : Prop where
  /-- It is at the same position. -/
  pc : t.pc = s.pc
  /-- The machine can go on. -/
  status : t.status = .running
  /-- No handler is new. -/
  handlers : ∀ h ∈ t.handlers, h ∈ s.handlers

/-- What can become of a state by an instruction with the jump targets `ts`. -/
structure Goes (ts : List Nat) (s t : State τ) : Prop where
  /-- The machine goes on with the next instruction, at a target or at a handler. -/
  pc : t.status = .running → t.pc = s.pc + 1 ∨ t.pc ∈ ts ∨ ∃ h ∈ s.handlers, t.pc = h.pc
  /-- New handlers point to targets. -/
  handlers : ∀ h ∈ t.handlers, h ∈ s.handlers ∨ h.pc ∈ ts
  /-- A failure leaves no handler. -/
  failed : t.status = .failed → t.handlers = []

variable {s t : State τ} {ts : List Nat}

theorem Still.next (h : s.Still t) : s.Goes ts t.next where
  pc _ := .inl (by rw [← h.pc]; rfl)
  handlers x hx := .inl (h.handlers x hx)
  failed hf := by
    have hs : t.next.status = .running := h.status
    rw [hs] at hf
    cases hf

theorem Still.goto (h : s.Still t) {l : Nat} (hl : l ∈ ts) : s.Goes ts (t.goto l) where
  pc _ := .inr (.inl hl)
  handlers x hx := .inl (h.handlers x hx)
  failed hf := by
    have hs : (t.goto l).status = .running := h.status
    rw [hs] at hf
    cases hf

theorem Still.unwind (h : s.Still t) : s.Goes ts t.unwind := by
  unfold State.unwind
  cases hh : t.handlers with
  | nil =>
    exact ⟨nofun, nofun, fun _ => rfl⟩
  | cons handler rest =>
    have hmem (x : Handler) (hx : x ∈ handler :: rest) : x ∈ s.handlers :=
      h.handlers x (by rw [hh]; exact hx)
    refine ⟨fun _ => ?_, fun x hx => ?_, fun hf => ?_⟩
    · exact .inr (.inr ⟨handler, hmem handler (List.mem_cons_self ..), rfl⟩)
    · exact .inl (hmem x (List.mem_cons_of_mem _ hx))
    · have hs : t.status = .running := h.status
      rw [hs] at hf
      cases hf

theorem Still.fail (h : s.Still t) (e : ParseError τ) : s.Goes ts (t.fail e) := by
  refine Still.unwind ⟨?_, ?_, ?_⟩
  · exact h.pc
  · exact h.status
  · exact h.handlers

theorem Still.suspend (h : s.Still t) : s.Goes ts t.suspend :=
  ⟨nofun, fun x hx => .inl (h.handlers x hx), nofun⟩

theorem Still.fault (hh : ∀ h ∈ t.handlers, h ∈ s.handlers) (g : Nat → Fault) :
    s.Goes ts (t.fault g) := ⟨nofun, fun x hx => .inl (hh x hx), nofun⟩

theorem Still.dropHandler (h : s.Still t) : s.Still t.dropHandler :=
  ⟨h.pc, h.status, fun x hx => h.handlers x (List.mem_of_mem_tail hx)⟩

theorem Still.reinstate (h : s.Still t) (saved : Option (Option (ParseError τ))) :
    s.Still (t.reinstate saved) := by
  cases saved with
  | none => exact h
  | some e => exact ⟨h.pc, h.status, h.handlers⟩

theorem Still.withValue (h : s.Still t) {k : Value τ → State τ → State τ}
    (hk : ∀ v data, s.Still { t with data } → s.Goes ts (k v { t with data })) :
    s.Goes ts (t.withValue k) := by
  unfold State.withValue
  cases t.data.pop? with
  | none => exact Still.fault h.handlers _
  | some top => exact hk top.1 top.2 ⟨h.pc, h.status, h.handlers⟩

theorem Still.withCheck (h : s.Still t) {k : Check τ → State τ → State τ}
    (hk : ∀ c checks, s.Still { t with checks } → s.Goes ts (k c { t with checks })) :
    s.Goes ts (t.withCheck k) := by
  unfold State.withCheck
  cases t.checks.pop? with
  | none => exact Still.fault h.handlers _
  | some top => exact hk top.1 top.2 ⟨h.pc, h.status, h.handlers⟩

/-- Other values, checks and errors may be there. -/
theorem Still.change (h : s.Still t) {u : State τ} (hpc : u.pc = t.pc) (hs : u.status = t.status)
    (hh : u.handlers = t.handlers) : s.Still u :=
  ⟨hpc.trans h.pc, hs.trans h.status, hh ▸ h.handlers⟩

theorem Still.emit (h : s.Still t) (out : Output τ) (v : Value τ) : s.Still (t.emit out v) := by
  cases out <;> exact h.change rfl rfl rfl

/-! ### Instructions -/

theorem Still.one (h : s.Still t) (accept : τ → Bool) (e : ExpectedSet τ) (out : Output τ) :
    s.Goes ts (t.one accept e out) := by
  unfold State.one
  split
  · split
    · refine Still.next (Still.emit (h.change ?_ ?_ ?_) out _) <;> rfl
    · exact h.fail _
  · split
    · exact h.suspend
    · exact h.fail _

theorem Still.literal (h : s.Still t) (tokens : List τ) (v : Value τ) (e : ExpectedSet τ)
    (out : Output τ) : s.Goes ts (t.literal tokens v e out) := by
  have hmoved : s.Still { t with offset := t.offset + matchLength t.input t.offset tokens } :=
    h.change rfl rfl rfl
  unfold State.literal
  dsimp only
  split
  · exact (hmoved.emit out v).next
  · split
    · exact h.suspend
    · exact hmoved.fail _

theorem Still.satisfyMany (h : s.Still t) (test : τ → Bool) (e : ExpectedSet τ) (pushes : Bool) :
    s.Goes ts (t.satisfyMany test e pushes) := by
  unfold State.satisfyMany
  dsimp only
  split
  · refine Still.suspend (h.change ?_ ?_ ?_) <;> rfl
  · cases pushes <;> refine Still.next (h.change ?_ ?_ ?_) <;> rfl

theorem Still.endOfInput (h : s.Still t) (e : ExpectedSet τ) : s.Goes ts (t.endOfInput e) := by
  unfold State.endOfInput
  split
  · exact h.fail _
  · split
    · exact h.suspend
    · exact h.next

theorem Still.dispatch (h : s.Still t) {table : List (τ × Nat)} {targets : List Nat}
    {before : List (ExpectedSet τ)} {all : ExpectedSet τ} {fallback : Option Nat}
    (htargets : ∀ l ∈ targets ++ fallback.toList, l ∈ ts) :
    s.Goes ts (t.dispatch table targets before all fallback) := by
  unfold State.dispatch
  split
  · exact h.suspend
  · split
    · split
      · rename_i e l _ hl
        refine Still.goto ?_ (htargets l (List.mem_append_left _ (List.mem_of_getElem? hl)))
        split
        · exact h
        · refine h.change ?_ ?_ ?_ <;> rfl
      · exact Still.fault h.handlers _
    · split
      · refine Still.goto (h.change ?_ ?_ ?_) (htargets _ (List.mem_append_right _ ?_)) <;> simp [hint]
      · exact h.fail _

theorem Still.checkpoint (h : s.Still t) {l : Nat} (hl : l ∈ ts) (snapshot : Bool) :
    s.Goes ts (t.checkpoint l snapshot) where
  pc _ := .inl (by rw [← h.pc]; rfl)
  handlers x hx := by
    rcases List.mem_cons.1 hx with rfl | hx
    · exact .inr hl
    · exact .inl (h.handlers x hx)
  failed hf := by
    have hs : (t.checkpoint l snapshot).status = .running := h.status
    rw [hs] at hf
    cases hf

theorem Still.leave (h : s.Still t) (rewinds : Bool) {l : Nat} (hl : l ∈ ts) :
    s.Goes ts (t.leave rewinds l) := by
  unfold State.leave
  refine h.dropHandler.withCheck fun c checks hc => ?_
  refine Still.goto (Still.reinstate (hc.change ?_ ?_ ?_) c.saved) hl <;> rfl

theorem Still.negFail (h : s.Still t) : s.Goes ts t.negFail := by
  unfold State.negFail
  split
  · exact Still.fault h.handlers _
  · split
    · exact h.suspend
    · refine Still.fail (h.dropHandler.change ?_ ?_ ?_) _ <;> rfl

theorem Still.labelOk (h : s.Still t) (name : Option String) {l : Nat} (hl : l ∈ ts) :
    s.Goes ts (t.labelOk name l) := by
  unfold State.labelOk
  refine h.dropHandler.withCheck fun c checks hc => ?_
  refine Still.goto (hc.change ?_ ?_ ?_) hl <;> rfl

theorem Still.loop (h : s.Still t) {body exit : Nat} (hbody : body ∈ ts) (hexit : exit ∈ ts) :
    s.Goes ts (t.loop body exit) := by
  unfold State.loop
  split
  · exact Still.fault h.handlers _
  · split
    · refine Still.goto (Still.reinstate (h.dropHandler.change ?_ ?_ ?_) _) hexit <;> rfl
    · refine Still.goto (h.change ?_ ?_ ?_) hbody <;> rfl

/-- A round of a repetition that has ended without a value stops the machine. -/
theorem Still.collectLoop (h : s.Still t) {body exit : Nat} (hbody : body ∈ ts)
    (hexit : exit ∈ ts) : s.Goes ts (t.collect.loop body exit) := by
  have hfaulted {u : State τ} {g : Fault} (hstatus : u.status = .faulted g)
      (hh : ∀ x ∈ u.handlers, x ∈ s.handlers) : s.Goes ts (u.loop body exit) := by
    unfold State.loop
    split
    · exact Still.fault hh _
    · split
      · rename_i c rest _ _
        have hdrop : ∀ x ∈ u.dropHandler.handlers, x ∈ s.handlers :=
          fun x hx => hh x (List.mem_of_mem_tail hx)
        obtain ⟨o, saved⟩ := c
        cases saved with
        | none =>
          refine ⟨fun hr => ?_, fun x hx => .inl (hdrop x hx), fun hf => ?_⟩
          · exact absurd (hstatus.symm.trans hr) nofun
          · exact absurd (hstatus.symm.trans hf) nofun
        | some e =>
          refine ⟨fun hr => ?_, fun x hx => .inl (hdrop x hx), fun hf => ?_⟩
          · exact absurd (hstatus.symm.trans hr) nofun
          · exact absurd (hstatus.symm.trans hf) nofun
      · refine ⟨fun hr => ?_, fun x hx => .inl (hh x hx), fun hf => ?_⟩
        · exact absurd (hstatus.symm.trans hr) nofun
        · exact absurd (hstatus.symm.trans hf) nofun
  unfold collect State.withValue
  cases t.data.pop? with
  | none => exact hfaulted rfl h.handlers
  | some top =>
    obtain ⟨v, rest⟩ := top
    dsimp only
    cases rest.pop? with
    | none => exact hfaulted rfl h.handlers
    | some top' => refine Still.loop (h.change ?_ ?_ ?_) hbody hexit <;> rfl

theorem Still.recover (h : s.Still t) : s.Goes ts t.recover := by
  unfold State.recover
  refine h.withCheck fun c checks hc => ?_
  dsimp only
  split
  · refine Still.next ((hc.reinstate c.saved).change ?_ ?_ ?_) <;> rfl
  · exact (hc.reinstate c.saved).unwind

theorem Still.rewind (h : s.Still t) : s.Goes ts t.rewind := by
  unfold State.rewind
  refine h.withCheck fun c checks hc => ?_
  refine Still.unwind (Still.reinstate (hc.change ?_ ?_ ?_) c.saved) <;> rfl

theorem Still.negSucceed (h : s.Still t) (pushes : Bool) : s.Goes ts (t.negSucceed pushes) := by
  unfold State.negSucceed
  refine h.withCheck fun c checks hc => ?_
  cases pushes <;> refine Still.next (hc.change ?_ ?_ ?_) <;> rfl

theorem Still.labelErr (h : s.Still t) (name : Option String) : s.Goes ts (t.labelErr name) := by
  unfold State.labelErr
  refine h.withCheck fun c checks hc => ?_
  refine Still.unwind (hc.change ?_ ?_ ?_) <;> rfl

theorem Still.guardErr (h : s.Still t) (mode : GuardMode τ) (pushes : Bool) :
    s.Goes ts (t.guardErr mode pushes) := by
  unfold State.guardErr
  refine h.withCheck fun c checks hc => ?_
  cases mode with
  | capture => cases pushes <;> refine Still.next (hc.change ?_ ?_ ?_) <;> rfl
  | amend g => refine Still.unwind (hc.change ?_ ?_ ?_) <;> rfl
  | merge other => refine Still.unwind (hc.change ?_ ?_ ?_) <;> rfl

theorem Still.slice (h : s.Still t) (mode : SliceMode) : s.Goes ts (t.slice mode) := by
  unfold State.slice
  refine h.withCheck fun c checks hc => ?_
  cases mode with
  | chunk => refine Still.next (hc.change ?_ ?_ ?_) <;> rfl
  | pair =>
    refine hc.withValue fun v data hv => ?_
    refine Still.next (hv.change ?_ ?_ ?_) <;> rfl

theorem Still.case (h : s.Still t) {l : Nat} (hl : l ∈ ts) : s.Goes ts (t.case l) := by
  unfold State.case
  refine h.withValue fun v data hv => ?_
  split
  · refine Still.goto (hv.change ?_ ?_ ?_) hl <;> rfl
  · refine Still.next (hv.change ?_ ?_ ?_) <;> rfl
  · exact Still.fault h.handlers _

/-- Where an instruction leads that stays in its activation. -/
theorem exec_goes {i : Instr τ Nat} (hs : s.status = .running) (hfits : i.fits s = true) (n : Nat) :
    s.Goes i.targets (s.exec n i) := by
  have h : s.Still s := ⟨rfl, hs, fun _ hx => hx⟩
  have hself (l : Nat) : l ∈ [l] := List.mem_singleton_self l
  cases i with
  | push v => refine Still.next (h.change ?_ ?_ ?_) <;> rfl
  | pop =>
    show s.Goes _ (s.withValue fun _ s => s.next)
    exact h.withValue fun v data hv => hv.next
  | map g =>
    show s.Goes _ (s.withValue fun v s => (s.push (g v)).next)
    refine h.withValue fun v data hv => ?_
    refine Still.next (hv.change ?_ ?_ ?_) <;> rfl
  | lift2 g =>
    show s.Goes _ (s.withValue fun w s => s.withValue fun v s => (s.push (g v w)).next)
    refine h.withValue fun w data hw => ?_
    refine hw.withValue fun v data hv => ?_
    refine Still.next (hv.change ?_ ?_ ?_) <;> rfl
  | newList => refine Still.next (h.change ?_ ?_ ?_) <;> rfl
  | single t e out => exact h.one _ e out
  | satisfy test e out => exact h.one test e out
  | literal tokens v e out => exact h.literal tokens v e out
  | satisfyMany test e pushes => exact h.satisfyMany test e pushes
  | eof e => exact h.endOfInput e
  | fail g => exact h.fail _
  | empty => exact h.fail _
  | expect e =>
    show s.Goes _ (s.expect e)
    unfold State.expect
    split
    · exact h.suspend
    · exact h.fail _
  | hint e => refine Still.next (h.change ?_ ?_ ?_) <;> rfl
  | call t => cases hfits
  | ret => cases hfits
  | jump t => exact h.goto (hself t)
  | case t => exact h.case (hself t)
  | dispatch table targets before all fallback => exact h.dispatch fun l hl => hl
  | checkpoint l snapshot => exact h.checkpoint (hself l) snapshot
  | commit t => exact h.leave false (hself t)
  | release t => exact h.leave false (hself t)
  | restore t => exact h.leave true (hself t)
  | negFail => exact h.negFail
  | labelOk name t => exact h.labelOk name (hself t)
  | loop body exit pushes =>
    have hbody : body ∈ [body, exit] := List.mem_cons_self ..
    have hexit : exit ∈ [body, exit] := List.mem_cons_of_mem _ (hself exit)
    cases pushes with
    | false => exact h.loop hbody hexit
    | true => exact h.collectLoop hbody hexit
  | recover => exact h.recover
  | manyDone => exact h.recover
  | rewind => exact h.rewind
  | negSucceed pushes => exact h.negSucceed pushes
  | labelErr name => exact h.labelErr name
  | guardErr mode pushes => exact h.guardErr mode pushes
  | mark => refine Still.next (h.change ?_ ?_ ?_) <;> rfl
  | slice mode => exact h.slice mode

end ParserMachine.State
