import ParserMachine.Proofs.Assembly.Flows
import ParserMachine.Proofs.Machine.Noting
import ParserMachine.Proofs.Machine.Order

/-!
# Checks and handlers in a run

Where control has come by a flow, the checks of each activation are of the kinds that the flow says, and each
handler goes with a check (`Checks.Upheld`). So an error in flight is there at handlers only, and what a failure
takes from the stack of checks set no hints aside (`Checks.Upheld.unwinds`).
-/

namespace ParserMachine

variable {τ : Type} [Token τ] {bad : Unary τ → Prop} {into : Nat → Flow → Prop}

/-! ### What is kept -/

namespace ParseError

/-- The error is there and lies this far ahead. -/
def Reaches (m : Option (ParseError τ)) (n : Nat) : Prop := ∃ e ∈ m, n ≤ e.offset

theorem reaches_mergeOpt {a b : Option (ParseError τ)} {n : Nat} :
    Reaches (mergeOpt a b) n ↔ Reaches a n ∨ Reaches b n := by
  cases a with
  | none => simp [Reaches]
  | some a =>
    cases b with
    | none => simp [Reaches]
    | some b =>
      simp only [Reaches, mergeOpt, Option.mem_some_iff, exists_eq_left', offset_merge]
      omega

instance : Std.Associative (mergeOpt (τ := τ)) := ⟨mergeOpt_assoc⟩

instance : Std.Commutative (mergeOpt (τ := τ)) := ⟨mergeOpt_comm⟩

end ParseError

open ParseError

/-- The merge of the hints that checks set aside. -/
def Checks.saved : List (Check τ) → Option (ParseError τ)
  | [] => none
  | c :: cs => mergeOpt c.saved.join (saved cs)

/-- The merge of all errors that a state holds. -/
def State.pending (s : State τ) : Option (ParseError τ) :=
  mergeOpt (mergeOpt s.hints s.error) (Checks.saved s.checks.toList)

/-- What an instruction raises and records. -/
def State.noted (s : State τ) (i : Instr τ Nat) : Option (ParseError τ) := mergeOpt (s.raised i) (s.recorded i)

/-- The forms that drop errors. -/
def Unary.Forgets : Unary τ → Prop
  | .notFollowedBy | .label none | .guard _ => True
  | _ => False

/-- The forms that drop errors or say them in other words. -/
def Unary.Rewords : Unary τ → Prop
  | .notFollowedBy | .label _ | .guard _ => True
  | _ => False

/-- The forms that amend errors. -/
def Unary.Amends : Unary τ → Prop
  | .guard (.amend _) | .guard (.merge _) => True
  | _ => False

/-- The second error is what has become of the first one: without forms that drop errors it lies as far ahead,
and without forms that reword errors it is the same. -/
structure Unary.Keeps (bad : Unary τ → Prop) (m m' : Option (ParseError τ)) : Prop where
  /-- It lies as far ahead. -/
  reaches : (∀ u, Forgets u → bad u) → ∀ n, Reaches m n → Reaches m' n
  /-- It is the same. -/
  eq : (∀ u, Rewords u → bad u) → m' = m

theorem Unary.Keeps.refl (m : Option (ParseError τ)) : Keeps bad m m := ⟨fun _ _ => id, fun _ => rfl⟩

theorem Unary.Keeps.of_eq {m m' : Option (ParseError τ)} (h : m' = m) : Keeps bad m m' := by
  rw [h]
  exact .refl m

theorem Unary.Keeps.trans {m m' m'' : Option (ParseError τ)} (h : Keeps bad m m') (h' : Keeps bad m' m'') :
    Keeps bad m m'' :=
  ⟨fun hbad n hn => h'.reaches hbad n (h.reaches hbad n hn), fun hbad => (h'.eq hbad).trans (h.eq hbad)⟩

theorem Unary.Keeps.merge {m m' : Option (ParseError τ)} (h : Keeps bad m m') (a : Option (ParseError τ)) :
    Keeps bad (mergeOpt a m) (mergeOpt a m') := by
  refine ⟨fun hbad n hn => ?_, fun hbad => by rw [h.eq hbad]⟩
  rw [reaches_mergeOpt] at hn ⊢
  exact hn.imp_right (h.reaches hbad n)

/-- Of a form that occurs and drops errors nothing is asked. -/
theorem Unary.Keeps.of_forgets {u : Unary τ} (h : ¬ bad u) (hu : u.Forgets) (m m' : Option (ParseError τ)) :
    Keeps bad m m' := by
  refine ⟨fun hbad => absurd (hbad u hu) h, fun hbad => absurd (hbad u ?_) h⟩
  cases u with
  | notFollowedBy | label | guard => trivial
  | _ => exact hu

/-! ### Activations -/

/-- The return positions, the handlers and the checks of the activations, the last one first. What that one has put on
the stacks is of these kinds. -/
inductive Checks.Upheld (into : Nat → Flow → Prop) :
    List Slot → List Nat → List Handler → List (Check τ) → Prop where
  /-- Nothing is there. -/
  | start : Upheld into [] [] [] []
  /-- A subroutine was called, which returns with a value. -/
  | called {ks : List Slot} {q : Nat} {calls : List Nat} {hs : List Handler} {cs : List (Check τ)} :
    Upheld into ks calls hs cs → into q (.runs (.value :: ks)) → Upheld into [] (q :: calls) hs cs
  /-- A value was pushed. -/
  | value {ks : List Slot} {calls : List Nat} {hs : List Handler} {cs : List (Check τ)} :
    Upheld into ks calls hs cs → Upheld into (.value :: ks) calls hs cs
  /-- A span was begun. -/
  | span {ks : List Slot} {calls : List Nat} {hs : List Handler} {cs : List (Check τ)} {c : Check τ} :
    Upheld into ks calls hs cs → c.saved = none → Upheld into (.span :: ks) calls hs (c :: cs)
  /-- A handler was installed. -/
  | guard {k : Slot} {ks : List Slot} {calls : List Nat} {h : Handler} {hs : List Handler} {cs : List (Check τ)}
    {c : Check τ} : k.handles = true → Upheld into ks calls hs cs → into h.pc (.fails k ks) →
    h.calls = calls.length → h.checks = cs.length + 1 → Upheld into (k :: ks) calls (h :: hs) (c :: cs)

namespace Checks

variable {ks : List Slot} {calls : List Nat} {hs : List Handler} {cs : List (Check τ)} {hd : Handler}

theorem upheld_value : Upheld into (.value :: ks) calls hs cs ↔ Upheld into ks calls hs cs := by
  constructor
  · intro h
    cases h with
    | value h => exact h
    | guard hk => cases hk
  · exact .value

theorem upheld_values {n : Nat} : Upheld into (Slot.values n ++ ks) calls hs cs ↔ Upheld into ks calls hs cs := by
  induction n with
  | zero => exact Iff.rfl
  | succ n ih => exact upheld_value.trans ih

/-- Without handlers no hints were set aside. -/
theorem Upheld.saved_eq_none (h : Upheld into ks calls hs cs) (hnone : hs = []) : saved cs = none := by
  induction h with
  | start => rfl
  | called _ _ ih => exact ih hnone
  | value _ ih => exact ih hnone
  | span _ hc ih =>
    rw [saved, hc, ih hnone]
    rfl
  | guard => cases hnone

/-- A failure finds the check that goes with the handler, and loses none that set hints aside. -/
theorem Upheld.unwinds (h : Upheld into ks calls (hd :: hs) cs) :
    hd.calls ≤ calls.length ∧ hd.checks ≤ cs.length ∧
      ∃ k ks' c cs', cs.drop (cs.length - hd.checks) = c :: cs' ∧ saved (c :: cs') = saved cs ∧
        into hd.pc (.fails k ks') ∧ Upheld into ks' (calls.drop (calls.length - hd.calls)) hs cs' := by
  generalize hall : hd :: hs = all at h
  induction h with
  | start => cases hall
  | called _ _ ih =>
    obtain ⟨hcalls, hchecks, k, ks', c, cs', hdrop, hsaved, hinto, hupheld⟩ := ih hall
    refine ⟨Nat.le_succ_of_le hcalls, hchecks, k, ks', c, cs', hdrop, hsaved, hinto, ?_⟩
    rw [List.length_cons, Nat.succ_sub hcalls, List.drop_succ_cons]
    exact hupheld
  | value _ ih => exact ih hall
  | span _ hc ih =>
    obtain ⟨hcalls, hchecks, k, ks', c, cs', hdrop, hsaved, hinto, hupheld⟩ := ih hall
    refine ⟨hcalls, Nat.le_succ_of_le hchecks, k, ks', c, cs', ?_, ?_, hinto, hupheld⟩
    · rw [List.length_cons, Nat.succ_sub hchecks, List.drop_succ_cons]
      exact hdrop
    · rw [hsaved, Checks.saved.eq_2 _ _, hc]
      exact (none_mergeOpt _).symm
  | @guard k ks calls h hs' cs c _ hrest hinto hcalls hchecks _ =>
    cases hall
    refine ⟨Nat.le_of_eq hcalls, Nat.le_of_eq hchecks, k, ks, c, cs, ?_, rfl, hinto, ?_⟩
    · rw [hchecks, List.length_cons, Nat.sub_self, List.drop_zero]
    · rw [hcalls, Nat.sub_self, List.drop_zero]
      exact hrest

end Checks

open Checks

namespace State

/-- Control has come to the state by a flow. -/
inductive Comes (into : Nat → Flow → Prop) (s : State τ) : Flow → Prop where
  /-- No error is in flight. -/
  | runs {ks : List Slot} : s.error = none →
    Upheld into ks s.calls.toList s.handlers s.checks.toList → Comes into s (.runs ks)
  /-- An error in flight lies at the cursor or ahead of it. -/
  | fails {k : Slot} {ks : List Slot} {e : ParseError τ} {c : Check τ} {rest : Stack (Check τ)} : s.error = some e →
    s.offset ≤ e.offset → s.checks = rest.push c → Upheld into ks s.calls.toList s.handlers rest.toList →
    Comes into s (.fails k ks)

/-- What holds of a state of a run. Of the merge of its errors `P` holds. -/
structure Stands (p : Program τ) (into : Nat → Flow → Prop) (P : Option (ParseError τ) → Prop) (s : State τ) :
    Prop where
  /-- Control has come to where the machine can go on, or the program has come to its end. -/
  running : s.status = .running → p.code[s.pc]? = none ∨ ∃ f, into s.pc f ∧ s.Comes into f ∧ P s.pending
  /-- A failure has an error, and no hints were left behind. -/
  failed : s.status = .failed → ∃ e, s.error = some e ∧ s.offset ≤ e.offset ∧ P (mergeOpt s.hints s.error)

namespace Stands

variable {p : Program τ} {P : Option (ParseError τ) → Prop} {s : State τ}

theorem of_comes {f : Flow} (hs : s.status = .running) (hinto : into s.pc f) (hcomes : s.Comes into f)
    (hP : P s.pending) : s.Stands p into P :=
  ⟨fun _ => .inr ⟨f, hinto, hcomes, hP⟩, fun h => absurd (h.symm.trans hs) nofun⟩

theorem mono (h : s.Stands p into P) {Q : Option (ParseError τ) → Prop} (hPQ : ∀ m, P m → Q m) :
    s.Stands p into Q := by
  refine ⟨fun hs => ?_, fun hs => ?_⟩
  · exact (h.running hs).imp_right fun ⟨f, hinto, hcomes, hP⟩ => ⟨f, hinto, hcomes, hPQ _ hP⟩
  · obtain ⟨e, he, hle, hP⟩ := h.failed hs
    exact ⟨e, he, hle, hPQ _ hP⟩

/-- Where the machine stops or waits there is nothing to show. -/
theorem of_stopped (hrunning : s.status ≠ .running) (hfailed : s.status ≠ .failed) : s.Stands p into P :=
  ⟨fun h => absurd h hrunning, fun h => absurd h hfailed⟩

theorem of_faulted {f : Fault} (h : s.status = .faulted f) : s.Stands p into P := by
  refine of_stopped (fun hs => ?_) fun hs => ?_ <;> (rw [h] at hs; cases hs)

theorem fault (s : State τ) (f : Nat → Fault) : (s.fault f).Stands p into P := of_faulted rfl

theorem suspend (s : State τ) : s.suspend.Stands p into P := by
  refine of_stopped (fun hs => ?_) fun hs => ?_ <;> cases hs

/-- An error in flight comes to a handler or is the end of the run. -/
theorem unwind {ks : List Slot} {e : ParseError τ} (hs : s.status = .running) (he : s.error = some e)
    (hle : s.offset ≤ e.offset) (h : Upheld into ks s.calls.toList s.handlers s.checks.toList)
    (hP : P s.pending) : s.unwind.Stands p into P := by
  rw [State.unwind]
  cases hhandlers : s.handlers with
  | nil =>
    refine ⟨by rintro ⟨⟩, fun _ => ⟨e, he, hle, ?_⟩⟩
    unfold pending at hP
    rwa [h.saved_eq_none hhandlers, mergeOpt_none] at hP
  | cons hd rest =>
    rw [hhandlers] at h
    obtain ⟨-, -, k, ks', c, cs', hdrop, hsaved, hinto, hupheld⟩ := h.unwinds
    have hchecks : s.checks.lowest hd.checks = (s.checks.lowest hd.checks).below.push c := by
      apply Stack.ext
      rw [Stack.toList_lowest, Stack.toList_push, Stack.toList_below, Stack.toList_lowest, hdrop]
      rfl
    refine of_comes hs hinto (.fails he hle hchecks ?_) ?_
    · rw [Stack.toList_below, Stack.toList_lowest, Stack.toList_lowest, hdrop]
      exact hupheld
    · unfold pending at hP ⊢
      rw [Stack.toList_lowest, hdrop, hsaved]
      exact hP

/-- An error is raised where none is in flight. -/
theorem fail {ks : List Slot} {e : ParseError τ} (hs : s.status = .running) (hnone : s.error = none)
    (hle : s.offset ≤ e.offset) (h : Upheld into ks s.calls.toList s.handlers s.checks.toList)
    (hP : P (mergeOpt (some e) s.pending)) : (s.fail e).Stands p into P := by
  refine unwind (s := { s with error := some e }) hs rfl hle h ?_
  have hpending : mergeOpt (some e) s.pending = State.pending { s with error := some e } := by
    unfold pending
    rw [hnone, mergeOpt_none]
    dsimp only
    ac_rfl
  exact hpending ▸ hP

end Stands

end State

end ParserMachine
