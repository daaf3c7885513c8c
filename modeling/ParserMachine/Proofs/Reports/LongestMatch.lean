import ParserMachine.Proofs.Compiling.Flows
import ParserMachine.Proofs.Compiling.Reports
import ParserMachine.Proofs.Machine.Keeping

/-!
# The longest match

A failed parse reports the merge of the errors that were noted in its run, so that the error furthest ahead wins
(`Grammar.longest_match`). An error that is survived is one that was raised before; where it is counted a second
time the lines of a fancy error may come out in another order (`Grammar.disordered_reports`).
-/

namespace ParserMachine

variable {τ : Type} [Token τ] {bad : Unary τ → Prop} {into : Nat → Flow → Prop}

open ParseError

/-! ### Errors that are survived -/

namespace Instr

variable {ι : Type} {via : ι → Flow → Prop} {f f' : Flow}

/-- Without forms that reword errors no instruction gives an error another wording. -/
theorem Passes.rewords_not {i : Instr τ ι} (h : i.Passes bad via f f') (hbad : ∀ u, Unary.Rewords u → bad u) :
    (∀ name, i ≠ .labelErr name) ∧ ∀ mode pushes, i ≠ .guardErr mode pushes := by
  refine ⟨?_, ?_⟩
  · rintro name rfl
    cases h with
    | steady hi => cases hi
    | failing hi => cases hi
    | labelErr hgood => exact hgood (hbad (.label name) .intro)
  · rintro mode pushes rfl
    cases h with
    | steady hi => cases hi
    | failing hi => cases hi
    | guardErr hgood => exact hgood (hbad (.guard mode) .intro)

end Instr

namespace State

variable {s : State τ} {f f' : Flow}

/-- What is survived is the error in flight, and there is one. -/
theorem Comes.error_of_survived {i : Instr τ Nat} (hcomes : s.Comes into f) (hpasses : i.Passes bad into f f')
    {e : ParseError τ} (he : e ∈ s.survived i) : s.error = some e := by
  have hrecover (hcomes : ∃ k ks, s.Comes into (.fails k ks)) (he : e ∈ s.survived .recover) : s.error = some e := by
    obtain ⟨k, ks, hcomes⟩ := hcomes
    cases hcomes with
    | fails herror =>
      dsimp only [survived] at he
      split at he
      · cases he
      · split at he
        · cases he
          rw [inFlight, herror]
          rfl
        · cases he
  cases hpasses with
  | recover => exact hrecover ⟨_, _, hcomes⟩ he
  | manyDone => exact hrecover ⟨_, _, hcomes⟩ he
  | steady hi => cases i <;> first | cases he | cases hi
  | failing hi => cases i <;> first | cases he | cases hi
  | _ => cases he

theorem Errors.imp {E E' H H' : ParseError τ → Prop} (h : s.Errors E H) (hE : ∀ e, E e → E' e)
    (hH : ∀ e, H e → H' e) : s.Errors E' H' :=
  ⟨fun e he => hE e (h.flying e he), fun e he => hH e (h.hinted e he), fun c hc e he => hH e (h.saved c hc e he)⟩

end State

namespace Program

variable {p : Program τ} {s : State τ}

/-- Where nothing rewords errors, an error that is survived was raised before, or was in flight when the run
began. -/
theorem FlowsBy.mem_of_survived (hflows : p.FlowsBy bad into) (hbad : ∀ u, Unary.Rewords u → bad u)
    {L : List (ParseError τ)} {m : Option (ParseError τ)} (n : Nat) (hs : s.Ordered)
    (h : s.Stands p into (Unary.Keeps bad m)) (hL : s.Errors (· ∈ L) fun _ => True) {e : ParseError τ}
    (he : e ∈ p.along State.survived n s) : e ∈ L ∨ e ∈ p.along State.raised n s := by
  have hamends : ∀ u, Unary.Amends u → bad u := fun u hu => hbad u (by cases u <;> trivial)
  induction n generalizing s L m with
  | zero => cases he
  | succ n ih =>
    cases hstep : p.step? s with
    | none =>
      rw [along_of_step?_eq_none _ hstep] at he
      cases he
    | some s' =>
      obtain ⟨hrunning, i, hi, rfl⟩ := step?_eq_some_iff.1 hstep
      rw [along_succ _ hrunning hi, List.mem_append, Option.mem_toList] at he
      rw [along_succ _ hrunning hi, List.mem_append, Option.mem_toList]
      rcases h.running hrunning with hnone | ⟨f, hinto, hcomes, -⟩
      · rw [hi] at hnone
        cases hnone
      have hreworded : (∀ e ∈ s.survived i, s.error = some e) ∧ (∀ name, i ≠ .labelErr name) ∧
          ∀ mode pushes, i ≠ .guardErr mode pushes := by
        rcases hflows.next hinto hi with ⟨rfl, -⟩ | ⟨-, f', hpasses, -⟩
        · exact ⟨nofun, nofun, nofun⟩
        · exact ⟨fun e he => hcomes.error_of_survived hpasses he, hpasses.rewords_not hbad⟩
      obtain ⟨hsurvived, hlabel, hguard⟩ := hreworded
      rcases he with he | he
      · exact .inl (hL.flying e (hsurvived e he))
      · have hnext : (s.exec p.size i).Errors (· ∈ L ++ (s.raised i).toList) fun _ => True := by
          refine (hL.imp (fun e he => List.mem_append_left _ he) fun _ => id).exec (fun _ _ _ _ => trivial) p.size i
            (fun e he => List.mem_append_right _ (Option.mem_toList.2 he)) (fun _ _ => trivial) (fun _ _ => trivial)
            (fun _ _ _ _ _ _ => trivial) (fun name h => absurd h (hlabel name))
            fun mode pushes h => absurd h (hguard mode pushes)
        have hrest := ih (hs.exec p.size i) (hflows.step hamends hs h hrunning hi) hnext he
        rw [List.mem_append, Option.mem_toList, or_assoc] at hrest
        exact hrest

end Program

/-! ### Errors with their lines in order -/

namespace ParseError

/-- The error with its lines in order, each once. -/
def sorted : ParseError τ → ParseError τ
  | trivial o u e => trivial o u e
  | fancy o ds => fancy o (SortedSet.ofList ds).toList

/-- Merges of the same errors are the same up to the order of lines, however often each error is merged. -/
theorem Sums.sorted_eq {a b : ParseError τ} {es es' : List (ParseError τ)} (ha : a.Sums es) (hb : b.Sums es')
    (hmem : ∀ e, e ∈ es ↔ e ∈ es') : a.sorted = b.sorted := by
  obtain ⟨hfar, ⟨e, he, hoffset⟩, hfancy, hdetails, hexpects, htops⟩ := hb
  simp only [← hmem] at hfar he hfancy hdetails hexpects htops
  have hab : a.offset = b.offset := by
    obtain ⟨e', he', hoffset'⟩ := ha.attained
    exact Nat.le_antisymm (hoffset' ▸ hfar e' he') (hoffset ▸ ha.furthest e he)
  have hkind : a.isTrivial = b.isTrivial := by
    have h := ha.fancy_iff
    rw [hab, ← hfancy] at h
    cases ha' : a.isTrivial <;> cases hb' : b.isTrivial <;> simp_all
  have hlines (d : Detail) : d ∈ a.details ↔ d ∈ b.details := by
    rw [ha.mem_details, hdetails, hab]
  cases a with
  | fancy o ds =>
    cases b with
    | trivial => cases hkind
    | fancy o' ds' =>
      obtain rfl : o = o' := hab
      exact congrArg (fancy o) (congrArg SortedSet.toList (SortedSet.ext fun d => by
        rw [SortedSet.mem_ofList, SortedSet.mem_ofList]
        exact hlines d))
  | trivial o u e =>
    cases b with
    | fancy => cases hkind
    | trivial o' u' e' =>
      obtain rfl : o = o' := hab
      have hexpected : e = e' := SortedSet.ext fun item => by
        have h := ha.expects_iff rfl item
        have h' := hexpects rfl item
        simp only [Expects, expected?, Option.mem_some_iff, exists_eq_left'] at h h'
        rw [h, h']
        rfl
      have hunexpected : u = u' := (ha.tops rfl).unique (htops rfl)
      rw [hexpected, hunexpected]

end ParseError

/-! ### The merge of what was noted -/

namespace ParseError

theorem reaches_mergeAll {es : List (ParseError τ)} {e : ParseError τ} (he : e ∈ es) :
    Reaches (mergeAll es) e.offset := by
  induction es with
  | nil => cases he
  | cons e' es ih =>
    rw [mergeAll_cons, reaches_mergeOpt]
    rcases List.mem_cons.1 he with rfl | he
    · exact .inl ⟨e, rfl, Nat.le_refl _⟩
    · exact .inr (ih he)

end ParseError

theorem Unary.foreign_forgets : Unary.Foreign (Unary.Forgets : Unary τ → Prop) := ⟨fun _ => id, id, fun _ => .intro⟩

theorem Unary.foreign_rewords : Unary.Foreign (Unary.Rewords : Unary τ → Prop) := ⟨fun _ => id, id, fun _ => .intro⟩

namespace Program

variable {p : Program τ} {n : Nat} {input : List τ} {e : ParseError τ} {rest : List τ}

/-- Without forms that drop errors, no error that is raised lies ahead of the one that is reported. -/
theorem FlowsBy.raised_le (hflows : p.FlowsBy Unary.Forgets into) (h : p.parse n input = some (.failed e rest))
    {r : ParseError τ} (hr : r ∈ p.along State.raised n (wholeStart input)) : r.offset ≤ e.offset := by
  obtain ⟨hkeeps, -⟩ := hflows.reports (fun u hu => by cases u <;> trivial) h
  obtain ⟨e', he', hle⟩ := hkeeps.reaches (fun _ => id) _ (reaches_mergeAll (List.mem_append_left _ hr))
  exact Option.some.inj he' ▸ hle

/-- Without forms that reword errors, the report is the merge of what was noted. -/
theorem FlowsBy.mergeAll_eq (hflows : p.FlowsBy Unary.Rewords into) (h : p.parse n input = some (.failed e rest)) :
    mergeAll (p.notedAlong n (wholeStart input)) = some e :=
  ((hflows.reports (fun u hu => by cases u <;> trivial) h).1.eq fun _ => id).symm

/-- Without forms that reword errors, those that are survived were raised before. -/
theorem FlowsBy.mem_raised_of_survived (hflows : p.FlowsBy Unary.Rewords into)
    (he : e ∈ p.along State.survived n (wholeStart input)) : e ∈ p.along State.raised n (wholeStart input) := by
  rcases hflows.mem_of_survived (fun _ => id) (L := []) n (.start input.toArray false) (hflows.begins input)
    ⟨nofun, nofun, fun _ _ _ _ => .intro⟩ he with hnone | hraised
  · cases hnone
  · exact hraised

end Program

variable {g : Grammar τ} {o : Options} {root : NodeId} {p : Program τ} {n : Nat} {input : List τ} {e : ParseError τ}
  {rest : List τ}

/-- The longest match. A parse that fails reports an error that lies as far ahead as any that was raised in its run,
unless the grammar has forms that drop errors. If it has no labels either, the report is the merge of all errors
that were raised or recorded, in any order and with any brackets. Those that were recorded when the run went on after
them had been raised, and to merge them once more changes the order of lines at most. -/
theorem Grammar.longest_match (hforgets : g.Without Unary.Forgets) (hcompile : g.compile o root = .ok p)
    (hparse : p.parse n input = some (.failed e rest)) :
    (∀ r ∈ p.along State.raised n (Program.wholeStart input), r.offset ≤ e.offset) ∧
    (g.Without Unary.Rewords → p.notedAlong n (Program.wholeStart input) ≠ [] ∧
      (∀ t : Merging τ, t.errors.Perm (p.notedAlong n (Program.wholeStart input)) → t.result = e) ∧
      (∀ r ∈ p.along State.survived n (Program.wholeStart input), r ∈ p.along State.raised n (Program.wholeStart input)) ∧
      ∀ t : Merging τ, t.errors.Perm (p.notedAlong n (Program.wholeStart input) ++
        p.along State.survived n (Program.wholeStart input)) → t.result.sorted = e.sorted) := by
  refine ⟨fun r hr => ?_, fun hrewords => ?_⟩
  · obtain ⟨into, hflows⟩ := hforgets.exists_flows Unary.foreign_forgets hcompile
    exact hflows.raised_le hparse hr
  obtain ⟨into, hflows⟩ := hrewords.exists_flows Unary.foreign_rewords hcompile
  have hmerge := hflows.mergeAll_eq hparse
  have hnoted : p.notedAlong n (Program.wholeStart input) ≠ [] := by
    intro hnil
    rw [hnil] at hmerge
    cases hmerge
  have honce (t : Merging τ) (ht : t.errors.Perm (p.notedAlong n (Program.wholeStart input))) : t.result = e :=
    Option.some.inj (t.some_result.trans ((mergeAll_perm ht).trans hmerge))
  refine ⟨hnoted, honce, fun r hr => hflows.mem_raised_of_survived hr, fun t ht => ?_⟩
  obtain ⟨s, hs⟩ := Merging.exists_errors_eq hnoted
  have hsums := s.sums
  rw [honce s (.of_eq hs), hs] at hsums
  refine t.sums.sorted_eq hsums fun r => ?_
  rw [ht.mem_iff, List.mem_append, or_iff_left_iff_imp]
  exact fun hr => List.mem_append_left _ (hflows.mem_raised_of_survived hr)

theorem Grammar.longest_match_overlapping :
    ∃ p n e rest, overlapping.compile .unoptimized 10 = .ok p ∧ p.parse n ['z'] = some (.failed e rest) ∧
      (∀ r ∈ p.along State.raised n (Program.wholeStart ['z']), r.offset ≤ e.offset) ∧
      ∀ t : Merging Char, t.errors.Perm (p.notedAlong n (Program.wholeStart ['z'])) → t.result = e := by
  have hforgets : overlapping.Without Unary.Forgets := without_of_forall (by simp [overlapping, Unary.Forgets])
  have hrewords : overlapping.Without Unary.Rewords := without_of_forall (by simp [overlapping, Unary.Rewords])
  have hends : (((overlapping.compile .unoptimized 10).toOption.bind fun p => p.parse 100 ['z']).bind
      Outcome.error?).isSome = true := by decide +kernel
  obtain ⟨e, hends⟩ := Option.isSome_iff_exists.1 hends
  obtain ⟨r, hends, he⟩ := Option.bind_eq_some_iff.1 hends
  obtain ⟨p, hp, hr⟩ := Option.bind_eq_some_iff.1 hends
  obtain ⟨rest, rfl⟩ := Outcome.eq_failed_of_error? he
  obtain ⟨hahead, hmerge⟩ := longest_match hforgets (eq_ok_of_toOption hp) hr
  exact ⟨p, 100, e, rest, eq_ok_of_toOption hp, hr, hahead, (hmerge hrewords).2.1⟩

/-- A deliberate failure with its lines out of order, and then another try that fails at once. -/
def Grammar.disordered : Grammar Char where
  nodes := #[.leaf (.fail (.message ["b", "a"])), .leaf .empty, .binary .alt 0 1]

/-- The first failure is raised and then recorded when the choice goes on. It is reported as it was raised, but merged
with itself it has its lines in order. -/
theorem Grammar.disordered_reports :
    disordered.TypeCorrect ∧ disordered.CallFree ∧ disordered.Without Unary.Rewords ∧
      ∃ p n e rest, disordered.compile .unoptimized 2 = .ok p ∧ p.parse n [] = some (.failed e rest) ∧
        ∃ t : Merging Char, t.errors = p.notedAlong n (Program.wholeStart []) ++
          p.along State.survived n (Program.wholeStart []) ∧ t.result ≠ e := by
  refine ⟨typeCorrect_of_forall (by simp [disordered]), callFree_of_forall (by simp [disordered]),
    without_of_forall (by simp [disordered, Unary.Rewords]), ?_⟩
  have hends : ((disordered.compile .unoptimized 2).toOption.bind fun p => (p.parse 100 []).bind fun r =>
      some (r.error?, p.notedAlong 100 (Program.wholeStart []), p.along State.survived 100 (Program.wholeStart []))) =
      some (some (.fancy 0 [.message "b", .message "a"]),
        [.fancy 0 [.message "b", .message "a"], .unknown 0], [.fancy 0 [.message "b", .message "a"]]) := by
    decide +kernel
  obtain ⟨p, hp, hends⟩ := Option.bind_eq_some_iff.1 hends
  obtain ⟨r, hr, hends⟩ := Option.bind_eq_some_iff.1 hends
  obtain ⟨he, hnoted, hsurvived⟩ : r.error? = some (.fancy 0 [.message "b", .message "a"]) ∧
      p.notedAlong 100 (Program.wholeStart []) = [.fancy 0 [.message "b", .message "a"], .unknown 0] ∧
      p.along State.survived 100 (Program.wholeStart []) = [.fancy 0 [.message "b", .message "a"]] := by
    simpa only [Option.some.injEq, Prod.mk.injEq] using hends
  obtain ⟨rest, rfl⟩ := Outcome.eq_failed_of_error? he
  refine ⟨p, 100, _, rest, eq_ok_of_toOption hp, hr,
    .both (.both (.one (.fancy 0 [.message "b", .message "a"])) (.one (.unknown 0)))
      (.one (.fancy 0 [.message "b", .message "a"])), ?_, by decide +kernel⟩
  rw [hnoted, hsurvived]
  rfl

end ParserMachine
