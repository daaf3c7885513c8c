import ParserMachine.Proofs.Assembly.Flows
import ParserMachine.Proofs.Compiling.Forms
import ParserMachine.Proofs.Generation.Blocks

/-!
# Flows of generated code

Control flows through the code of an expression from a place where the parser goes on to another one where the result
has been pushed, unless it is discarded, whatever lies below (`Expr.emit_carries`): what the code of a form puts around
that of its parts takes everything away that it puts there. So control flows through generated assemblies
(`Bound.Generates.carries`).
-/

namespace ParserMachine

variable {τ : Type} [Token τ] {bad : Unary τ → Prop} {l l' : Nat} {discard : Bool}

open Emit Code Slot

/-- Whatever code is written, control flows through it, and it leaves the result upon what was there, or nothing. -/
def Emit.Carries (bad : Unary τ → Prop) (discard : Bool) (m : Emit (Draft τ)) : Prop :=
  ∀ (l l' : Nat) d, m.run l = .ok (d, l') → ∀ ks, d.toCode.Carries bad (.runs ks) (.runs (result (!discard) ++ ks))

/-! ### Forms -/

section Forms

variable {ks : List Slot} {ext : List (Label × Flow)} {f f' : Flow}

/-- A value is pushed, unless the result is discarded. -/
theorem Draft.push_carries (v : Value τ) :
    (only (!discard) (.push v)).toCode.CarriesWith bad ext (.runs ks) (.runs (result (!discard) ++ ks)) := by
  cases discard with
  | true => exact .nil _
  | false => exact CarriesWith.instr (.steady rfl)

/-- A value is taken away, if the result is discarded. -/
theorem Draft.pop_carries :
    (only discard (.pop : Instr τ Label)).toCode.CarriesWith bad ext (.runs (value :: ks))
      (.runs (result (!discard) ++ ks)) := by
  cases discard with
  | true => exact CarriesWith.instr (.steady rfl)
  | false => exact .nil _

theorem Leaf.emit_carries (tgt : Target τ) (lf : Leaf τ) (discard : Bool) :
    Emit.Carries bad discard (lf.emit tgt discard) := by
  intro l l' d h ks
  cases lf with
  | call c r =>
    obtain ⟨-, rfl, hd⟩ := Leaf.of_emit_call h
    rw [hd]
    exact (CarriesWith.instr (.steady rfl)).append Draft.pop_carries
  | pure v =>
    cases h
    exact Draft.push_carries v
  | eof =>
    cases h
    rw [Draft.toCode_append]
    exact (CarriesWith.instr (.steady rfl)).append (Draft.push_carries _)
  | fail | empty =>
    cases h
    exact CarriesWith.instr (.failing rfl)
  | satisfy | single | literal =>
    cases h
    cases discard <;> exact CarriesWith.instr (.steady rfl)

/-- A part with a handler. What ends the part where it succeeds takes the check away, and what stands at the
handler either goes on or fails on. -/
theorem Draft.guarded_carries {snapshot : Bool} {part : Emit (Draft τ)} {leave : Label → Draft τ}
    {react : Instr τ Label} (hpart : Emit.Carries bad discard part) (hmarks : ∀ l, marks (leave l).toCode = [])
    (hleave : ∀ (l : Label) (ks : List Slot) (via : Label → Flow → Prop) (f : Flow),
      via l (.runs (result (!discard) ++ ks)) →
      (leave l).toCode.Flows bad via (.runs (result (!discard) ++ guard snapshot :: ks)) f)
    (hreact : ∀ (ks : List Slot) (via : Label → Flow → Prop),
      react.Passes bad via (.fails (guard snapshot) ks) (.runs (result (!discard) ++ ks))) :
    Emit.Carries bad discard (Draft.guarded snapshot part leave react) := by
  intro l l' d h ks
  obtain ⟨c, hc, hd⟩ := Draft.exists_of_guarded h
  obtain ⟨ls, hls, hflows⟩ := hpart _ _ _ hc (guard snapshot :: ks)
  rw [hd]
  refine ⟨ls ++ [(l, Flow.fails (guard snapshot) ks), (l + 1, Flow.runs (result (!discard) ++ ks))], ?_,
    .append (.append (.instr (.checkpoint ?_) (hflows.mono fun t g ht => ?_)) (hleave _ ks _ _ ?_))
      (.mark ?_ (.instr (hreact ks _) (.mark ?_ (.nil _))))⟩
  · simpa [hmarks] using hls.append_right [l, l + 1]
  all_goals simp_all

theorem Draft.repetition_carries {part : Bool → Emit (Draft τ)} (hpart : Emit.Carries bad discard (part discard)) :
    Emit.Carries bad discard (Draft.repetition discard part) := by
  intro l l' d h ks
  obtain ⟨c, hc, hd⟩ := Draft.exists_of_repetition h
  -- the list of the values so far lies below the check of the repetition
  obtain ⟨ls, hls, hflows⟩ := hpart _ _ _ hc (round :: (result (!discard) ++ ks))
  have hlist : (only (!discard) (.newList : Instr τ Label)).toCode.Carries bad (.runs ks)
      (.runs (result (!discard) ++ ks)) := by
    cases discard with
    | true => exact .nil _
    | false => exact CarriesWith.instr (.steady rfl)
  rw [hd, List.append_assoc, List.append_assoc]
  refine hlist.append ⟨(l, Flow.runs (round :: (result (!discard) ++ ks))) ::
    (ls ++ [(l + 1, Flow.fails round (result (!discard) ++ ks)), (l + 2, Flow.runs (result (!discard) ++ ks))]), ?_,
    .append (.instr (.round ?_) (.mark ?_ (.nil _))) (.append (hflows.mono fun t g ht => ?_)
      (.instr (.loop ?_ ?_) (.mark ?_ (.instr .manyDone (.mark ?_ (.nil _))))))⟩
  · simpa using (hls.append_right [l + 1, l + 2]).cons l
  all_goals simp_all

theorem Draft.branch_carries {f : Value τ → Value τ → Value τ} {p q : Bool → Emit (Draft τ)}
    (hp : Emit.Carries bad false (p false)) (hq : Emit.Carries bad false (q false)) :
    Emit.Carries bad discard (Draft.branch f p q discard) := by
  intro l l' d h ks
  obtain ⟨c, c', m, hc, hc', hd⟩ := Draft.exists_of_branch h
  obtain ⟨ls, hls, hflows⟩ := hp _ _ _ hc ks
  obtain ⟨ls', hls', hflows'⟩ := hq _ _ _ hc' (value :: ks)
  rw [hd]
  refine CarriesWith.append ⟨ls ++ (l, Flow.runs (value :: ks)) :: (ls' ++ [(l + 1, Flow.runs (value :: ks))]), ?_,
    .append (.append (.append (hflows.mono fun t g ht => ?_)
      (.instr (.case ?_) (.instr (.jump ?_) (.mark ?_ (.nil _)))))
      (hflows'.mono fun t g ht => ?_)) (.instr (.steady rfl) (.mark (f := .runs (value :: ks)) ?_ (.nil _)))⟩
    Draft.pop_carries
  · simpa using hls.append ((hls'.append_right _).cons _)
  all_goals simp_all

theorem Unary.emit_carries {tgt : Target τ} {p : Expr τ} {part : Bool → Emit (Draft τ)}
    (hpart : ∀ discard, Emit.Carries bad discard (part discard)) {u : Unary τ} (hu : ¬ bad u) (discard : Bool) :
    Emit.Carries bad discard (u.emit tgt p part discard) := by
  cases u with
  | map f =>
    intro l l' d h ks
    rw [Unary.emit, run_bind_pure_eq_ok_iff] at h
    obtain ⟨c, hc, rfl⟩ := h
    rw [Draft.toCode_append]
    refine (hpart _ _ _ _ hc ks).append ?_
    cases discard with
    | true => exact .nil _
    | false => exact CarriesWith.instr (.steady rfl)
  | lookAhead =>
    exact Draft.guarded_carries (hpart discard) (fun _ => rfl) (fun _ _ _ _ hl => .single (.restore hl))
      fun _ _ => .rewind
  | attempt =>
    exact Draft.guarded_carries (hpart discard) (fun _ => rfl) (fun _ _ _ _ hl => .single (.release hl))
      fun _ _ => .rewind
  | label name =>
    exact Draft.guarded_carries (hpart discard) (fun _ => rfl) (fun _ _ _ _ hl => .single (.labelOk hu hl))
      fun _ _ => .labelErr hu
  | guard mode =>
    cases mode with
    | capture =>
      refine Draft.guarded_carries (hpart discard) (fun _ => ?_) (fun l ks via f hl => ?_) fun _ _ =>
        .guardErr hu fun _ => rfl
      · cases discard <;> rfl
      · rw [Draft.toCode_append]
        cases discard with
        | true => exact .append (.nil _) (.single (.release (n := 0) hl))
        | false => exact .append (.single (.steady rfl)) (.single (.release (n := 1) hl))
    | amend | merge =>
      exact Draft.guarded_carries (hpart discard) (fun _ => rfl) (fun _ _ _ _ hl => .single (.release hl))
        fun _ _ => .guardErr hu fun h => by cases h
  | notFollowedBy =>
    intro l l' d h ks
    rw [Unary.emit, run_fresh_bind, run_bind_pure_eq_ok_iff] at h
    obtain ⟨c, hc, rfl⟩ := h
    obtain ⟨ls, hls, hflows⟩ := hpart _ _ _ _ hc (.guard true :: ks)
    simp only [Draft.toCode_append, Draft.toCode_lines, Draft.instr]
    refine ⟨ls ++ [(l, Flow.fails (.guard true) ks)], ?_, .append (.append (.single (.checkpoint ?_))
      (hflows.mono fun t g ht => ?_)) (.instr (.negFail hu) (.mark ?_ (.instr (.negSucceed hu) (.nil _))))⟩
    · simpa using hls.append_right [l]
    all_goals simp_all
  | many =>
    intro l l' d h ks
    rw [Unary.emit] at h
    split at h
    · cases h
      exact CarriesWith.instr (.steady rfl)
    · exact Draft.repetition_carries (hpart discard) l l' d h ks
  | chunk | matchChunk =>
    intro l l' d h ks
    rw [Unary.emit] at h
    cases discard with
    | true => exact hpart _ l l' d h ks
    | false =>
      rw [if_neg Bool.false_ne_true, run_bind_pure_eq_ok_iff] at h
      obtain ⟨c, hc, rfl⟩ := h
      rw [Draft.toCode_append, Draft.toCode_append]
      exact ((CarriesWith.instr .mark).append (hpart _ _ _ _ hc (span :: ks))).append (CarriesWith.instr .slice)

theorem SeqKind.emit_carries {p q : Bool → Emit (Draft τ)} (hp : ∀ discard, Emit.Carries bad discard (p discard))
    (hq : ∀ discard, Emit.Carries bad discard (q discard)) (kind : SeqKind τ) (discard : Bool) :
    Emit.Carries bad discard (kind.emit p q discard) := by
  intro l l' d h ks
  cases kind with
  | both f =>
    rw [SeqKind.emit, run_bind_bind_pure_eq_ok_iff] at h
    obtain ⟨c, c', m, hc, hc', rfl⟩ := h
    simp only [Draft.toCode_append]
    refine ((hp _ _ _ _ hc ks).append (hq _ _ _ _ hc' _)).append ?_
    cases discard with
    | true => exact .nil _
    | false => exact CarriesWith.instr (.steady rfl)
  | left =>
    rw [SeqKind.emit, run_bind_bind_pure_eq_ok_iff] at h
    obtain ⟨c, c', m, hc, hc', rfl⟩ := h
    rw [Draft.toCode_append]
    exact (hp _ _ _ _ hc ks).append (hq _ _ _ _ hc' _)
  | right =>
    rw [SeqKind.emit, run_bind_bind_pure_eq_ok_iff] at h
    obtain ⟨c, c', m, hc, hc', rfl⟩ := h
    rw [Draft.toCode_append]
    exact (hp _ _ _ _ hc ks).append (hq _ _ _ _ hc' _)

end Forms

/-! ### Alternatives -/

section Alternatives

variable {ks : List Slot} {ext : List (Label × Flow)}

theorem Draft.tryInOrder_carries (stop : Label) {hs : List Label} (ks : List Slot) {cs : List (Draft τ)}
    (hlength : cs.length = hs.length + 1)
    (hcs : ∀ c ∈ cs, ∀ ks, c.toCode.Carries bad (.runs ks) (.runs (result (!discard) ++ ks))) :
    ∃ ls : List (Label × Flow), (ls.map Prod.fst).Perm (marks (tryInOrder stop hs cs).toCode) ∧
      (stop, Flow.runs (result (!discard) ++ ks)) ∈ ls ∧
      (tryInOrder stop hs cs).toCode.Flows bad (fun l g => (l, g) ∈ ls) (.runs ks)
        (.runs (result (!discard) ++ ks)) := by
  induction hs generalizing cs with
  | nil =>
    obtain ⟨c, rfl⟩ := List.length_eq_one_iff.1 hlength
    obtain ⟨ls, hls, hflows⟩ := hcs c (List.mem_cons_self ..) ks
    rw [tryInOrder, toCode_append, marks_append]
    refine ⟨ls ++ [(stop, Flow.runs (result (!discard) ++ ks))], ?_, by simp,
      .append (hflows.mono fun l g hl => ?_) (.mark ?_ (.nil _))⟩
    · simpa [mark] using hls.append_right [stop]
    all_goals simp_all
  | cons h hs ih =>
    cases cs with
    | nil => cases hlength
    | cons c cs =>
      obtain ⟨ls, hls, hflows⟩ := hcs c (List.mem_cons_self ..) (guard false :: ks)
      obtain ⟨ls', hls', hmem, hflows'⟩ := ih (Nat.succ.inj hlength) fun c hc => hcs c (List.mem_cons_of_mem _ hc)
      rw [tryInOrder, toCode_append, toCode_append, toCode_append]
      refine ⟨ls ++ (h, Flow.fails (guard false) ks) :: ls', ?_, by simp [hmem], .append (.append (.append
        (.single (.checkpoint ?_)) (hflows.mono fun l g hl => ?_))
        (.instr (.commit ?_) (.mark ?_ (.single .recover)))) (hflows'.mono fun l g hl => ?_)⟩
      · simpa [instr] using hls.append (hls'.cons h)
      all_goals simp_all [result]

/-- An alternative of a table is entered at its target, and after it control goes on at the end of the
alternatives or with the fallback. -/
theorem Draft.chosen_carries {stop : Label} {fallback : Option Label} (t : Label) (handler : Option Label)
    (after : ExpectedSet τ) {c : Draft τ} (f' : Flow)
    (hc : ∀ ks, c.toCode.Carries bad (.runs ks) (.runs (result (!discard) ++ ks)))
    (hstop : (stop, Flow.runs (result (!discard) ++ ks)) ∈ ext) (hfallback : ∀ f ∈ fallback, (f, Flow.runs ks) ∈ ext) :
    ∃ ls : List (Label × Flow), (ls.map Prod.fst).Perm (marks (chosen stop fallback t handler after c).toCode) ∧
      (t, Flow.runs ks) ∈ ls ∧ (chosen stop fallback t handler after c).toCode.Flows bad
        (fun l g => (l, g) ∈ ls ++ ext) (.runs ks) f' := by
  cases handler with
  | none =>
    obtain ⟨ls, hls, hflows⟩ := hc ks
    rw [chosen, toCode_append, toCode_append]
    refine ⟨(t, Flow.runs ks) :: ls, ?_, by simp, .append (.append (.mark ?_ (.nil _)) (hflows.mono fun l g hl => ?_))
      (.single (.jump ?_))⟩
    · simpa [mark, instr] using hls.cons t
    all_goals simp_all
  | some h =>
    obtain ⟨ls, hls, hflows⟩ := hc (guard false :: ks)
    have htail : ∃ tail : Draft τ, marks tail.toCode = [] ∧ chosen stop fallback t (some h) after c =
        .lines [.mark t, .instr (.checkpoint h false)] ++ c ++
          .lines [.instr (.commit stop), .mark h, .instr .recover] ++ tail ∧
        tail.toCode.Flows bad (fun l g => (l, g) ∈ ext) (.runs ks) f' := by
      cases fallback with
      | none => exact ⟨_, rfl, rfl, .single (.failing rfl)⟩
      | some f =>
        refine ⟨_, ?_, rfl, ?_⟩
        · cases after.isEmpty <;> simp [only, instr, nothing]
        · rw [toCode_append]
          cases hafter : after.isEmpty with
          | true => exact .append (.nil _) (.single (.jump (hfallback f rfl)))
          | false =>
            have hhint : (.hint after : Instr τ Label).Passes bad (fun l g => (l, g) ∈ ext) (.runs ks) (.runs ks) :=
              .steady rfl
            exact .append (.single hhint) (.single (.jump (hfallback f rfl)))
    obtain ⟨tail, hmarks, heq, htail⟩ := htail
    rw [heq, toCode_append, toCode_append, toCode_append]
    refine ⟨(t, Flow.runs ks) :: (ls ++ [(h, Flow.fails (guard false) ks)]), ?_, by simp, .append (.append (.append
      (.mark ?_ (.single (.checkpoint ?_))) (hflows.mono fun l g hl => ?_))
      (.instr (.commit ?_) (.mark ?_ (.single .recover)))) (htail.mono fun l g hl => ?_)⟩
    · simpa [hmarks] using (hls.append_right [h]).cons t
    all_goals simp_all [result]

theorem Draft.allChosen_carries {stop : Label} {fallback : Option Label} {ts : List Label}
    {hs : List (Option Label)} {es : List (ExpectedSet τ)} {cs : List (Draft τ)} {f f' : Flow}
    (hts : ts.length = cs.length) (hhs : hs.length = cs.length) (hes : es.length = cs.length)
    (hcs : ∀ c ∈ cs, ∀ ks, c.toCode.Carries bad (.runs ks) (.runs (result (!discard) ++ ks)))
    (hstop : (stop, Flow.runs (result (!discard) ++ ks)) ∈ ext) (hfallback : ∀ f ∈ fallback, (f, Flow.runs ks) ∈ ext)
    (hf : cs ≠ [] → f = .runs ks) (hf' : cs = [] → f = f') :
    ∃ ls : List (Label × Flow), (ls.map Prod.fst).Perm (marks (allChosen stop fallback ts hs es cs).toCode) ∧
      (∀ t ∈ ts, (t, Flow.runs ks) ∈ ls) ∧ (allChosen stop fallback ts hs es cs).toCode.Flows bad
        (fun l g => (l, g) ∈ ls ++ ext) f f' := by
  induction cs generalizing ts hs es f with
  | nil =>
    match ts, hs, es, hts, hhs, hes with
    | [], [], [], _, _, _ =>
      obtain rfl := hf' rfl
      exact ⟨[], .refl _, nofun, .nil _⟩
  | cons c cs ih =>
    obtain rfl := hf (List.cons_ne_nil _ _)
    match ts, hs, es, hts, hhs, hes with
    | t :: ts, h :: hs, e :: es, hts, hhs, hes =>
      -- the alternative never goes on with the next line
      obtain ⟨f₁, hf₁, hf₁'⟩ : ∃ f₁, (cs ≠ [] → f₁ = .runs ks) ∧ (cs = [] → f₁ = f') := by
        by_cases hnil : cs = []
        · exact ⟨f', fun h => absurd hnil h, fun _ => rfl⟩
        · exact ⟨.runs ks, fun _ => rfl, fun h => absurd h hnil⟩
      obtain ⟨ls, hls, hmem, hflows⟩ := chosen_carries t h e f₁ (hcs c (List.mem_cons_self ..)) hstop hfallback
      obtain ⟨ls', hls', hmem', hflows'⟩ := ih (Nat.succ.inj hts) (Nat.succ.inj hhs) (Nat.succ.inj hes)
        (fun c hc => hcs c (List.mem_cons_of_mem _ hc)) hf₁ hf₁'
      unfold allChosen
      rw [toCode_append, marks_append]
      refine ⟨ls ++ ls', ?_, ?_, .append (hflows.mono fun l g hl => ?_) (hflows'.mono fun l g hl => ?_)⟩
      · simpa using hls.append hls'
      · rw [List.forall_mem_cons]
        exact ⟨List.mem_append_left _ hmem, fun t ht => List.mem_append_right _ (hmem' t ht)⟩
      · simp only [List.mem_append] at hl ⊢
        exact hl.imp_left .inl
      · simp only [List.mem_append] at hl ⊢
        exact hl.imp_left .inr

theorem Emit.Each.carries {α : Type} {f : α → Emit (Draft τ)} {as : List α} {cs : List (Draft τ)}
    (h : Emit.Each f l as cs l') (hf : ∀ a ∈ as, Emit.Carries bad discard (f a)) :
    ∀ c ∈ cs, ∀ ks, c.toCode.Carries bad (.runs ks) (.runs (result (!discard) ++ ks)) := by
  induction h with
  | nil => nofun
  | cons hc _ ih =>
    rw [List.forall_mem_cons] at hf ⊢
    exact ⟨hf.1 _ _ _ hc, ih hf.2⟩

theorem Draft.chain_carries {as : List (Operand τ)} (hne : as ≠ [])
    (has : ∀ a ∈ as, Emit.Carries bad discard (a.emit discard)) : Emit.Carries bad discard (chain as discard) := by
  intro l l' d h ks
  obtain ⟨cs, hcs, rfl⟩ := exists_of_chain h
  have hlength : cs.length = (List.range' (l + 1) (as.length - 1)).length + 1 := by
    have hpos := List.length_pos_iff.2 hne
    rw [List.length_range', hcs.length_eq]
    omega
  obtain ⟨ls, hls, -, hflows⟩ := tryInOrder_carries l ks hlength (hcs.carries has)
  exact ⟨ls, hls, hflows.mono fun t g ht => by simpa using ht⟩

theorem Draft.dispatch_carries {table : List (Operand τ × Lead τ)} {others : List (Operand τ)}
    (hne : table ≠ []) (htable : ∀ a ∈ table, Emit.Carries bad discard (a.1.emit discard))
    (hothers : ∀ a ∈ others, Emit.Carries bad discard (a.emit discard)) :
    Emit.Carries bad discard (dispatch table others discard) := by
  have hafter : (Dispatch.after (table.map Prod.snd)).length = table.length := by
    rw [Dispatch.length_after (by simpa using hne), List.length_map]
  intro l l' d h ks
  cases others with
  | nil =>
    obtain ⟨hs, parts, m, hhandlers, hparts, hd⟩ := exists_of_dispatch_nil h
    have hts : (List.range' (l + 1) table.length).length = parts.length := by rw [List.length_range', hparts.length_eq]
    have hhs : hs.length = parts.length := by rw [hhandlers.length_eq, hafter, hparts.length_eq]
    have hsome : parts ≠ [] := fun h => hne (List.length_eq_zero_iff.1 (by rw [← hparts.length_eq, h]; rfl))
    have hstop : (l, Flow.runs (result (!discard) ++ ks)) ∈ [(l, Flow.runs (result (!discard) ++ ks))] :=
      List.mem_singleton_self _
    have hfallback : ∀ f ∈ (none : Option Label), (f, Flow.runs ks) ∈ [(l, Flow.runs (result (!discard) ++ ks))] :=
      nofun
    have hnone : parts = [] → Flow.runs ks = .runs (result (!discard) ++ ks) := fun h => absurd h hsome
    obtain ⟨ls, hls, hmem, hflows⟩ := allChosen_carries hts hhs (hafter.trans hparts.length_eq.symm)
      (hparts.carries htable) hstop hfallback (fun _ => rfl) hnone
    rw [hd]
    refine ⟨ls ++ [(l, Flow.runs (result (!discard) ++ ks))], ?_, .append (.append (.instr (.dispatch fun t ht => ?_)
      (hflows.mono fun t g ht => ?_)) (.nil _)) (.mark ?_ (.nil _))⟩
    · simpa using hls.append_right [l]
    · exact List.mem_append_left _ (List.mem_append_left _ (hmem t (by simpa using ht)))
    all_goals simp_all
  | cons o others =>
    obtain ⟨hs, parts, otherParts, m, m', hhandlers, hparts, hotherParts, hd⟩ := exists_of_dispatch_cons h
    have hts : (List.range' (l + 2) table.length).length = parts.length := by rw [List.length_range', hparts.length_eq]
    have hhs : hs.length = parts.length := by rw [hhandlers.length_eq, hafter, hparts.length_eq]
    have hstop : (l, Flow.runs (result (!discard) ++ ks)) ∈
        [(l, Flow.runs (result (!discard) ++ ks)), (l + 1, Flow.runs ks)] := List.mem_cons_self ..
    have hfallback : ∀ f ∈ some (l + 1), (f, Flow.runs ks) ∈
        [(l, Flow.runs (result (!discard) ++ ks)), (l + 1, Flow.runs ks)] := by simp
    have hlength : otherParts.length = (List.range' (m + 1) others.length).length + 1 := by
      rw [List.length_range', hotherParts.length_eq]
      rfl
    have hnone : parts = [] → Flow.runs ks = .runs ks := fun _ => rfl
    obtain ⟨ls, hls, hmem, hflows⟩ := allChosen_carries hts hhs (hafter.trans hparts.length_eq.symm)
      (hparts.carries htable) hstop hfallback (fun _ => rfl) hnone
    obtain ⟨ls', hls', -, hflows'⟩ := tryInOrder_carries m ks hlength (hotherParts.carries hothers)
    rw [hd]
    refine ⟨ls ++ (l + 1, Flow.runs ks) :: (ls' ++ [(l, Flow.runs (result (!discard) ++ ks))]), ?_,
      .append (.append (.instr (.dispatch fun t ht => ?_) (hflows.mono fun t g ht => ?_))
        (.mark ?_ (hflows'.mono fun t g ht => ?_))) (.mark ?_ (.nil _))⟩
    · simpa using hls.append ((hls'.append_right [l]).cons (l + 1))
    · rcases List.mem_append.1 ht with ht | ht
      · exact List.mem_append_left _ (List.mem_append_left _ (hmem t ht))
      · obtain rfl : t = l + 1 := by simpa using ht
        simp
    · simp only [List.mem_append, List.mem_cons, List.not_mem_nil, or_false] at ht ⊢
      rcases ht with ht | ht | ht
      · exact .inl ht
      · exact .inr (.inr (.inr ht))
      · exact .inr (.inl ht)
    all_goals simp_all

end Alternatives

theorem Draft.ofOperands_carries (tgt : Target τ) {as : List (Operand τ)} (hne : as ≠ [])
    (has : ∀ a ∈ as, ∀ discard, Emit.Carries bad discard (a.emit discard)) (discard : Bool) :
    Emit.Carries bad discard (ofOperands tgt as discard) := by
  refine ofOperands_cases tgt (chain_carries hne fun a ha => has a ha discard) (fun table others hlen htable hothers => ?_)
    fun a ha => has a ha discard
  have hsome : table ≠ [] := List.ne_nil_of_length_pos (Nat.lt_of_lt_of_le Nat.zero_lt_two hlen)
  exact dispatch_carries hsome (fun x hx => has x.1 (htable x hx) discard) fun a ha => has a (hothers a ha) discard

/-! ### Expressions and assemblies -/

theorem Expr.operands_carries (tgt : Target τ) {p : Expr τ} (hp : p.Without bad) {rest : List (Operand τ)}
    (hrest : ∀ a ∈ rest, ∀ discard, Emit.Carries bad discard (a.emit discard)) :
    ∀ a ∈ p.operands tgt rest, ∀ discard, Emit.Carries bad discard (a.emit discard) := by
  induction p generalizing rest with
  | leaf l => exact List.forall_mem_cons.2 ⟨Leaf.emit_carries tgt l, hrest⟩
  | unary u p ih =>
    exact List.forall_mem_cons.2
      ⟨Unary.emit_carries (Draft.ofOperands_carries tgt (operands_ne_nil tgt p []) (ih hp.2 (by simp))) hp.1, hrest⟩
  | binary b p q ihp ihq =>
    have hnone : ∀ a ∈ ([] : List (Operand τ)), ∀ discard, Emit.Carries bad discard (a.emit discard) := nofun
    have hpart := Draft.ofOperands_carries tgt (operands_ne_nil tgt p []) (ihp hp.1 hnone)
    have hpart' := Draft.ofOperands_carries tgt (operands_ne_nil tgt q []) (ihq hp.2 hnone)
    cases b with
    | alt => exact ihp hp.1 (ihq hp.2 hrest)
    | seq kind => exact List.forall_mem_cons.2 ⟨SeqKind.emit_carries hpart hpart' kind, hrest⟩
    | branch f =>
      exact List.forall_mem_cons.2 ⟨fun discard => Draft.branch_carries (hpart false) (hpart' false), hrest⟩

/-- Control flows through the code of an expression that has no `bad` forms. -/
theorem Expr.emit_carries (tgt : Target τ) {p : Expr τ} (hp : p.Without bad) (discard : Bool) :
    Emit.Carries bad discard (p.emit tgt discard) :=
  Draft.ofOperands_carries tgt (operands_ne_nil tgt p []) (operands_carries tgt hp (by simp)) discard

/-- Flows for the labels of several pieces of code, none of which is marked twice. -/
theorem Code.exists_definite {cs : List (Code τ)} (hcs : ∀ c ∈ cs, c.Carries bad (.runs []) (.runs [value]))
    (hnodup : (cs.flatMap marks).Nodup) :
    ∃ via : Label → Flow → Prop, Definite via ∧ (∀ l g, via l g → l ∈ cs.flatMap marks) ∧
      ∀ c ∈ cs, c.Flows bad via (.runs []) (.runs [value]) := by
  have hlists : ∃ ls : List (Label × Flow), (ls.map Prod.fst).Perm (cs.flatMap marks) ∧
      ∀ c ∈ cs, c.Flows bad (fun l g => (l, g) ∈ ls) (.runs []) (.runs [value]) := by
    clear hnodup
    induction cs with
    | nil => exact ⟨[], .refl _, nofun⟩
    | cons c cs ih =>
      rw [List.forall_mem_cons] at hcs
      obtain ⟨ls, hls, hflows⟩ := hcs.1
      obtain ⟨ls', hls', hflows'⟩ := ih hcs.2
      refine ⟨ls ++ ls', by simpa using hls.append hls', List.forall_mem_cons.2 ⟨?_, fun c hc => ?_⟩⟩
      · exact hflows.mono fun l g hl => List.mem_append_left _ (by simpa using hl)
      · exact (hflows' c hc).mono fun l g hl => List.mem_append_right _ hl
  obtain ⟨ls, hls, hflows⟩ := hlists
  refine ⟨fun l g => (l, g) ∈ ls, fun l f g hf hg => ?_, fun l g hl => ?_, hflows⟩
  · have hinj := List.inj_on_of_nodup_map (hls.nodup_iff.2 hnodup) hf hg rfl
    exact congrArg Prod.snd hinj
  · exact hls.mem_iff.1 (List.mem_map_of_mem (f := Prod.fst) hl)

namespace Bound

variable {o : Options} {b : Bound τ} {a : Assembly τ}

theorem Blocks.carries {tgt : Target τ} {first : Nat} {ss : List (Subroutine τ)} {bs : List (Block τ)}
    (h : Blocks tgt first ss l bs l') (hss : ∀ s ∈ ss, s.body.Without bad) :
    ∀ b ∈ bs, b.code.Carries bad (.runs []) (.runs [value]) := by
  induction h with
  | nil => nofun
  | cons hd _ ih =>
    rw [List.forall_mem_cons] at hss ⊢
    exact ⟨Expr.emit_carries tgt hss.1 false _ _ _ hd [], ih hss.2⟩

/-- Control flows through the assembly of trees. -/
theorem Generates.carries (h : b.Generates o a) (hb : b.Without bad) : a.Carries bad := by
  have hsound := h.sound
  have hcodes : ∀ c ∈ a.codes, c.Carries bad (.runs []) (.runs [value]) := by
    obtain ⟨d, m, hmain, hd, hblocks⟩ := h
    refine List.forall_mem_cons.2 ⟨?_, fun c hc => ?_⟩
    · rw [hd]
      exact Expr.emit_carries _ hb.main false _ _ _ hmain []
    · obtain ⟨blk, hblk, rfl⟩ := List.mem_map.1 hc
      exact hblocks.carries hb.bodies blk hblk
  have hsub : (a.codes.flatMap marks).Sublist a.labels := by
    unfold Assembly.codes Assembly.labels
    rw [List.flatMap_cons, List.flatMap_map]
    refine (List.Sublist.refl _).append ?_
    induction a.blocks with
    | nil => exact .slnil
    | cons blk bs ih => exact (List.sublist_cons_self _ _).append ih
  obtain ⟨via, hdefinite, hlabels, hflows⟩ := Code.exists_definite hcodes (hsound.nodup.sublist hsub)
  exact ⟨via, hdefinite, fun l g hl => hsound.fresh l (hsub.subset (hlabels l g hl)), hflows⟩

end Bound

end ParserMachine
