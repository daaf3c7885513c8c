import ParserMachine.Proofs.Binding.Ranking
import ParserMachine.Proofs.Generation.Callees
import ParserMachine.Proofs.Inlining.Fixpoint

/-!
# Inlining in recursive grammars

Binding lets every cycle of calls pass through a recursive subroutine, and what comes before inlining keeps the order of
calls. So each round of inlining in which there is a candidate drops one, and with enough rounds no candidate is left
(`Grammar.CallFree.inlining_reaches_fixpoint`).
-/

namespace ParserMachine

variable {τ : Type} [Token τ]

/-! ### Before inlining -/

namespace Expr

variable {p q : Expr τ}

theorem Rule.calls_subset (h : Rule p q) : q.calls ⊆ p.calls := by
  cases h with
  | mapPure | lookAheadPure | manyEmpty | chunkPure => exact List.nil_subset _
  | mapMap | mapFailing | lookAheadTwice | deniedTwice | attemptAtomic | labelTwice => exact List.Subset.refl _
  | seqFailing | dropSecond | mapSecond | emptySecond | settled => exact List.subset_append_left _ _
  | seqIdle | dropFirst | mapFirst | emptyFirst => exact List.subset_append_right _ _
  | nestLeft | nestRight | nestAlt | unnestAlt => exact fun c hc => by simpa [calls] using hc
  | joinLookAheads | joinDenied => exact List.Subset.refl _

/-- A simplified expression calls nothing that was not called before. -/
theorem Simplifies.calls_subset (h : Simplifies p q) : q.calls ⊆ p.calls := by
  induction h with
  | refl p => exact List.Subset.refl _
  | rule h => exact h.calls_subset
  | trans _ _ ih ih' => exact List.Subset.trans ih' ih
  | unary u _ ih => exact ih
  | binary b _ _ ihp ihq =>
    exact List.append_subset.2 ⟨List.subset_append_of_subset_left _ ihp, List.subset_append_of_subset_right _ ihq⟩

end Expr

namespace Bound

variable {b b' : Bound τ} {o : Options} {a : Assembly τ}

/-- Simplification keeps the order of calls. -/
theorem Simplifies.descends (h : b.Simplifies b') (hb : b.Descends) : b'.Descends := by
  rintro k l ⟨s', r, hs', hc⟩
  obtain ⟨s, hs, hbody⟩ := getElem?_of_forall₂ h.subroutines.flip hs'
  refine (hb k l ⟨s, r, hs, hbody.body.calls_subset hc⟩).imp_left fun ⟨t, ht, hrec⟩ => ?_
  obtain ⟨t', ht', hsame⟩ := getElem?_of_forall₂ h.subroutines ht
  exact ⟨t', ht', hsame.recursive.trans hrec⟩

theorem Generates.length_blocks (h : b.Generates o a) : a.blocks.length = b.subroutines.length := by
  rw [← List.length_map (f := Block.entry)]
  exact (congrArg List.length h.entries).trans List.length_range

/-- Blocks call in the order in which subroutines do. -/
theorem Generates.descends (h : b.Generates o a) (hb : b.Descends) : a.Descends := by
  intro c hc d hd hcalls
  obtain ⟨s, hs, -, hfrom⟩ := h.exists_subroutine hc
  obtain ⟨⟨l, r⟩, hmem, rfl⟩ := hfrom _ hcalls
  refine (hb c.entry d.entry ⟨s, r, hs, hmem⟩).imp_left fun ⟨t, ht, hrec⟩ => ?_
  obtain ⟨t', ht', hsame, -⟩ := h.exists_subroutine hd
  cases ht.symm.trans ht'
  exact hsame.trans hrec

end Bound

namespace Assembly

variable {a : Assembly τ}

theorem blocks_tidyRound (a : Assembly τ) :
    a.tidyRound.1.blocks = a.blocks.map fun b => { b with code := (Code.tidy b.code).1 } := by
  unfold tidyRound
  simp

theorem Descends.tidyRound (h : a.Descends) (hsound : a.Sound) : a.tidyRound.1.Descends := by
  intro c hc d hd hcalls
  rw [blocks_tidyRound] at hc hd
  obtain ⟨c', hc', rfl⟩ := List.mem_map.1 hc
  obtain ⟨d', hd', rfl⟩ := List.mem_map.1 hd
  have hclosed := hsound.closed _ (List.mem_cons_of_mem _ (List.mem_map_of_mem hc'))
  rw [(Code.steps_tidy hclosed.nodup).calls] at hcalls
  exact h c' hc' d' hd' hcalls

/-- Tidying keeps the order of calls and the number of subroutines. -/
theorem Descends.tidyIf (h : a.Descends) (hsound : a.Sound) (o : Options) :
    (a.tidyIf o).Descends ∧ (a.tidyIf o).blocks.length = a.blocks.length := by
  have hround (a : Assembly τ) : a.tidyRound.1.blocks.length = a.blocks.length := by
    rw [blocks_tidyRound, List.length_map]
  have hfor (rounds : Nat) (a : Assembly τ) (h : a.Descends) (hsound : a.Sound) :
      (a.tidyFor rounds).Descends ∧ (a.tidyFor rounds).blocks.length = a.blocks.length := by
    induction rounds generalizing a with
    | zero => exact ⟨h, rfl⟩
    | succ rounds ih =>
      have hnext := h.tidyRound hsound
      unfold tidyFor
      dsimp only
      split
      · exact ⟨hnext, hround a⟩
      · obtain ⟨hdown, hlength⟩ := ih a.tidyRound.1 hnext (improves_tidyRound a hsound).1
        exact ⟨hdown, hlength.trans (hround a)⟩
  unfold Assembly.tidyIf
  split
  · exact hfor _ a h hsound
  · exact ⟨h, rfl⟩

end Assembly

/-! ### Inlining -/

/-- In the trees of a grammar every cycle of calls passes through a recursive subroutine. So with any options, in each
round of inlining before which there are candidates, one of them is replaced by copies everywhere and dropped; after
each round what is called is there; and if inlining is on and as many rounds may be made as there are subroutines, no
subroutine is left that is small and not recursive. -/
theorem Grammar.CallFree.inlining_reaches_fixpoint {g : Grammar τ} (hcalls : g.CallFree) {root : NodeId} {b : Bound τ}
    (hbind : g.bind root = .ok b) :
    (∀ l ls, (l :: ls ++ [l]).IsChain b.Invokes → ∃ m ∈ l :: ls, ∃ s, b.subroutines[m]? = some s ∧ s.recursive = true) ∧
    ∀ (o : Options) (b' : Bound τ) (a : Assembly τ), b.optimize o = .ok b' → b'.generate o = .ok a →
      (∃ n ≤ o.passes, ((a.tidyIf o).inline o).1 = (Assembly.inlineOnce o.inlineThreshold)^[n] (a.tidyIf o)) ∧
      (∀ n before after, before = (Assembly.inlineOnce o.inlineThreshold)^[n] (a.tidyIf o) →
        after = before.inlineOnce o.inlineThreshold →
        ((∃ d ∈ before.blocks, d.recursive = false ∧ Code.size d.code ≤ o.inlineThreshold) →
          ∃ d, d.recursive = false ∧ Code.size d.code ≤ o.inlineThreshold ∧ before.Dissolves d after) ∧
        ∀ c ∈ after.codes, ∀ l ∈ Code.calls c, l ∈ after.entries) ∧
      (0 < o.inlineThreshold → b.subroutines.length ≤ o.maxPasses →
        ∀ d ∈ ((a.tidyIf o).inline o).1.blocks, d.recursive = true ∨ o.inlineThreshold < Code.size d.code) := by
  have hdescends := hcalls.descends hbind
  refine ⟨fun l ls => hdescends.exists_recursive_of_cycle, fun o b' a hoptimize hgenerate => ?_⟩
  have hsimplifies := Bound.simplifies_of_optimize hoptimize
  have hgenerates := Bound.generates_of_generate hgenerate
  obtain ⟨hdown, hlength⟩ :=
    (hgenerates.descends (hsimplifies.descends hdescends)).tidyIf hgenerates.sound o
  have hsound : (a.tidyIf o).Sound := (Assembly.improves_tidyIf o a hgenerates.sound).1
  refine ⟨?_, ?_, fun hthreshold hpasses d hd => ?_⟩
  · unfold Assembly.inline
    split
    · exact ⟨0, Nat.zero_le _, rfl⟩
    · exact Assembly.exists_inlineFor_eq _ _ _
  · rintro n _ _ rfl rfl
    obtain ⟨hdown, hsound⟩ := hdown.iterate hsound o.inlineThreshold n
    refine ⟨fun ⟨d, hd, hcandidate⟩ => ?_, (hsound.inlineOnce _).calls⟩
    obtain ⟨e, he, hdissolves⟩ := hdown.exists_dissolves hsound ⟨d, hd, Assembly.isCandidate_iff.2 hcandidate⟩
    obtain ⟨hrecursive, hsize⟩ := Assembly.isCandidate_iff.1 he
    exact ⟨e, hrecursive, hsize, hdissolves⟩
  · have hblocks : (a.tidyIf o).blocks.length ≤ o.passes := by
      rw [hlength, hgenerates.length_blocks, ← hsimplifies.subroutines.length_eq]
      exact Nat.le_trans hpasses (Nat.le_max_left ..)
    unfold Assembly.inline at hd
    rw [if_neg (Nat.ne_of_gt hthreshold)] at hd
    have hnone := hdown.not_candidate_of_inlineFor hsound hblocks d hd
    by_contra hleft
    obtain ⟨hrecursive, hsize⟩ := not_or.1 hleft
    rw [Assembly.isCandidate_iff.2 ⟨Bool.eq_false_iff.2 hrecursive, Nat.le_of_not_lt hsize⟩] at hnone
    cases hnone

/-- Letters, and then letters in any number of parentheses. -/
def Grammar.nested : Grammar Char where
  nodes := #[.leaf (.single 'x' (ExpectedSet.tokens ['x'])), .unary .many 0,
    .leaf (.single '(' (ExpectedSet.tokens ['('])), .lazy 0, .leaf (.single ')' (ExpectedSet.tokens [')'])),
    .binary (.seq .left) 3 4, .binary (.seq .right) 2 5, .binary .alt 6 1, .binary (.seq .right) 1 7]
  cells := #[.defined 7]

/-- The letters are inlined, also where the parentheses use them, and the parentheses are not. -/
theorem Grammar.inlining_reaches_fixpoint_nested :
    ∃ b b' a, nested.bind 8 = .ok b ∧ b.optimize {} = .ok b' ∧ b'.generate {} = .ok a ∧
      (∃ d, d.recursive = false ∧ (a.tidyIf {}).Dissolves d ((a.tidyIf {}).inlineOnce 4)) ∧
      ∀ d ∈ ((a.tidyIf {}).inline {}).1.blocks, d.recursive = true ∨ 4 < Code.size d.code := by
  have hcalls : nested.CallFree := callFree_of_forall (by simp [nested])
  have hrun : ((nested.bind 8).toOption.bind fun b => (b.optimize {}).toOption.bind fun b' =>
      (b'.generate {}).toOption.map fun a =>
        (b.subroutines.length, (a.tidyIf {}).blocks.any (Assembly.isCandidate 4))) = some (2, true) := by
    decide +kernel
  obtain ⟨b, hb, hrun⟩ := Option.bind_eq_some_iff.1 hrun
  obtain ⟨b', hb', hrun⟩ := Option.bind_eq_some_iff.1 hrun
  obtain ⟨a, ha, hrun⟩ := Option.map_eq_some_iff.1 hrun
  obtain ⟨hlength, hany⟩ := Prod.mk.inj hrun
  obtain ⟨c, hc, hcandidate⟩ := List.any_eq_true.1 hany
  have hbind := eq_ok_of_toOption hb
  have hoptimize := eq_ok_of_toOption hb'
  have hgenerate := eq_ok_of_toOption ha
  obtain ⟨-, hinlining⟩ := hcalls.inlining_reaches_fixpoint hbind
  obtain ⟨-, hrounds, hleft⟩ := hinlining {} b' a hoptimize hgenerate
  obtain ⟨d, hrecursive, -, hdissolves⟩ :=
    (hrounds 0 _ _ rfl rfl).1 ⟨c, hc, Assembly.isCandidate_iff.1 hcandidate⟩
  have hpasses : b.subroutines.length ≤ ({} : Options).maxPasses := by
    rw [hlength]
    decide
  exact ⟨b, b', a, hbind, hoptimize, hgenerate, ⟨d, hrecursive, hdissolves⟩, hleft (by decide) hpasses⟩

end ParserMachine
