import ParserMachine.Proofs.Recognition.Facts
import ParserMachine.Proofs.Simplification.Rules

/-!
# Simplification keeps ways open

Every rule leaves an expression all the ways that it may go (`Expr.Rule.ways_below`). So what is known of a
simplified expression was true of the expression from the beginning, also where a rule made it known and where
values depend on errors that were captured (`Expr.Simplifies.facts_allow`).
-/

namespace ParserMachine

variable {τ : Type} [Token τ]

namespace Expr

variable {p q s : Expr τ} {i j : Nat} {ok : Bool}

/-! ### Leaves -/

theorem ways_pure_iff {v : Value τ} : (pure v).ways i ok j ↔ ok = true ∧ j = i := by
  constructor
  · intro h
    cases h with
    | done h =>
      cases h
      exact ⟨rfl, rfl⟩
    | failed h => cases h
  · rintro ⟨rfl, rfl⟩
    exact @Leaf.Ways.done τ _ (.pure v) #[] (fun _ => .never) ⟨j, none, 0⟩ ⟨j, none, 0⟩ v rfl

theorem IsFailing.eq_of_ways (h : p.IsFailing) (hp : p.ways i ok j) : ok = false ∧ j = i := by
  cases h with
  | empty =>
    cases hp with
    | done hr => cases hr
    | failed hr =>
      cases hr
      exact ⟨rfl, rfl⟩
  | fail f =>
    cases hp with
    | done hr => cases hr
    | failed hr =>
      cases hr
      exact ⟨rfl, rfl⟩

/-! ### Chains -/

theorem seq_assoc_ways {w v u : Ways} (h : Ways.Seq (.Seq w v) u i ok j) : Ways.Seq w (.Seq v u) i ok j := by
  cases h with
  | broken h =>
    cases h with
    | broken h => exact .broken h
    | both h h' => exact .both h (.broken h')
  | both h h'' =>
    cases h with
    | both h h' => exact .both h (.both h' h'')

theorem alt_assoc_ways {w v u : Ways} : Ways.Alt (.Alt w v) u i ok j ↔ Ways.Alt w (.Alt v u) i ok j := by
  constructor
  · intro h
    cases h with
    | first h =>
      cases h with
      | first h => exact .first h
      | second h h' => exact .second h (.first h')
    | broken hmoved h =>
      cases h with
      | broken _ h => exact .broken hmoved h
      | second h h' => exact .second h (.broken hmoved h')
    | second h h'' =>
      cases h with
      | broken hmoved => exact absurd rfl hmoved
      | second h h' => exact .second h (.second h' h'')
  · intro h
    cases h with
    | first h => exact .first (.first h)
    | broken hmoved h => exact .broken hmoved (.broken hmoved h)
    | second h h' =>
      cases h' with
      | first h' => exact .first (.second h h')
      | broken hmoved h' => exact .broken hmoved (.second h h')
      | second h' h'' => exact .second (.second h h') h''

/-! ### Rules -/

/-- No rule closes a way. -/
theorem Rule.ways_below (h : Rule p q) : p.ways.Below q.ways := by
  intro i ok j hp
  cases h with
  | mapMap | mapFailing | labelTwice => exact hp
  | mapPure | chunkPure => exact ways_pure_iff.2 (ways_pure_iff.1 hp)
  | lookAheadTwice =>
    obtain ⟨⟨hp⟩⟩ := hp
    exact .intro hp
  | lookAheadPure v =>
    obtain ⟨hp⟩ := hp
    exact ways_pure_iff.2 ⟨(ways_pure_iff.1 hp).1, rfl⟩
  | deniedTwice p =>
    cases hp with
    | done hp =>
      cases hp with
      | failed hp => exact .intro hp
    | failed hp =>
      cases hp with
      | done hp => exact .intro hp
  | attemptAtomic hatomic =>
    cases hp with
    | done hp => exact hp
    | back hp =>
      have hplace := q.facts_allow.atomic hatomic _ _ hp
      rwa [hplace] at hp
  | manyEmpty =>
    have hnothing {i j : Nat} {ok : Bool} (h : Ways.Rounds (empty : Expr τ).ways i ok j) : ok = true ∧ j = i := by
      induction h with
      | stop | idle => exact ⟨rfl, rfl⟩
      | broken hmoved h => exact absurd (IsFailing.empty.eq_of_ways h).2 hmoved
      | next h => exact absurd (IsFailing.empty.eq_of_ways h).1 Bool.noConfusion
    exact ways_pure_iff.2 (hnothing hp)
  | seqFailing kind s hfails =>
    cases hp with
    | broken hp => exact hp
    | both hp => exact absurd (hfails.eq_of_ways hp).1 Bool.noConfusion
  | @seqIdle kind p q hfails hidle =>
    obtain ⟨hcan, hmay⟩ : p.facts.canFail = false ∧ p.facts.mayConsume = false := by
      simpa [Facts.isIdle] using hidle
    cases hp with
    | broken hp => exact absurd hp (p.facts_allow.canFail hcan _ _)
    | both hp hq => exact p.facts_allow.mayConsume hmay _ _ hp ▸ hq
  | dropFirst v q | mapFirst kind v q =>
    cases hp with
    | broken hp => exact absurd (ways_pure_iff.1 hp).1 Bool.noConfusion
    | both hp hq => exact (ways_pure_iff.1 hp).2 ▸ hq
  | dropSecond p w | mapSecond kind p w =>
    cases hp with
    | broken hp => exact hp
    | both hp hq =>
      obtain ⟨rfl, rfl⟩ := ways_pure_iff.1 hq
      exact hp
  | nestLeft | nestRight => exact seq_assoc_ways hp
  | nestAlt => exact alt_assoc_ways.1 hp
  | unnestAlt => exact alt_assoc_ways.2 hp
  | emptyFirst q =>
    cases hp with
    | first hp => exact absurd (IsFailing.empty.eq_of_ways hp).1 Bool.noConfusion
    | broken hmoved hp => exact absurd (IsFailing.empty.eq_of_ways hp).2 hmoved
    | second _ hq => exact hq
  | emptySecond p =>
    cases hp with
    | first hp => exact hp
    | broken _ hp => exact hp
    | second hp hempty =>
      obtain ⟨rfl, rfl⟩ := IsFailing.empty.eq_of_ways hempty
      exact hp
  | settled q hcan =>
    cases hp with
    | first hp => exact hp
    | broken _ hp => exact hp
    | second hp _ => exact absurd hp (Expr.facts_allow _ |>.canFail hcan _ _)
  | joinLookAheads p q =>
    cases hp with
    | first hp =>
      obtain ⟨hp⟩ := hp
      exact .intro (.first (.done hp))
    | broken hmoved hp =>
      obtain ⟨-⟩ := hp
      exact absurd rfl hmoved
    | second hp hq =>
      obtain ⟨hp⟩ := hp
      obtain ⟨hq⟩ := hq
      exact .intro (.second (.back hp) hq)
  | joinDenied p q =>
    cases hp with
    | first hp =>
      cases hp with
      | done hp => exact .done (.broken (.intro hp))
    | broken hmoved hp =>
      obtain ⟨-⟩ := hp
      exact absurd rfl hmoved
    | second hp hq =>
      cases hp with
      | failed hp =>
        cases hq with
        | done hq => exact .done (.both (.intro hp) hq)
        | failed hq => exact .failed (.both (.intro hp) hq)

theorem Simplifies.ways_below (h : Simplifies p q) : p.ways.Below q.ways := by
  induction h with
  | refl p => exact fun _ _ _ hp => hp
  | rule h => exact h.ways_below
  | trans _ _ ih ih' => exact fun _ _ _ hp => ih' _ _ _ (ih _ _ _ hp)
  | unary u _ ih => exact u.ways_mono ih
  | binary b _ _ ihp ihq => exact b.ways_mono ihp ihq

/-- What is known after simplification was true before. -/
theorem Simplifies.facts_allow (h : Simplifies p q) : q.facts.Allows p.ways where
  canFail hcan i j hp := q.facts_allow.canFail hcan i j (h.ways_below _ _ _ hp)
  mayConsume hmay i j hp := q.facts_allow.mayConsume hmay i j (h.ways_below _ _ _ hp)
  atomic hatomic i j hp := q.facts_allow.atomic hatomic i j (h.ways_below _ _ _ hp)

end Expr

end ParserMachine
