import ParserMachine.Proofs.Recognition.Results

/-!
# Separated lists

A separated list is made of a sequence, a repetition and an alternative, each of which recovers only from failures that
have not moved the cursor from where it was begun. What comes of this is one loop (`Grammar.SepRounds`): rounds of a
separator and an item, which end where a whole round has not moved the cursor (`Grammar.IsSepBy.yields_iff`,
`Grammar.IsSepBy1.yields_iff`). A separator that was consumed is never given back.
-/

namespace ParserMachine

variable {τ : Type} [Token τ] {g : Grammar τ} {input : Array τ} {p s n q : NodeId} {c : Nat}
  {items : Array (Value τ)} {x : Result τ}

namespace Grammar

/-! ### The loop -/

/-- The rounds of a separated list of `p` with `s` between, from a cursor up to which the items are read. -/
inductive SepRounds (g : Grammar τ) (input : Array τ) (p s : NodeId) :
    Nat → Array (Value τ) → Result τ → Prop where
  /-- There is no separator: the list ends. -/
  | noSeparator {c : Nat} {items : Array (Value τ)} (hs : g.Yields input s c (.failed c)) :
    SepRounds g input p s c items (.done (.list items) c)
  /-- The separator breaks off: the list fails. -/
  | brokenSeparator {c c' : Nat} {items : Array (Value τ)} (hs : g.Yields input s c (.failed c')) (hmoved : c' ≠ c) :
    SepRounds g input p s c items (.failed c')
  /-- There is no item, and the round has not moved: the list ends. -/
  | noItem {c c' : Nat} {items : Array (Value τ)} {u : Value τ} (hs : g.Yields input s c (.done u c'))
    (hp : g.Yields input p c' (.failed c)) : SepRounds g input p s c items (.done (.list items) c)
  /-- There is no item, and the round has moved: the list fails. -/
  | brokenItem {c c' d : Nat} {items : Array (Value τ)} {u : Value τ} (hs : g.Yields input s c (.done u c'))
    (hp : g.Yields input p c' (.failed d)) (hmoved : d ≠ c) : SepRounds g input p s c items (.failed d)
  /-- An item is read, and the round has not moved: the list ends with it. -/
  | idle {c c' : Nat} {items : Array (Value τ)} {u v : Value τ} (hs : g.Yields input s c (.done u c'))
    (hp : g.Yields input p c' (.done v c)) : SepRounds g input p s c items (.done (.list (items.push v)) c)
  /-- An item is read, and the next round begins. -/
  | next {c c' d : Nat} {items : Array (Value τ)} {u v : Value τ} {x : Result τ}
    (hs : g.Yields input s c (.done u c')) (hp : g.Yields input p c' (.done v d)) (hmoved : d ≠ c)
    (hrest : SepRounds g input p s d (items.push v) x) : SepRounds g input p s c items x

/-- The loop of a list with one item at least. -/
inductive SepBy1 (g : Grammar τ) (input : Array τ) (p s : NodeId) (c : Nat) : Result τ → Prop where
  /-- There is no first item. -/
  | fails {c' : Nat} (hp : g.Yields input p c (.failed c')) : SepBy1 g input p s c (.failed c')
  /-- The first item is read, and the rounds begin. -/
  | begins {c' : Nat} {v : Value τ} {x : Result τ} (hp : g.Yields input p c (.done v c'))
    (hrest : g.SepRounds input p s c' #[v] x) : SepBy1 g input p s c x

/-- The loop of a list that may be empty. -/
inductive SepBy (g : Grammar τ) (input : Array τ) (p s : NodeId) (c : Nat) : Result τ → Prop where
  /-- There is no first item, and the list is empty. -/
  | empty (hp : g.Yields input p c (.failed c)) : SepBy g input p s c (.done (.list #[]) c)
  /-- The first item breaks off. -/
  | fails {c' : Nat} (hp : g.Yields input p c (.failed c')) (hmoved : c' ≠ c) : SepBy g input p s c (.failed c')
  /-- The first item is read, and the rounds begin. -/
  | begins {c' : Nat} {v : Value τ} {x : Result τ} (hp : g.Yields input p c (.done v c'))
    (hrest : g.SepRounds input p s c' #[v] x) : SepBy g input p s c x

/-- Rounds that fail have moved. -/
theorem SepRounds.lt_of_failed {d : Nat} (h : g.SepRounds input p s c items (.failed d)) : c < d := by
  generalize hx : (Result.failed d : Result τ) = x at h
  induction h with
  | noSeparator | noItem | idle => cases hx
  | brokenSeparator hs hmoved =>
    cases hx
    exact Nat.lt_of_le_of_ne hs.le (Ne.symm hmoved)
  | brokenItem hs hp hmoved =>
    cases hx
    exact Nat.lt_of_le_of_ne (Nat.le_trans hs.le hp.le) (Ne.symm hmoved)
  | next hs hp _ _ ih => exact Nat.lt_of_le_of_lt (Nat.le_trans hs.le hp.le) (ih hx)

/-! ### The combinators -/

/-- The node is a list of `p` with `s` between and one item at least. -/
def IsSepBy1 (g : Grammar τ) (p s n : NodeId) : Prop :=
  ∃ m k q, g.node n = .binary (.seq (.both Value.prepend)) p m ∧ g.node m = .unary (.map id) k ∧
    g.node k = .unary .many q ∧ g.node q = .binary (.seq .right) s p

/-- The node is a list of `p` with `s` between, which may be empty. -/
def IsSepBy (g : Grammar τ) (p s n : NodeId) : Prop :=
  ∃ l e, g.node n = .binary .alt l e ∧ g.IsSepBy1 p s l ∧ g.node e = .leaf (.pure (.list #[]))

section Loops

variable (hfree : g.Without Unary.Captures)
include hfree

/-- The rounds of the loop are those of a repetition of separator and item. -/
theorem repeats_iff_sepRounds (hq : g.node q = .binary (.seq .right) s p) :
    g.Repeats input q c items x ↔ g.SepRounds input p s c items x := by
  constructor
  · intro h
    induction h with
    | stops h =>
      rcases (yields_andThen_iff hfree hq).1 h with ⟨_, hs, ⟨⟩⟩ | ⟨u, c', hs, hp⟩
      · exact .noSeparator hs
      · exact .noItem hs hp
    | breaks h hmoved =>
      rcases (yields_andThen_iff hfree hq).1 h with ⟨_, hs, ⟨⟩⟩ | ⟨u, c', hs, hp⟩
      · exact .brokenSeparator hs hmoved
      · exact .brokenItem hs hp hmoved
    | idles h =>
      rcases (yields_andThen_iff hfree hq).1 h with ⟨_, hs, ⟨⟩⟩ | ⟨u, c', hs, hp⟩
      exact .idle hs hp
    | goesOn h hmoved _ ih =>
      rcases (yields_andThen_iff hfree hq).1 h with ⟨_, hs, ⟨⟩⟩ | ⟨u, c', hs, hp⟩
      exact .next hs hp hmoved ih
  · intro h
    have hround {c : Nat} {y : Result τ} (h : (∃ c', g.Yields input s c (.failed c') ∧ y = .failed c') ∨
        ∃ u c', g.Yields input s c (.done u c') ∧ g.Yields input p c' y) : g.Yields input q c y :=
      (yields_andThen_iff hfree hq).2 h
    induction h with
    | noSeparator hs => exact .stops (hround (.inl ⟨_, hs, rfl⟩))
    | brokenSeparator hs hmoved => exact .breaks (hround (.inl ⟨_, hs, rfl⟩)) hmoved
    | noItem hs hp => exact .stops (hround (.inr ⟨_, _, hs, hp⟩))
    | brokenItem hs hp hmoved => exact .breaks (hround (.inr ⟨_, _, hs, hp⟩)) hmoved
    | idle hs hp => exact .idles (hround (.inr ⟨_, _, hs, hp⟩))
    | next hs hp hmoved _ ih => exact .goesOn (hround (.inr ⟨_, _, hs, hp⟩)) hmoved ih

/-- A list with one item at least comes to the results of its loop, and to no other. -/
theorem IsSepBy1.yields_iff (h : g.IsSepBy1 p s n) : g.Yields input n c x ↔ g.SepBy1 input p s c x := by
  obtain ⟨m, k, q, hn, hm, hk, hq⟩ := h
  have hrounds {c' : Nat} {v : Value τ} {y : Result τ} : g.SepRounds input p s c' #[v] y ↔
      ∃ z, g.Yields input m c' z ∧ z.mapValue (Value.prepend v) = y := by
    have hcons : g.Repeats input q c' (#[v] ++ #[]) y ↔ _ := repeats_cons_iff
    rw [← repeats_iff_sepRounds hfree hq]
    refine hcons.trans (exists_congr fun z => and_congr_left fun _ => ?_)
    rw [yields_map_iff hfree hm, ← yields_many_iff hfree hk]
    simp
  rw [yields_seq_iff hfree hn]
  constructor
  · rintro (⟨c', hp, rfl⟩ | ⟨v, c', z, hp, hz, hvalue⟩)
    · exact .fails hp
    · exact .begins hp (hrounds.2 ⟨z, hz, hvalue⟩)
  · rintro (hp | ⟨hp, hrest⟩)
    · exact .inl ⟨_, hp, rfl⟩
    · obtain ⟨z, hz, hvalue⟩ := hrounds.1 hrest
      exact .inr ⟨_, _, z, hp, hz, hvalue⟩

/-- A list that may be empty comes to the results of its loop, and to no other. -/
theorem IsSepBy.yields_iff (h : g.IsSepBy p s n) : g.Yields input n c x ↔ g.SepBy input p s c x := by
  obtain ⟨l, e, hn, hl, he⟩ := h
  rw [yields_alt_iff hfree hn, hl.yields_iff hfree, hl.yields_iff hfree, yields_pure_iff he]
  -- the alternative catches a missing first item only: behind the first item the list has failed further on
  have hfurther {c' : Nat} {v : Value τ} (hp : g.Yields input p c (.done v c')) :
      ¬ g.SepRounds input p s c' #[v] (.failed c) := fun hrest => by
    have hback := hrest.lt_of_failed
    have hahead : c ≤ c' := hp.le
    omega
  constructor
  · rintro (⟨hp | ⟨hp, hrest⟩, hmoved⟩ | ⟨hp | ⟨hp, hrest⟩, rfl⟩)
    · exact .fails hp fun heq => hmoved (congrArg _ heq)
    · exact .begins hp hrest
    · exact .empty hp
    · exact absurd hrest (hfurther hp)
  · rintro (hp | ⟨hp, hmoved⟩ | ⟨hp, hrest⟩)
    · exact .inr ⟨.fails hp, rfl⟩
    · exact .inl ⟨.fails hp, fun heq => hmoved (Result.failed.inj heq)⟩
    · exact .inl ⟨.begins hp hrest, fun heq => hfurther hp (heq ▸ hrest)⟩

end Loops

end Grammar

/-! ### What is built -/

namespace Build

theorem isSepBy1_sepBy1 (p s : NodeId) (g : Grammar τ) :
    ((sepBy1 p s).run g).2.IsSepBy1 p s ((sepBy1 p s).run g).1 := by
  let round := g.nodes.push (.binary (.seq .right) s p)
  let rounds := round.push (.unary .many g.nodes.size)
  let mapped := rounds.push (.unary (.map id) round.size)
  show Grammar.IsSepBy1 ⟨mapped.push (.binary (.seq (.both Value.prepend)) p rounds.size), g.cells⟩ p s mapped.size
  refine ⟨rounds.size, round.size, g.nodes.size, ?_, ?_, ?_, ?_⟩
  all_goals simp [node_push, round, rounds, mapped]
  grind

theorem isSepBy_sepBy (p s : NodeId) (g : Grammar τ) :
    ((sepBy p s).run g).2.IsSepBy p s ((sepBy p s).run g).1 := by
  let round := g.nodes.push (.binary (.seq .right) s p)
  let rounds := round.push (.unary .many g.nodes.size)
  let mapped := rounds.push (.unary (.map id) round.size)
  let items := mapped.push (.binary (.seq (.both Value.prepend)) p rounds.size)
  let empty := items.push (.leaf (.pure (.list #[])))
  show Grammar.IsSepBy ⟨empty.push (.binary .alt mapped.size items.size), g.cells⟩ p s empty.size
  refine ⟨mapped.size, items.size, ?_, ⟨rounds.size, round.size, g.nodes.size, ?_, ?_, ?_, ?_⟩, ?_⟩
  all_goals simp [node_push, round, rounds, mapped, items, empty]
  all_goals grind

end Build

end ParserMachine
