import ParserMachine.Grammar.Combinators
import ParserMachine.Proofs.Generation.Whole
import ParserMachine.Proofs.Meaning.Graph

/-!
# Going on after a failure

A parser whose failure is caught, or that must not succeed, leaves nothing behind when it fails: what comes next begins
where the parser began, with the hints that were there before (`Grammar.GoesOn.evaluates_iff`). Only the counter of
renewals goes on.
-/

namespace ParserMachine

variable {τ : Type} [Token τ] {g : Grammar τ} {input : Array τ} {p q n c : NodeId} {r r' : Reading τ}
  {reply : Reply τ} {v : Value τ} {e : ParseError τ}

/-- The reply with a function applied to its value. -/
def Reply.mapValue (f : Value τ → Value τ) : Reply τ → Reply τ
  | done v r => done (f v) r
  | failed e r => failed e r
  | stuck => stuck

/-- The outcome with a function applied to its value. -/
def Outcome.mapValue (f : Value τ → Value τ) : Outcome τ → Outcome τ
  | done v rest => done (f v) rest
  | failed e rest => failed e rest
  | faulted f => faulted f

theorem Reply.outcome_mapValue {f : Value τ → Value τ} {reply : Reply τ} {input : List τ} :
    (reply.mapValue f).outcome input = (reply.outcome input).mapValue f := by
  cases reply <;> rfl

/-- A parser whose value is changed afterwards. -/
theorem Run.andThen_done (p : Run τ) (f : Value τ → Value τ) (r : Reading τ) :
    (p.andThen r fun v r' => some (.done (f v) r')) = (p r).map (Reply.mapValue f) := by
  unfold Run.andThen Run.handle
  cases p r with
  | none => rfl
  | some reply => cases reply <;> rfl

namespace Grammar

/-! ### The combinators -/

/-- The node has the result of a parser, or its error as a value with the input given back. -/
def Catches (g : Grammar τ) (p c : NodeId) : Prop :=
  ∃ k, g.node c = .unary (.map id) k ∧ g.node k = .unary (.guard .capture) p

/-- Where the first parser fails, the node does what the second one does from where the first began, and makes this of
the error and the value. -/
inductive GoesOn (g : Grammar τ) (p q n : NodeId) : (ParseError τ → Value τ → Value τ) → Prop where
  /-- The error is caught and dropped. -/
  | caught {c : NodeId} (hn : g.node n = .binary (.seq .right) c q) (hc : g.Catches p c) : GoesOn g p q n fun _ v => v
  /-- The first parser must not succeed. -/
  | denied {c : NodeId} (hn : g.node n = .binary (.seq .right) c q) (hc : g.node c = .unary .notFollowedBy p) :
    GoesOn g p q n fun _ v => v
  /-- The error is caught and joined with the value of the second parser. -/
  | handled {c s v : NodeId} {f : Value τ → Value τ → Value τ} (hn : g.node n = .binary (.branch f) v q)
    (hv : g.node v = .unary (.map Value.toVerdict) s) (hs : g.node s = .unary (.map Build.sortCaptured) c)
    (hc : g.Catches p c) : GoesOn g p q n fun e v => f (.err e) v

/-! ### Evaluation -/

theorem evaluates_unary_iff {u : Unary τ} {k : NodeId} (hn : g.node n = .unary u k) :
    g.Evaluates input n r reply ↔
      ∃ depth, u.run input (depth + input.size + 1) (g.evalAt input depth k) r = some reply := by
  constructor
  · rintro ⟨depth, h⟩
    cases depth with
    | zero => cases h
    | succ depth =>
      rw [evalAt, hn] at h
      exact ⟨depth, h⟩
  · rintro ⟨depth, h⟩
    refine ⟨depth + 1, ?_⟩
    rw [evalAt, hn]
    exact h

theorem evaluates_binary_iff {b : Binary τ} {k l : NodeId} (hn : g.node n = .binary b k l) :
    g.Evaluates input n r reply ↔
      ∃ depth, b.run (g.evalAt input depth k) (g.evalAt input depth l) r = some reply := by
  constructor
  · rintro ⟨depth, h⟩
    cases depth with
    | zero => cases h
    | succ depth =>
      rw [evalAt, hn] at h
      exact ⟨depth, h⟩
  · rintro ⟨depth, h⟩
    refine ⟨depth + 1, ?_⟩
    rw [evalAt, hn]
    exact h

theorem Evaluates.map {f : Value τ → Value τ} {k : NodeId} (hn : g.node n = .unary (.map f) k)
    (h : g.Evaluates input k r (.done v r')) : g.Evaluates input n r (.done (f v) r') := by
  obtain ⟨depth, h⟩ := h
  exact (evaluates_unary_iff hn).2 ⟨depth, Run.handle_of_done h⟩

/-- A caught failure gives its error, and nothing else of it stays but the renewals. -/
theorem Evaluates.caught (hc : g.Catches p c) (h : g.Evaluates input p r.bare (.failed e r')) :
    g.Evaluates input c r (.done (.err e) (r.undo r')) := by
  obtain ⟨k, hmap, hguard⟩ := hc
  obtain ⟨depth, h⟩ := h
  exact ((evaluates_unary_iff hguard).2 ⟨depth, Run.handle_of_failed h⟩).map hmap

/-- Where a parser fails that must not succeed, nothing of it stays but the renewals. -/
theorem Evaluates.denied (hc : g.node c = .unary .notFollowedBy p) (h : g.Evaluates input p r.bare (.failed e r')) :
    g.Evaluates input c r (.done .unit (r.undo r')) := by
  obtain ⟨depth, h⟩ := h
  exact (evaluates_unary_iff hc).2 ⟨depth, Run.handle_of_failed h⟩

/-- What a form does that goes on with its second parser after the first has succeeded, and changes its value. -/
theorem Evaluates.binary_iff {b : Binary τ} {k : Value τ → Value τ} (hn : g.node n = .binary b c q)
    (hc : g.Evaluates input c r (.done v r'))
    (hrun : ∀ first second : Run τ, first r = some (.done v r') →
      b.run first second r = second.andThen r' fun w r'' => some (.done (k w) r'')) :
    g.Evaluates input n r reply ↔ ∃ reply', g.Evaluates input q r' reply' ∧ reply'.mapValue k = reply := by
  obtain ⟨m, hm⟩ := hc
  have hmax (depth : Nat) : b.run (g.evalAt input (max m depth) c) (g.evalAt input (max m depth) q) r =
      (g.evalAt input (max m depth) q r').map (Reply.mapValue k) :=
    (hrun _ _ (evalAt_mono (Nat.le_max_left m depth) c _ _ hm)).trans (Run.andThen_done _ k r')
  rw [evaluates_binary_iff hn]
  constructor
  · rintro ⟨depth, h⟩
    have hmore := Binary.run_mono (evalAt_mono (Nat.le_max_right m depth) c) (evalAt_mono (Nat.le_max_right m depth) q)
      b r reply h
    obtain ⟨reply', hreply', hvalue⟩ := Option.map_eq_some_iff.1 ((hmax depth).symm.trans hmore)
    exact ⟨reply', ⟨_, hreply'⟩, hvalue⟩
  · rintro ⟨reply', ⟨depth, h⟩, rfl⟩
    refine ⟨max m depth, (hmax depth).trans ?_⟩
    rw [evalAt_mono (Nat.le_max_right m depth) q _ _ h]
    rfl

/-- Where the first parser fails, the second one begins where it began, and with the same hints. -/
theorem GoesOn.evaluates_iff {k : ParseError τ → Value τ → Value τ} (h : g.GoesOn p q n k)
    (hp : g.Evaluates input p r.bare (.failed e r')) :
    g.Evaluates input n r reply ↔
      ∃ reply', g.Evaluates input q (r.undo r') reply' ∧ reply'.mapValue (k e) = reply := by
  cases h with
  | caught hn hc => exact (hp.caught hc).binary_iff hn fun _ _ hfirst => Run.handle_of_done hfirst
  | denied hn hc => exact (hp.denied hc).binary_iff hn fun _ _ hfirst => Run.handle_of_done hfirst
  | handled hn hv hs hc =>
    have hverdict := ((hp.caught hc).map hs).map hv
    exact hverdict.binary_iff hn fun _ _ hfirst => Run.handle_of_done hfirst

end Grammar

/-! ### What the combinators build -/

namespace Build

/-- The node that is added last, and those that were there before. -/
theorem node_push (nodes : Array (Node τ)) (cells : Array Cell) (a : Node τ) (i : Nat) :
    Grammar.node ⟨nodes.push a, cells⟩ i = if i = nodes.size then a else Grammar.node ⟨nodes, cells⟩ i := by
  unfold Grammar.node
  rw [Array.getD_eq_getD_getElem?, Array.getElem?_push]
  split
  · rfl
  · exact (Array.getD_eq_getD_getElem? ..).symm

/-- Where the first parser fails, the one that is built does what the second one does, whatever was built before. -/
def GoesOn (build : Build τ NodeId) (p q : NodeId) (k : ParseError τ → Value τ → Value τ) : Prop :=
  ∀ g : Grammar τ, (build.run g).2.GoesOn p q (build.run g).1 k

theorem goesOn_capture_andThen (p q : NodeId) :
    GoesOn (τ := τ) (do andThen (← capture p) q) p q fun _ v => v := by
  intro g
  let guarded := g.nodes.push (.unary (.guard .capture) p)
  let captured := guarded.push (.unary (.map id) g.nodes.size)
  show Grammar.GoesOn ⟨captured.push (.binary (.seq .right) guarded.size q), g.cells⟩ p q captured.size _
  refine @Grammar.GoesOn.caught _ _ _ _ _ _ guarded.size ?_ ⟨g.nodes.size, ?_, ?_⟩
  all_goals simp [node_push, guarded, captured]
  omega

theorem goesOn_notFollowedBy_andThen (p q : NodeId) :
    GoesOn (τ := τ) (do andThen (← notFollowedBy p) q) p q fun _ v => v := by
  intro g
  let denied := g.nodes.push (.unary .notFollowedBy p)
  show Grammar.GoesOn ⟨denied.push (.binary (.seq .right) g.nodes.size q), g.cells⟩ p q denied.size _
  refine @Grammar.GoesOn.denied _ _ _ _ _ _ g.nodes.size ?_ ?_
  all_goals simp [node_push, denied]

theorem goesOn_handle (p q : NodeId) (f : Value τ → Value τ → Value τ) :
    GoesOn (handle p q f) p q fun e v => f (.err e) v := by
  intro g
  let guarded := g.nodes.push (.unary (.guard .capture) p)
  let captured := guarded.push (.unary (.map id) g.nodes.size)
  let sorted := captured.push (.unary (.map sortCaptured) guarded.size)
  let judged := sorted.push (.unary (.map Value.toVerdict) captured.size)
  show Grammar.GoesOn ⟨judged.push (.binary (.branch f) sorted.size q), g.cells⟩ p q judged.size _
  refine @Grammar.GoesOn.handled _ _ _ _ _ _ guarded.size captured.size sorted.size f ?_ ?_ ?_ ⟨g.nodes.size, ?_, ?_⟩
  all_goals simp [node_push, guarded, captured, sorted, judged]
  all_goals grind

end Build

end ParserMachine
