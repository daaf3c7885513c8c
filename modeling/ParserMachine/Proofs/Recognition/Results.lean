import ParserMachine.Proofs.Meaning.Recovering
import ParserMachine.Proofs.Recognition.Likeness
import ParserMachine.Proofs.Recognition.Onward

/-!
# What is seen of a parser

Where no error is captured, a parser sees of another one whether it succeeds, its value, and the cursor (`Result`). To
what result a node comes depends on the cursor alone where it is begun (`Grammar.Yields`), and the result of a form is
told from the results of its parts: of sequences, of alternatives (`Grammar.yields_seq_iff`, `Grammar.yields_alt_iff`)
and of repetitions, which repeat until nothing is consumed (`Grammar.yields_many_iff`).
-/

namespace ParserMachine

variable {τ : Type} [Token τ]

/-- What is seen of a parser that has ended. -/
inductive Result (τ : Type) [Token τ] where
  /-- It has succeeded with a value, and the cursor is there. -/
  | done (v : Value τ) (c : Nat)
  /-- It has failed, and the cursor is there. -/
  | failed (c : Nat)

/-- At the cursor, with nothing that was taken along. -/
def Reading.fresh (c : Nat) : Reading τ := ⟨c, none, 0⟩

namespace Result

/-- The result with a function applied to its value. -/
def mapValue (f : Value τ → Value τ) : Result τ → Result τ
  | done v c => done (f v) c
  | failed c => failed c

@[simp] theorem mapValue_id (x : Result τ) : x.mapValue id = x := by cases x <;> rfl

/-- Where the cursor is. -/
def cursor : Result τ → Nat
  | done _ c | failed c => c

/-- Goes on according to a result. -/
def handle (x : Result τ) (onDone : Value τ → Nat → Option (Result τ)) (onFailed : Nat → Option (Result τ)) :
    Option (Result τ) :=
  match x with
  | done v c => onDone v c
  | failed c => onFailed c

end Result

/-- What is seen of a reply. -/
def Reply.result? : Reply τ → Option (Result τ)
  | done v r => some (.done v r.offset)
  | failed _ r => some (.failed r.offset)
  | stuck => none

theorem Reply.Like.result?_eq {a b : Reply τ} (h : a.Like b) : a.result? = b.result? := by
  cases a with
  | done v r =>
    obtain ⟨r', rfl, hr⟩ := h.eq_done
    exact congrArg (fun c => some (Result.done v c)) hr
  | failed e r =>
    obtain ⟨e', r', rfl, hr⟩ := h.eq_failed
    exact congrArg (fun c => some (Result.failed c)) hr
  | stuck =>
    obtain rfl := h.eq_stuck
    rfl

namespace Run

variable {p q : Run τ} {c : Nat} {x : Result τ} {r : Reading τ}

/-- To what result the parser comes at a cursor. -/
def result? (p : Run τ) (c : Nat) : Option (Result τ) := (p (.fresh c)).bind Reply.result?

theorem Extends.result?_eq (h : q.Extends p) (hp : p.result? c = some x) : q.result? c = some x := by
  obtain ⟨reply, hreply, hx⟩ := Option.bind_eq_some_iff.1 hp
  exact Option.bind_eq_some_iff.2 ⟨reply, h _ _ hreply, hx⟩

/-- What is seen of a parser depends on the cursor alone. -/
theorem Blind.bind_result? (hp : p.Blind) (r : Reading τ) : (p r).bind Reply.result? = p.result? r.offset := by
  unfold result?
  cases h : p r with
  | some reply =>
    obtain ⟨reply', hreply', hlike⟩ := hp r (.fresh r.offset) rfl reply h
    rw [Option.mem_def.1 hreply']
    exact hlike.result?_eq
  | none =>
    cases h' : p (.fresh r.offset) with
    | none => rfl
    | some reply =>
      obtain ⟨reply', hreply', -⟩ := hp (.fresh r.offset) r rfl reply h'
      rw [h] at hreply'
      cases hreply'

/-- What is seen of a parser that goes on according to what is seen of its part. -/
theorem Blind.bind_result?_handle (hp : p.Blind) {onDone : Value τ → Reading τ → Option (Reply τ)}
    {onFailed : ParseError τ → Reading τ → Option (Reply τ)} {onDone' : Value τ → Nat → Option (Result τ)}
    {onFailed' : Nat → Option (Result τ)} (hd : ∀ v r', (onDone v r').bind Reply.result? = onDone' v r'.offset)
    (hf : ∀ e r', (onFailed e r').bind Reply.result? = onFailed' r'.offset) :
    (p.handle r onDone onFailed).bind Reply.result? =
      (p.result? r.offset).bind fun x => x.handle onDone' onFailed' := by
  rw [← hp.bind_result? r]
  cases h : p r with
  | none => rw [handle_of_none h]; rfl
  | some reply =>
    cases reply with
    | done v r' => rw [handle_of_done h]; exact hd v r'
    | failed e r' => rw [handle_of_failed h]; exact hf e r'
    | stuck => rw [handle_of_stuck h]; rfl

/-! ### Forms -/

/-- What is seen of a parser whose value is changed afterwards. -/
theorem Blind.bind_result?_value (hp : p.Blind) (f : Value τ → Value τ) (r : Reading τ) :
    (p.andThen r fun v r' => some (.done (f v) r')).bind Reply.result? =
      (p.result? r.offset).map (Result.mapValue f) := by
  rw [andThen_done, ← hp.bind_result? r]
  cases p r with
  | none => rfl
  | some reply => cases reply <;> rfl

theorem result?_seq (hp : p.Blind) (hq : q.Blind) (kind : SeqKind τ) (c : Nat) :
    (Binary.run p q (.seq kind)).result? c = (p.result? c).bind fun x =>
      x.handle (fun v c' => (q.result? c').map (Result.mapValue (kind.value v))) fun c' => some (.failed c') :=
  hp.bind_result?_handle (fun v r' => hq.bind_result?_value (kind.value v) r') fun _ _ => rfl

theorem result?_orElse (hp : p.Blind) (hq : q.Blind) (c : Nat) :
    (p.orElse q).result? c = (p.result? c).bind fun x =>
      x.handle (fun v c' => some (.done v c')) fun c' => if c' = c then q.result? c else some (.failed c') := by
  refine hp.bind_result?_handle (fun _ _ => rfl) fun e r' => ?_
  show (if r'.offset = c then q (r'.hint e) else some (.failed e r')).bind Reply.result? = _
  split
  · rename_i hplace
    exact (hq.bind_result? _).trans (congrArg q.result? hplace)
  · rfl

theorem result?_collect (hp : p.Blind) (rounds : Nat) (items : Array (Value τ)) (c : Nat) :
    (p.collect (rounds + 1) items).result? c = (p.result? c).bind fun x =>
      x.handle
        (fun v c' => if c' = c then some (.done (.list (items.push v)) c)
          else (p.collect rounds (items.push v)).result? c')
        fun c' => if c' = c then some (.done (.list items) c) else some (.failed c') := by
  refine hp.bind_result?_handle (fun v r' => ?_) fun e r' => ?_
  · show (if c = r'.offset then _ else p.collect rounds (items.push v) r').bind Reply.result? = _
    by_cases hplace : r'.offset = c
    · rw [if_pos hplace, if_pos hplace.symm]
      exact congrArg (fun c => some (Result.done _ c)) hplace
    · rw [if_neg hplace, if_neg (Ne.symm hplace)]
      exact Blind.bind_result? (covers_collect hp rounds _) r'
  · show (if r'.offset = c then some (.done (.list items) (r'.hint e)) else some (.failed e r')).bind
      Reply.result? = _
    by_cases hplace : r'.offset = c
    · rw [if_pos hplace, if_pos hplace]
      exact congrArg (fun c => some (Result.done _ c)) hplace
    · rw [if_neg hplace, if_neg hplace]
      rfl

end Run

namespace Grammar

variable {g : Grammar τ} {input : Array τ} {n k l : NodeId} {c : Nat} {x : Result τ}

/-- Begun at the cursor, the node comes to this result. -/
def Yields (g : Grammar τ) (input : Array τ) (p : NodeId) (c : Nat) (x : Result τ) : Prop :=
  ∃ reply, g.Evaluates input p (.fresh c) reply ∧ reply.result? = some x

theorem yields_iff : g.Yields input n c x ↔ ∃ depth, (g.evalAt input depth n).result? c = some x := by
  constructor
  · rintro ⟨reply, ⟨depth, hreply⟩, hx⟩
    exact ⟨depth, Option.bind_eq_some_iff.2 ⟨reply, hreply, hx⟩⟩
  · rintro ⟨depth, h⟩
    obtain ⟨reply, hreply, hx⟩ := Option.bind_eq_some_iff.1 h
    exact ⟨reply, ⟨depth, hreply⟩, hx⟩

/-- A result that was come to at a depth is come to at every greater one. -/
theorem Yields.eventually (h : g.Yields input n c x) :
    ∃ depth, ∀ m, depth ≤ m → (g.evalAt input m n).result? c = some x := by
  obtain ⟨depth, h⟩ := yields_iff.1 h
  exact ⟨depth, fun m hm => (evalAt_mono hm n).result?_eq h⟩

theorem Yields.unique {y : Result τ} (h : g.Yields input n c x) (h' : g.Yields input n c y) : x = y := by
  obtain ⟨depth, h⟩ := h.eventually
  obtain ⟨depth', h'⟩ := h'.eventually
  exact Option.some.inj ((h _ (Nat.le_max_left ..)).symm.trans (h' _ (Nat.le_max_right ..)))

/-- A node does not go back behind where it was begun. -/
theorem Yields.le (h : g.Yields input n c x) : c ≤ x.cursor := by
  obtain ⟨reply, ⟨depth, hreply⟩, hx⟩ := h
  have honward := g.evalAt_onward input depth n _ reply hreply
  cases reply with
  | done | failed =>
    cases hx
    exact honward
  | stuck => cases hx

theorem yields_pure_iff {v : Value τ} (hn : g.node n = .leaf (.pure v)) :
    g.Yields input n c x ↔ x = .done v c := by
  have hrun (depth : Nat) : (g.evalAt input (depth + 1) n).result? c = some (.done v c) := by
    unfold evalAt
    rw [hn]
    rfl
  rw [yields_iff]
  constructor
  · rintro ⟨depth, h⟩
    have h' := (evalAt_mono (Nat.le_succ depth) n).result?_eq h
    exact Option.some.inj (h'.symm.trans (hrun depth))
  · rintro rfl
    exact ⟨1, hrun 0⟩

/-- What a node does is not changed by what its reading takes along. -/
theorem Without.blind_evalAt (hfree : g.Without Unary.Captures) (depth : Nat) (n : NodeId) :
    (g.evalAt input depth n).Blind := by
  induction depth generalizing n with
  | zero => exact Run.covers_never _
  | succ depth ih =>
    unfold evalAt
    split
    · exact Leaf.covers_run (fun _ => Run.covers_never _) _
    · rename_i u k hn
      exact Unary.covers_run (ih k) _ (hfree n u k hn)
    · exact Binary.covers_run (ih _) (ih _) _
    · split
      · exact ih _
      · exact Run.covers_never _

section Forms

variable (hfree : g.Without Unary.Captures)
include hfree

theorem yields_map_iff {f : Value τ → Value τ} (hn : g.node n = .unary (.map f) k) :
    g.Yields input n c x ↔ ∃ y, g.Yields input k c y ∧ y.mapValue f = x := by
  have hrun (depth : Nat) : (g.evalAt input (depth + 1) n).result? c =
      ((g.evalAt input depth k).result? c).map (Result.mapValue f) := by
    rw [evalAt, hn]
    exact (hfree.blind_evalAt depth k).bind_result?_value f _
  constructor
  · intro h
    obtain ⟨depth, h⟩ := h.eventually
    have := (hrun depth).symm.trans (h _ (Nat.le_succ depth))
    obtain ⟨y, hy, hvalue⟩ := Option.map_eq_some_iff.1 this
    exact ⟨y, yields_iff.2 ⟨depth, hy⟩, hvalue⟩
  · rintro ⟨y, hy, rfl⟩
    obtain ⟨depth, hy⟩ := yields_iff.1 hy
    exact yields_iff.2 ⟨depth + 1, (hrun depth).trans (congrArg _ hy)⟩

theorem yields_seq_iff {kind : SeqKind τ} (hn : g.node n = .binary (.seq kind) k l) :
    g.Yields input n c x ↔ (∃ c', g.Yields input k c (.failed c') ∧ x = .failed c') ∨
      ∃ v c' y, g.Yields input k c (.done v c') ∧ g.Yields input l c' y ∧ y.mapValue (kind.value v) = x := by
  have hrun (depth : Nat) : (g.evalAt input (depth + 1) n).result? c =
      ((g.evalAt input depth k).result? c).bind fun x =>
        x.handle (fun v c' => ((g.evalAt input depth l).result? c').map (Result.mapValue (kind.value v)))
          fun c' => some (.failed c') := by
    rw [evalAt, hn]
    exact Run.result?_seq (hfree.blind_evalAt depth k) (hfree.blind_evalAt depth l) kind c
  constructor
  · intro h
    obtain ⟨depth, h⟩ := h.eventually
    obtain ⟨y, hy, h⟩ := Option.bind_eq_some_iff.1 ((hrun depth).symm.trans (h _ (Nat.le_succ depth)))
    cases y with
    | failed c' =>
      cases h
      exact .inl ⟨c', yields_iff.2 ⟨depth, hy⟩, rfl⟩
    | done v c' =>
      obtain ⟨z, hz, hvalue⟩ := Option.map_eq_some_iff.1 h
      exact .inr ⟨v, c', z, yields_iff.2 ⟨depth, hy⟩, yields_iff.2 ⟨depth, hz⟩, hvalue⟩
  · rintro (⟨c', h, rfl⟩ | ⟨v, c', y, h, hy, rfl⟩)
    · obtain ⟨depth, h⟩ := yields_iff.1 h
      exact yields_iff.2 ⟨depth + 1, (hrun depth).trans (Option.bind_eq_some_iff.2 ⟨_, h, rfl⟩)⟩
    · obtain ⟨m, h⟩ := h.eventually
      obtain ⟨m', hy⟩ := hy.eventually
      refine yields_iff.2 ⟨max m m' + 1, (hrun _).trans (Option.bind_eq_some_iff.2 ⟨_, h _ (Nat.le_max_left ..), ?_⟩)⟩
      exact congrArg (Option.map _) (hy _ (Nat.le_max_right ..))

theorem yields_andThen_iff (hn : g.node n = .binary (.seq .right) k l) :
    g.Yields input n c x ↔ (∃ c', g.Yields input k c (.failed c') ∧ x = .failed c') ∨
      ∃ v c', g.Yields input k c (.done v c') ∧ g.Yields input l c' x := by
  rw [yields_seq_iff hfree hn]
  refine or_congr_right (exists_congr fun v => exists_congr fun c' => ⟨?_, fun h => ⟨x, h.1, h.2, x.mapValue_id⟩⟩)
  rintro ⟨y, h, hy, hvalue⟩
  obtain rfl : y = x := y.mapValue_id.symm.trans hvalue
  exact ⟨h, hy⟩

/-- The second alternative is tried where the first one has failed in place. -/
theorem yields_alt_iff (hn : g.node n = .binary .alt k l) :
    g.Yields input n c x ↔ (g.Yields input k c x ∧ x ≠ .failed c) ∨
      (g.Yields input k c (.failed c) ∧ g.Yields input l c x) := by
  have hrun (depth : Nat) : (g.evalAt input (depth + 1) n).result? c =
      ((g.evalAt input depth k).result? c).bind fun x =>
        x.handle (fun v c' => some (.done v c'))
          fun c' => if c' = c then (g.evalAt input depth l).result? c else some (.failed c') := by
    rw [evalAt, hn]
    exact Run.result?_orElse (hfree.blind_evalAt depth k) (hfree.blind_evalAt depth l) c
  constructor
  · intro h
    obtain ⟨depth, h⟩ := h.eventually
    obtain ⟨y, hy, h⟩ := Option.bind_eq_some_iff.1 ((hrun depth).symm.trans (h _ (Nat.le_succ depth)))
    have hfirst := yields_iff.2 ⟨depth, hy⟩
    cases y with
    | done v c' =>
      cases h
      exact .inl ⟨hfirst, fun heq => by cases heq⟩
    | failed c' =>
      by_cases hplace : c' = c
      · subst hplace
        exact .inr ⟨hfirst, yields_iff.2 ⟨depth, (if_pos rfl).symm.trans h⟩⟩
      · cases (if_neg hplace).symm.trans h
        exact .inl ⟨hfirst, fun heq => hplace (Result.failed.inj heq)⟩
  · rintro (⟨h, hmoved⟩ | ⟨h, hx⟩)
    · obtain ⟨depth, h⟩ := yields_iff.1 h
      refine yields_iff.2 ⟨depth + 1, (hrun depth).trans (Option.bind_eq_some_iff.2 ⟨x, h, ?_⟩)⟩
      cases x with
      | done v c' => rfl
      | failed c' => exact if_neg fun heq => hmoved (congrArg _ heq)
    · obtain ⟨m, h⟩ := h.eventually
      obtain ⟨m', hx⟩ := hx.eventually
      refine yields_iff.2 ⟨max m m' + 1, (hrun _).trans (Option.bind_eq_some_iff.2 ⟨_, h _ (Nat.le_max_left ..), ?_⟩)⟩
      exact (if_pos rfl).trans (hx _ (Nat.le_max_right ..))

end Forms

/-! ### Repetitions -/

/-- Begun at a cursor with these items read, the repetition of the node comes to a result. -/
inductive Repeats (g : Grammar τ) (input : Array τ) (q : NodeId) : Nat → Array (Value τ) → Result τ → Prop where
  /-- A failure in place ends it. -/
  | stops {c : Nat} {items : Array (Value τ)} (h : g.Yields input q c (.failed c)) :
    Repeats g input q c items (.done (.list items) c)
  /-- A failure that has consumed input is its failure. -/
  | breaks {c c' : Nat} {items : Array (Value τ)} (h : g.Yields input q c (.failed c')) (hmoved : c' ≠ c) :
    Repeats g input q c items (.failed c')
  /-- A success in place ends it too. -/
  | idles {c : Nat} {items : Array (Value τ)} {v : Value τ} (h : g.Yields input q c (.done v c)) :
    Repeats g input q c items (.done (.list (items.push v)) c)
  /-- A success that has consumed input is followed by another round. -/
  | goesOn {c c' : Nat} {items : Array (Value τ)} {v : Value τ} {x : Result τ} (h : g.Yields input q c (.done v c'))
    (hmoved : c' ≠ c) (hrest : Repeats g input q c' (items.push v) x) : Repeats g input q c items x

section Repetitions

variable {q : NodeId} {items : Array (Value τ)}

variable (hfree : g.Without Unary.Captures)
include hfree

theorem Repeats.of_collect {depth rounds : Nat}
    (h : ((g.evalAt input depth q).collect rounds items).result? c = some x) : g.Repeats input q c items x := by
  induction rounds generalizing c items with
  | zero => cases h
  | succ rounds ih =>
    rw [Run.result?_collect (hfree.blind_evalAt depth q)] at h
    obtain ⟨y, hy, h⟩ := Option.bind_eq_some_iff.1 h
    have hround := yields_iff.2 ⟨depth, hy⟩
    cases y with
    | done v c' =>
      by_cases hplace : c' = c
      · subst hplace
        cases (if_pos rfl).symm.trans h
        exact .idles hround
      · exact .goesOn hround hplace (ih ((if_neg hplace).symm.trans h))
    | failed c' =>
      by_cases hplace : c' = c
      · subst hplace
        cases (if_pos rfl).symm.trans h
        exact .stops hround
      · cases (if_neg hplace).symm.trans h
        exact .breaks hround hplace

/-- A result of a repetition is come to with any great depth and number of rounds. -/
theorem Repeats.eventually (h : g.Repeats input q c items x) :
    ∃ k, ∀ depth rounds, k ≤ depth → k ≤ rounds →
      ((g.evalAt input depth q).collect (rounds + 1) items).result? c = some x := by
  induction h with
  | stops h =>
    obtain ⟨k, h⟩ := h.eventually
    refine ⟨k, fun depth rounds hdepth _ => ?_⟩
    rw [Run.result?_collect (hfree.blind_evalAt depth q), h depth hdepth]
    exact if_pos rfl
  | breaks h hmoved =>
    obtain ⟨k, h⟩ := h.eventually
    refine ⟨k, fun depth rounds hdepth _ => ?_⟩
    rw [Run.result?_collect (hfree.blind_evalAt depth q), h depth hdepth]
    exact if_neg hmoved
  | idles h =>
    obtain ⟨k, h⟩ := h.eventually
    refine ⟨k, fun depth rounds hdepth _ => ?_⟩
    rw [Run.result?_collect (hfree.blind_evalAt depth q), h depth hdepth]
    exact if_pos rfl
  | goesOn h hmoved _ ih =>
    obtain ⟨k, h⟩ := h.eventually
    obtain ⟨m, ih⟩ := ih
    refine ⟨max k m + 1, fun depth rounds hdepth hrounds => ?_⟩
    obtain ⟨rounds, rfl⟩ := Nat.exists_eq_add_of_le' (Nat.le_trans (Nat.le_add_left 1 _) hrounds)
    rw [Run.result?_collect (hfree.blind_evalAt depth q), h depth (by omega)]
    exact (if_neg hmoved).trans (ih depth rounds (by omega) (by omega))

/-- A repetition reads on until nothing is consumed. -/
theorem yields_many_iff (hn : g.node n = .unary .many q) :
    g.Yields input n c x ↔ g.Repeats input q c #[] x := by
  have hrun (depth : Nat) : (g.evalAt input (depth + 1) n).result? c =
      ((g.evalAt input depth q).collect (depth + input.size + 1) #[]).result? c := by
    rw [evalAt, hn]
    rfl
  constructor
  · intro h
    obtain ⟨depth, h⟩ := h.eventually
    exact .of_collect hfree ((hrun depth).symm.trans (h _ (Nat.le_succ depth)))
  · intro h
    obtain ⟨k, h⟩ := h.eventually hfree
    exact yields_iff.2 ⟨k + 1, (hrun k).trans (h k _ (Nat.le_refl k) (Nat.le_add_right k _))⟩

omit hfree in
/-- An item that was read before stays in front. -/
theorem repeats_cons_iff {v : Value τ} :
    g.Repeats input q c (#[v] ++ items) x ↔ ∃ y, g.Repeats input q c items y ∧ y.mapValue (Value.prepend v) = x := by
  constructor
  · generalize hall : #[v] ++ items = all
    intro h
    induction h generalizing items with
    | stops h => exact ⟨_, .stops h, hall ▸ rfl⟩
    | breaks h hmoved => exact ⟨_, .breaks h hmoved, rfl⟩
    | idles h => exact ⟨_, .idles h, by rw [← hall, ← Array.append_push]; rfl⟩
    | goesOn h hmoved _ ih =>
      obtain ⟨y, hy, hvalue⟩ := ih (by rw [← hall, Array.append_push])
      exact ⟨y, .goesOn h hmoved hy, hvalue⟩
  · rintro ⟨y, h, rfl⟩
    induction h with
    | stops h => exact .stops h
    | breaks h hmoved => exact .breaks h hmoved
    | idles h =>
      refine Eq.mp (congrArg _ ?_) (Repeats.idles h)
      exact congrArg (fun vs => Result.done (.list vs) _) Array.append_push.symm
    | goesOn h hmoved _ ih => exact .goesOn h hmoved (Array.append_push ▸ ih)

end Repetitions

end Grammar

end ParserMachine
