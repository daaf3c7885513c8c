import ParserMachine.Proofs.Binding.Enlarging
import ParserMachine.Proofs.Binding.Faithful
import ParserMachine.Proofs.Compiling.Realizing
import ParserMachine.Proofs.Meaning.Recovering
import ParserMachine.Proofs.Meaning.Renewals

/-!
# Compiling what goes on after a failure

Where a parser and another one compile, so does what goes on with the other one where the first one fails
(`Grammar.exists_compile_joined`): a form around a parser of which nothing is known does not make a repetition idle that
was not. The program then comes to the outcomes of the other one's program (`Grammar.GoesOn.comesTo_iff`).
-/

namespace ParserMachine

variable {τ : Type} [Token τ] {g : Grammar τ} {p q k n : NodeId} {o : Options}

namespace Grammar

/-- The node is a parser inside unary forms. No repetition is among them, and of the innermost one nothing is known that
depends on the parser. -/
inductive Encloses (g : Grammar τ) (p : NodeId) : NodeId → Prop where
  /-- The innermost form. -/
  | inner {k : NodeId} {u : Unary τ} (h : g.node k = .unary u p) (hsealed : u.Opaque) (hmany : u ≠ .many) :
    Encloses g p k
  /-- A form around others. -/
  | outer {k c : NodeId} {u : Unary τ} (h : g.node c = .unary u k) (hmany : u ≠ .many) (hk : Encloses g p k) :
    Encloses g p c

theorem Encloses.exists_unary {c : NodeId} (h : g.Encloses p c) : ∃ u k, g.node c = .unary u k ∧ u ≠ .many := by
  cases h with
  | inner h _ hmany => exact ⟨_, _, h, hmany⟩
  | outer h hmany _ => exact ⟨_, _, h, hmany⟩

theorem LeadsTo.eq_of_not_lazy {r : NodeId} (h : g.LeadsTo p r) (hp : ∀ c, g.node p ≠ .lazy c) : p = r := by
  obtain ⟨n, h⟩ := h
  cases h with
  | here _ => rfl
  | next hlazy _ _ => exact absurd hlazy (hp _)

theorem Visits.mem_left {w : Walk} {x : NodeId} (hw : g.Visits [] w) (hx : w.entered x = true)
    (hlt : x < g.nodes.size) : x ∈ w.left.toList :=
  (hw.entered x).2 ((Walk.entered_iff.1 hx).resolve_left (Nat.not_le.2 (hw.size ▸ hlt)))

/-- A part of a node that two walks have left was entered by both. -/
theorem Visits.entered_of_mem_kidsOf {w w' : Walk} {x y : NodeId} (hw : g.Visits [] w) (hw' : g.Visits [] w')
    (hy : w.entered y = true) (hx : x ∈ w'.kidsOf y) : w.entered x = true := by
  have hyleft' := hw'.mem_left_of_mem_kidsOf hx
  have hyleft := hw.mem_left hy (hw'.lt hyleft')
  exact hw.closed y hyleft x (kidsOf_eq_of_visits hw hw' hyleft hyleft' ▸ hx)

theorem Encloses.not_lazy {c : NodeId} (h : g.Encloses p c) : ∀ x, g.node c ≠ .lazy x := by
  obtain ⟨u, k, hnode, -⟩ := h.exists_unary
  intro x hx
  cases hnode.symm.trans hx

/-- A walk comes to the innermost form. -/
theorem Encloses.exists_inner {r c y : NodeId} {w : Walk} (h : g.Encloses p c) (hr : g.LeadsTo p r) (hw : g.Visits [] w)
    (hy : y ∈ w.left.toList) (hc : c ∈ w.kidsOf y) :
    ∃ k u x, r ∈ w.kidsOf k ∧ g.node k = .unary u x ∧ u.Opaque ∧ u ≠ .many := by
  induction h generalizing y with
  | @inner k u hnode hsealed hmany =>
    have hk := hw.mem_left (hw.closed y hy k hc) (lt_size_of_unary hnode)
    refine ⟨k, u, p, ?_, hnode, hsealed, hmany⟩
    rw [hw.kidsOf_unary hk hnode (resolve_eq_ok_iff.2 hr)]
    exact List.mem_singleton_self r
  | @outer k c u hnode hmany henc ih =>
    have hk := hw.mem_left (hw.closed y hy c hc) (lt_size_of_unary hnode)
    refine ih hk ?_
    rw [hw.kidsOf_unary hk hnode (resolve_eq_ok_iff.2 (.refl henc.not_lazy))]
    exact List.mem_singleton_self k

/-- The root of a larger walk is shared if the walk from one of its parts has left it too. -/
theorem isShared_root_of_left {r : NodeId} {b b' : Bound τ} {w w' : Walk} {t t' : Trees τ} (h : g.Binds r b w t)
    (hspans : Spans r [] w) (h' : g.Binds n b' w' t') (hspans' : Spans n [] w') (hn : n ∈ w'.left.toList)
    (hr : r ∈ w'.kidsOf n) (hleft : n ∈ w.left.toList) : g.isShared w' w'.uses n = true := by
  have hentered := h'.visits.closed n hn r hr
  obtain ⟨y, hy⟩ : ∃ y, n ∈ w'.kidsOf y := by
    rcases hspans.used n hleft with rfl | ⟨-, -, y, -, -, hy⟩ | ⟨y, hy, -⟩
    · exact ⟨n, hr⟩
    · have hyleft := h.visits.mem_left_of_mem_kidsOf hy
      have hyleft' := left_subset h h' hentered hyleft
      exact ⟨y, kidsOf_eq_of_visits h.visits h'.visits hyleft hyleft' ▸ hy⟩
    · cases hy
  unfold isShared
  rw [hspans'.recursive_root h'.visits hy hn]
  rfl

section Joined

variable {f : Binary τ} {c : NodeId} (hnode : g.node n = .binary f c q) (hc : g.Encloses p c)
include hnode hc

theorem Resolvable.joined (hp : g.Resolvable p) (hq : g.Resolvable q) : g.Resolvable n := by
  have hreach : ∀ x, g.Reaches n x → x = n ∨ g.Encloses p x ∨ g.Reaches p x ∨ g.Reaches q x := by
    intro x hx
    induction hx with
    | refl => exact .inl rfl
    | @part y x _ hx ih =>
      unfold children at hx
      rcases ih with rfl | henc | hy | hy
      · rw [hnode] at hx
        rcases List.mem_cons.1 hx with rfl | hx
        · exact .inr (.inl hc)
        · obtain rfl := List.mem_singleton.1 hx
          exact .inr (.inr (.inr .refl))
      · cases henc with
        | inner hy _ _ =>
          rw [hy] at hx
          obtain rfl := List.mem_singleton.1 hx
          exact .inr (.inr (.inl .refl))
        | outer hy _ hk =>
          rw [hy] at hx
          obtain rfl := List.mem_singleton.1 hx
          exact .inr (.inl hk)
      · exact .inr (.inr (.inl (hy.part hx)))
      · exact .inr (.inr (.inr (hy.part hx)))
    | @target y x cell _ hlazy htarget ih =>
      rcases ih with rfl | henc | hy | hy
      · cases hnode.symm.trans hlazy
      · exact absurd hlazy (henc.not_lazy _)
      · exact .inr (.inr (.inl (hy.target hlazy htarget)))
      · exact .inr (.inr (.inr (hy.target hlazy htarget)))
  intro x cell hx hlazy
  rcases hreach x hx with rfl | henc | hx | hx
  · cases hnode.symm.trans hlazy
  · exact absurd hlazy (henc.not_lazy _)
  · exact hp x cell hx hlazy
  · exact hq x cell hx hlazy

/-- What a walk finds below the joined parsers is a form that was added or a part of one of the parsers. -/
theorem mem_left_joined {rp rq : NodeId} {bp bq bn : Bound τ} {wp wq wn : Walk} {tp tq tn : Trees τ}
    (hrp : g.LeadsTo p rp) (hrq : g.LeadsTo q rq) (hp : g.Binds rp bp wp tp) (hq : g.Binds rq bq wq tq)
    (hn : g.Binds n bn wn tn) {x : NodeId} (hx : x ∈ wn.left.toList) :
    x = n ∨ g.Encloses p x ∨ x ∈ wp.left.toList ∨ x ∈ wq.left.toList := by
  have hwhere : x = n ∨ g.Encloses p x ∨ wp.entered x = true ∨ wq.entered x = true := by
    have hbelow := hn.below x hx
    clear hx
    induction hbelow with
    | refl => exact .inl rfl
    | @tail y x _ hx ih =>
      have hy := hn.visits.mem_left_of_mem_kidsOf hx
      rcases ih with rfl | henc | hentered | hentered
      · rw [hn.visits.kidsOf_binary hy hnode (resolve_eq_ok_iff.2 (.refl hc.not_lazy)) (resolve_eq_ok_iff.2 hrq)] at hx
        rcases List.mem_cons.1 hx with rfl | hx
        · exact .inr (.inl hc)
        · obtain rfl := List.mem_singleton.1 hx
          exact .inr (.inr (.inr hq.entered))
      · cases henc with
        | inner hunary _ _ =>
          rw [hn.visits.kidsOf_unary hy hunary (resolve_eq_ok_iff.2 hrp)] at hx
          obtain rfl := List.mem_singleton.1 hx
          exact .inr (.inr (.inl hp.entered))
        | outer hunary _ hk =>
          rw [hn.visits.kidsOf_unary hy hunary (resolve_eq_ok_iff.2 (.refl hk.not_lazy))] at hx
          obtain rfl := List.mem_singleton.1 hx
          exact .inr (.inl hk)
      · exact .inr (.inr (.inl (hp.visits.entered_of_mem_kidsOf hn.visits hentered hx)))
      · exact .inr (.inr (.inr (hq.visits.entered_of_mem_kidsOf hn.visits hentered hx)))
  have hlt := hn.visits.lt hx
  exact hwhere.imp_right (.imp_right (.imp (hp.visits.mem_left · hlt) (hq.visits.mem_left · hlt)))

/-- Two parsers that compile without simplification do so when one of them stands inside such forms and both are
joined. -/
theorem exists_compile_joined (hcalls : g.CallFree) (hoff : o.optimize = false) {P Q : Program τ}
    (hP : g.compile o p = .ok P) (hQ : g.compile o q = .ok Q) : ∃ C, g.compile o n = .ok C := by
  obtain ⟨bp, hbp, hP⟩ := bind_eq_ok_iff.1 hP
  obtain ⟨bq, hbq, hQ⟩ := bind_eq_ok_iff.1 hQ
  obtain ⟨bp', hopt, -⟩ := bind_eq_ok_iff.1 hP
  obtain ⟨bq', hopt', -⟩ := bind_eq_ok_iff.1 hQ
  have hresolvable := Resolvable.joined hnode hc (exists_bind_iff.1 ⟨bp, hbp⟩) (exists_bind_iff.1 ⟨bq, hbq⟩)
  obtain ⟨bn, hbn⟩ := exists_bind_iff.2 hresolvable
  cases hcompile : g.compile o n with
  | ok C => exact ⟨C, rfl⟩
  | error e =>
    exfalso
    rcases hcalls.compile_eq_error_iff.1 hcompile with h | ⟨b, hb, h⟩
    · cases hbn.symm.trans h
    obtain rfl := Except.ok.inj (hbn.symm.trans hb)
    obtain ⟨e₁, e₂, hrepeats, hbecomes, hidle, -⟩ := Bound.refuses_of_optimize h
    obtain rfl := hbecomes.off hoff
    obtain ⟨rp, wp, tp, hrp, hbinds, hspans⟩ := exists_binds_spans hbp
    obtain ⟨rq, wq, tq, hrq, hbinds', hspans'⟩ := exists_binds_spans hbq
    obtain ⟨rn, wn, tn, hrn, hbindsn, hspansn⟩ := exists_binds_spans hbn
    obtain rfl := hrn.eq_of_not_lazy fun x hx => by cases hnode.symm.trans hx
    obtain ⟨m, hm, j, k, hmany, hk, rfl⟩ := hbindsn.exists_of_repeats hrepeats
    have hkm {w : Walk} (hw : g.Visits [] w) (hm : m ∈ w.left.toList) : k ∈ w.kidsOf m := by
      rw [hw.kidsOf_unary hm hmany hk]
      exact List.mem_singleton_self k
    have hn : n ∈ wn.left.toList := hspansn.root_mem hbindsn.visits hm
    have hresolve := resolve_eq_ok_iff.2 (.refl hc.not_lazy)
    have hkids := hbindsn.visits.kidsOf_binary hn hnode hresolve (resolve_eq_ok_iff.2 hrq)
    rcases mem_left_joined hnode hc hrp hrq hbinds hbinds' hbindsn hm with rfl | henc | hm' | hm'
    · cases hnode.symm.trans hmany
    · obtain ⟨u, k', hunary, hu⟩ := henc.exists_unary
      exact hu (Node.unary.inj (hunary.symm.trans hmany)).1
    · obtain ⟨around, u, x, hmem, hunary, hsealed, hu⟩ := hc.exists_inner hrp hbindsn.visits hn (hkids ▸ by simp)
      have hne : m ≠ around := by
        rintro rfl
        exact hu (Node.unary.inj (hunary.symm.trans hmany)).1
      have hidle' := Binds.isIdle_of_larger hbinds hspans hbindsn hmem (fun _ => .inr ⟨u, x, hunary, hsealed⟩) hm' hne
        (hkm hbinds.visits hm') hidle
      obtain ⟨e', he'⟩ := Bound.exists_refusal (hbinds.repeats_of_many hm' hmany hk) hidle' o
      cases hopt.symm.trans he'
    · have hroot : rq ∈ wn.kidsOf n := hkids ▸ by simp
      have hshared := isShared_root_of_left hbinds' hspans' hbindsn hspansn hn hroot
      have hne : m ≠ n := by
        rintro rfl
        cases hnode.symm.trans hmany
      have hidle' := Binds.isIdle_of_larger hbinds' hspans' hbindsn hroot (.inl <| hshared ·) hm' hne
        (hkm hbinds'.visits hm') hidle
      obtain ⟨e', he'⟩ := Bound.exists_refusal (hbinds'.repeats_of_many hm' hmany hk) hidle' o
      cases hopt'.symm.trans he'

end Joined

/-! ### The programs -/

theorem GoesOn.exists_encloses {k : ParseError τ → Value τ → Value τ} (h : g.GoesOn p q n k) :
    ∃ f c, g.node n = .binary f c q ∧ g.Encloses p c := by
  have hcatches {c : NodeId} (hc : g.Catches p c) : g.Encloses p c := by
    obtain ⟨m, hmap, hguard⟩ := hc
    exact .outer hmap nofun (.inner hguard (fun _ _ => rfl) nofun)
  cases h with
  | caught hn hc => exact ⟨_, _, hn, hcatches hc⟩
  | denied hn hc => exact ⟨_, _, hn, .inner hc (fun _ _ => rfl) nofun⟩
  | handled hn hv hs hc => exact ⟨_, _, hn, .outer hv nofun (.outer hs nofun (hcatches hc))⟩

/-- Without optimizations a parse comes to exactly the outcomes of the root's evaluation. -/
theorem TypeCorrect.parse_iff (h : g.TypeCorrect) (hcalls : g.CallFree) {P : Program τ}
    (hP : g.compile .unoptimized p = .ok P) {input : List τ} {a : Outcome τ} :
    (∃ s, P.parse s input = some a) ↔ g.ComesTo p 0 input a := by
  obtain ⟨b, b', S, hbind, hoptimize, -, -, -, hrealizes⟩ := h.realizes hcalls hP
  obtain rfl := Bound.optimize_of_off rfl hoptimize
  have hreply {reply : Reply τ} : (∃ depth, b'.evalAt .unoptimized input depth = some reply) ↔
      g.Evaluates input.toArray p .first reply := hcalls.evalAt_bind_iff rfl hbind
  rw [hrealizes.parse_iff]
  constructor
  · rintro ⟨depth, reply, heval, houtcome⟩
    exact ⟨reply, hreply.1 ⟨depth, heval⟩, houtcome⟩
  · rintro ⟨reply, heval, houtcome⟩
    obtain ⟨depth, heval⟩ := hreply.2 heval
    exact ⟨depth, reply, heval, houtcome⟩

/-- A node comes to a failure where its evaluation fails. -/
theorem ComesTo.exists_failed {j : Nat} {input : List τ} {e : ParseError τ} {rest : List τ}
    (h : g.ComesTo p j input (.failed e rest)) :
    ∃ e' r', g.Evaluates input.toArray p ⟨0, none, j⟩ (.failed e' r') := by
  obtain ⟨reply, heval, houtcome⟩ := h
  cases reply with
  | failed e' r' => exact ⟨e', r', heval⟩
  | done | stuck => cases houtcome

/-- After a failure the node comes to exactly the outcomes of the second parser. -/
theorem GoesOn.comesTo_iff {k : ParseError τ → Value τ → Value τ} (h : g.GoesOn p q n k) {input : List τ}
    {e : ParseError τ} {r' : Reading τ} (hp : g.Evaluates input.toArray p .first (.failed e r')) {a : Outcome τ} :
    g.ComesTo n 0 input a ↔ ∃ b, g.ComesTo q r'.renewals input b ∧ b.mapValue (k e) = a := by
  have hiff (reply : Reply τ) : g.Evaluates input.toArray n .first reply ↔
      ∃ reply', g.Evaluates input.toArray q (Reading.first.undo r') reply' ∧ reply'.mapValue (k e) = reply :=
    h.evaluates_iff hp
  constructor
  · rintro ⟨reply, heval, rfl⟩
    obtain ⟨reply', heval', rfl⟩ := (hiff reply).1 heval
    exact ⟨_, ⟨reply', heval', rfl⟩, Reply.outcome_mapValue.symm⟩
  · rintro ⟨b, ⟨reply', heval', rfl⟩, rfl⟩
    exact ⟨_, (hiff _).2 ⟨reply', heval', rfl⟩, Reply.outcome_mapValue⟩

end Grammar

end ParserMachine
