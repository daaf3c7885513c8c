import Mathlib.Data.List.Forall2
import ParserMachine.Proofs.Generation.Forms
import ParserMachine.Proofs.Meaning.Tables
import ParserMachine.Proofs.Meaning.Tree

/-!
# Code for alternatives

Alternatives that are tried in order are each under a handler that goes on with the next one
(`Config.answers_orElse`). Where a table chooses, the chosen alternative is followed by the ones that the
table leaves out, or by the report of what they expect.
-/

namespace ParserMachine

variable {τ : Type} [Token τ] {input : Array τ} {codeOf : Label → Code τ}
  {n : Nat} {discard : Bool} {cp cq : Code τ} {p q : Run τ}

open State

namespace Config

variable {k : Config τ}

/-- The run may have been begun with another reading. -/
theorem Answers.of_read {x : Config τ} {o : Option (Reply τ)} (r : Reading τ)
    (h : Answers codeOf n discard x { k with state := k.state.read r } o) :
    Answers codeOf n discard x k o := by
  match o, h with
  | none, h => exact h
  | some (.done v r'), h => exact h
  | some .stuck, h => exact h
  | some (.failed e r'), ⟨t, ht, hr, h⟩ =>
    exact ⟨t, ((Over.refl k.state).read r).trans ht, hr, h⟩

/-- An alternative under a handler, after which `tail` goes on. -/
theorem answers_orElse (hp : Code.Answers codeOf input n discard cp p) {h stop : Label}
    {tail : Code τ} (hready : k.state.Ready input) (hnodup : (Code.marks k.block).Nodup)
    (hsuffix : .instr (.checkpoint h false) :: cp ++ .instr (.commit stop) :: .mark h ::
      .instr .recover :: tail <:+ k.block)
    (hstop : Code.after stop k.block = k.rest)
    (hq : ∀ r, Answers codeOf n discard ⟨k.block, tail, k.state.read r, k.frames⟩
      { k with state := k.state.read r } (q r)) :
    Answers codeOf n discard
      ⟨k.block, .instr (.checkpoint h false) :: cp ++ .instr (.commit stop) :: .mark h ::
        .instr .recover :: tail, k.state, k.frames⟩ k (p.orElse q k.state.reading) := by
  have hhandler : .mark h :: .instr .recover :: tail <:+ k.block :=
    ((List.suffix_cons _ _).trans (List.suffix_append _ _)).trans
      ((List.suffix_cons _ _).trans hsuffix)
  refine answers_guarded hp hready hnodup hsuffix ?_ ?_
  · intro v r
    refine Answers.step (step?_commit discard h stop v r hready) ?_
    rw [hstop]
    exact answers_done_self v r
  · intro e r
    rw [Code.after_of_suffix hnodup hhandler]
    refine Answers.step (step?_recover hready k.state.reading.offset) ?_
    by_cases hplace : r.offset = k.state.reading.offset
    · rw [if_pos hplace, if_pos hplace]
      exact Answers.of_read _ (hq (r.hint e))
    · rw [if_neg hplace, if_neg hplace]
      exact answers_failed_read e r

end Config

open Config

/-- The pieces of code do what the parsers do, one by one. -/
abbrev AnswersAll (codeOf : Label → Code τ) (input : Array τ) (n : Nat) (discard : Bool) :
    List (Draft τ) → List (Run τ) → Prop :=
  List.Forall₂ fun c p => Code.Answers codeOf input n discard c.toCode p

/-! ### In order -/

/-- The end of alternatives that are tried in order is marked. -/
theorem Draft.stop_suffix_tryInOrder (stop : Label) (hs : List Label) (cs : List (Draft τ)) :
    [.mark stop] <:+ (Draft.tryInOrder stop hs cs).toCode := by
  induction hs generalizing cs with
  | nil =>
    cases cs with
    | nil => exact List.suffix_refl _
    | cons c cs =>
      unfold tryInOrder
      rw [toCode_append]
      exact List.suffix_append _ _
  | cons h hs ih =>
    cases cs with
    | nil => exact List.suffix_refl _
    | cons c cs =>
      unfold tryInOrder
      rw [toCode_append]
      exact (ih cs).trans (List.suffix_append _ _)

theorem Code.answers_tryInOrder (stop : Label) {hs : List Label} {cs : List (Draft τ)}
    {ps : List (Run τ)} (hcs : AnswersAll codeOf input n discard cs ps) (hne : cs ≠ [])
    (hlen : hs.length = cs.length - 1) :
    Code.Answers codeOf input n discard (Draft.tryInOrder stop hs cs).toCode (Run.inOrder ps) := by
  induction hs generalizing cs ps with
  | nil =>
    match cs, ps, hcs, hne, hlen with
    | [c], [p], .cons hc .nil, _, _ =>
      intro k hready hnodup hsuffix
      unfold Draft.tryInOrder at hsuffix ⊢
      rw [Draft.toCode_append, List.append_assoc] at hsuffix ⊢
      exact Answers.mark (l := stop) hready
        (hc ⟨k.block, .mark stop :: k.rest, k.state, k.frames⟩ hready hnodup hsuffix)
  | cons h hs ih =>
    match cs, ps, hcs, hne, hlen with
    | c :: c' :: cs, p :: p' :: ps, .cons hc hcs, _, hlen =>
      intro k hready hnodup hsuffix
      unfold Draft.tryInOrder at hsuffix ⊢
      simp only [Draft.toCode_append, Draft.toCode_lines, Draft.instr, List.append_assoc,
        List.cons_append, List.nil_append] at hsuffix ⊢
      have htail : (Draft.tryInOrder stop hs (c' :: cs)).toCode ++ k.rest <:+ k.block :=
        ((List.suffix_cons _ _).trans ((List.suffix_cons _ _).trans ((List.suffix_cons _ _).trans
          (List.suffix_append _ _)))).trans ((List.suffix_cons _ _).trans hsuffix)
      have hstop : .mark stop :: k.rest <:+ k.block := by
        obtain ⟨pre, hpre⟩ := Draft.stop_suffix_tryInOrder stop hs (c' :: cs)
        rw [← hpre, List.append_assoc] at htail
        exact (List.suffix_append _ _).trans htail
      refine answers_orElse hc hready hnodup hsuffix (after_of_suffix hnodup hstop) ?_
      intro r
      exact ih hcs (by simp) (by simpa using hlen)
        ⟨k.block, k.rest, k.state.read r, k.frames⟩ (hready.over ((Over.refl _).read r)) hnodup htail

/-! ### By a table -/

/-- The code of the chosen alternative of a number stands among the codes of all. -/
theorem Draft.chosen_suffix_allChosen {stop : Label} {fallback : Option Label} {ts : List Label}
    {hs : List (Option Label)} {es : List (ExpectedSet τ)} {cs : List (Draft τ)} {k : Nat}
    {t : Label} {h : Option Label} {e : ExpectedSet τ} {c : Draft τ} (ht : ts[k]? = some t)
    (hh : hs[k]? = some h) (he : es[k]? = some e) (hc : cs[k]? = some c) :
    ∃ tail, (chosen stop fallback t h e c).toCode ++ tail <:+
      (allChosen stop fallback ts hs es cs).toCode := by
  induction k generalizing ts hs es cs with
  | zero =>
    match ts, hs, es, cs, ht, hh, he, hc with
    | t :: ts, h :: hs, e :: es, c :: cs, rfl, rfl, rfl, rfl =>
      refine ⟨(allChosen stop fallback ts hs es cs).toCode, ?_⟩
      show _ <:+ (chosen stop fallback t h e c ++ allChosen stop fallback ts hs es cs).toCode
      exact ⟨[], (toCode_append (chosen stop fallback t h e c) _).symm⟩
  | succ k ih =>
    match ts, hs, es, cs, ht, hh, he, hc with
    | t' :: ts, h' :: hs, e' :: es, c' :: cs, ht, hh, he, hc =>
      obtain ⟨tail, htail⟩ := @ih ts hs es cs ht hh he hc
      refine ⟨tail, ?_⟩
      show _ <:+ (chosen stop fallback t' h' e' c' ++ allChosen stop fallback ts hs es cs).toCode
      rw [toCode_append]
      exact htail.trans (List.suffix_append _ _)

/-- The piece of code of a number does what the parser of that number does. -/
theorem exists_of_answersAll {cs : List (Draft τ)} {ps : List (Run τ)}
    (h : AnswersAll codeOf input n discard cs ps) {k : Nat} {p : Run τ} (hp : ps[k]? = some p) :
    ∃ c, cs[k]? = some c ∧ Code.Answers codeOf input n discard c.toCode p := by
  induction k generalizing cs ps with
  | zero =>
    cases h with
    | nil => cases hp
    | cons hc hcs =>
      cases hp
      exact ⟨_, rfl, hc⟩
  | succ k ih =>
    cases h with
    | nil => cases hp
    | cons hc hcs => exact ih hcs hp

/-- The code after a chosen alternative that may have others behind it. -/
def Draft.behindChosen (after : ExpectedSet τ) : Option Label → Draft τ
  | some f => Draft.only (!after.isEmpty) (.hint after) ++ .instr (.jump f)
  | none => .instr (.expect after)

/-- The code of alternatives that a table leaves out, behind the mark where it is entered. -/
def Code.Fallback (codeOf : Label → Code τ) (input : Array τ) (n : Nat) (discard : Bool)
    (others : List (Run τ)) (chain : Code τ) : Option Label → Prop
  | none => others = []
  | some f =>
    others ≠ [] ∧ ∃ c, chain = .mark f :: c ∧
      Code.Answers codeOf input n discard c (Run.inOrder others)

namespace Config

variable {others : List (Run τ)} {chain : Code τ} {stop : Label} {k : Config τ}

/-- Where the alternatives that a table leaves out are entered. -/
theorem answers_fallback {f : Label}
    (h : Code.Fallback codeOf input n discard others chain (some f))
    (hready : k.state.Ready input) (hnodup : (Code.marks k.block).Nodup)
    (hsuffix : chain ++ .mark stop :: k.rest <:+ k.block) :
    Answers codeOf n discard ⟨k.block, Code.after f k.block, k.state, k.frames⟩ k
      (Run.inOrder others k.state.reading) := by
  obtain ⟨-, c, rfl, hc⟩ := h
  rw [Code.after_of_suffix hnodup hsuffix]
  exact Answers.mark (l := stop) hready
    (hc ⟨k.block, .mark stop :: k.rest, k.state, k.frames⟩ hready hnodup
      ((List.suffix_cons _ _).trans hsuffix))

/-- What comes after a chosen alternative that has failed in place. -/
theorem answers_afterChosen {fallback : Option Label} {after : ExpectedSet τ} {tail : Code τ}
    (h : Code.Fallback codeOf input n discard others chain fallback)
    (hready : k.state.Ready input) (hnodup : (Code.marks k.block).Nodup)
    (hsuffix : chain ++ .mark stop :: k.rest <:+ k.block) :
    Answers codeOf n discard
      ⟨k.block, (Draft.behindChosen after fallback).toCode ++ tail, k.state, k.frames⟩ k
      (Run.afterChosen input others after k.state.reading) := by
  cases fallback with
  | none =>
    obtain rfl : others = [] := h
    have hfailed : Run.afterChosen input [] after k.state.reading =
        some (.failed (k.state.reading.errorHere input after) k.state.reading) := rfl
    rw [hfailed]
    have hanswers : Answers codeOf n discard
        ⟨k.block, .instr (.expect after) :: tail, k.state, k.frames⟩ { k with rest := tail } _ :=
      answers_expect (k := { k with rest := tail }) hready after
    exact hanswers
  | some f =>
    have hne : others.isEmpty = false := by simpa using h.1
    have hchain (r : Reading τ) := answers_fallback (k := { k with state := k.state.read r }) h
      (hready.over ((Over.refl _).read r)) hnodup hsuffix
    unfold Run.afterChosen
    rw [hne, if_neg Bool.false_ne_true]
    by_cases hempty : after.isEmpty
    · rw [if_pos hempty]
      unfold Draft.behindChosen
      rw [hempty]
      exact Answers.step (step?_jump hready f) (Answers.of_read _ (hchain k.state.reading))
    · have hfalse : after.isEmpty = false := by simpa using hempty
      rw [if_neg hempty]
      unfold Draft.behindChosen
      rw [hfalse]
      refine Answers.step (step?_hint hready after) ?_
      have hhinted := hready.over
        ((Over.refl k.state).read (k.state.reading.hint (.trivial k.state.offset none after)))
      exact Answers.step (step?_jump hhinted f) (Answers.of_read _ (hchain _))

/-- The alternative that a table chooses, from its mark on. -/
theorem answers_chosen {part : Draft τ} (hp : Code.Answers codeOf input n discard part.toCode p)
    {fallback handler : Option Label} {target : Label} {after : ExpectedSet τ} {tail : Code τ}
    (hhandler : handler.isNone = (others.isEmpty && after.isEmpty))
    (h : Code.Fallback codeOf input n discard others chain fallback)
    (hready : k.state.Ready input) (hnodup : (Code.marks k.block).Nodup)
    (hchosen : (Draft.chosen stop fallback target handler after part).toCode ++ tail <:+ k.block)
    (hchain : chain ++ .mark stop :: k.rest <:+ k.block) :
    Answers codeOf n discard ⟨k.block, Code.after target k.block, k.state, k.frames⟩ k
      (Run.chosen input others after p k.state.reading) := by
  have hstop : Code.after stop k.block = k.rest :=
    Code.after_of_suffix hnodup ((List.suffix_append _ _).trans hchain)
  unfold Run.chosen
  cases handler with
  | none =>
    have hnone : (others.isEmpty && after.isEmpty) = true := hhandler.symm
    rw [if_pos hnone]
    unfold Draft.chosen at hchosen
    simp only [Draft.toCode_append, Draft.mark, Draft.instr, Draft.toCode_lines, List.append_assoc,
      List.cons_append, List.nil_append] at hchosen
    rw [Code.after_of_suffix hnodup hchosen]
    have hpart := hp ⟨k.block, .instr (.jump stop) :: tail, k.state, k.frames⟩ hready hnodup
      ((List.suffix_cons _ _).trans hchosen)
    refine Answers.follow hpart fun v r => ?_
    refine .single ((step?_jump (hready.succeed discard v r) stop).trans ?_)
    rw [hstop]
  | some l =>
    have hsome : (others.isEmpty && after.isEmpty) = false := hhandler.symm
    rw [hsome, if_neg Bool.false_ne_true]
    have hcode : Draft.chosen stop fallback target (some l) after part =
        .lines [.mark target, .instr (.checkpoint l false)] ++ part ++
          .lines [.instr (.commit stop), .mark l, .instr .recover] ++
          Draft.behindChosen after fallback := by
      cases fallback <;> rfl
    rw [hcode] at hchosen
    simp only [Draft.toCode_append, Draft.toCode_lines, List.append_assoc, List.cons_append,
      List.nil_append] at hchosen
    rw [Code.after_of_suffix hnodup hchosen]
    refine answers_orElse hp hready hnodup ((List.suffix_cons _ _).trans hchosen) hstop fun r => ?_
    exact answers_afterChosen (k := { k with state := k.state.read r }) h
      (hready.over ((Over.refl _).read r)) hnodup hchain

end Config

/-- What the choice by a table does. -/
theorem State.dispatch_eq {s : State τ} (hready : s.Ready input) {leads : List (Lead τ)}
    {targets : List Nat} {fallback : Option Nat} :
    s.dispatch (Dispatch.entries leads) targets (Dispatch.before leads) (Dispatch.all leads)
        fallback =
      match (s.reading.current? input).bind fun t => (Dispatch.entries leads).lookup t with
      | some k =>
        match (Dispatch.before leads)[k]?, targets[k]? with
        | some e, some t =>
          (s.read (if e.isEmpty then s.reading
            else s.reading.hint (s.reading.errorHere input e))).goto t
        | _, _ => s.fault .noTarget
      | none =>
        let all := s.reading.errorHere input (Dispatch.all leads)
        match fallback with
        | some f => (s.read (s.reading.hint all)).goto f
        | none => s.fail all := by
  have hcurrent : s.current? = s.reading.current? input := by
    rw [← hready.input]
    rfl
  have hneeds : s.needsInput = false := by
    unfold State.needsInput
    rw [hready.more]
    rfl
  unfold State.dispatch
  simp only [hneeds, Bool.false_eq_true, if_false, hcurrent, Config.errorHere_eq hready]
  cases (s.reading.current? input).bind fun t => (Dispatch.entries leads).lookup t with
  | none => cases fallback <;> rfl
  | some k =>
    dsimp only
    cases (Dispatch.before leads)[k]? with
    | none => rfl
    | some e =>
      cases targets[k]? with
      | none => rfl
      | some t =>
        dsimp only
        by_cases hempty : e.isEmpty
        · rw [if_pos hempty, if_pos hempty]
          rfl
        · rw [if_neg hempty, if_neg hempty]
          rfl

/-- The code of alternatives of which a table chooses. -/
theorem Code.answers_dispatch {table : List (Run τ × Lead τ)} {others : List (Run τ)}
    {parts : List (Draft τ)} {chain : Code τ} {targets : List Label}
    {handlers : List (Option Label)} {fallback : Option Label} {stop : Label}
    (hparts : AnswersAll codeOf input n discard parts (table.map Prod.fst))
    (htargets : targets.length = table.length)
    (hhandlers : List.Forall₂ (fun e h => Option.isNone h = (others.isEmpty && SortedSet.isEmpty e))
      (Dispatch.after (table.map Prod.snd)) handlers)
    (h : Code.Fallback codeOf input n discard others chain fallback) :
    Code.Answers codeOf input n discard
      (.instr (.dispatch (Dispatch.entries (table.map Prod.snd)) targets
          (Dispatch.before (table.map Prod.snd)) (Dispatch.all (table.map Prod.snd)) fallback) ::
        (Draft.allChosen stop fallback targets handlers (Dispatch.after (table.map Prod.snd))
          parts).toCode ++ chain ++ [Line.mark stop])
      (Run.byTable input table others) := by
  intro k hready hnodup hsuffix
  simp only [List.append_assoc, List.cons_append, List.nil_append] at hsuffix ⊢
  have hchain := (List.suffix_append _ _).trans ((List.suffix_cons _ _).trans hsuffix)
  have hexec (i : Instr τ Label) (hi : i = .dispatch (Dispatch.entries (table.map Prod.snd)) targets
      (Dispatch.before (table.map Prod.snd)) (Dispatch.all (table.map Prod.snd)) fallback) :
      k.state.exec 0 i.shifted = k.state.dispatch (Dispatch.entries (table.map Prod.snd))
        (targets.map (· + 2)) (Dispatch.before (table.map Prod.snd))
        (Dispatch.all (table.map Prod.snd)) (fallback.map (· + 2)) := by
    rw [hi, Instr.shifted, Instr.mapTargets_dispatch]
    rfl
  have hexec := hexec _ rfl
  rw [State.dispatch_eq hready] at hexec
  have hread (r : Reading τ) : (k.state.read r).Ready input := hready.over ((Over.refl _).read r)
  unfold Run.byTable
  cases hlookup : (k.state.reading.current? input).bind
      fun t => (Dispatch.entries (table.map Prod.snd)).lookup t with
  | none =>
    simp only [hlookup] at hexec ⊢
    cases fallback with
    | none =>
      obtain rfl : others = [] := h
      refine ⟨k.state.read k.state.reading, (Over.refl _).read _, rfl, ?_⟩
      exact .single (step?_unwind rfl hready.status hready.pc hready.handlers (hexec.trans rfl))
    | some f =>
      have hne : others.isEmpty = false := by simpa using h.1
      rw [hne, if_neg Bool.false_ne_true]
      refine Answers.step (step?_goto rfl hready.status (hread _).pc hexec) ?_
      exact Answers.of_read _ (answers_fallback (k := { k with state := k.state.read _ }) h
        (hread _) hnodup hchain)
  | some j =>
    simp only [hlookup] at hexec ⊢
    obtain ⟨t, -, ht⟩ := Option.bind_eq_some_iff.1 hlookup
    have hj : j < table.length := by simpa using Dispatch.lt_of_lookup_entries ht
    have hne : table.map Prod.snd ≠ [] := by
      rintro hnil
      rw [List.map_eq_nil_iff.1 hnil] at hj
      exact Nat.not_lt_zero _ hj
    have hbefore : j < (Dispatch.before (table.map Prod.snd)).length := by
      rwa [Dispatch.length_before, List.length_map]
    have hafter : j < (Dispatch.after (table.map Prod.snd)).length := by
      rwa [Dispatch.length_after hne, List.length_map]
    have hp : (table.map Prod.fst)[j]? = some table[j].1 := by
      rw [List.getElem?_map, List.getElem?_eq_getElem hj]
      rfl
    obtain ⟨part, hpart, hanswers⟩ := exists_of_answersAll hparts hp
    have hlength := hhandlers.length_eq
    have hhandler := hhandlers.get hafter (hlength ▸ hafter)
    have htarget : j < targets.length := by rwa [htargets]
    obtain ⟨tail, hchosen⟩ := @Draft.chosen_suffix_allChosen τ _ stop fallback _ _ _ _ _ _ _ _ _
      (List.getElem?_eq_getElem htarget) (List.getElem?_eq_getElem (hlength ▸ hafter))
      (List.getElem?_eq_getElem hafter) hpart
    simp only [List.getElem?_eq_getElem hj, List.getElem?_eq_getElem hbefore,
      List.getElem?_eq_getElem hafter, List.getElem?_map, List.getElem?_eq_getElem htarget,
      Option.map_some] at hexec ⊢
    refine Answers.step (step?_goto rfl hready.status (hread _).pc hexec) ?_
    have hblock := (List.suffix_cons _ _).trans hsuffix
    obtain ⟨pre, hpre⟩ := hchosen
    rw [← hpre, List.append_assoc, List.append_assoc] at hblock
    exact Answers.of_read _ (answers_chosen (k := { k with state := k.state.read _ }) hanswers
      hhandler h (hread _) hnodup ((List.suffix_append _ _).trans hblock) hchain)

end ParserMachine
