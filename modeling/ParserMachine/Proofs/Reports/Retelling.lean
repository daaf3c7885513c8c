import ParserMachine.Proofs.Reports.Commitment

/-!
# What is reported

Two replies report the same if nothing that comes later can tell them apart (`Reply.SameFrom`): after a success
the hints at the cursor and further ahead are the same, and after a failure the error merged with the hints is.
How a report is shared between the error and the hints may differ; a label looks at that only where all lies in
place. One parser retells another if it comes to the same report wherever the other comes to one
(`Run.Retells`), and forms of parsers that are retold are retold, unless they inspect their parts
(`Unary.retells_run`, `Binary.retells_run`).
-/

namespace ParserMachine

variable {τ : Type} [Token τ]

open ParseError

namespace ParseError

variable {i : Nat} {h h' : Option (ParseError τ)} {e e' : ParseError τ}

/-- Errors from before the place of another do not matter to it. -/
theorem mergeOpt_live (he : i ≤ e.offset) (h : Option (ParseError τ)) :
    mergeOpt (live i h) (some e) = mergeOpt h (some e) := by
  cases h with
  | none => rfl
  | some k =>
    rcases Nat.lt_or_ge k.offset i with hk | hk
    · rw [live_of_lt hk]
      exact congrArg some (merge_of_lt (by omega)).symm
    · rw [live_of_le hk]

theorem mergeOpt_congr (hh : live i h = live i h') (he : i ≤ e.offset) :
    mergeOpt h (some e) = mergeOpt h' (some e) := by
  rw [← mergeOpt_live he h, hh, mergeOpt_live he]

@[simp] theorem offset_withExpected (expected : ExpectedSet τ) (e : ParseError τ) :
    (e.withExpected expected).offset = e.offset := by
  cases e <;> rfl

theorem withExpected_congr (h : e.withExpected .empty = e'.withExpected .empty)
    (expected : ExpectedSet τ) : e.withExpected expected = e'.withExpected expected := by
  cases e <;> cases e' <;> simp_all [withExpected]

end ParseError

/-- The same can come of both readings: they are at one place, with the same hints there and further
ahead. -/
def Reading.Same (r r' : Reading τ) : Prop :=
  r.offset = r'.offset ∧ live r.offset r.hints = live r.offset r'.hints

/-- The replies of parsers that began at the place `i` report the same. Where the report lies in place, the
errors too are the same but for what is expected. -/
def Reply.SameFrom (i : Nat) : Reply τ → Reply τ → Prop
  | done v r, done v' r' => v = v' ∧ r.Same r'
  | failed e r, failed e' r' => r.offset = r'.offset ∧ r.report e = r'.report e' ∧
      ((r.report e).offset = i → e.withExpected .empty = e'.withExpected .empty)
  | stuck, stuck => True
  | _, _ => False

/-- If the first parser comes to a reply, so does the second, with the same report. -/
def Reply.RetoldFrom (i : Nat) (x y : Option (Reply τ)) : Prop :=
  ∀ reply ∈ x, ∃ reply' ∈ y, reply.SameFrom i reply'

namespace Reading

variable {r r' : Reading τ} {e : ParseError τ}

theorem report_eq_iff {e' : ParseError τ} :
    r.report e = r'.report e' ↔ mergeOpt r.hints (some e) = mergeOpt r'.hints (some e') := by
  rw [← some_report, ← some_report, Option.some.injEq]

theorem le_offset_report (e : ParseError τ) (r : Reading τ) : e.offset ≤ (r.report e).offset := by
  unfold report
  cases r.hints with
  | none => exact Nat.le_refl _
  | some h =>
    have := offset_merge h e
    show e.offset ≤ (h.merge e).offset
    omega

theorem Same.refl (r : Reading τ) : r.Same r := ⟨rfl, rfl⟩

theorem Same.trans {r'' : Reading τ} (h : r.Same r') (h' : r'.Same r'') : r.Same r'' :=
  ⟨h.1.trans h'.1, h.2.trans (h.1 ▸ h'.2)⟩

theorem Same.moved (h : r.Same r') (k : Nat) :
    Same { r with offset := r.offset + k } { r' with offset := r'.offset + k } :=
  ⟨congrArg (· + k) h.1, live_congr (Nat.le_add_right _ _) h.2⟩

theorem Same.report_eq (h : r.Same r') (he : r.offset ≤ e.offset) : r.report e = r'.report e :=
  report_eq_iff.2 (mergeOpt_congr h.2 he)

theorem same_bare (h : r.offset = r'.offset) : r.bare.Same r'.bare := ⟨h, rfl⟩

/-- Two failures that report the same leave the same hints, where they are survived. -/
theorem same_hint {e' : ParseError τ} (h : r.offset = r'.offset) (hreport : r.report e = r'.report e') :
    (r.hint e).Same (r'.hint e') := by
  refine ⟨h, ?_⟩
  show live r.offset (mergeOpt r.hints (some e)) = live r.offset (mergeOpt r'.hints (some e'))
  rw [report_eq_iff.1 hreport]

end Reading

namespace Reply

variable {i j : Nat} {a b : Reply τ} {x y : Option (Reply τ)} {v : Value τ} {e e' : ParseError τ}
  {r r' : Reading τ}

theorem SameFrom.eq_done (h : SameFrom i (.done v r) b) : ∃ r', b = .done v r' ∧ r.Same r' := by
  cases b with
  | done w r' =>
    obtain ⟨rfl, hr⟩ := h
    exact ⟨r', rfl, hr⟩
  | failed | stuck => exact False.elim h

theorem SameFrom.eq_failed (h : SameFrom i (.failed e r) b) :
    ∃ e' r', b = .failed e' r' ∧ SameFrom i (.failed e r) (.failed e' r') := by
  cases b with
  | failed e' r' => exact ⟨e', r', rfl, h⟩
  | done | stuck => exact False.elim h

theorem SameFrom.eq_stuck (h : SameFrom i (.stuck : Reply τ) b) : b = .stuck := by
  cases b with
  | stuck => rfl
  | done | failed => exact False.elim h

theorem SameFrom.refl (a : Reply τ) : a.SameFrom i a := by
  cases a with
  | done v r => exact ⟨rfl, .refl r⟩
  | failed e r => exact ⟨rfl, rfl, fun _ => rfl⟩
  | stuck => trivial

theorem SameFrom.trans {c : Reply τ} (h : a.SameFrom i b) (h' : b.SameFrom i c) : a.SameFrom i c := by
  cases a with
  | done v r =>
    obtain ⟨r', rfl, hr⟩ := h.eq_done
    obtain ⟨r'', rfl, hr'⟩ := h'.eq_done
    exact ⟨rfl, hr.trans hr'⟩
  | failed e r =>
    obtain ⟨e', r', rfl, hoffset, hreport, herror⟩ := h.eq_failed
    obtain ⟨e'', r'', rfl, hoffset', hreport', herror'⟩ := h'.eq_failed
    exact ⟨hoffset.trans hoffset', hreport.trans hreport',
      fun hi => (herror hi).trans (herror' (hreport ▸ hi))⟩
  | stuck =>
    obtain rfl := h.eq_stuck
    exact h'

theorem RetoldFrom.refl (x : Option (Reply τ)) : RetoldFrom i x x := fun a ha => ⟨a, ha, .refl a⟩

theorem RetoldFrom.trans {z : Option (Reply τ)} (h : RetoldFrom i x y) (h' : RetoldFrom i y z) :
    RetoldFrom i x z := by
  intro a ha
  obtain ⟨b, hb, hab⟩ := h a ha
  obtain ⟨c, hc, hbc⟩ := h' b hb
  exact ⟨c, hc, hab.trans hbc⟩

theorem retold_none : RetoldFrom i none y := nofun

theorem retold_some (h : a.SameFrom i b) : RetoldFrom i (some a) (some b) := by
  intro c hc
  cases hc
  exact ⟨b, rfl, h⟩

theorem retold_done (h : r.Same r') : RetoldFrom i (some (.done v r)) (some (.done v r')) :=
  retold_some ⟨rfl, h⟩

/-- One error in readings of which the same can come. -/
theorem retold_failed (h : r.Same r') (he : r.offset ≤ e.offset) :
    RetoldFrom i (some (.failed e r)) (some (.failed e r')) :=
  retold_some ⟨h.1, h.report_eq he, fun _ => rfl⟩

/-- What reports the same from a place on does so from further back. -/
theorem RetoldFrom.back (h : RetoldFrom j x y) (hij : i ≤ j) (hx : ∀ a ∈ x, a.From j) :
    RetoldFrom i x y := by
  intro a ha
  obtain ⟨b, hb, hab⟩ := h a ha
  refine ⟨b, hb, ?_⟩
  cases a with
  | done v r =>
    obtain ⟨r', rfl, hr⟩ := hab.eq_done
    exact ⟨rfl, hr⟩
  | failed e r =>
    obtain ⟨e', r', rfl, hoffset, hreport, herror⟩ := hab.eq_failed
    refine ⟨hoffset, hreport, fun hi => herror ?_⟩
    have hfrom : j ≤ r.offset ∧ r.offset ≤ e.offset := hx _ ha
    have hle := Reading.le_offset_report e r
    omega
  | stuck =>
    obtain rfl := hab.eq_stuck
    trivial

end Reply

open Reply

namespace Run

/-- The second parser comes to the reports of the first one, wherever the same can come of what they are
begun with. -/
def Retells (q p : Run τ) : Prop := ∀ r r' : Reading τ, r.Same r' → RetoldFrom r.offset (p r) (q r')

variable {p q p' q' : Run τ} {r r' : Reading τ} {i j : Nat}

theorem retells_never (q : Run τ) : q.Retells never := fun _ _ _ => retold_none

/-- A parser that is retold goes on as the one that retells it. -/
theorem retold_handle (hp : RetoldFrom i (p r) (p' r'))
    {onDone onDone' : Value τ → Reading τ → Option (Reply τ)}
    {onFailed onFailed' : ParseError τ → Reading τ → Option (Reply τ)}
    (hd : ∀ v r₁ r₁', p r = some (.done v r₁) → r₁.Same r₁' →
      RetoldFrom j (onDone v r₁) (onDone' v r₁'))
    (hf : ∀ e e' r₁ r₁', p r = some (.failed e r₁) → SameFrom i (.failed e r₁) (.failed e' r₁') →
      RetoldFrom j (onFailed e r₁) (onFailed' e' r₁')) :
    RetoldFrom j (p.handle r onDone onFailed) (p'.handle r' onDone' onFailed') := by
  cases hpr : p r with
  | none =>
    rw [handle_of_none hpr]
    exact retold_none
  | some reply =>
    obtain ⟨reply', hpr', hsame⟩ := hp reply hpr
    cases reply with
    | done v r₁ =>
      obtain ⟨r₁', rfl, hr₁⟩ := hsame.eq_done
      rw [handle_of_done hpr, handle_of_done hpr']
      exact hd v r₁ r₁' hpr hr₁
    | failed e r₁ =>
      obtain ⟨e', r₁', rfl, hsame⟩ := hsame.eq_failed
      rw [handle_of_failed hpr, handle_of_failed hpr']
      exact hf e e' r₁ r₁' hpr hsame
    | stuck =>
      obtain rfl := hsame.eq_stuck
      rw [handle_of_stuck hpr, handle_of_stuck hpr']
      exact retold_some trivial

theorem retold_andThen (hp : RetoldFrom i (p r) (p' r'))
    {onDone onDone' : Value τ → Reading τ → Option (Reply τ)}
    (hd : ∀ v r₁ r₁', p r = some (.done v r₁) → r₁.Same r₁' →
      RetoldFrom i (onDone v r₁) (onDone' v r₁')) :
    RetoldFrom i (p.andThen r onDone) (p'.andThen r' onDone') :=
  retold_handle hp hd fun _ _ _ _ _ h => retold_some h

theorem retells_orElse (hp : p'.Retells p) (hq : q'.Retells q) : (p'.orElse q').Retells (p.orElse q) := by
  intro r r' hr
  refine retold_handle (hp r r' hr) (fun v r₁ r₁' _ h => retold_done h) fun e e' r₁ r₁' _ h => ?_
  have ⟨hoffset, hreport, _⟩ := h
  rw [← hoffset, ← hr.1]
  split
  · rename_i hplace
    have hsame := Reading.same_hint hoffset hreport
    exact hplace ▸ hq (r₁.hint e) (r₁'.hint e') hsame
  · exact retold_some h

theorem retells_inOrder {ps ps' : List (Run τ)} (h : List.Forall₂ (fun p p' => p'.Retells p) ps ps') :
    (inOrder ps').Retells (inOrder ps) := by
  induction h with
  | nil =>
    intro r r' hr
    show RetoldFrom _ (some (.failed (.unknown r.offset) r)) (some (.failed (.unknown r'.offset) r'))
    rw [← hr.1]
    exact retold_failed hr (Nat.le_refl _)
  | cons hp hps ih =>
    cases hps with
    | nil => exact hp
    | cons => exact retells_orElse hp ih

theorem retells_collect (hp : p'.Retells p) (hregular : p.Regular) (rounds : Nat)
    (items : Array (Value τ)) : (p'.collect rounds items).Retells (p.collect rounds items) := by
  induction rounds generalizing items with
  | zero => exact retells_never _
  | succ rounds ih =>
    intro r r' hr
    refine retold_handle (hp r r' hr) (fun v r₁ r₁' hpr h => ?_) fun e e' r₁ r₁' _ h => ?_
    · rw [← h.1, ← hr.1]
      split
      · exact retold_done h
      · exact (ih _ r₁ r₁' h).back (hregular.forward r _ hpr)
          fun a ha => (hregular.collect rounds _).forward r₁ a ha
    · have ⟨hoffset, hreport, _⟩ := h
      rw [← hoffset, ← hr.1]
      split
      · exact retold_done (Reading.same_hint hoffset hreport)
      · exact retold_some h

end Run

/-! ### Labels -/

namespace Reading

variable {r r' start start' : Reading τ} {e e' : ParseError τ} {name : Option String}

/-- Hints of a labelled parser that succeeded. -/
theorem same_labelled (hstart : start.Same start') (hr : r.Same r') (hle : start.offset ≤ r.offset) :
    (start.rejoin r (start.labelledHints name r)).Same (start'.rejoin r' (start'.labelledHints name r')) := by
  refine ⟨hr.1, ?_⟩
  show live r.offset (mergeOpt start.hints _) = live r.offset (mergeOpt start'.hints _)
  rw [live_mergeOpt, live_mergeOpt, live_congr hle hstart.2]
  refine congrArg (mergeOpt _) ?_
  unfold labelledHints
  rw [← hstart.1, ← hr.1]
  split
  · rename_i hplace
    have hbeyond : live (start.offset + 1) r.hints = live (start.offset + 1) r'.hints :=
      live_congr (by omega) hr.2
    exact congrArg (fun h => live r.offset (mergeOpt h _)) hbeyond
  · split
    · rfl
    · exact hr.2

end Reading

namespace Reply

variable {r r' start start' : Reading τ} {e e' : ParseError τ}

/-- What a label makes of a failure. Where something further ahead is reported, the report stays as it is;
where all lies in place, the label stands for what was expected. -/
theorem exists_labelled (name : Option String) (start : Reading τ) (e : ParseError τ) (r : Reading τ) :
    ∃ e₁ r₁, Reply.labelled name start e r = .failed e₁ r₁ ∧ r₁.offset = r.offset ∧
      (start.offset < (r.report e).offset →
        some (r₁.report e₁) = mergeOpt start.hints (some (r.report e))) ∧
      (e.offset = start.offset → (r.report e).offset = start.offset →
        e₁ = e.withExpected ((name.map ExpectedSet.label).getD .empty) ∧
          some (r₁.report e₁) = mergeOpt start.hints (some e₁)) := by
  refine ⟨_, _, rfl, rfl, fun h => ?_, fun he h => ⟨if_pos he, ?_⟩⟩
  · rw [Reading.some_report]
    show mergeOpt (mergeOpt start.hints _) _ = _
    rw [mergeOpt_assoc, Reading.some_report]
    refine congrArg (mergeOpt start.hints) ?_
    split
    · -- the report is that of the hints
      rcases Reading.lt_offset_report_iff.1 h with ⟨k, hk, hlt⟩ | hlt
      · rw [Option.mem_def.1 hk, Option.filter_some, if_pos (decide_eq_true (by omega))]
        exact congrArg some ((merge_of_gt (by rw [offset_withExpected]; omega)).trans
          (merge_of_gt (by omega)).symm)
      · omega
    · rfl
  · rw [Reading.some_report]
    show mergeOpt (mergeOpt start.hints _) _ = _
    rw [mergeOpt_assoc, if_pos he, if_pos he]
    refine congrArg (mergeOpt start.hints) ?_
    cases hh : r.hints with
    | none => rfl
    | some k =>
      have hle : ¬ start.offset < k.offset := fun hlt => by
        have hreport : start.offset < (r.report e).offset :=
          Reading.lt_offset_report_iff.2 (.inl ⟨k, hh, hlt⟩)
        omega
      rw [Option.filter_some]
      split
      · rename_i hne
        have hk : k.offset < start.offset :=
          Nat.lt_of_le_of_ne (Nat.not_lt.1 hle) (of_decide_eq_true hne)
        exact congrArg some (merge_of_lt (by rw [offset_withExpected]; omega))
      · rfl

theorem retold_labelled (name : Option String) (hstart : start.Same start')
    (h : SameFrom start.offset (.failed e r) (.failed e' r')) (he : start.offset ≤ e.offset) :
    RetoldFrom start.offset (some (.labelled name start e r)) (some (.labelled name start' e' r')) := by
  obtain ⟨hoffset, hreport, herror⟩ := h
  obtain ⟨e₁, r₁, heq, hr₁, hahead, hplace⟩ := exists_labelled name start e r
  obtain ⟨e₁', r₁', heq', hr₁', hahead', hplace'⟩ := exists_labelled name start' e' r'
  have hle := Reading.le_offset_report e r
  rw [heq, heq']
  refine retold_some ⟨hr₁.trans (hoffset.trans hr₁'.symm), ?_⟩
  rcases Nat.lt_or_ge start.offset (r.report e).offset with hlt | hge
  · have hreport₁ := hahead hlt
    have hreport₁' := hahead' (by rwa [← hreport, ← hstart.1])
    have hsame : mergeOpt start.hints (some (r.report e)) = mergeOpt start'.hints (some (r'.report e')) := by
      rw [← hreport]
      exact mergeOpt_congr hstart.2 (by omega)
    have hahead₁ : ∃ k ∈ some (r₁.report e₁), start.offset < k.offset := by
      rw [hreport₁]
      exact exists_mem_mergeOpt.2 (.inr ⟨_, rfl, hlt⟩)
    have hlt₁ : start.offset < (r₁.report e₁).offset := by simpa using hahead₁
    exact ⟨Option.some.inj (hreport₁.trans (hsame.trans hreport₁'.symm)), fun h => by omega⟩
  · have hsame := herror (by omega)
    have he' : e'.offset = start.offset := by
      rw [← offset_withExpected .empty e', ← hsame, offset_withExpected]
      omega
    obtain ⟨he₁, hreport₁⟩ := hplace (by omega) (by omega)
    obtain ⟨he₁', hreport₁'⟩ := hplace' (he'.trans hstart.1) (by rw [← hreport, ← hstart.1]; omega)
    have herror₁ : e₁ = e₁' := by rw [he₁, he₁', withExpected_congr hsame]
    subst herror₁
    refine ⟨Option.some.inj (hreport₁.trans (Eq.trans ?_ hreport₁'.symm)), fun _ => rfl⟩
    exact mergeOpt_congr hstart.2 (by rw [he₁, offset_withExpected]; exact he)

end Reply

/-! ### Forms -/

section Forms

variable {p q p' q' : Run τ} {input : Array τ}

theorem Leaf.retells_run {ofCall ofCall' : Nat → Run τ} (hcall : ∀ l, (ofCall' l).Retells (ofCall l))
    (l : Leaf τ) : (l.run input ofCall').Retells (l.run input ofCall) := by
  intro r r' hr
  have hcurrent : r'.current? input = r.current? input := Reading.current?_congr hr.1.symm
  have hhere {s s' : Reading τ} (hs : s.Same s') (e : ExpectedSet τ) : RetoldFrom r.offset
      (some (.failed (s.errorHere input e) s)) (some (.failed (s'.errorHere input e) s')) := by
    rw [Reading.errorHere_congr hs.1.symm]
    exact retold_failed hs (Nat.le_refl _)
  have hone (accept : τ → Bool) (e : ExpectedSet τ) :
      RetoldFrom r.offset (Run.one input accept e r) (Run.one input accept e r') := by
    unfold Run.one
    rw [hcurrent]
    split
    · split
      · exact retold_done (hr.moved 1)
      · exact hhere hr e
    · exact hhere hr e
  cases l with
  | pure v => exact retold_done hr
  | fail f =>
    show RetoldFrom _ (some (.failed (f.raise r.offset) r)) (some (.failed (f.raise r'.offset) r'))
    rw [← hr.1]
    refine retold_failed hr (Nat.le_of_eq ?_)
    cases f <;> rfl
  | empty =>
    show RetoldFrom _ (some (.failed (.unknown r.offset) r)) (some (.failed (.unknown r'.offset) r'))
    rw [← hr.1]
    exact retold_failed hr (Nat.le_refl _)
  | satisfy test e => exact hone _ _
  | single t e => exact hone _ _
  | literal ts v e =>
    have hmoved := hr.moved (matchLength input r.offset ts)
    show RetoldFrom _ (Run.literal input ts v e r) (Run.literal input ts v e r')
    unfold Run.literal
    dsimp only
    rw [← hr.1] at hmoved ⊢
    split
    · exact retold_done hmoved
    · exact hhere hmoved e
  | eof =>
    show RetoldFrom _ (Run.endOfInput input r) (Run.endOfInput input r')
    unfold Run.endOfInput
    rw [hcurrent]
    split
    · exact hhere hr _
    · exact retold_done hr
  | call l => exact hcall l r r' hr

theorem Unary.retells_run (hp : p'.Retells p) (hregular : p.Regular) (rounds : Nat) {u : Unary τ}
    (hu : ¬ u.Inspects) : (u.run input rounds p').Retells (u.run input rounds p) := by
  intro r r' hr
  have hspan {r₁ r₁' : Reading τ} (h : r₁.Same r₁') : r.span input r₁ = r'.span input r₁' := by
    unfold Reading.span
    rw [hr.1, h.1]
  cases u with
  | many => exact Run.retells_collect hp hregular rounds #[] r r' hr
  | map f => exact Run.retold_andThen (hp r r' hr) fun v r₁ r₁' _ h => retold_done h
  | chunk =>
    refine Run.retold_andThen (hp r r' hr) fun v r₁ r₁' _ h => ?_
    rw [hspan h]
    exact retold_done h
  | matchChunk =>
    refine Run.retold_andThen (hp r r' hr) fun v r₁ r₁' _ h => ?_
    rw [hspan h]
    exact retold_done h
  | attempt =>
    exact Run.retold_handle (hp r r' hr) (fun v r₁ r₁' _ h => retold_done h) fun e e' r₁ r₁' _ h =>
      retold_some ⟨hr.1, h.2⟩
  | label name =>
    refine Run.retold_handle (hp r.bare r'.bare (Reading.same_bare hr.1)) (fun v r₁ r₁' hpr h => ?_)
      fun e e' r₁ r₁' hpr h => ?_
    · exact retold_done (Reading.same_labelled hr h (hregular.forward r.bare _ hpr))
    · obtain ⟨hle, he⟩ := hregular.forward r.bare _ hpr
      exact retold_labelled name hr h (Nat.le_trans hle he)
  | lookAhead | notFollowedBy | guard => exact absurd trivial hu

theorem Binary.retells_run (hp : p'.Retells p) (hq : q'.Retells q) (hpr : p.Regular) (hqr : q.Regular)
    (b : Binary τ) : (b.run p' q').Retells (b.run p q) := by
  intro r r' hr
  have hsecond (f : Value τ → Value τ) {v : Value τ} {r₁ r₁' : Reading τ}
      (hr₁ : p r = some (.done v r₁)) (h : r₁.Same r₁') :
      RetoldFrom r.offset (q.andThen r₁ fun w r₂ => some (.done (f w) r₂))
        (q'.andThen r₁' fun w r₂ => some (.done (f w) r₂)) := by
    have hthen : RetoldFrom r₁.offset (q.andThen r₁ fun w r₂ => some (.done (f w) r₂))
        (q'.andThen r₁' fun w r₂ => some (.done (f w) r₂)) :=
      Run.retold_andThen (hq r₁ r₁' h) fun w r₂ r₂' _ h => retold_done h
    refine hthen.back (hpr.forward r _ hr₁) fun a ha => ?_
    exact (hqr.value (f := fun _ w _ => f w) fun _ _ _ _ => rfl).forward r₁ a ha
  cases b with
  | seq kind =>
    exact Run.retold_andThen (hp r r' hr) fun v r₁ r₁' hr₁ h => hsecond (kind.value v) hr₁ h
  | alt => exact Run.retells_orElse hp hq r r' hr
  | branch f =>
    refine Run.retold_andThen (hp r r' hr) fun v r₁ r₁' hr₁ h => ?_
    cases v with
    | leftBranch v => exact hsecond (f v) hr₁ h
    | rightBranch v => exact retold_done h
    | _ => exact retold_some trivial

end Forms

/-! ### Trees without tables -/

/-- What calls report again, expressions report again. -/
theorem Expr.retells_run {x y : Setting τ} (hx : x.target.options.dispatchTables = false)
    (hy : y.target.options.dispatchTables = false) (hinput : x.input = y.input)
    (hrounds : x.rounds = y.rounds) (hregular : ∀ l, (x.ofCall l).Regular)
    (hcall : ∀ l, (y.ofCall l).Retells (x.ofCall l)) {p : Expr τ} (hp : p.Without Unary.Inspects) :
    (p.run y).Retells (p.run x) := by
  induction p with
  | leaf l =>
    rw [run_leaf, run_leaf, ← hinput]
    exact Leaf.retells_run hcall l
  | unary u p ih =>
    rw [run_unary, run_unary, ← hinput, ← hrounds]
    exact Unary.retells_run (ih hp.2) (regular_run hx hregular hp.2) x.rounds hp.1
  | binary b p q ihp ihq =>
    rw [run_binary_of_noTables x hx, run_binary_of_noTables y hy]
    exact Binary.retells_run (ihp hp.1) (ihq hp.2) (regular_run hx hregular hp.1)
      (regular_run hx hregular hp.2) b

end ParserMachine
