import Mathlib.Data.List.Perm.Basic
import ParserMachine.Proofs.Assembly.Running

/-!
# How control flows through code

Control comes to a place of a block either while the parser goes on, or at a handler with an error in flight
(`Flow`); in both cases what the activation has put on the stacks depends on the place only (`Slot`). Which flow an
instruction takes to which (`Instr.Passes`) says how values, checks and handlers pair up: an instruction that removes
a handler finds the check that goes with it below the result, and those that stand at handlers are come to by
failures only. Code carries one flow to another if flows can be given to its labels so that all instructions pass
(`Code.Carries`).

An instruction that never goes on with the next one passes to whatever flow the lines behind it expect. What
forms a grammar goes without is kept track of on the way: instructions stem from forms that are not `bad`.
-/

namespace ParserMachine

variable {τ : Type} [Token τ] {ι κ : Type} {bad : Unary τ → Prop}

/-- What an activation has put on the stacks. -/
inductive Slot where
  /-- A value. -/
  | value
  /-- A check at which a span begins. -/
  | span
  /-- A handler and the check that goes with it, which has set the hints aside if it is a snapshot. -/
  | guard (snapshot : Bool)
  /-- The handler and the check of a repetition. -/
  | round

namespace Slot

/-- Some values. -/
def values (n : Nat) : List Slot := List.replicate n value

@[simp] theorem values_zero : values 0 = [] := rfl

/-- The result, where one is pushed. -/
def result (pushes : Bool) : List Slot := values pushes.toNat

/-- Whether there is a handler. -/
def handles : Slot → Bool
  | guard _ | round => true
  | _ => false

end Slot

/-- How control comes to a place, and what the activation has put on the stacks, the highest first. -/
inductive Flow where
  /-- No error is in flight. -/
  | runs (ks : List Slot)
  /-- An error in flight has met a handler, and the check that went with this lies upon the others. -/
  | fails (k : Slot) (ks : List Slot)

/-- The flow with more below. -/
def Flow.above (base : List Slot) : Flow → Flow
  | runs ks => runs (ks ++ base)
  | fails k ks => fails k (ks ++ base)

@[simp] theorem Flow.above_nil (f : Flow) : f.above [] = f := by
  cases f <;> simp [above]

/-- How many values are left of a match. -/
def Output.gives : Output τ → Nat
  | discard => 0
  | _ => 1

/-- How many values a slice takes. -/
def SliceMode.takes : SliceMode → Nat
  | chunk => 0
  | pair => 1

namespace Instr

/-- Whether the instruction goes on with the next one, unless it fails, and leaves handlers and checks as they
are. -/
def isSteady : Instr τ ι → Bool
  | push _ | pop | map _ | lift2 _ | newList | single _ _ _ | satisfy _ _ _ | literal _ _ _ _
  | satisfyMany _ _ _ | eof _ | hint _ | call _ => true
  | _ => false

/-- How many values the instruction takes, where it leaves handlers and checks as they are. -/
def takes : Instr τ ι → Nat
  | pop | map _ | case _ => 1
  | lift2 _ => 2
  | _ => 0

/-- How many values the instruction gives for them. A call gives one when it returns. -/
def gives : Instr τ ι → Nat
  | push _ | map _ | lift2 _ | newList | call _ | case _ => 1
  | single _ _ out | satisfy _ _ out | literal _ _ _ out => out.gives
  | satisfyMany _ _ pushes => pushes.toNat
  | _ => 0

/-- Whether the instruction always fails. -/
def isFailing : Instr τ ι → Bool
  | fail _ | empty | expect _ => true
  | _ => false

open Slot

/-- The instruction takes the first flow to the second, where control may come to its targets by the flows
`via`. -/
inductive Passes (bad : Unary τ → Prop) (via : ι → Flow → Prop) : Instr τ ι → Flow → Flow → Prop where
  | steady {i : Instr τ ι} {ks : List Slot} (hi : i.isSteady = true) :
    Passes bad via i (.runs (values i.takes ++ ks)) (.runs (values i.gives ++ ks))
  | failing {i : Instr τ ι} {ks : List Slot} {f : Flow} (hi : i.isFailing = true) :
    Passes bad via i (.runs ks) f
  | jump {t : ι} {ks : List Slot} {f : Flow} (ht : via t (.runs ks)) : Passes bad via (.jump t) (.runs ks) f
  | case {t : ι} {ks : List Slot} (ht : via t (.runs (value :: ks))) :
    Passes bad via (.case t) (.runs (value :: ks)) (.runs (value :: ks))
  | dispatch {table : List (τ × Nat)} {ts : List ι} {before : List (ExpectedSet τ)} {all : ExpectedSet τ}
    {fallback : Option ι} {ks : List Slot} {f : Flow} (hts : ∀ t ∈ ts ++ fallback.toList, via t (.runs ks)) :
    Passes bad via (.dispatch table ts before all fallback) (.runs ks) f
  | checkpoint {t : ι} {snapshot : Bool} {ks : List Slot} (ht : via t (.fails (guard snapshot) ks)) :
    Passes bad via (.checkpoint t snapshot) (.runs ks) (.runs (guard snapshot :: ks))
  | round {t : ι} {ks : List Slot} (ht : via t (.fails round ks)) :
    Passes bad via (.checkpoint t false) (.runs ks) (.runs (round :: ks))
  | commit {t : ι} {n : Nat} {snapshot : Bool} {ks : List Slot} {f : Flow} (ht : via t (.runs (values n ++ ks))) :
    Passes bad via (.commit t) (.runs (values n ++ guard snapshot :: ks)) f
  | release {t : ι} {n : Nat} {snapshot : Bool} {ks : List Slot} {f : Flow} (ht : via t (.runs (values n ++ ks))) :
    Passes bad via (.release t) (.runs (values n ++ guard snapshot :: ks)) f
  | restore {t : ι} {n : Nat} {snapshot : Bool} {ks : List Slot} {f : Flow} (ht : via t (.runs (values n ++ ks))) :
    Passes bad via (.restore t) (.runs (values n ++ guard snapshot :: ks)) f
  | negFail {ks : List Slot} {f : Flow} (hgood : ¬ bad .notFollowedBy) :
    Passes bad via .negFail (.runs (guard true :: ks)) f
  | labelOk {name : Option String} {t : ι} {n : Nat} {ks : List Slot} {f : Flow} (hgood : ¬ bad (.label name))
    (ht : via t (.runs (values n ++ ks))) : Passes bad via (.labelOk name t) (.runs (values n ++ guard true :: ks)) f
  | loop {body exit : ι} {pushes : Bool} {ks : List Slot} {f : Flow}
    (hbody : via body (.runs (round :: (result pushes ++ ks)))) (hexit : via exit (.runs (result pushes ++ ks))) :
    Passes bad via (.loop body exit pushes) (.runs (result pushes ++ round :: (result pushes ++ ks))) f
  | recover {ks : List Slot} : Passes bad via .recover (.fails (guard false) ks) (.runs ks)
  | manyDone {ks : List Slot} : Passes bad via .manyDone (.fails round ks) (.runs ks)
  | rewind {ks : List Slot} {f : Flow} : Passes bad via .rewind (.fails (guard false) ks) f
  | negSucceed {pushes : Bool} {ks : List Slot} (hgood : ¬ bad .notFollowedBy) :
    Passes bad via (.negSucceed pushes) (.fails (guard true) ks) (.runs (result pushes ++ ks))
  | labelErr {name : Option String} {ks : List Slot} {f : Flow} (hgood : ¬ bad (.label name)) :
    Passes bad via (.labelErr name) (.fails (guard true) ks) f
  | guardErr {mode : GuardMode τ} {pushes : Bool} {ks : List Slot} {f : Flow} (hgood : ¬ bad (.guard mode))
    (hf : mode = .capture → f = .runs (result pushes ++ ks)) :
    Passes bad via (.guardErr mode pushes) (.fails (guard true) ks) f
  | mark {ks : List Slot} : Passes bad via .mark (.runs ks) (.runs (span :: ks))
  | slice {mode : SliceMode} {ks : List Slot} :
    Passes bad via (.slice mode) (.runs (values mode.takes ++ span :: ks)) (.runs (value :: ks))

variable {via : ι → Flow → Prop} {via' : κ → Flow → Prop} {i : Instr τ ι} {f f' : Flow}

theorem isSteady_mapTargets (r : ι → κ) (i : Instr τ ι) : (i.mapTargets r).isSteady = i.isSteady := by
  cases i <;> rfl

theorem isFailing_mapTargets (r : ι → κ) (i : Instr τ ι) : (i.mapTargets r).isFailing = i.isFailing := by
  cases i <;> rfl

theorem takes_mapTargets (r : ι → κ) (i : Instr τ ι) : (i.mapTargets r).takes = i.takes := by
  cases i <;> rfl

theorem gives_mapTargets (r : ι → κ) (i : Instr τ ι) : (i.mapTargets r).gives = i.gives := by
  cases i <;> rfl

theorem passes_iff_of_isSteady (hi : i.isSteady = true) : i.Passes bad via f f' ↔
    ∃ ks, f = .runs (values i.takes ++ ks) ∧ f' = .runs (values i.gives ++ ks) := by
  constructor
  · intro h
    cases h with
    | @steady _ ks _ => exact ⟨ks, rfl, rfl⟩
    | failing hfailing => cases i <;> simp_all [isSteady, isFailing]
    | _ => cases hi
  · rintro ⟨ks, rfl, rfl⟩
    exact .steady hi

/-- Targets may be replaced, and more may lie below. -/
theorem Passes.mapTargets {r : ι → κ} {base : List Slot} (h : i.Passes bad via f f')
    (hto : ∀ t g, via t g → via' (r t) (g.above base)) :
    (i.mapTargets r).Passes bad via' (f.above base) (f'.above base) := by
  cases h with
  | @steady _ ks hi =>
    refine (passes_iff_of_isSteady ((isSteady_mapTargets r i).trans hi)).2 ⟨ks ++ base, ?_, ?_⟩
    · rw [takes_mapTargets, ← List.append_assoc]
      rfl
    · rw [gives_mapTargets, ← List.append_assoc]
      rfl
  | failing hi => exact .failing ((isFailing_mapTargets r i).trans hi)
  | jump ht => exact .jump (hto _ _ ht)
  | case ht => exact .case (hto _ _ ht)
  | @dispatch table ts before all fallback ks _ hts =>
    rw [mapTargets_dispatch]
    refine .dispatch fun t ht => ?_
    rcases List.mem_append.1 ht with ht | ht
    · obtain ⟨u, hu, rfl⟩ := List.mem_map.1 ht
      exact hto _ _ (hts u (List.mem_append_left _ hu))
    · obtain ⟨u, hu, rfl⟩ := Option.map_eq_some_iff.1 (Option.mem_toList.1 ht)
      exact hto _ _ (hts u (List.mem_append_right _ (Option.mem_toList.2 hu)))
  | checkpoint ht => exact .checkpoint (hto _ _ ht)
  | round ht => exact .round (hto _ _ ht)
  | commit ht =>
    have ht := hto _ _ ht
    simp only [Flow.above, List.append_assoc, List.cons_append] at ht ⊢
    exact .commit ht
  | release ht =>
    have ht := hto _ _ ht
    simp only [Flow.above, List.append_assoc, List.cons_append] at ht ⊢
    exact .release ht
  | restore ht =>
    have ht := hto _ _ ht
    simp only [Flow.above, List.append_assoc, List.cons_append] at ht ⊢
    exact .restore ht
  | negFail hgood => exact .negFail hgood
  | labelOk hgood ht =>
    have ht := hto _ _ ht
    simp only [Flow.above, List.append_assoc, List.cons_append] at ht ⊢
    exact .labelOk hgood ht
  | loop hbody hexit =>
    have hbody := hto _ _ hbody
    have hexit := hto _ _ hexit
    simp only [Flow.above, List.append_assoc, List.cons_append] at hbody hexit ⊢
    exact .loop hbody hexit
  | recover => exact .recover
  | manyDone => exact .manyDone
  | rewind => exact .rewind
  | negSucceed hgood =>
    simp only [Flow.above, List.append_assoc]
    exact .negSucceed hgood
  | labelErr hgood => exact .labelErr hgood
  | guardErr hgood hf =>
    refine .guardErr hgood fun hmode => ?_
    rw [hf hmode, Flow.above, List.append_assoc]
  | mark => exact .mark
  | slice =>
    simp only [Flow.above, List.append_assoc, List.cons_append]
    exact .slice

theorem Passes.mono {via via' : ι → Flow → Prop} {i : Instr τ ι} (h : i.Passes bad via f f')
    (hto : ∀ t g, via t g → via' t g) : i.Passes bad via' f f' := by
  have hmap : (i.mapTargets fun t => t).Passes bad via' (f.above []) (f'.above []) := by
    refine h.mapTargets fun t g ht => ?_
    rw [Flow.above_nil]
    exact hto t g ht
  rwa [mapTargets_id, Flow.above_nil, Flow.above_nil] at hmap

end Instr

namespace Code

/-- Control flows through the lines by these flows, where it comes to labels by the flows `via`. -/
inductive Flows (bad : Unary τ → Prop) (via : Label → Flow → Prop) : Code τ → Flow → Flow → Prop where
  | nil (f : Flow) : Flows bad via [] f f
  | mark {l : Label} {c : Code τ} {f f' : Flow} (hl : via l f) (hc : Flows bad via c f f') :
    Flows bad via (.mark l :: c) f f'
  | instr {i : Instr τ Label} {c : Code τ} {f f₁ f' : Flow} (hi : i.Passes bad via f f₁)
    (hc : Flows bad via c f₁ f') : Flows bad via (.instr i :: c) f f'

variable {via via' : Label → Flow → Prop} {c d block : Code τ} {f f' g : Flow} {l : Label}

theorem Flows.append {f₁ : Flow} (hc : c.Flows bad via f f₁) (hd : d.Flows bad via f₁ f') :
    (c ++ d).Flows bad via f f' := by
  induction hc with
  | nil => exact hd
  | mark hl _ ih => exact .mark hl (ih hd)
  | instr hi _ ih => exact .instr hi (ih hd)

theorem Flows.mono (h : c.Flows bad via f f') (hto : ∀ t g, via t g → via' t g) : c.Flows bad via' f f' := by
  induction h with
  | nil => exact .nil _
  | mark hl _ ih => exact .mark (hto _ _ hl) ih
  | instr hi _ ih => exact .instr (hi.mono hto) ih

theorem Flows.single {i : Instr τ Label} (hi : i.Passes bad via f f') :
    Flows bad via [.instr i] f f' := .instr hi (.nil _)

/-- Control comes to each label by one flow. -/
def Definite (via : Label → Flow → Prop) : Prop := ∀ l f g, via l f → via l g → f = g

/-- After a mark control goes on from the flow by which it comes to the label. -/
theorem Flows.after (h : c.Flows bad via f f') (hto : Definite via) (hl : l ∈ marks c) (hg : via l g) :
    (after l c).Flows bad via g f' := by
  induction h with
  | nil => cases hl
  | @mark m c f f' hm hc ih =>
    unfold Code.after
    by_cases hml : m = l
    · subst hml
      rw [if_pos rfl, hto m g f hg hm]
      exact hc
    · rw [if_neg hml]
      exact ih ((List.mem_cons.1 hl).resolve_left (Ne.symm hml))
  | instr _ _ ih => exact ih hl

/-- Flows can be given to the labels of the code, one to each, so that control flows through it; to labels
elsewhere control comes by the flows in `ext`. -/
def CarriesWith (bad : Unary τ → Prop) (ext : List (Label × Flow)) (c : Code τ) (f f' : Flow) : Prop :=
  ∃ ls : List (Label × Flow), (ls.map Prod.fst).Perm (marks c) ∧ c.Flows bad (fun l g => (l, g) ∈ ls ++ ext) f f'

/-- Flows can be given to the labels of the code so that control flows through it. -/
abbrev Carries (bad : Unary τ → Prop) (c : Code τ) (f f' : Flow) : Prop := c.CarriesWith bad [] f f'

variable {ext ext' : List (Label × Flow)}

theorem CarriesWith.nil (f : Flow) : CarriesWith bad ext [] f f := ⟨[], .refl _, .nil f⟩

theorem CarriesWith.append {f₁ : Flow} (hc : c.CarriesWith bad ext f f₁) (hd : d.CarriesWith bad ext f₁ f') :
    (c ++ d).CarriesWith bad ext f f' := by
  obtain ⟨ls, hperm, hflows⟩ := hc
  obtain ⟨ls', hperm', hflows'⟩ := hd
  refine ⟨ls ++ ls', ?_, (hflows.mono fun l g hl => ?_).append (hflows'.mono fun l g hl => ?_)⟩
  · rw [List.map_append, marks_append]
    exact hperm.append hperm'
  · simp only [List.mem_append] at hl ⊢
    exact hl.imp_left .inl
  · simp only [List.mem_append] at hl ⊢
    exact hl.imp_left .inr

/-- An instruction goes to labels elsewhere. -/
theorem CarriesWith.instr {i : Instr τ Label} (hi : i.Passes bad (fun l g => (l, g) ∈ ext) f f') :
    CarriesWith bad ext [.instr i] f f' := ⟨[], .refl _, .single hi⟩

end Code

/-- Control flows through the main block and through every subroutine, from its beginning to its end, where it leaves
one value, and comes to each label by one flow. -/
def Assembly.Carries (bad : Unary τ → Prop) (a : Assembly τ) : Prop :=
  ∃ via : Label → Flow → Prop, Code.Definite via ∧ (∀ l g, via l g → l < a.fresh) ∧
    ∀ c ∈ a.codes, c.Flows bad via (.runs []) (.runs [.value])

/-- Control comes to the positions of the program by the flows `into`. -/
structure Program.FlowsBy (bad : Unary τ → Prop) (p : Program τ) (into : Nat → Flow → Prop) : Prop where
  /-- A run begins with empty stacks. -/
  main : into 0 (.runs [])
  /-- An activation returns with one value of its own, and calls begin with nothing. -/
  next : ∀ {q : Nat} {f : Flow} {i : Instr τ Nat}, into q f → p.code[q]? = some i →
    (i = .ret ∧ f = .runs [.value]) ∨
      ((∀ t, i = .call t → into t (.runs [])) ∧ ∃ f', i.Passes bad into f f' ∧ into (q + 1) f')

end ParserMachine
