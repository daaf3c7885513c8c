import Mathlib.Data.List.Nodup
import ParserMachine.Assembly.Inline
import ParserMachine.Proofs.Assembly.Running
import ParserMachine.Proofs.Generation.Labels

/-!
# Copies of code

A copy has new labels in place of those that the code marks (`Code.renamed`, `Code.newName`); the new
labels are in a row, and calls stay as they are. Where calls are replaced by copies
(`Code.Inlines`), the code marks what it marked before and the labels that were handed out.
-/

namespace ParserMachine

variable {τ : Type} [Token τ] {bodies : Std.TreeMap Label (Block τ)}

/-- The line with labels replaced. -/
def Line.renamed (f : Label → Label) : Line τ → Line τ
  | mark l => mark (f l)
  | instr i => instr (i.mapTargets f)

theorem Line.jumps_renamed (f : Label → Label) (line : Line τ) :
    (line.renamed f).jumps = line.jumps.map f := by
  cases line with
  | mark l => rfl
  | instr i =>
    have hplain : (i.mapTargets f).isPlain = i.isPlain := by cases i <;> rfl
    show (if (i.mapTargets f).isPlain then _ else _) = List.map f (if i.isPlain then _ else _)
    rw [hplain, Instr.targets_mapTargets]
    split <;> rfl

theorem Line.call?_renamed (f : Label → Label) (line : Line τ) :
    (line.renamed f).call? = line.call?.map f := by
  cases line with
  | mark l => rfl
  | instr i => cases i <;> rfl

namespace Code

variable {c d : Code τ} {k k' l : Nat}

/-- The code with labels replaced. -/
def renamed (f : Label → Label) (c : Code τ) : Code τ := c.map (Line.renamed f)

theorem renamed_append (f : Label → Label) (c d : Code τ) :
    renamed f (c ++ d) = renamed f c ++ renamed f d := List.map_append

theorem marks_renamed (f : Label → Label) (c : Code τ) : marks (renamed f c) = (marks c).map f := by
  induction c with
  | nil => rfl
  | cons line c ih =>
    cases line with
    | mark l => exact congrArg (f l :: ·) ih
    | instr i => exact ih

theorem calls_renamed (f : Label → Label) (c : Code τ) : calls (renamed f c) = (calls c).map f := by
  induction c with
  | nil => rfl
  | cons line c ih =>
    have hcons : renamed f (line :: c) = line.renamed f :: renamed f c := rfl
    rw [hcons, calls_cons, calls_cons, ih, Line.call?_renamed, List.map_append]
    cases line.call? <;> rfl

/-- The new label in a copy whose labels begin with `k`. -/
def newName (k : Label) (c : Code τ) (l : Label) : Label := (freshNames k c).getD l l

theorem copy_eq (k : Label) (c : Code τ) :
    copy k c = (renamed (newName k c) c, k + (marks c).length) := by
  unfold copy rename renamed
  refine Prod.ext (List.map_congr_left fun line _ => ?_) rfl
  cases line <;> rfl

section Names

variable {ls : List Label} {names : Std.TreeMap Label Label}

/-- Labels that are given new names one after another. -/
def named (names : Std.TreeMap Label Label) (k : Label) (ls : List Label) : Std.TreeMap Label Label :=
  (ls.zipIdx k).foldl (fun m (l, new) => m.insert l new) names

theorem getD_named_of_not_mem (h : l ∉ ls) : (named names k ls).getD l l = names.getD l l := by
  induction ls generalizing names k with
  | nil => rfl
  | cons m ls ih =>
    rw [List.mem_cons, not_or] at h
    refine (ih h.2).trans ?_
    rw [Std.TreeMap.getD_insert, if_neg]
    rw [Std.LawfulEqCmp.compare_eq_iff_eq]
    exact Ne.symm h.1

theorem map_getD_named (h : ls.Nodup) :
    ls.map (fun l => (named names k ls).getD l l) = List.range' k ls.length := by
  induction ls generalizing names k with
  | nil => rfl
  | cons m ls ih =>
    rw [List.nodup_cons] at h
    rw [List.map_cons, List.length_cons, List.range'_succ]
    congr 1
    · refine (getD_named_of_not_mem h.1).trans ?_
      rw [Std.TreeMap.getD_insert, if_pos (Std.LawfulEqCmp.compare_eq_iff_eq.2 rfl)]
    · exact ih h.2

end Names

/-- A label that the code does not mark keeps its name. -/
theorem newName_of_not_mem (h : l ∉ marks c) : newName k c l = l := by
  refine (getD_named_of_not_mem h).trans ?_
  simp

/-- The new labels are in a row. -/
theorem map_newName (h : (marks c).Nodup) :
    (marks c).map (newName k c) = List.range' k (marks c).length := map_getD_named h

/-- Code and what it becomes when calls are replaced by copies, with labels from `k` up to `k'`. -/
inductive Inlines (bodies : Std.TreeMap Label (Block τ)) : Nat → Code τ → Code τ → Nat → Prop where
  /-- The end. -/
  | nil (k : Nat) : Inlines bodies k [] [] k
  /-- A line that stays. -/
  | line {k k' : Nat} {c d : Code τ} {line : Line τ} :
    (line.call?.bind fun l => bodies[l]?) = none → Inlines bodies k c d k' →
    Inlines bodies k (line :: c) (line :: d) k'
  /-- A call becomes a copy. -/
  | copy {k k' : Nat} {c d : Code τ} {l : Label} {b : Block τ} : bodies[l]? = some b →
    Inlines bodies (k + (marks b.code).length) c d k' →
    Inlines bodies k (.instr (.call l) :: c) (renamed (newName k b.code) b.code ++ d) k'

theorem inlines_inlineCalls (bodies : Std.TreeMap Label (Block τ)) (k : Nat) (c : Code τ) :
    Inlines bodies k c (inlineCalls bodies k c).1 (inlineCalls bodies k c).2.1 := by
  induction c generalizing k with
  | nil => exact .nil k
  | cons line c ih =>
    unfold inlineCalls
    cases hbody : line.call?.bind fun l => bodies[l]? with
    | none => exact .line hbody (ih k)
    | some b =>
      obtain ⟨l, hl, hb⟩ := Option.bind_eq_some_iff.1 hbody
      obtain rfl : line = .instr (.call l) := by
        unfold Line.call? at hl
        split at hl
        · cases hl
          rfl
        · cases hl
      dsimp only
      rw [copy_eq]
      exact .copy hb (ih _)

/-- What is not marked in a beginning is looked for behind it. -/
theorem after_append_of_not_mem (h : l ∉ marks c) : after l (c ++ d) = after l d := by
  induction c with
  | nil => rfl
  | cons line c ih =>
    cases line with
    | instr i => exact ih h
    | mark m =>
      rw [marks_mark, List.mem_cons, not_or] at h
      show (if m = l then _ else after l (c ++ d)) = _
      rw [if_neg (Ne.symm h.1)]
      exact ih h.2

section Inlines

variable (hbodies : ∀ (l : Nat) b, bodies[l]? = some b → (marks b.code).Nodup)

theorem Inlines.le (h : Inlines bodies k c d k') : k ≤ k' := by
  induction h with
  | nil k => exact Nat.le_refl k
  | line _ _ ih => exact ih
  | copy _ _ ih => exact Nat.le_trans (Nat.le_add_right _ _) ih

/-- All marks stay. -/
theorem Inlines.mem_marks (h : Inlines bodies k c d k') (hl : l ∈ marks c) : l ∈ marks d := by
  induction h with
  | nil => cases hl
  | @line k k' c d line _ _ ih =>
    cases line with
    | mark m =>
      rcases List.mem_cons.1 hl with rfl | hl
      · exact List.mem_cons_self ..
      · exact List.mem_cons_of_mem _ (ih hl)
    | instr i => exact ih hl
  | copy _ _ ih =>
    rw [marks_append]
    exact List.mem_append_right _ (ih hl)

include hbodies in
/-- The labels of the copies are those that were handed out. -/
theorem Inlines.marks_perm (h : Inlines bodies k c d k') :
    (marks d).Perm (marks c ++ labelsBetween k k') := by
  induction h with
  | nil k =>
    rw [labelsBetween_self]
    exact .refl _
  | @line k k' c d line _ _ ih =>
    cases line with
    | mark l => exact ih.cons l
    | instr i => exact ih
  | @copy k k' c d l b hb h ih =>
    have hnames : marks (renamed (newName k b.code) b.code) =
        labelsBetween k (k + (marks b.code).length) := by
      rw [marks_renamed, map_newName (hbodies l b hb), labelsBetween_add]
    rw [marks_append, hnames, ← labelsBetween_append (Nat.le_add_right _ _) h.le]
    exact (ih.append_left _).trans (List.perm_append_comm_assoc _ _ _)

/-- The code after a mark. -/
theorem Inlines.after (h : Inlines bodies k c d k') (hl : l ∈ marks c) (hnodup : (marks d).Nodup) :
    ∃ j, Inlines bodies j (after l c) (after l d) k' := by
  induction h with
  | nil => cases hl
  | @line k k' c d line _ h ih =>
    cases line with
    | mark m =>
      unfold Code.after
      by_cases hml : m = l
      · rw [if_pos hml, if_pos hml]
        exact ⟨k, h⟩
      · rw [if_neg hml, if_neg hml]
        exact ih ((List.mem_cons.1 hl).resolve_left (Ne.symm hml)) (List.nodup_cons.1 hnodup).2
    | instr i => exact ih hl hnodup
  | @copy k k' c d m b _ h ih =>
    rw [marks_append, List.nodup_append] at hnodup
    have hskip : Code.after l (renamed (newName k b.code) b.code ++ d) = Code.after l d := by
      apply after_append_of_not_mem
      intro hmem
      exact hnodup.2.2 l hmem l (h.mem_marks hl) rfl
    rw [hskip]
    exact ih hl hnodup.2.1

/-- The lines of a copy jump to marks of it. -/
theorem lines_renamed (f : Label → Label) (hc : c.Closed) :
    ∀ line ∈ renamed f c, (∀ t ∈ line.jumps, t ∈ marks (renamed f c)) ∧ line ≠ .instr .ret := by
  intro line hline
  obtain ⟨line, hmem, rfl⟩ := List.mem_map.1 hline
  constructor
  · intro t ht
    rw [Line.jumps_renamed] at ht
    obtain ⟨t', ht', rfl⟩ := List.mem_map.1 ht
    rw [marks_renamed]
    exact List.mem_map_of_mem (hc.jumps line hmem t' ht')
  · intro hret
    cases line with
    | mark l => cases hret
    | instr i =>
      cases i with
      | ret => exact hc.noRet hmem
      | _ => cases hret

/-- The lines of code with copies jump to where those of the code jump, or to marks. -/
theorem Inlines.lines (hclosed : ∀ (l : Nat) b, bodies[l]? = some b → b.code.Closed)
    (h : Inlines bodies k c d k') {ls : List Label}
    (hc : ∀ line ∈ c, (∀ t ∈ line.jumps, t ∈ ls) ∧ line ≠ .instr .ret) :
    ∀ line ∈ d, (∀ t ∈ line.jumps, t ∈ ls ∨ t ∈ marks d) ∧ line ≠ .instr .ret := by
  induction h with
  | nil => nofun
  | @line k k' c d line _ _ ih =>
    rw [List.forall_mem_cons] at hc ⊢
    refine ⟨⟨fun t ht => .inl (hc.1.1 t ht), hc.1.2⟩, fun line' hline' => ?_⟩
    obtain ⟨hjumps, hret⟩ := ih hc.2 line' hline'
    refine ⟨fun t ht => (hjumps t ht).imp_right fun hmem => ?_, hret⟩
    cases line with
    | mark l => exact List.mem_cons_of_mem _ hmem
    | instr i => exact hmem
  | @copy k k' c d l b hb _ ih =>
    rw [List.forall_mem_cons] at hc
    intro line hline
    rw [marks_append]
    rcases List.mem_append.1 hline with hline | hline
    · obtain ⟨hjumps, hret⟩ := lines_renamed _ (hclosed l b hb) line hline
      exact ⟨fun t ht => .inr (List.mem_append_left _ (hjumps t ht)), hret⟩
    · obtain ⟨hjumps, hret⟩ := ih hc.2 line hline
      exact ⟨fun t ht => (hjumps t ht).imp_right (List.mem_append_right _), hret⟩

/-- A copy calls what the code calls, as it marks none of the labels it calls. -/
theorem calls_copy (h : ∀ l ∈ calls c, l ∉ marks c) : calls (renamed (newName k c) c) = calls c := by
  rw [calls_renamed]
  exact (List.map_congr_left fun l hl => newName_of_not_mem (h l hl)).trans (List.map_id _)

/-- Calls that are left are those without bodies and those of bodies. -/
theorem Inlines.calls (hcalls : ∀ (l : Nat) b, bodies[l]? = some b → ∀ m ∈ calls b.code, m ∉ marks b.code)
    (h : Inlines bodies k c d k') (hl : l ∈ calls d) :
    (l ∈ calls c ∧ bodies[l]? = none) ∨ ∃ m ∈ calls c, ∃ b, bodies[m]? = some b ∧ l ∈ calls b.code := by
  induction h with
  | nil => cases hl
  | @line k k' c d line hnone _ ih =>
    rw [calls_cons, List.mem_append] at hl ⊢
    rcases hl with hl | hl
    · have hcall := Option.mem_toList.1 hl
      refine .inl ⟨.inl hl, ?_⟩
      rw [hcall] at hnone
      exact hnone
    · exact (ih hl).imp (fun h => ⟨.inr h.1, h.2⟩) fun ⟨m, hm, h⟩ => ⟨m, List.mem_append_right _ hm, h⟩
  | @copy k k' c d m b hb _ ih =>
    rw [calls_append, List.mem_append, calls_copy (hcalls m b hb)] at hl
    rcases hl with hl | hl
    · exact .inr ⟨m, List.mem_cons_self .., b, hb, hl⟩
    · exact (ih hl).imp (fun h => ⟨List.mem_cons_of_mem _ h.1, h.2⟩) fun ⟨m, hm, h⟩ => ⟨m, List.mem_cons_of_mem _ hm, h⟩

end Inlines

end Code

end ParserMachine
