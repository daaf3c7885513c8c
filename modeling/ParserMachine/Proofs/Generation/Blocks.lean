import ParserMachine.Proofs.Assembly.Running
import ParserMachine.Proofs.Generation.Correct
import ParserMachine.Proofs.Generation.Labels

/-!
# Generated assemblies

The assembly of trees has the code of the main expression and one block for every subroutine
(`Bound.Blocks`, `Bound.GeneratesIn`). It is sound (`Bound.GeneratesIn.sound`), and its main block does what the
main expression does (`Bound.GeneratesIn.answers`), in either mode.
-/

namespace ParserMachine

variable {τ : Type} [Token τ]

namespace Bound

/-- The blocks of subroutines of which the first has the label `first`, written one after another,
with the labels from one on up to another. -/
inductive Blocks (tgt : Target τ) :
    Nat → List (Subroutine τ) → Nat → List (Block τ) → Nat → Prop where
  /-- No subroutines. -/
  | nil {first l : Nat} : Blocks tgt first [] l [] l
  /-- A subroutine before others. -/
  | cons {first l m l' : Nat} {s : Subroutine τ} {ss : List (Subroutine τ)} {d : Draft τ}
    {bs : List (Block τ)} : (s.body.emit tgt false).run l = .ok (d, m) →
    Blocks tgt (first + 1) ss m bs l' →
    Blocks tgt first (s :: ss) l (⟨first, first, d.toCode, s.recursive⟩ :: bs) l'

section Blocks

variable {tgt : Target τ} {first l l' : Nat} {ss : List (Subroutine τ)} {bs : List (Block τ)}

theorem blocks_of_emitBlocks (h : (emitBlocks tgt first ss).run l = .ok (bs, l')) :
    Blocks tgt first ss l bs l' := by
  induction ss generalizing first l bs with
  | nil =>
    cases h
    exact .nil
  | cons s ss ih =>
    obtain ⟨d, m, hd, h⟩ := Emit.run_bind_eq_ok_iff.1 h
    obtain ⟨bs', m', hbs, h⟩ := Emit.run_bind_eq_ok_iff.1 h
    cases h
    exact .cons hd (ih hbs)

theorem Blocks.entries (h : Blocks tgt first ss l bs l') :
    bs.map Block.entry = List.range' first ss.length := by
  induction h with
  | nil => rfl
  | cons _ _ ih =>
    rw [List.map_cons, ih, List.length_cons, List.range'_succ]

theorem Blocks.named (h : Blocks tgt first ss l bs l') {b : Block τ} (hb : b ∈ bs) :
    b.label = b.entry := by
  induction h with
  | nil => cases hb
  | cons _ _ ih =>
    rcases List.mem_cons.1 hb with rfl | hb
    · rfl
    · exact ih hb

/-- All code of the blocks, in a row. -/
theorem Blocks.labelled (h : Blocks tgt first ss l bs l') :
    Code.Labelled tgt.subroutines.size l l' (bs.flatMap Block.code) := by
  induction h with
  | nil => exact .nil _
  | cons hd _ ih => exact (Expr.emit_labels tgt _ false _ _ _ hd).append ih

/-- The code of each block. -/
theorem Blocks.labelled_code (h : Blocks tgt first ss l bs l') {b : Block τ} (hb : b ∈ bs) :
    ∃ m m', Code.Labelled tgt.subroutines.size m m' b.code := by
  induction h with
  | nil => cases hb
  | cons hd _ ih =>
    rcases List.mem_cons.1 hb with rfl | hb
    · exact ⟨_, _, Expr.emit_labels tgt _ false _ _ _ hd⟩
    · exact ih hb

/-- The block of a subroutine. -/
theorem Blocks.exists_block (h : Blocks tgt first ss l bs l') {i : Nat} {s : Subroutine τ}
    (hs : ss[i]? = some s) :
    ∃ b ∈ bs, b.entry = first + i ∧
      ∃ m m' d, (s.body.emit tgt false).run m = .ok (d, m') ∧ b.code = d.toCode := by
  induction h generalizing i with
  | nil => cases hs
  | @cons first l m l' s' ss d bs hd _ ih =>
    cases i with
    | zero =>
      cases hs
      exact ⟨_, List.mem_cons_self .., rfl, l, m, d, hd, rfl⟩
    | succ i =>
      obtain ⟨b, hb, hentry, hcode⟩ := ih hs
      exact ⟨b, List.mem_cons_of_mem _ hb, hentry.trans (Nat.succ_add_eq_add_succ first i), hcode⟩

end Blocks

variable {discard : Bool} {o : Options} {b : Bound τ} {a : Assembly τ}

/-- The assembly has the code of the trees: main that of the main expression in a mode, with labels after those
of the entries, and the blocks that of the subroutines. -/
def GeneratesIn (discard : Bool) (o : Options) (b : Bound τ) (a : Assembly τ) : Prop :=
  ∃ d m, (b.main.emit ⟨o, b.subroutines.toArray⟩ discard).run b.subroutines.length = .ok (d, m) ∧
    a.main = d.toCode ∧ Blocks ⟨o, b.subroutines.toArray⟩ 0 b.subroutines m a.blocks a.fresh

/-- The assembly has the code of the trees, whose result is needed. -/
abbrev Generates (o : Options) (b : Bound τ) (a : Assembly τ) : Prop := b.GeneratesIn false o a

theorem generatesIn_of_generateIn (h : b.generateIn discard o = .ok a) : b.GeneratesIn discard o a := by
  unfold generateIn at h
  obtain ⟨⟨⟨main, blocks⟩, fresh⟩, hrun, h⟩ := bind_eq_ok_iff.1 h
  cases h
  obtain ⟨d, m, hmain, h⟩ := Emit.run_bind_eq_ok_iff.1 hrun
  obtain ⟨bs, m', hblocks, h⟩ := Emit.run_bind_eq_ok_iff.1 h
  cases h
  exact ⟨main, m, hmain, rfl, blocks_of_emitBlocks hblocks⟩

theorem generates_of_generate (h : b.generate o = .ok a) : b.Generates o a := generatesIn_of_generateIn h

namespace GeneratesIn

variable (h : b.GeneratesIn discard o a)
include h

theorem entries : a.entries = List.range b.subroutines.length := by
  obtain ⟨d, m, -, -, hblocks⟩ := h
  rw [Assembly.entries, hblocks.entries, List.range_eq_range']

/-- All labels below `fresh` are used, each in one place. -/
theorem labels_perm : a.labels.Perm (List.range a.fresh) := by
  obtain ⟨d, m, hmain, hd, hblocks⟩ := id h
  have hmain' := Expr.emit_labels _ _ discard _ _ _ hmain
  have hentries : a.blocks.map Block.entry = labelsBetween 0 b.subroutines.length := hblocks.entries
  have hsplit (bs : List (Block τ)) :
      (bs.flatMap Block.labels).Perm
        (bs.map Block.entry ++ Code.marks (bs.flatMap Block.code)) := by
    induction bs with
    | nil => exact .refl _
    | cons b bs ih =>
      rw [List.flatMap_cons, List.flatMap_cons, Code.marks_append, List.map_cons]
      refine ((ih.append_left b.labels).trans ?_)
      show (b.entry :: (Code.marks b.code ++ (bs.map Block.entry ++ _))).Perm _
      refine List.Perm.cons _ ?_
      exact List.perm_append_comm_assoc _ _ _
  have hcode := hmain'.append hblocks.labelled
  have hmarks := hcode.marks
  rw [Code.marks_append] at hmarks
  unfold Assembly.labels
  rw [hd]
  refine ((hsplit a.blocks).append_left _).trans ?_
  rw [hentries]
  refine (List.perm_append_comm_assoc _ _ _).trans ((hmarks.append_left _).trans ?_)
  rw [labelsBetween_append (Nat.zero_le _) hcode.le]
  unfold labelsBetween
  rw [List.range_eq_range']
  exact .refl _

/-- Main and the code of each block mark labels in a row. -/
theorem labelled {c : Code τ} (hc : c ∈ a.codes) :
    ∃ l l', Code.Labelled b.subroutines.length l l' c := by
  obtain ⟨d, m, hmain, hd, hblocks⟩ := h
  rcases List.mem_cons.1 hc with rfl | hc
  · rw [hd]
    exact ⟨_, _, Expr.emit_labels _ _ discard _ _ _ hmain⟩
  · obtain ⟨blk, hblk, rfl⟩ := List.mem_map.1 hc
    exact hblocks.labelled_code hblk

theorem sound : a.Sound where
  nodup := h.labels_perm.nodup_iff.2 List.nodup_range
  fresh := fun l hl => List.mem_range.1 (h.labels_perm.mem_iff.1 hl)
  closed := by
    intro c hc
    obtain ⟨l, l', hlabelled⟩ := h.labelled hc
    exact ⟨hlabelled.nodup, fun line hline t ht =>
      hlabelled.mem_marks_iff.2 (hlabelled.jumps line hline t ht), hlabelled.noRet⟩
  calls := by
    intro c hc l hl
    obtain ⟨k, k', hlabelled⟩ := h.labelled hc
    obtain ⟨line, hline, hcall⟩ := List.mem_filterMap.1 hl
    rw [h.entries]
    exact List.mem_range.2 (hlabelled.calls line hline l hcall)
  named := by
    obtain ⟨d, m, -, -, hblocks⟩ := h
    exact fun b hb => hblocks.named hb

/-- Main does what the main expression does. -/
theorem answers (input : Array τ) (depth : Nat) :
    Code.Answers a.codeOf input depth discard a.main
      (b.main.evalAt ⟨o, b.subroutines.toArray⟩ input depth) := by
  have hsound := h.sound
  obtain ⟨d, m, hmain, hd, hblocks⟩ := h
  rw [hd]
  refine Expr.evalAt_writes (fun l s hs => ?_) depth b.main discard _ _ d hmain
  obtain ⟨blk, hblk, hentry, k, k', d', hd', hcode⟩ :=
    hblocks.exists_block (i := l) (List.getElem?_toArray .. ▸ hs)
  obtain rfl : blk.entry = l := hentry.trans (Nat.zero_add l)
  rw [hsound.codeOf_entry hblk]
  exact ⟨(hsound.closed _ (List.mem_cons_of_mem _ (List.mem_map_of_mem hblk))).nodup, k, k', d', hd',
    hcode⟩

end GeneratesIn

end Bound

end ParserMachine
