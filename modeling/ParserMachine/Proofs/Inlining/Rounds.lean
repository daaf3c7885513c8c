import Mathlib.Data.List.Flatten
import ParserMachine.Compile
import ParserMachine.Proofs.Fusing.Rounds
import ParserMachine.Proofs.Inlining.Merged
import ParserMachine.Proofs.Linking.Reaching

/-!
# Rounds of inlining

A round replaces the calls of some subroutines in every block and drops these subroutines
(`Assembly.Inlines`). It keeps an assembly sound, and what it does (`Assembly.Inlines.improves`); so does
all that is done to an assembly before it is linked (`Assembly.improves_improve`).
-/

namespace ParserMachine

variable {τ : Type} [Token τ] {bodies : Std.TreeMap Label (Block τ)}

/-- Blocks and what they become when calls are replaced, with labels from `k` up to `k'`. -/
inductive Blocks.Inlines (bodies : Std.TreeMap Label (Block τ)) :
    Nat → List (Block τ) → List (Block τ) → Nat → Prop where
  /-- No blocks. -/
  | nil (k : Nat) : Inlines bodies k [] [] k
  /-- One block after another. -/
  | cons {k m k' : Nat} {b : Block τ} {c : Code τ} {bs bs' : List (Block τ)} :
    Code.Inlines bodies k b.code c m → Inlines bodies m bs bs' k' →
    Inlines bodies k (b :: bs) ({ b with code := c } :: bs') k'

namespace Blocks

variable {k k' : Nat} {bs bs' : List (Block τ)}

theorem inlines_inlineBlocks (bodies : Std.TreeMap Label (Block τ)) (k : Nat) (bs : List (Block τ)) :
    Inlines bodies k bs (Assembly.inlineBlocks bodies k bs).1
      (Assembly.inlineBlocks bodies k bs).2.1 := by
  induction bs generalizing k with
  | nil => exact .nil k
  | cons b bs ih => exact .cons (Code.inlines_inlineCalls bodies k b.code) (ih _)

theorem Inlines.le (h : Inlines bodies k bs bs' k') : k ≤ k' := by
  induction h with
  | nil k => exact Nat.le_refl k
  | cons hc _ ih => exact Nat.le_trans hc.le ih

/-- Every block comes from one with the same label and the same entry, which is as recursive as it is. -/
theorem Inlines.exists_of_mem (h : Inlines bodies k bs bs' k') {b' : Block τ} (hb' : b' ∈ bs') :
    ∃ b ∈ bs, b'.label = b.label ∧ b'.entry = b.entry ∧ b'.recursive = b.recursive ∧
      ∃ j j', Code.Inlines bodies j b.code b'.code j' := by
  induction h with
  | nil => cases hb'
  | cons hc _ ih =>
    rcases List.mem_cons.1 hb' with rfl | hb'
    · exact ⟨_, List.mem_cons_self .., rfl, rfl, rfl, _, _, hc⟩
    · obtain ⟨b, hb, h⟩ := ih hb'
      exact ⟨b, List.mem_cons_of_mem _ hb, h⟩

theorem Inlines.entries (h : Inlines bodies k bs bs' k') :
    bs'.map Block.entry = bs.map Block.entry := by
  induction h with
  | nil => rfl
  | cons _ _ ih => exact congrArg (_ :: ·) ih

/-- The new labels are those that were handed out. -/
theorem Inlines.labels_perm (hbodies : ∀ (l : Nat) b, bodies[l]? = some b → (Code.marks b.code).Nodup)
    (h : Inlines bodies k bs bs' k') :
    (bs'.flatMap Block.labels).Perm (bs.flatMap Block.labels ++ labelsBetween k k') := by
  induction h with
  | nil k =>
    rw [labelsBetween_self]
    exact .refl _
  | @cons k m k' b c bs bs' hc h ih =>
    have hmarks := (hc.marks_perm hbodies).cons b.entry
    have hboth := hmarks.append ih
    rw [List.flatMap_cons, List.flatMap_cons, ← labelsBetween_append hc.le h.le]
    refine hboth.trans ?_
    -- the labels of the copies move behind those of the other blocks
    show (Block.labels b ++ labelsBetween k m ++ (bs.flatMap Block.labels ++ labelsBetween m k')).Perm _
    rw [List.append_assoc, List.append_assoc]
    exact (List.perm_append_comm_assoc _ _ _).append_left _

/-- The code that is found at a label. -/
theorem Inlines.find? (h : Inlines bodies k bs bs' k') (l : Label) :
    ∃ j j', Code.Inlines bodies j (((bs.find? fun b => b.entry = l).map Block.code).getD [])
      (((bs'.find? fun b => b.entry = l).map Block.code).getD []) j' := by
  induction h with
  | nil k => exact ⟨k, k, .nil k⟩
  | @cons k m k' b c bs bs' hc _ ih =>
    by_cases hl : b.entry = l
    · rw [List.find?_cons_of_pos (by simpa using hl), List.find?_cons_of_pos (by simpa using hl)]
      exact ⟨_, _, hc⟩
    · rw [List.find?_cons_of_neg (by simpa using hl), List.find?_cons_of_neg (by simpa using hl)]
      exact ih

end Blocks

namespace Assembly

/-- An assembly in which calls of some subroutines are replaced and these are dropped. -/
inductive Inlines (bodies : Std.TreeMap Label (Block τ)) : Assembly τ → Assembly τ → Prop where
  /-- Main and the blocks, one after another. -/
  | round {main main' : Code τ} {bs bs' : List (Block τ)} {k m k' : Nat} :
    Code.Inlines bodies k main main' m → Blocks.Inlines bodies m bs bs' k' →
    Inlines bodies ⟨main, bs, k⟩ ⟨main', bs'.filter fun b => b.entry ∉ bodies, k'⟩

theorem inlines_inlineRound (bodies : Std.TreeMap Label (Block τ)) (a : Assembly τ) :
    a.Inlines bodies (a.inlineRound bodies).1 :=
  .round (Code.inlines_inlineCalls bodies a.fresh a.main) (Blocks.inlines_inlineBlocks bodies _ _)

/-- The subroutines that one round inlines. -/
structure Inlinable (a : Assembly τ) (bodies : Std.TreeMap Label (Block τ)) : Prop where
  /-- They are subroutines. -/
  mem : ∀ (l : Nat) b, bodies[l]? = some b → b ∈ a.blocks ∧ b.entry = l
  /-- They call no others of them. -/
  calls : ∀ (l : Nat) b, bodies[l]? = some b → ∀ m : Nat, m ∈ Code.calls b.code → bodies[m]? = none

theorem inlinable_inlineBodies (threshold : Nat) (a : Assembly τ) :
    a.Inlinable (inlineBodies threshold a.blocks) := by
  have hget (l : Nat) (b : Block τ) (h : (inlineBodies threshold a.blocks)[l]? = some b) :
      (byEntry (a.blocks.filter (isCandidate threshold)))[l]? = some b ∧
        ∀ m ∈ Code.calls b.code, m ∉ byEntry (a.blocks.filter (isCandidate threshold)) := by
    unfold inlineBodies at h
    rw [Std.TreeMap.getElem?_filter', Option.filter_eq_some_iff] at h
    exact ⟨h.1, by simpa using h.2⟩
  refine ⟨fun l b h => ?_, fun l b h m hm => ?_⟩
  · obtain ⟨hmem, hentry⟩ := mem_of_getElem?_byEntry (hget l b h).1
    exact ⟨List.mem_of_mem_filter hmem, hentry⟩
  · have hcandidate := (hget l b h).2 m hm
    cases hbody : (inlineBodies threshold a.blocks)[m]? with
    | none => rfl
    | some c =>
      refine absurd ?_ hcandidate
      rw [Std.TreeMap.mem_iff_isSome_getElem?, (hget m c hbody).1]
      rfl

section Round

variable {a a' : Assembly τ}

theorem Inlinable.sound (h : a.Inlinable bodies) (hsound : a.Sound) : Bodies bodies a.codeOf := by
  have hclosed (l : Nat) (b : Block τ) (hb : bodies[l]? = some b) : b.code ∈ a.codes :=
    List.mem_cons_of_mem _ (List.mem_map_of_mem (h.mem l b hb).1)
  refine ⟨fun l b hb => ?_, fun l b hb => hsound.closed _ (hclosed l b hb), h.calls,
    fun l b hb m hm hmark => ?_⟩
  · obtain ⟨hmem, rfl⟩ := h.mem l b hb
    exact hsound.codeOf_entry hmem
  · -- a block that marks what it calls would be the block that is called
    obtain ⟨hmem, -⟩ := h.mem l b hb
    obtain ⟨c, hc, rfl⟩ := List.mem_map.1 (hsound.calls _ (hclosed l b hb) m hm)
    obtain rfl := hsound.eq_of_mem_labels hmem hc (List.mem_cons_of_mem _ hmark)
      (List.mem_cons_self ..)
    have hlabels := (List.nodup_flatMap.1 (List.nodup_append.1 hsound.nodup).2.1).1 _ hmem
    exact (List.nodup_cons.1 hlabels).1 hmark

/-- The new labels are those that were handed out. -/
theorem Inlines.labels_subperm (h : a.Inlines bodies a')
    (hbodies : ∀ (l : Nat) b, bodies[l]? = some b → (Code.marks b.code).Nodup) :
    ∃ ls, a'.labels.Sublist ls ∧ ls.Perm (a.labels ++ labelsBetween a.fresh a'.fresh) := by
  cases h with
  | @round main main' bs bs' k m k' hmain hbs =>
    refine ⟨Code.marks main' ++ bs'.flatMap Block.labels, ?_, ?_⟩
    · exact (List.Sublist.refl _).append (List.filter_sublist.flatMap _)
    · have hboth := (hmain.marks_perm hbodies).append (hbs.labels_perm hbodies)
      refine hboth.trans ?_
      show List.Perm _ (Code.marks main ++ bs.flatMap Block.labels ++ labelsBetween k k')
      rw [← labelsBetween_append hmain.le hbs.le, List.append_assoc, List.append_assoc]
      exact (List.perm_append_comm_assoc _ _ _).append_left _

/-- The code of a block comes from that of a block. -/
theorem Inlines.exists_code (h : a.Inlines bodies a') {c' : Code τ} (hc' : c' ∈ a'.codes) :
    ∃ c ∈ a.codes, ∃ j j', Code.Inlines bodies j c c' j' := by
  cases h with
  | round hmain hbs =>
    rcases List.mem_cons.1 hc' with rfl | hc'
    · exact ⟨_, List.mem_cons_self .., _, _, hmain⟩
    · obtain ⟨b', hb', rfl⟩ := List.mem_map.1 hc'
      obtain ⟨b, hb, -, -, -, hcode⟩ := hbs.exists_of_mem (List.mem_of_mem_filter hb')
      exact ⟨b.code, List.mem_cons_of_mem _ (List.mem_map_of_mem hb), hcode⟩

theorem Inlines.nodup (h : a.Inlines bodies a') (hsound : a.Sound) (hbodies : a.Inlinable bodies) :
    a'.labels.Nodup := by
  obtain ⟨ls, hsub, hperm⟩ := h.labels_subperm fun l b hb =>
    ((hbodies.sound hsound).closed l b hb).nodup
  refine hsub.nodup (hperm.nodup_iff.2 (List.nodup_append.2 ⟨hsound.nodup, nodup_labelsBetween _ _, ?_⟩))
  rintro l hl _ hl' rfl
  exact absurd (hsound.fresh l hl) (Nat.not_lt.2 (mem_labelsBetween.1 hl').1)

theorem Inlines.nodup_code (h : a.Inlines bodies a') (hsound : a.Sound)
    (hbodies : a.Inlinable bodies) {c' : Code τ} (hc' : c' ∈ a'.codes) : (Code.marks c').Nodup := by
  have hnodup := List.nodup_append.1 (h.nodup hsound hbodies)
  rcases List.mem_cons.1 hc' with rfl | hc'
  · exact hnodup.1
  · obtain ⟨b', hb', rfl⟩ := List.mem_map.1 hc'
    exact (List.nodup_cons.1 ((List.nodup_flatMap.1 hnodup.2.1).1 b' hb')).2

/-- The subroutines that are left. -/
theorem Inlines.mem_entries (h : a.Inlines bodies a') {l : Nat} (hl : l ∈ a.entries)
    (hnone : bodies[l]? = none) : l ∈ a'.entries := by
  cases h with
  | @round main main' bs bs' k m k' hmain hbs =>
    have hmem : l ∈ bs'.map Block.entry := hbs.entries ▸ hl
    obtain ⟨b, hb, rfl⟩ := List.mem_map.1 hmem
    refine List.mem_map_of_mem (List.mem_filter.2 ⟨hb, ?_⟩)
    rw [decide_eq_true_iff, Std.TreeMap.mem_iff_isSome_getElem?, hnone]
    exact Bool.false_ne_true

theorem Inlines.le (h : a.Inlines bodies a') : a.fresh ≤ a'.fresh := by
  cases h with
  | round hmain hbs => exact Nat.le_trans hmain.le hbs.le

/-- Inlining keeps an assembly sound. -/
theorem Inlines.sound (h : a.Inlines bodies a') (hsound : a.Sound) (hbodies : a.Inlinable bodies) :
    a'.Sound := by
  have hall := hbodies.sound hsound
  refine ⟨h.nodup hsound hbodies, fun l hl => ?_, fun c' hc' => ?_, fun c' hc' l hl => ?_,
    fun b' hb' => ?_⟩
  · obtain ⟨ls, hsub, hperm⟩ := h.labels_subperm fun l b hb => (hall.closed l b hb).nodup
    rcases List.mem_append.1 (hperm.subset (hsub.subset hl)) with hl | hl
    · exact Nat.lt_of_lt_of_le (hsound.fresh l hl) h.le
    · exact (mem_labelsBetween.1 hl).2
  · obtain ⟨c, hc, j, j', hinlines⟩ := h.exists_code hc'
    have hclosed := hsound.closed c hc
    have hlines := hinlines.lines hall.closed fun line hline =>
      ⟨hclosed.jumps line hline, fun hret => hclosed.noRet (hret ▸ hline)⟩
    refine ⟨h.nodup_code hsound hbodies hc', fun line hline t ht => ?_,
      fun hret => (hlines _ hret).2 rfl⟩
    exact ((hlines line hline).1 t ht).elim hinlines.mem_marks id
  · obtain ⟨c, hc, j, j', hinlines⟩ := h.exists_code hc'
    rcases hinlines.calls hall.marks hl with ⟨hl, hnone⟩ | ⟨m, -, b, hb, hl⟩
    · exact h.mem_entries (hsound.calls c hc l hl) hnone
    · have hcode : b.code ∈ a.codes :=
        List.mem_cons_of_mem _ (List.mem_map_of_mem (hbodies.mem m b hb).1)
      exact h.mem_entries (hsound.calls _ hcode l hl) (hbodies.calls m b hb l hl)
  · cases h with
    | round _ hbs =>
      obtain ⟨b, hb, hlabel, hentry, -⟩ := hbs.exists_of_mem (List.mem_of_mem_filter hb')
      rw [hlabel, hentry]
      exact hsound.named b hb

/-- The code of the subroutines that are left. -/
theorem Inlines.codeOf (h : a.Inlines bodies a') {l : Nat} (hnone : bodies[l]? = none) :
    ∃ j j', Code.Inlines bodies j (a.codeOf l) (a'.codeOf l) j' := by
  cases h with
  | @round main main' bs bs' k m k' hmain hbs =>
    obtain ⟨j, j', hcode⟩ := hbs.find? l
    refine ⟨j, j', ?_⟩
    unfold Assembly.codeOf
    have hfind : (bs'.filter fun b => b.entry ∉ bodies).find? (fun b => b.entry = l) =
        bs'.find? fun b => b.entry = l := by
      rw [List.find?_filter]
      congr 1
      funext b
      by_cases hl : b.entry = l
      · have hout : l ∉ bodies := by
          rw [Std.TreeMap.mem_iff_isSome_getElem?, hnone]
          exact Bool.false_ne_true
        simp [hl, hout]
      · simp [hl]
    rw [hfind]
    exact hcode

theorem inlined_start (h : a.Inlines bodies a') (hsound : a.Sound) (hbodies : a.Inlinable bodies)
    (input : List τ) : Config.Inlined bodies (a.start input) (a'.start input) := by
  have hnodup := h.nodup_code hsound hbodies (List.mem_cons_self ..)
  cases h with
  | round hmain hbs =>
    have hstands : Code.Stands bodies _ id [] _ _ _ := .own hmain hmain (List.suffix_refl _)
    exact .runs (hsound.start_sound input) rfl hnodup hstands rfl .nil rfl

/-- With calls replaced by copies an assembly does what it did. -/
theorem Inlines.improves (h : a.Inlines bodies a') (hbodies : a.Inlinable bodies) :
    a.Improves a' := by
  intro hsound
  have hsound' := h.sound hsound hbodies
  have hcode (l : Nat) (hnone : bodies[l]? = none) :
      (∃ k k', Code.Inlines bodies k (a.codeOf l) (a'.codeOf l) k') ∧
        (Code.marks (a'.codeOf l)).Nodup :=
    ⟨h.codeOf hnone, (hsound'.codeOf_closed l).nodup⟩
  have hsimulates := Config.inlined_simulates (hbodies.sound hsound) hsound.codeOf_closed hcode
  refine ⟨hsound', fun ho => ?_, fun hl => ?_⟩
  · obtain ⟨x, hx, hfinished, ho⟩ := ho
    obtain ⟨n, y, hn, hy⟩ := hsimulates.leads_of_ends (inlined_start h hsound hbodies _) hx
    have hy' := hy.finished hfinished
    exact ⟨y, ⟨⟨n, hn⟩, hy'.step?_eq_none _⟩, hy', ho.trans (hy.agrees hfinished)⟩
  · exact hsimulates.lasts (inlined_start h hsound hbodies _) hl

theorem improves_inlineFor (threshold rounds : Nat) (a : Assembly τ) :
    a.Improves (a.inlineFor threshold rounds).1 := by
  induction rounds generalizing a with
  | zero => exact .refl a
  | succ rounds ih =>
    unfold inlineFor
    dsimp only
    split
    · exact .refl a
    · have hround := (inlines_inlineRound (inlineBodies threshold a.blocks) a).improves
        (inlinable_inlineBodies threshold a)
      exact hround.trans (ih _)

/-- What is done to an assembly before it is linked leaves what it does as it was. -/
theorem improves_improve (o : Options) (a : Assembly τ) : a.Improves (a.improve o) := by
  have hinlined : a.Improves ((a.tidyIf o).inline o).1 := by
    refine (improves_tidyIf o a).trans ?_
    unfold inline
    split
    · exact .refl _
    · exact improves_inlineFor _ _ _
  unfold improve
  dsimp only
  split
  · exact hinlined
  · exact hinlined.trans (improves_tidyIf o _)

end Round

end Assembly

end ParserMachine
