import ParserMachine.Proofs.Generation.Alternatives
import ParserMachine.Proofs.Generation.Emission
import ParserMachine.Proofs.Machine.Invariant

/-!
# Labels of generated code

Generated code marks each label that was handed out for it exactly once and jumps only to labels that
it marks; its calls go to subroutines that exist (`Code.Labelled`, `Expr.emit_labels`). So no two
blocks of an assembly mark the same label.
-/

namespace ParserMachine

variable {τ : Type} [Token τ] {size l m l' : Nat} {c d : Code τ} {discard : Bool}

/-- The labels from one on, up to another. -/
def labelsBetween (l l' : Nat) : List Nat := List.range' l (l' - l)

theorem labelsBetween_self (l : Nat) : labelsBetween l l = [] := by
  unfold labelsBetween
  rw [Nat.sub_self]
  rfl

theorem labelsBetween_append (h : l ≤ m) (h' : m ≤ l') :
    labelsBetween l m ++ labelsBetween m l' = labelsBetween l l' := by
  unfold labelsBetween
  have hm : m = l + 1 * (m - l) := by omega
  have happend := @List.range'_append l (m - l) (l' - m) 1
  rw [← hm] at happend
  rw [happend]
  congr 1
  omega

theorem labelsBetween_add (l n : Nat) : labelsBetween l (l + n) = List.range' l n := by
  unfold labelsBetween
  rw [Nat.add_sub_cancel_left]

theorem mem_labelsBetween {t : Nat} : t ∈ labelsBetween l l' ↔ l ≤ t ∧ t < l' := by
  unfold labelsBetween
  rw [List.mem_range'_1]
  omega

theorem nodup_labelsBetween (l l' : Nat) : (labelsBetween l l').Nodup := List.nodup_range'

/-- Whether a line jumps only to labels from one up to another, and neither calls nor returns. -/
def Line.Within (l l' : Nat) (line : Line τ) : Prop :=
  (∀ t : Nat, t ∈ line.jumps → l ≤ t ∧ t < l') ∧ line.call? = none ∧ line ≠ .instr .ret

theorem Line.within_mark (k : Label) : (mark k : Line τ).Within l l' := ⟨nofun, rfl, nofun⟩

/-- The condition for the jumps of an instruction that stays in its block. -/
theorem Line.within_instr {i : Instr τ Label} (hplain : i.isPlain = true)
    (htargets : ∀ t : Nat, t ∈ i.targets → l ≤ t ∧ t < l') : (instr i).Within l l' := by
  have hjumps : (instr i).jumps = i.targets := if_pos hplain
  refine ⟨fun t ht => htargets t (hjumps ▸ ht), ?_, ?_⟩
  · cases i <;> first | rfl | cases hplain
  · rintro ⟨⟩
    cases hplain

/-- An instruction without targets stays in its block. -/
theorem Line.within_of_targets {i : Instr τ Label} (hplain : i.isPlain = true) (htargets : i.targets = []) :
    (instr i).Within l l' := by
  refine Line.within_instr hplain ?_
  rw [htargets]
  exact List.forall_mem_nil _

theorem Line.Within.mono {k k' : Nat} {line : Line τ} (h : line.Within l l') (hk : k ≤ l)
    (hk' : l' ≤ k') : line.Within k k' :=
  ⟨fun t ht => ⟨Nat.le_trans hk (h.1 t ht).1, Nat.lt_of_lt_of_le (h.1 t ht).2 hk'⟩, h.2⟩

namespace Code

/-- The code marks the labels from one up to another, each once, and jumps only to those; it calls
only labels below `size`, and it does not return before its end. -/
structure Labelled (size l l' : Nat) (c : Code τ) : Prop where
  /-- The labels are in a row. -/
  le : l ≤ l'
  /-- Each is marked once. -/
  marks : (Code.marks c).Perm (labelsBetween l l')
  /-- Jumps stay in the code. -/
  jumps : ∀ line ∈ c, ∀ t : Nat, t ∈ line.jumps → l ≤ t ∧ t < l'
  /-- Calls go to subroutines. -/
  calls : ∀ line ∈ c, ∀ t ∈ line.call?, t < size
  /-- The code is left at its end. -/
  noRet : .instr .ret ∉ c

theorem Labelled.nil (l : Nat) : Labelled size l l ([] : Code τ) where
  le := Nat.le_refl l
  marks := by rw [labelsBetween_self]; exact .refl _
  jumps := List.forall_mem_nil _
  calls := List.forall_mem_nil _
  noRet := List.not_mem_nil

/-- Code around other code, with labels of its own before those of the inner code. -/
theorem Labelled.wrap (hc : Labelled size m l' c) (hle : l ≤ m)
    (hmarks : (Code.marks d).Perm (labelsBetween l m ++ Code.marks c))
    (hlines : ∀ line ∈ d, line ∈ c ∨ line.Within l m) : Labelled size l l' d where
  le := Nat.le_trans hle hc.le
  marks := by
    have hinner := hc.marks.append_left (labelsBetween l m)
    rw [labelsBetween_append hle hc.le] at hinner
    exact hmarks.trans hinner
  jumps := by
    intro line hline t ht
    have hle' := hc.le
    rcases hlines line hline with hin | hwithin
    · have := hc.jumps line hin t ht
      omega
    · have := hwithin.1 t ht
      omega
  calls := by
    intro line hline t ht
    rcases hlines line hline with hin | hwithin
    · exact hc.calls line hin t ht
    · rw [hwithin.2.1] at ht
      cases ht
  noRet := by
    intro hmem
    rcases hlines _ hmem with hin | hwithin
    · exact hc.noRet hin
    · exact hwithin.2.2 rfl

/-- Code around other code, without labels of its own. -/
theorem Labelled.around (hc : Labelled size l l' c) (hmarks : Code.marks d = Code.marks c)
    (hlines : ∀ line ∈ d, line ∈ c ∨ line.Within l l) : Labelled size l l' d := by
  refine hc.wrap (Nat.le_refl l) ?_ hlines
  rw [hmarks, labelsBetween_self]
  exact .refl _

theorem Labelled.append (hc : Labelled size l m c) (hd : Labelled size m l' d) :
    Labelled size l l' (c ++ d) where
  le := Nat.le_trans hc.le hd.le
  marks := by
    rw [marks_append, ← labelsBetween_append hc.le hd.le]
    exact hc.marks.append hd.marks
  jumps := by
    intro line hline t ht
    have hle := hc.le
    have hle' := hd.le
    rcases List.mem_append.1 hline with hin | hin
    · have := hc.jumps line hin t ht
      omega
    · have := hd.jumps line hin t ht
      omega
  calls := by
    intro line hline
    exact (List.mem_append.1 hline).elim (hc.calls line) (hd.calls line)
  noRet := by
    rw [List.mem_append]
    exact fun h => h.elim hc.noRet hd.noRet

theorem Labelled.nodup (h : Labelled size l l' c) : (Code.marks c).Nodup :=
  h.marks.nodup_iff.2 (nodup_labelsBetween l l')

theorem Labelled.mem_marks_iff (h : Labelled size l l' c) {t : Nat} :
    t ∈ Code.marks c ↔ l ≤ t ∧ t < l' := by
  rw [h.marks.mem_iff, mem_labelsBetween]

end Code

open Emit

/-- Whatever code is written, its labels are those that were handed out for it. -/
def Emit.Labels (size : Nat) (m : Emit (Draft τ)) : Prop :=
  ∀ (l l' : Nat) d, m.run l = .ok (d, l') → Code.Labelled size l l' d.toCode

open Code

/-! ### Forms -/

/-- An instruction without targets. -/
theorem Draft.instr_labelled {i : Instr τ Label} (hplain : i.isPlain = true)
    (htargets : i.targets = []) (l : Nat) : Labelled size l l (instr i).toCode := by
  refine (Labelled.nil l).around rfl fun line hline => .inr ?_
  rw [List.mem_singleton.1 hline]
  exact Line.within_of_targets hplain htargets

theorem Draft.only_labelled {i : Instr τ Label} (hplain : i.isPlain = true)
    (htargets : i.targets = []) (holds : Bool) (l : Nat) :
    Labelled size l l (only holds i).toCode := by
  cases holds with
  | true => exact instr_labelled hplain htargets l
  | false => exact Labelled.nil l

theorem Leaf.labels (tgt : Target τ) (lf : Leaf τ) (discard : Bool) :
    Emit.Labels tgt.subroutines.size (lf.emit tgt discard) := by
  intro l l' d h
  cases lf with
  | call c r =>
    obtain ⟨hc, rfl, hd⟩ := Leaf.of_emit_call h
    have hcall : Labelled tgt.subroutines.size l' l' ([.instr (.call c)] : Code τ) :=
      { le := Nat.le_refl l'
        marks := by rw [labelsBetween_self]; exact .refl _
        jumps := fun line hline => by rw [List.mem_singleton.1 hline]; nofun
        calls := fun line hline => by
          rw [List.mem_singleton.1 hline]
          rintro t ⟨⟩
          exact hc
        noRet := by simp }
    rw [hd]
    exact hcall.append (Draft.only_labelled rfl rfl discard l')
  | pure v =>
    cases h
    exact Draft.only_labelled rfl rfl _ l
  | eof =>
    cases h
    rw [Draft.toCode_append]
    exact (Draft.instr_labelled rfl rfl l).append (Draft.only_labelled rfl rfl _ l)
  | _ =>
    cases h
    exact Draft.instr_labelled rfl rfl l

theorem Draft.guarded_labels {snapshot : Bool} {part : Emit (Draft τ)} {leave : Label → Draft τ}
    {react : Instr τ Label} (hpart : Emit.Labels size part)
    (hmarks : ∀ l, marks (leave l).toCode = [])
    (hleave : ∀ l : Nat, ∀ line ∈ (leave l).toCode, line.Within l (l + 1))
    (hplain : react.isPlain = true) (hreact : react.targets = []) :
    Emit.Labels size (Draft.guarded snapshot part leave react) := by
  intro l l' d h
  obtain ⟨c, hc, hd⟩ := Draft.exists_of_guarded h
  have hown : labelsBetween l (l + 2) = [l, l + 1] := labelsBetween_add l 2
  rw [hd]
  refine (hpart _ _ _ hc).wrap (Nat.le_add_right l 2) ?_ ?_
  · simpa [hown, hmarks] using @List.perm_append_comm _ (marks c.toCode) [l, l + 1]
  · intro line hline
    simp only [List.cons_append, List.mem_cons, List.mem_append, List.not_mem_nil, or_false]
      at hline
    rcases hline with rfl | (hc | hl) | rfl | rfl | rfl
    · exact .inr (Line.within_instr rfl (by simp [Instr.targets]))
    · exact .inl hc
    · exact .inr ((hleave (l + 1) line hl).mono (by omega) (by omega))
    · exact .inr (Line.within_mark _)
    · exact .inr (Line.within_of_targets hplain hreact)
    · exact .inr (Line.within_mark _)

theorem Draft.repetition_labels {part : Bool → Emit (Draft τ)}
    (hpart : Emit.Labels size (part discard)) :
    Emit.Labels size (Draft.repetition discard part) := by
  intro l l' d h
  obtain ⟨c, hc, hd⟩ := Draft.exists_of_repetition h
  have hown : labelsBetween l (l + 3) = [l, l + 1, l + 2] := labelsBetween_add l 3
  rw [hd, List.append_assoc, List.append_assoc]
  refine (Draft.only_labelled rfl rfl _ l).append
    ((hpart _ _ _ hc).wrap (Nat.le_add_right l 3) ?_ ?_)
  · have hperm : (l :: (marks c.toCode ++ [l + 1, l + 2])).Perm
        (l :: ([l + 1, l + 2] ++ marks c.toCode)) := List.perm_append_comm.cons l
    simpa [hown] using hperm
  · intro line hline
    simp only [List.cons_append, List.nil_append, List.mem_cons, List.mem_append,
      List.not_mem_nil, or_false] at hline
    rcases hline with rfl | rfl | hc | rfl | rfl | rfl | rfl
    · exact .inr (Line.within_instr rfl (by simp [Instr.targets]))
    · exact .inr (Line.within_mark _)
    · exact .inl hc
    · exact .inr (Line.within_instr rfl (by simp [Instr.targets]))
    · exact .inr (Line.within_mark _)
    · exact .inr (Line.within_of_targets rfl rfl)
    · exact .inr (Line.within_mark _)

theorem Draft.branch_labels {f : Value τ → Value τ → Value τ} {p q : Bool → Emit (Draft τ)}
    (hp : Emit.Labels size (p false)) (hq : Emit.Labels size (q false)) :
    Emit.Labels size (Draft.branch f p q discard) := by
  intro l l' d h
  obtain ⟨c, c', m, hc, hc', hd⟩ := Draft.exists_of_branch h
  have hown : labelsBetween l (l + 2) = [l, l + 1] := labelsBetween_add l 2
  rw [hd]
  refine Labelled.append (m := l') (((hp _ _ _ hc).append (hq _ _ _ hc')).wrap
    (Nat.le_add_right l 2) ?_ ?_) (Draft.only_labelled rfl rfl _ l')
  · rw [hown]
    simp only [marks_append, marks_instr, marks_mark, marks_nil]
    refine List.perm_iff_count.2 fun t => ?_
    simp only [List.count_append, List.count_cons, List.count_nil]
    omega
  · intro line hline
    simp only [List.mem_cons, List.mem_append, List.not_mem_nil, or_false] at hline
    rcases hline with ((hc | rfl | rfl | rfl) | hc') | rfl | rfl
    · exact .inl (List.mem_append_left _ hc)
    · exact .inr (Line.within_instr rfl (by simp [Instr.targets]))
    · exact .inr (Line.within_instr rfl (by simp [Instr.targets]))
    · exact .inr (Line.within_mark _)
    · exact .inl (List.mem_append_right _ hc')
    · exact .inr (Line.within_of_targets rfl rfl)
    · exact .inr (Line.within_mark _)

theorem Unary.labels {tgt : Target τ} {p : Expr τ} {part : Bool → Emit (Draft τ)}
    (hpart : ∀ discard, Emit.Labels size (part discard)) (u : Unary τ) (discard : Bool) :
    Emit.Labels size (u.emit tgt p part discard) := by
  have hguarded (snapshot : Bool) {leave : Label → Instr τ Label} {react : Instr τ Label}
      (hleave : ∀ l, (leave l).isPlain = true) (htargets : ∀ l, (leave l).targets = [l])
      (hplain : react.isPlain = true) (hreact : react.targets = []) :
      Emit.Labels size
        (Draft.guarded snapshot (part discard) (fun l => .instr (leave l)) react) := by
    refine Draft.guarded_labels (hpart discard) (fun _ => rfl) ?_ hplain hreact
    intro l line hline
    rw [List.mem_singleton.1 hline]
    exact Line.within_instr (hleave l) (by rw [htargets]; simp)
  cases u with
  | map f =>
    intro l l' d h
    rw [Unary.emit, run_bind_pure_eq_ok_iff] at h
    obtain ⟨c, hc, rfl⟩ := h
    rw [Draft.toCode_append]
    exact (hpart _ _ _ _ hc).append (Draft.only_labelled rfl rfl _ l')
  | lookAhead => exact hguarded false (fun _ => rfl) (fun _ => rfl) rfl rfl
  | attempt => exact hguarded false (fun _ => rfl) (fun _ => rfl) rfl rfl
  | label name => exact hguarded true (fun _ => rfl) (fun _ => rfl) rfl rfl
  | guard mode =>
    cases mode with
    | capture =>
      refine Draft.guarded_labels (hpart discard) (fun l => ?_) (fun l line hline => ?_) rfl rfl
      · cases discard <;> rfl
      · rw [Draft.toCode_append, List.mem_append] at hline
        rcases hline with hmap | hleave
        · cases discard with
          | true => cases hmap
          | false =>
            rw [List.mem_singleton.1 hmap]
            exact Line.within_of_targets rfl rfl
        · rw [List.mem_singleton.1 hleave]
          exact Line.within_instr rfl (by simp [Instr.targets])
    | amend f => exact hguarded true (fun _ => rfl) (fun _ => rfl) rfl rfl
    | merge other => exact hguarded true (fun _ => rfl) (fun _ => rfl) rfl rfl
  | notFollowedBy =>
    intro l l' d h
    rw [Unary.emit, run_fresh_bind, run_bind_pure_eq_ok_iff] at h
    obtain ⟨c, hc, rfl⟩ := h
    have hown : labelsBetween l (l + 1) = [l] := labelsBetween_add l 1
    refine (hpart _ _ _ _ hc).wrap (Nat.le_add_right l 1) ?_ ?_
    · simp [hown, Draft.instr]
    · intro line hline
      simp only [Draft.toCode_append, Draft.toCode_lines, Draft.instr, List.mem_append,
        List.mem_cons, List.not_mem_nil, or_false] at hline
      rcases hline with (rfl | hc) | rfl | rfl | rfl
      · exact .inr (Line.within_instr rfl (by simp [Instr.targets]))
      · exact .inl hc
      · exact .inr (Line.within_of_targets rfl rfl)
      · exact .inr (Line.within_mark _)
      · exact .inr (Line.within_of_targets rfl rfl)
  | many =>
    intro l l' d h
    rw [Unary.emit] at h
    split at h
    · cases h
      exact Draft.instr_labelled rfl rfl l
    · exact Draft.repetition_labels (hpart discard) l l' d h
  | chunk | matchChunk =>
    intro l l' d h
    rw [Unary.emit] at h
    cases discard with
    | true => exact hpart _ l l' d h
    | false =>
      rw [if_neg Bool.false_ne_true, run_bind_pure_eq_ok_iff] at h
      obtain ⟨c, hc, rfl⟩ := h
      rw [Draft.toCode_append, Draft.toCode_append]
      exact ((Draft.instr_labelled rfl rfl l).append (hpart _ _ _ _ hc)).append
        (Draft.instr_labelled rfl rfl l')

theorem SeqKind.labels {p q : Bool → Emit (Draft τ)}
    (hp : ∀ discard, Emit.Labels size (p discard)) (hq : ∀ discard, Emit.Labels size (q discard))
    (kind : SeqKind τ) (discard : Bool) : Emit.Labels size (kind.emit p q discard) := by
  intro l l' d h
  cases kind with
  | both f =>
    rw [SeqKind.emit, run_bind_bind_pure_eq_ok_iff] at h
    obtain ⟨c, c', m, hc, hc', rfl⟩ := h
    simp only [Draft.toCode_append]
    exact ((hp _ _ _ _ hc).append (hq _ _ _ _ hc')).append (Draft.only_labelled rfl rfl _ l')
  | left | right =>
    rw [SeqKind.emit, run_bind_bind_pure_eq_ok_iff] at h
    obtain ⟨c, c', m, hc, hc', rfl⟩ := h
    rw [Draft.toCode_append]
    exact (hp _ _ _ _ hc).append (hq _ _ _ _ hc')

/-! ### Alternatives -/

/-- The lines of several pieces in a row. -/
def Draft.flat (cs : List (Draft τ)) : Code τ := cs.flatMap Draft.toCode

@[simp] theorem Draft.flat_nil : Draft.flat ([] : List (Draft τ)) = [] := rfl

@[simp] theorem Draft.flat_cons (c : Draft τ) (cs : List (Draft τ)) :
    Draft.flat (c :: cs) = c.toCode ++ Draft.flat cs := rfl

theorem Emit.Each.labels {α : Type} {f : α → Emit (Draft τ)} {as : List α}
    {cs : List (Draft τ)} (h : Emit.Each f l as cs l') (hf : ∀ a ∈ as, Emit.Labels size (f a)) :
    Labelled size l l' (Draft.flat cs) := by
  induction h with
  | nil => exact Labelled.nil _
  | cons hc _ ih =>
    exact (hf _ (List.mem_cons_self ..) _ _ _ hc).append
      (ih fun a ha => hf a (List.mem_cons_of_mem _ ha))

theorem Draft.marks_tryInOrder {stop : Nat} {hs : List Nat} {cs : List (Draft τ)}
    (hlen : hs.length = cs.length - 1) :
    (marks (tryInOrder stop hs cs).toCode).Perm (stop :: hs ++ marks (flat cs)) := by
  induction hs generalizing cs with
  | nil =>
    rcases cs with - | ⟨c, - | ⟨c', cs⟩⟩
    · exact .refl _
    · simp [tryInOrder, mark]
    · cases hlen
  | cons h hs ih =>
    rcases cs with - | ⟨c, - | ⟨c', cs⟩⟩
    · cases hlen
    · cases hlen
    · have hrest := @ih (c' :: cs) (by simpa using hlen)
      unfold tryInOrder
      refine List.perm_iff_count.2 fun t => ?_
      have hcount := hrest.count_eq t
      simp only [toCode_append, toCode_lines, instr, marks_append, marks_instr, marks_mark,
        marks_nil, flat_cons, List.count_append, List.count_cons, List.count_nil,
        List.cons_append] at hcount ⊢
      omega

theorem Draft.mem_tryInOrder {stop : Nat} {hs : List Nat} {cs : List (Draft τ)} {line : Line τ}
    (hstop : l ≤ stop ∧ stop < l') (hhs : ∀ h ∈ hs, l ≤ h ∧ h < l')
    (h : line ∈ (tryInOrder stop hs cs).toCode) : line ∈ flat cs ∨ line.Within l l' := by
  have hmark (h : line ∈ (mark stop : Draft τ).toCode) : line.Within l l' := by
    rw [List.mem_singleton.1 h]
    exact Line.within_mark _
  induction hs generalizing cs with
  | nil =>
    cases cs with
    | nil => exact .inr (hmark h)
    | cons c cs =>
      unfold tryInOrder at h
      rw [toCode_append, List.mem_append] at h
      exact h.imp (List.mem_append_left _) hmark
  | cons k hs ih =>
    cases cs with
    | nil => exact .inr (hmark h)
    | cons c cs =>
      have hk := hhs k (List.mem_cons_self ..)
      simp only [tryInOrder, instr, toCode_append, toCode_lines, List.mem_append, List.mem_cons,
        List.not_mem_nil, or_false] at h
      rcases h with ((rfl | hc) | rfl | rfl | rfl) | hrest
      · exact .inr (Line.within_instr rfl (by simpa [Instr.targets] using hk))
      · exact .inl (List.mem_append_left _ hc)
      · exact .inr (Line.within_instr rfl (by simpa [Instr.targets] using hstop))
      · exact .inr (Line.within_mark _)
      · exact .inr (Line.within_of_targets rfl rfl)
      · exact (ih (fun h hh => hhs h (List.mem_cons_of_mem _ hh)) hrest).imp_left
          (List.mem_append_right _)

theorem Draft.chain_labels {as : List (Operand τ)}
    (has : ∀ a ∈ as, Emit.Labels size (a.emit discard)) :
    Emit.Labels size (chain as discard) := by
  intro l l' d h
  obtain ⟨cs, hcs, rfl⟩ := exists_of_chain h
  have hlen := hcs.length_eq
  have hown : labelsBetween l (l + 1 + (as.length - 1)) =
      l :: List.range' (l + 1) (as.length - 1) := by
    rw [Nat.add_assoc, labelsBetween_add, Nat.add_comm 1]
    exact List.range'_succ
  refine (hcs.labels has).wrap (by omega) ?_ fun line hline => ?_
  · rw [hown]
    exact marks_tryInOrder (by rw [List.length_range', hlen])
  · refine mem_tryInOrder ⟨Nat.le_refl l, by omega⟩ (fun k hk => ?_) hline
    rw [List.mem_range'_1] at hk
    omega

/-- The labels of the handlers of chosen alternatives. -/
theorem Emit.Each.handlerLabels {noOthers : Bool} {es : List (ExpectedSet τ)}
    {hs : List (Option Label)} (h : Emit.Each (Draft.handlerFor noOthers) l es hs l') :
    l ≤ l' ∧ hs.filterMap id = labelsBetween l l' := by
  induction h with
  | nil => exact ⟨Nat.le_refl _, (labelsBetween_self _).symm⟩
  | @cons k m k' e handler es hs hhandler _ ih =>
    obtain ⟨hle, hlabels⟩ := ih
    unfold Draft.handlerFor at hhandler
    by_cases hnone : noOthers && e.isEmpty
    · rw [if_pos hnone] at hhandler
      cases hhandler
      exact ⟨hle, hlabels⟩
    · rw [if_neg hnone, run_map_eq_ok_iff] at hhandler
      obtain ⟨label, hlabel, rfl⟩ := hhandler
      cases hlabel
      have hself : labelsBetween k (k + 1) = [k] := labelsBetween_add k 1
      refine ⟨by omega, ?_⟩
      rw [← labelsBetween_append (Nat.le_succ k) hle, hself, ← hlabels]
      rfl

theorem Draft.marks_chosen {stop t : Nat} {fallback h : Option Nat} {e : ExpectedSet τ}
    {c : Draft τ} :
    (marks (chosen stop fallback t h e c).toCode).Perm (t :: h.toList ++ marks c.toCode) := by
  cases h with
  | none => simp [chosen, mark, instr]
  | some h =>
    cases fallback with
    | none => simp [chosen, instr]
    | some f =>
      cases hempty : e.isEmpty <;> simp [chosen, only, instr, nothing, hempty]

theorem Draft.marks_allChosen {stop : Nat} {fallback : Option Nat} {ts : List Nat}
    {hs : List (Option Nat)} {es : List (ExpectedSet τ)} {cs : List (Draft τ)}
    (hts : ts.length = cs.length) (hhs : hs.length = cs.length) (hes : es.length = cs.length) :
    (marks (allChosen stop fallback ts hs es cs).toCode).Perm
      (ts ++ hs.filterMap id ++ marks (flat cs)) := by
  induction cs generalizing ts hs es with
  | nil =>
    match ts, hs, es, hts, hhs, hes with
    | [], [], [], _, _, _ => exact .refl _
  | cons c cs ih =>
    match ts, hs, es, hts, hhs, hes with
    | t :: ts, h :: hs, e :: es, hts, hhs, hes =>
      have hrest := ih (Nat.succ.inj hts) (Nat.succ.inj hhs) (Nat.succ.inj hes)
      have hhandler : (h :: hs).filterMap id = h.toList ++ hs.filterMap id := by
        cases h <;> rfl
      rw [hhandler]
      unfold allChosen
      refine List.perm_iff_count.2 fun k => ?_
      have hcount := hrest.count_eq k
      have hcount' := (@marks_chosen _ _ stop t fallback h e c).count_eq k
      simp only [toCode_append, marks_append, flat_cons, List.count_append, List.count_cons,
        List.cons_append] at hcount hcount' ⊢
      omega

theorem Draft.mem_chosen {stop t : Nat} {fallback h : Option Nat} {e : ExpectedSet τ}
    {c : Draft τ} {line : Line τ} (hstop : l ≤ stop ∧ stop < l')
    (hfallback : ∀ f ∈ fallback, l ≤ f ∧ f < l') (hh : ∀ k ∈ h, l ≤ k ∧ k < l')
    (hline : line ∈ (chosen stop fallback t h e c).toCode) :
    line ∈ c.toCode ∨ line.Within l l' := by
  cases h with
  | none =>
    simp only [chosen, mark, instr, toCode_append, toCode_lines, List.mem_append, List.mem_cons,
      List.not_mem_nil, or_false] at hline
    rcases hline with (rfl | hc) | rfl
    · exact .inr (Line.within_mark _)
    · exact .inl hc
    · exact .inr (Line.within_instr rfl (by simpa [Instr.targets] using hstop))
  | some k =>
    have hk := hh k rfl
    simp only [chosen, toCode_append, toCode_lines, List.mem_append, List.mem_cons,
      List.not_mem_nil, or_false] at hline
    rcases hline with (((rfl | rfl) | hc) | rfl | rfl | rfl) | htail
    · exact .inr (Line.within_mark _)
    · exact .inr (Line.within_instr rfl (by simpa [Instr.targets] using hk))
    · exact .inl hc
    · exact .inr (Line.within_instr rfl (by simpa [Instr.targets] using hstop))
    · exact .inr (Line.within_mark _)
    · exact .inr (Line.within_of_targets rfl rfl)
    · cases fallback with
      | none =>
        rw [List.mem_singleton.1 htail]
        exact .inr (Line.within_of_targets rfl rfl)
      | some f =>
        have hf := hfallback f rfl
        rw [toCode_append, List.mem_append] at htail
        rcases htail with hhint | hjump
        · unfold only at hhint
          split at hhint
          · rw [List.mem_singleton.1 hhint]
            exact .inr (Line.within_of_targets rfl rfl)
          · cases hhint
        · rw [List.mem_singleton.1 hjump]
          exact .inr (Line.within_instr rfl (by simpa [Instr.targets] using hf))

theorem Draft.mem_allChosen {stop : Nat} {fallback : Option Nat} {ts : List Nat}
    {hs : List (Option Nat)} {es : List (ExpectedSet τ)} {cs : List (Draft τ)} {line : Line τ}
    (hstop : l ≤ stop ∧ stop < l') (hfallback : ∀ f ∈ fallback, l ≤ f ∧ f < l')
    (hhs : ∀ k ∈ hs.filterMap id, l ≤ k ∧ k < l')
    (hline : line ∈ (allChosen stop fallback ts hs es cs).toCode) :
    line ∈ flat cs ∨ line.Within l l' := by
  induction cs generalizing ts hs es with
  | nil =>
    unfold allChosen at hline
    split at hline
    · rename_i heq
      cases heq
    · cases hline
  | cons c cs ih =>
    unfold allChosen at hline
    split at hline
    · rename_i t ts h hs e es c' cs' heq
      cases heq
      rw [toCode_append, List.mem_append] at hline
      rw [List.filterMap_cons] at hhs
      rcases hline with hc | hrest
      · refine (mem_chosen hstop hfallback (fun k hk => ?_) hc).imp_left
          (List.mem_append_left _)
        cases hk
        exact hhs k (List.mem_cons_self ..)
      · refine (ih (fun k hk => ?_) hrest).imp_left (List.mem_append_right _)
        cases h with
        | none => exact hhs k hk
        | some h => exact hhs k (List.mem_cons_of_mem _ hk)
    · cases hline

theorem Draft.dispatch_labels {table : List (Operand τ × Lead τ)} {others : List (Operand τ)}
    (hne : table ≠ []) (htable : ∀ a ∈ table, Emit.Labels size (a.1.emit discard))
    (hothers : ∀ a ∈ others, Emit.Labels size (a.emit discard)) :
    Emit.Labels size (dispatch table others discard) := by
  have hafter : (Dispatch.after (table.map Prod.snd)).length = table.length := by
    rw [Dispatch.length_after (by simpa using hne), List.length_map]
  intro l l' d h
  cases others with
  | nil =>
    obtain ⟨hs, parts, m, hhandlers, hparts, hd⟩ := exists_of_dispatch_nil h
    obtain ⟨hle, hlabels⟩ := hhandlers.handlerLabels
    have hown : labelsBetween l m = l :: (List.range' (l + 1) table.length ++ hs.filterMap id) := by
      rw [hlabels, ← labelsBetween_add (l + 1), labelsBetween_append (by omega) hle,
        ← labelsBetween_append (Nat.le_succ l) (by omega : l + 1 ≤ m)]
      exact congrArg (· ++ _) (labelsBetween_add l 1)
    have hmarks := @marks_allChosen _ _ l none (List.range' (l + 1) table.length) hs
      (Dispatch.after (table.map Prod.snd)) parts (by rw [List.length_range', hparts.length_eq])
      (by rw [hhandlers.length_eq, hafter, hparts.length_eq]) (by rw [hafter, hparts.length_eq])
    rw [hd]
    refine (hparts.labels htable).wrap (by omega) ?_ fun line hline => ?_
    · rw [hown]
      refine List.perm_iff_count.2 fun t => ?_
      have hcount := hmarks.count_eq t
      simp only [marks_append, marks_mark, marks_nil, marks_instr, List.count_append,
        List.count_cons, List.count_nil, List.cons_append] at hcount ⊢
      omega
    · simp only [List.append_nil, List.cons_append, List.mem_cons, List.mem_append,
        List.not_mem_nil, or_false] at hline
      rcases hline with rfl | hchosen | rfl
      · refine .inr (Line.within_instr rfl fun t ht => ?_)
        have hmem : t ∈ List.range' (l + 1) table.length := by simpa [Instr.targets] using ht
        rw [List.mem_range'_1] at hmem
        omega
      · refine mem_allChosen ⟨Nat.le_refl l, by omega⟩ (by simp) (fun k hk => ?_) hchosen
        rw [hlabels, mem_labelsBetween] at hk
        omega
      · exact .inr (Line.within_mark _)
  | cons o others =>
    obtain ⟨hs, parts, otherParts, m, m', hhandlers, hparts, hotherParts, hd⟩ :=
      exists_of_dispatch_cons h
    obtain ⟨hle, hlabels⟩ := hhandlers.handlerLabels
    have hown : labelsBetween l (m + (others.length + 1)) =
        l :: (l + 1) :: (List.range' (l + 2) table.length ++ hs.filterMap id ++
          m :: List.range' (m + 1) others.length) := by
      have hchain : labelsBetween m (m + (others.length + 1)) =
          m :: List.range' (m + 1) others.length := by
        rw [labelsBetween_add]
        exact List.range'_succ
      rw [hlabels, ← labelsBetween_add (l + 2), labelsBetween_append (by omega) hle, ← hchain,
        labelsBetween_append (by omega) (by omega),
        ← labelsBetween_append (by omega : l ≤ l + 2) (by omega : l + 2 ≤ _)]
      exact congrArg (· ++ _) (labelsBetween_add l 2)
    have hmarks := @marks_allChosen _ _ l (some (l + 1)) (List.range' (l + 2) table.length) hs
      (Dispatch.after (table.map Prod.snd)) parts (by rw [List.length_range', hparts.length_eq])
      (by rw [hhandlers.length_eq, hafter, hparts.length_eq]) (by rw [hafter, hparts.length_eq])
    have hmarks' := @marks_tryInOrder _ _ m (List.range' (m + 1) others.length) otherParts
      (by rw [List.length_range', hotherParts.length_eq]; rfl)
    rw [hd]
    refine ((hparts.labels htable).append (hotherParts.labels hothers)).wrap (by omega) ?_
      fun line hline => ?_
    · rw [hown]
      refine List.perm_iff_count.2 fun t => ?_
      have hcount := hmarks.count_eq t
      have hcount' := hmarks'.count_eq t
      simp only [marks_append, marks_mark, marks_nil, marks_instr, List.count_append,
        List.count_cons, List.count_nil, List.cons_append] at hcount hcount' ⊢
      omega
    · simp only [List.cons_append, List.append_assoc, List.mem_cons, List.mem_append,
        List.not_mem_nil, or_false] at hline
      rcases hline with rfl | hchosen | rfl | hchain | rfl
      · refine .inr (Line.within_instr rfl fun t ht => ?_)
        have hmem : t ∈ List.range' (l + 2) table.length ∨ t = l + 1 := by
          simpa [Instr.targets] using ht
        rw [List.mem_range'_1] at hmem
        omega
      · refine (mem_allChosen ⟨Nat.le_refl l, by omega⟩ (fun f hf => ?_) (fun k hk => ?_)
          hchosen).imp_left (List.mem_append_left _)
        · cases hf
          omega
        · rw [hlabels, mem_labelsBetween] at hk
          omega
      · exact .inr (Line.within_mark _)
      · refine (mem_tryInOrder ⟨by omega, by omega⟩ (fun k hk => ?_) hchain).imp_left
          (List.mem_append_right _)
        rw [List.mem_range'_1] at hk
        omega
      · exact .inr (Line.within_mark _)

theorem Draft.ofOperands_labels (tgt : Target τ) {as : List (Operand τ)}
    (has : ∀ a ∈ as, ∀ discard, Emit.Labels size (a.emit discard)) (discard : Bool) :
    Emit.Labels size (ofOperands tgt as discard) := by
  refine ofOperands_cases tgt (chain_labels fun a ha => has a ha discard) (fun table others hlen htable hothers => ?_)
    fun a ha => has a ha discard
  have hsome : table ≠ [] := List.ne_nil_of_length_pos (Nat.lt_of_lt_of_le Nat.zero_lt_two hlen)
  exact dispatch_labels hsome (fun x hx => has x.1 (htable x hx) discard) fun a ha => has a (hothers a ha) discard

/-! ### Expressions -/

theorem Expr.operands_labels (tgt : Target τ) (p : Expr τ) {rest : List (Operand τ)}
    (hrest : ∀ a ∈ rest, ∀ discard, Emit.Labels tgt.subroutines.size (a.emit discard)) :
    ∀ a ∈ p.operands tgt rest, ∀ discard, Emit.Labels tgt.subroutines.size (a.emit discard) := by
  induction p generalizing rest with
  | leaf l => exact List.forall_mem_cons.2 ⟨Leaf.labels tgt l, hrest⟩
  | unary u p ih =>
    have hp := Draft.ofOperands_labels tgt (ih (List.forall_mem_nil _))
    exact List.forall_mem_cons.2 ⟨Unary.labels hp u, hrest⟩
  | binary b p q ihp ihq =>
    have hp := Draft.ofOperands_labels tgt (ihp (List.forall_mem_nil _))
    have hq := Draft.ofOperands_labels tgt (ihq (List.forall_mem_nil _))
    cases b with
    | alt => exact ihp (ihq hrest)
    | seq kind => exact List.forall_mem_cons.2 ⟨SeqKind.labels hp hq kind, hrest⟩
    | branch f =>
      exact List.forall_mem_cons.2 ⟨fun discard => Draft.branch_labels (hp false) (hq false), hrest⟩

/-- The code of an expression marks the labels that were handed out for it. -/
theorem Expr.emit_labels (tgt : Target τ) (p : Expr τ) (discard : Bool) :
    Emit.Labels tgt.subroutines.size (p.emit tgt discard) :=
  Draft.ofOperands_labels tgt (operands_labels tgt p (by simp)) discard

end ParserMachine
