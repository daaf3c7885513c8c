import ParserMachine.Proofs.Linking.Reaching

/-!
# What a linked program looks like

A program that was linked from a sound assembly is its layout with positions for labels (`Program.LaysOut`):
main and the subroutines that main calls, directly or through others (`Assembly.Called`), each with a return
at its end. Every target is the position of the instruction that follows the mark, and every call goes to the
beginning of a subroutine.
-/

namespace ParserMachine

variable {τ : Type} [Token τ]

namespace Assembly

variable {a : Assembly τ}

/-! ### What main calls -/

/-- Main calls the label, or a subroutine does that main calls. -/
inductive Called (a : Assembly τ) : Label → Prop where
  /-- Main calls it itself. -/
  | main {l : Label} : l ∈ Code.calls a.main → Called a l
  /-- A subroutine calls it that is called. -/
  | through {b : Block τ} {l : Label} : b ∈ a.blocks → Called a b.entry → l ∈ Code.calls b.code →
    Called a l

/-- Nothing is reached but what main calls. -/
theorem Sound.called_of_mem_reachableFrom (h : a.Sound) (steps : Nat) (seen : Std.TreeSet Nat)
    (calls : List Label) (hseen : ∀ l ∈ seen, a.Called l) (hcalls : ∀ l ∈ calls, a.Called l) :
    ∀ l ∈ reachableFrom (byEntry a.blocks) steps seen calls, a.Called l := by
  induction steps generalizing seen calls with
  | zero => exact hseen
  | succ steps ih =>
    match calls with
    | [] => exact hseen
    | m :: calls =>
      obtain ⟨hm, hrest⟩ := List.forall_mem_cons.1 hcalls
      unfold reachableFrom
      split
      · exact ih seen calls hseen hrest
      · rename_i b hb
        split
        · exact ih seen calls hseen hrest
        · obtain ⟨hmem, rfl⟩ := mem_of_getElem?_byEntry hb
          apply ih
          · intro l hl
            rcases Std.TreeSet.mem_insert.1 hl with hl | hl
            · rw [Std.LawfulEqCmp.compare_eq_iff_eq, h.named b hmem] at hl
              exact hl ▸ hm
            · exact hseen l hl
          · intro l hl
            rcases List.mem_append.1 hl with hl | hl
            · exact .through hmem hm hl
            · exact hrest l hl

/-- What main calls is laid out. -/
theorem Sound.isEntry_of_called (h : a.Sound) {l : Label} (hl : a.Called l) : a.IsEntry l := by
  induction hl with
  | main hl => exact h.isEntry_of_call (.inl rfl) hl
  | @through b l hb _ hl ih =>
    obtain ⟨c, hc, hentry⟩ := ih
    have hbc : b.entry ∈ c.labels := by
      rw [← hentry]
      exact List.mem_cons_self ..
    obtain rfl := h.eq_of_mem_labels hb (mem_reachable hc) (List.mem_cons_self ..) hbc
    exact h.isEntry_of_call (.inr ⟨b, hc, rfl⟩) hl

/-- The subroutines that are laid out are those that main calls. -/
theorem Sound.mem_reachable_iff (h : a.Sound) {b : Block τ} (hb : b ∈ a.blocks) :
    b ∈ a.reachable ↔ a.Called b.entry := by
  constructor
  · intro hreachable
    have hlabel := of_decide_eq_true (List.mem_filter.1 hreachable).2
    rw [← h.named b hb]
    apply h.called_of_mem_reachableFrom _ ∅ (Code.calls a.main) _ _ _ hlabel
    · intro l hl
      simp at hl
    · intro l hl
      exact .main hl
  · intro hcalled
    obtain ⟨c, hc, hentry⟩ := h.isEntry_of_called hcalled
    have hbc : b.entry ∈ c.labels := by
      rw [← hentry]
      exact List.mem_cons_self ..
    rw [h.eq_of_mem_labels hb (mem_reachable hc) (List.mem_cons_self ..) hbc]
    exact hc

/-- No subroutine is laid out twice. -/
theorem Sound.nodup_reachable (h : a.Sound) : a.reachable.Nodup := by
  have hmarks := h.nodup_layout
  rw [marks_layout] at hmarks
  have hblocks := (List.nodup_append.1 hmarks).2.1
  have hdisjoint := (List.nodup_flatMap.1 hblocks).2
  apply hdisjoint.imp
  rintro b c hbc rfl
  exact hbc (List.mem_cons_self ..) (List.mem_cons_self ..)

end Assembly

/-! ### The program -/

/-- The program is the layout of the assembly, and its targets are where the marks stand. -/
structure Program.LaysOut (p : Program τ) (a : Assembly τ) : Prop where
  /-- The program has the instructions of the layout, with positions for labels. -/
  code : p.code.toList = Code.placed a.pos a.layout
  /-- Main comes first, and ends with a return. -/
  main : ∃ post, p.code.toList = Code.placed a.pos (a.main ++ .instr .ret :: post)
  /-- Every subroutine that is laid out stands where its label does, and ends with a return. -/
  subroutines : ∀ b ∈ a.reachable, ∃ post,
    p.code.toList.drop (a.pos b.entry) = Code.placed a.pos (b.code ++ .instr .ret :: post)
  /-- Subroutines are laid out once. -/
  once : a.reachable.Nodup
  /-- The subroutines that main calls are laid out, and no others. -/
  called : ∀ b ∈ a.blocks, b ∈ a.reachable ↔ a.Called b.entry
  /-- A target is the position of the instruction that follows the mark. -/
  targets : ∀ i, .instr i ∈ a.layout → ∀ l ∈ i.targets, a.pos l < p.size ∧
    ∃ pre post, a.layout = pre ++ .mark l :: post ∧ a.pos l = Code.size pre ∧
      p.code.toList.drop (a.pos l) = Code.placed a.pos post
  /-- No target is outside the program. -/
  bounded : ∀ i ∈ p.code, ∀ q ∈ i.targets, q < p.size
  /-- Calls go to subroutines that are laid out. -/
  calls : ∀ l, .instr (.call l) ∈ a.layout → ∃ b ∈ a.reachable, b.entry = l

namespace Assembly

variable {a : Assembly τ} {p : Program τ}

/-- The last line that is laid out is a return. -/
theorem exists_layout_eq (a : Assembly τ) : ∃ pre, a.layout = pre ++ [Line.instr .ret] := by
  unfold layout
  rcases List.eq_nil_or_concat a.reachable with hnil | ⟨bs, b, hlast⟩
  · exact ⟨a.main, by simp [hnil]⟩
  · refine ⟨a.main ++ [Line.instr .ret] ++
      bs.flatMap (fun b => .mark b.entry :: b.code ++ [Line.instr .ret]) ++ .mark b.entry :: b.code, ?_⟩
    simp [hlast, List.flatMap_append]

/-- An instruction follows each mark. -/
theorem size_pos_of_layout {pre post : Code τ} {l : Label} (h : a.layout = pre ++ .mark l :: post) :
    0 < Code.size post := by
  obtain ⟨init, hinit⟩ := exists_layout_eq a
  have hlast : (.mark l :: post).getLast? = some (.instr (.ret : Instr τ Label)) := by
    have hlayout : (pre ++ .mark l :: post).getLast? = some (.instr (.ret : Instr τ Label)) := by
      rw [← h, hinit, List.getLast?_concat]
    rwa [List.getLast?_append_of_ne_nil _ (List.cons_ne_nil _ _)] at hlayout
  have hret : .instr (.ret : Instr τ Label) ∈ post := by
    rcases List.mem_cons.1 (List.mem_of_getLast? hlast) with hmark | hpost
    · cases hmark
    · exact hpost
  exact List.countP_pos_iff.2 ⟨_, hret, rfl⟩

section Placed

variable (hcode : p.code.toList = Code.placed a.pos a.layout)
include hcode

theorem size_of_placed : p.size = Code.size a.layout := by
  rw [← Code.length_placed, ← hcode]
  rfl

/-- From a mark on, the program is what is laid out after it. -/
theorem Sound.drop_of_placed (h : a.Sound) {pre post : Code τ} {l : Label}
    (hlayout : a.layout = pre ++ .mark l :: post) :
    p.code.toList.drop (a.pos l) = Code.placed a.pos post := by
  rw [h.pos_eq hlayout, hcode, hlayout, Code.placed_append, List.drop_append_of_le_length]
  · rw [List.drop_of_length_le (Nat.le_of_eq (Code.length_placed pre))]
    rfl
  · exact Nat.le_of_eq (Code.length_placed pre).symm

/-- Where a label stands there is an instruction. -/
theorem Sound.pos_lt_size (h : a.Sound) {pre post : Code τ} {l : Label}
    (hlayout : a.layout = pre ++ .mark l :: post) : a.pos l < p.size := by
  have hpost := size_pos_of_layout hlayout
  have hsize : Code.size a.layout = Code.size pre + Code.size post := by
    rw [hlayout, Code.size_append]
    congr 1
  rw [h.pos_eq hlayout, size_of_placed hcode, hsize]
  omega

end Placed

/-- What is linked from a sound assembly is its layout. -/
theorem Sound.laysOut (h : a.Sound) (hlink : a.link = .ok p) : p.LaysOut a := by
  have hcode : p.code.toList = Code.placed a.pos a.layout := by rw [code_of_link hlink]
  have htargets (i : Instr τ Label) (hi : .instr i ∈ a.layout) (l : Label) (hl : l ∈ i.targets) :
      a.pos l < p.size ∧ ∃ pre post, a.layout = pre ++ .mark l :: post ∧ a.pos l = Code.size pre ∧
        p.code.toList.drop (a.pos l) = Code.placed a.pos post := by
    obtain ⟨pre, hpre⟩ := Code.suffix_of_mem_marks (h.mem_marks_layout hi hl)
    have hlayout := hpre.symm
    exact ⟨h.pos_lt_size hcode hlayout, pre, _, hlayout, h.pos_eq hlayout,
      h.drop_of_placed hcode hlayout⟩
  refine ⟨hcode, ?_, fun b hb => ?_, h.nodup_reachable, fun b => h.mem_reachable_iff, htargets,
    fun j hj q hq => ?_, fun l hl => ?_⟩
  · refine ⟨a.reachable.flatMap fun b => .mark b.entry :: b.code ++ [Line.instr .ret], ?_⟩
    rw [hcode]
    simp [layout]
  · obtain ⟨pre, post, hlayout⟩ := exists_layout_of_reachable hb
    exact ⟨post, h.drop_of_placed hcode hlayout⟩
  · rw [← Array.mem_toList_iff, hcode] at hj
    obtain ⟨line, hline, hplaced⟩ := List.mem_filterMap.1 hj
    cases line with
    | mark l => cases hplaced
    | instr i =>
      cases hplaced
      rw [Instr.targets_mapTargets] at hq
      obtain ⟨l, hl, rfl⟩ := List.mem_map.1 hq
      exact (htargets i hline l hl).1
  · exact h.isEntry_of_mem_layout hl

end Assembly

end ParserMachine
