import Mathlib.Data.List.Flatten
import ParserMachine.Proofs.Assembly.Running
import ParserMachine.Proofs.Linking.Flat
import ParserMachine.Proofs.Lists

/-!
# Where linked code stands

Linking writes the instructions of main and of the subroutines that it reaches in a row, each block with
a return at its end, and replaces labels by the positions of their marks. So each of these blocks
stands in the program (`Assembly.at_of_link`), and the program does what the assembly does
(`Assembly.simulates_of_link`).
-/

namespace ParserMachine

variable {τ : Type} [Token τ]

namespace Code

theorem size_append (c d : Code τ) : size (c ++ d) = size c + size d := List.countP_append

/-! ### Positions -/

theorem getElem?_positionsFrom_of_not_mem {c : Code τ} {l : Label} (h : l ∉ marks c)
    (known : Std.TreeMap Label Nat) (start : Nat) :
    (positionsFrom known start c)[l]? = known[l]? := by
  induction c generalizing known start with
  | nil => rfl
  | cons line c ih =>
    cases line with
    | instr i => exact ih h known (start + 1)
    | mark m =>
      have hne : m ≠ l := fun hml => h (hml ▸ List.mem_cons_self ..)
      unfold positionsFrom
      rw [ih (fun hmem => h (List.mem_cons_of_mem _ hmem)), Std.TreeMap.getElem?_insert]
      simp [hne]

theorem getElem?_positionsFrom {pre post : Code τ} {l : Label}
    (hnodup : (marks (pre ++ .mark l :: post)).Nodup) (known : Std.TreeMap Label Nat)
    (start : Nat) :
    (positionsFrom known start (pre ++ .mark l :: post))[l]? = some (start + size pre) := by
  induction pre generalizing known start with
  | nil =>
    have hnot : l ∉ marks post := (List.nodup_cons.1 hnodup).1
    show (positionsFrom (known.insert l start) start post)[l]? = _
    rw [getElem?_positionsFrom_of_not_mem hnot, Std.TreeMap.getElem?_insert]
    simp [size]
  | cons line pre ih =>
    cases line with
    | instr i =>
      show (positionsFrom known (start + 1) (pre ++ .mark l :: post))[l]? = _
      rw [ih hnodup]
      have hsize : size (.instr i :: pre) = size pre + 1 := List.countP_cons_of_pos rfl
      rw [hsize]
      congr 1
      omega
    | mark m =>
      show (positionsFrom (known.insert m start) start (pre ++ .mark l :: post))[l]? = _
      rw [ih (List.nodup_cons.1 hnodup).2]
      rfl

theorem mem_marks_of_positionsFrom {c : Code τ} {l : Label} {known : Std.TreeMap Label Nat}
    {start q : Nat} (h : (positionsFrom known start c)[l]? = some q) (hknown : known[l]? = none) :
    l ∈ marks c := by
  by_contra hnot
  rw [getElem?_positionsFrom_of_not_mem hnot, hknown] at h
  cases h

end Code

/-! ### Resolving labels -/

namespace Instr

variable {ε ι κ : Type} {f : ι → Except ε κ} {g : ι → κ} {i : Instr τ ι} {j : Instr τ κ}

/-- Where every target can be replaced, they are. -/
theorem retarget_eq_ok (h : ∀ l ∈ i.targets, f l = .ok (g l)) :
    i.retarget f = .ok (i.mapTargets g) := by
  cases i with
  | dispatch table ts before all fallback =>
    have hts : ts.mapM f = .ok (ts.map g) := mapM_eq_ok fun l hl => h l (List.mem_append_left _ hl)
    rw [mapTargets_dispatch, retarget, hts]
    cases fallback with
    | none => rfl
    | some t =>
      have ht := h t (List.mem_append_right _ (List.mem_singleton_self t))
      show (Option.mapM f (some t) >>= _) = _
      rw [Option.mapM_some, ht]
      rfl
  | loop body exit pushes =>
    rw [retarget, h body (List.mem_cons_self ..),
      h exit (List.mem_cons_of_mem _ (List.mem_cons_self ..))]
    rfl
  | call t | jump t | case t | checkpoint t _ | commit t | release t | restore t | labelOk _ t =>
    rw [retarget, h t (List.mem_cons_self ..)]
    rfl
  | _ => rfl

theorem exists_of_retarget_eq_ok (h : i.retarget f = .ok j) : ∀ l ∈ i.targets, ∃ q, f l = .ok q := by
  have hsingle {t : ι} {mk : κ → Instr τ κ} (h : (f t >>= fun q => pure (mk q)) = Except.ok j) :
      ∀ l ∈ [t], ∃ q, f l = .ok q := by
    intro l hl
    rw [List.mem_singleton.1 hl]
    cases ht : f t with
    | error e =>
      rw [ht] at h
      cases h
    | ok q => exact ⟨q, rfl⟩
  cases i with
  | dispatch table ts before all fallback =>
    rw [retarget] at h
    cases hts : ts.mapM f with
    | error e =>
      rw [hts] at h
      cases h
    | ok qs =>
      intro l hl
      rcases List.mem_append.1 hl with hl | hl
      · exact exists_of_mapM_eq_ok hts hl
      · cases fallback with
        | none => cases hl
        | some t =>
          rw [hts] at h
          rw [List.mem_singleton.1 hl]
          cases ht : f t with
          | error e =>
            simp only [Option.mapM_some, ht] at h
            cases h
          | ok q => exact ⟨q, rfl⟩
  | loop body exit pushes =>
    rw [retarget] at h
    cases hbody : f body with
    | error e =>
      rw [hbody] at h
      cases h
    | ok q =>
      rw [hbody] at h
      intro l hl
      rcases List.mem_cons.1 hl with rfl | hl
      · exact ⟨q, hbody⟩
      · exact hsingle h l hl
  | call t | jump t | case t | checkpoint t _ | commit t | release t | restore t | labelOk _ t =>
    exact hsingle h
  | _ => exact List.forall_mem_nil _

end Instr

/-! ### Laying out -/

namespace Code

/-- The instructions of code, with positions for labels. -/
def placed (pos : Label → Nat) (c : Code τ) : List (Instr τ Nat) :=
  c.filterMap fun line =>
    match line with
    | .mark _ => none
    | .instr i => some (i.mapTargets pos)

variable {pos : Label → Nat}

theorem placed_append (c d : Code τ) : placed pos (c ++ d) = placed pos c ++ placed pos d :=
  List.filterMap_append

theorem length_placed (c : Code τ) : (placed pos c).length = size c := by
  induction c with
  | nil => rfl
  | cons line c ih =>
    cases line with
    | mark l => exact ih
    | instr i =>
      have hsize : size (.instr i :: c) = size c + 1 := List.countP_cons_of_pos rfl
      rw [hsize, ← ih]
      rfl

theorem position_eq_ok_iff {known : Std.TreeMap Label Nat} {l : Label} {q : Nat} :
    position known l = .ok q ↔ known[l]? = some q := by
  unfold position
  cases known[l]? with
  | none => exact ⟨nofun, nofun⟩
  | some q' => exact ⟨fun h => by cases h; rfl, fun h => by cases h; rfl⟩

/-- Code is resolved if all its targets are known. -/
theorem mapM_resolveLine {known : Std.TreeMap Label Nat} {c : Code τ}
    (h : ∀ i, .instr i ∈ c → ∀ l ∈ i.targets, known[l]? = some (pos l)) :
    ∃ lines, c.mapM (resolveLine known) = .ok lines ∧ lines.filterMap id = placed pos c := by
  induction c with
  | nil => exact ⟨[], rfl, rfl⟩
  | cons line c ih =>
    obtain ⟨lines, hlines, hplaced⟩ := ih fun i hi => h i (List.mem_cons_of_mem _ hi)
    cases line with
    | mark l =>
      refine ⟨none :: lines, ?_, hplaced⟩
      rw [List.mapM_cons, hlines]
      rfl
    | instr i =>
      have hi : i.retarget (position known) = .ok (i.mapTargets pos) :=
        Instr.retarget_eq_ok fun l hl =>
          position_eq_ok_iff.2 (h i (List.mem_cons_self ..) l hl)
      refine ⟨some (i.mapTargets pos) :: lines, ?_, congrArg (_ :: ·) hplaced⟩
      rw [List.mapM_cons, hlines, resolveLine, hi]
      rfl

/-- In code that is resolved all targets are known. -/
theorem exists_of_mapM_resolveLine {known : Std.TreeMap Label Nat} {c : Code τ}
    {lines : List (Option (Instr τ Nat))} (h : c.mapM (resolveLine known) = .ok lines)
    {i : Instr τ Label} (hi : .instr i ∈ c) {l : Label} (hl : l ∈ i.targets) :
    ∃ q, known[l]? = some q := by
  obtain ⟨line, hline⟩ := exists_of_mapM_eq_ok h hi
  rw [resolveLine] at hline
  cases hj : i.retarget (position known) with
  | error e =>
    rw [hj] at hline
    cases hline
  | ok j =>
    obtain ⟨q, hq⟩ := Instr.exists_of_retarget_eq_ok hj l hl
    exact ⟨q, position_eq_ok_iff.1 hq⟩

end Code

/-- A block with a return at its end stands where it was laid out. -/
theorem Program.at_of_layout {p : Program τ} {pos : Label → Nat} {good : Label → Prop}
    {layout pre c post : Code τ} (hcode : p.code = (Code.placed pos layout).toArray)
    (hpos : ∀ pre l post, layout = pre ++ .mark l :: post → pos l = Code.size pre)
    (hlayout : layout = pre ++ (c ++ .instr .ret :: post))
    (hgood : ∀ l ∈ Code.calls c, good l) :
    p.At pos good (Code.size pre + Code.size c) (Code.size pre) c := by
  have hat {pre post : Code τ} {i : Instr τ Label} (h : layout = pre ++ .instr i :: post) :
      p.code[Code.size pre]? = some (i.mapTargets pos) := by
    rw [hcode, h, Code.placed_append, List.getElem?_toArray,
      List.getElem?_append_right (Nat.le_of_eq (Code.length_placed pre)), Code.length_placed, Nat.sub_self]
    rfl
  induction c generalizing pre with
  | nil => exact ⟨rfl, hat hlayout⟩
  | cons line c ih =>
    have hnext : layout = pre ++ [line] ++ (c ++ .instr .ret :: post) := by
      rw [hlayout, List.append_assoc]
      rfl
    have hcalls : ∀ l ∈ Code.calls c, good l := by
      intro l hl
      refine hgood l ?_
      rw [Code.calls_cons]
      exact List.mem_append_right _ hl
    have hrest := ih hnext hcalls
    have hsize : Code.size (line :: c) = Code.size [line] + Code.size c := Code.size_append [line] c
    rw [Code.size_append, Nat.add_assoc, ← hsize] at hrest
    cases line with
    | mark l => exact ⟨hpos pre l _ hlayout, hrest⟩
    | instr i =>
      refine ⟨hat hlayout, fun l hl => hgood l ?_, hrest⟩
      rw [Code.calls_cons]
      exact List.mem_append_left _ (Option.mem_toList.2 hl)

namespace Assembly

variable {a : Assembly τ} {p : Program τ}

theorem mem_reachable {b : Block τ} (h : b ∈ a.reachable) : b ∈ a.blocks := List.mem_of_mem_filter h

theorem marks_layout (a : Assembly τ) :
    Code.marks a.layout = Code.marks a.main ++ a.reachable.flatMap Block.labels := by
  have hblocks (bs : List (Block τ)) :
      Code.marks (bs.flatMap fun b => .mark b.entry :: b.code ++ [Line.instr .ret]) =
        bs.flatMap Block.labels := by
    induction bs with
    | nil => rfl
    | cons b bs ih =>
      rw [List.flatMap_cons, Code.marks_append, ih]
      simp [Block.labels]
  unfold layout
  rw [Code.marks_append, Code.marks_append, hblocks]
  simp

theorem Sound.nodup_layout (h : a.Sound) : (Code.marks a.layout).Nodup := by
  rw [marks_layout]
  refine h.nodup.sublist ((List.Sublist.refl _).append ?_)
  exact List.Sublist.flatMap List.filter_sublist _

/-- Where labels stand in the layout. -/
def pos (a : Assembly τ) (l : Label) : Nat := (Code.positions a.layout).getD l 0

/-- Whether a label is the entry of a subroutine that is laid out. -/
def IsEntry (a : Assembly τ) (l : Label) : Prop := ∃ b ∈ a.reachable, b.entry = l

theorem Sound.pos_eq (h : a.Sound) {pre post : Code τ} {l : Label}
    (hlayout : a.layout = pre ++ .mark l :: post) : a.pos l = Code.size pre := by
  have hnodup := h.nodup_layout
  rw [hlayout] at hnodup
  have hget := Code.getElem?_positionsFrom hnodup ∅ 0
  unfold pos Code.positions
  rw [Std.TreeMap.getD_eq_getD_getElem?, hlayout, hget]
  simp

/-- A label that is marked in the layout and is that of a subroutine is the entry of one that is
laid out. -/
theorem Sound.isEntry (h : a.Sound) {l : Label} (hentry : l ∈ a.entries)
    (hmarks : l ∈ Code.marks a.layout) : a.IsEntry l := by
  obtain ⟨b, hb, rfl⟩ := List.mem_map.1 hentry
  have hlb : b.entry ∈ b.labels := List.mem_cons_self ..
  rw [marks_layout, List.mem_append] at hmarks
  rcases hmarks with hmain | hblocks
  · exact absurd hmain (h.not_mem_main hb hlb)
  · obtain ⟨c, hc, hlc⟩ := List.mem_flatMap.1 hblocks
    rw [h.eq_of_mem_labels hb (mem_reachable hc) hlb hlc]
    exact ⟨c, hc, rfl⟩

/-- A subroutine that is laid out, in the layout. -/
theorem exists_layout_of_reachable {b : Block τ} (hb : b ∈ a.reachable) :
    ∃ pre post, a.layout = pre ++ .mark b.entry :: (b.code ++ .instr .ret :: post) := by
  obtain ⟨s, t, hst⟩ := List.append_of_mem hb
  let lay (bs : List (Block τ)) : Code τ :=
    bs.flatMap fun b => .mark b.entry :: b.code ++ [Line.instr .ret]
  refine ⟨a.main ++ [Line.instr .ret] ++ lay s, lay t, ?_⟩
  unfold layout
  rw [hst, List.flatMap_append, List.flatMap_cons]
  simp [lay]

/-- Where linking succeeds, it has found every label. -/
theorem getElem?_positions_of_link (hlink : a.link = .ok p) {i : Instr τ Label} (hi : .instr i ∈ a.layout)
    {l : Label} (hl : l ∈ i.targets) : (Code.positions a.layout)[l]? = some (a.pos l) := by
  unfold link at hlink
  obtain ⟨lines, hlines, -⟩ := bind_eq_ok_iff.1 hlink
  obtain ⟨q, hq⟩ := Code.exists_of_mapM_resolveLine hlines hi hl
  rw [pos, Std.TreeMap.getD_eq_getD_getElem?, hq]
  rfl

/-- A program that was linked has the instructions of the layout. -/
theorem code_of_link (hlink : a.link = .ok p) : p.code = (Code.placed a.pos a.layout).toArray := by
  obtain ⟨lines, hlines, hplaced⟩ :=
    Code.mapM_resolveLine fun i hi l hl => getElem?_positions_of_link hlink hi hl
  unfold link at hlink
  dsimp only at hlink
  rw [hlines] at hlink
  cases hlink
  rw [← hplaced]

/-- Each block that is laid out stands in the program. -/
theorem at_of_link (h : a.Sound) (hlink : a.link = .ok p) :
    p.At a.pos a.IsEntry (Code.size a.main) 0 a.main ∧
      ∀ l, a.IsEntry l → ∃ stop, p.At a.pos a.IsEntry stop (a.pos l) (a.codeOf l) := by
  have hcalled {c : Code τ} (hcode : c ∈ a.codes) (hin : ∀ line ∈ c, line ∈ a.layout) :
      ∀ l ∈ Code.calls c, a.IsEntry l := by
    intro l hl
    apply h.isEntry (h.calls c hcode l hl)
    obtain ⟨line, hline, hcall⟩ := List.mem_filterMap.1 hl
    have htargets : line = .instr (.call l) := by
      unfold Line.call? at hcall
      split at hcall
      · cases hcall
        rfl
      · cases hcall
    have hget := getElem?_positions_of_link hlink (htargets ▸ hin line hline) (List.mem_singleton_self l)
    exact Code.mem_marks_of_positionsFrom hget (by simp)
  have hcode := code_of_link hlink
  have hpos (pre : Code τ) (l : Label) (post : Code τ) (hl : a.layout = pre ++ .mark l :: post) :
      a.pos l = Code.size pre := h.pos_eq hl
  refine ⟨?_, fun l hl => ?_⟩
  · have hlayout : a.layout = [] ++ (a.main ++ .instr .ret ::
        a.reachable.flatMap fun b => .mark b.entry :: b.code ++ [Line.instr .ret]) := by
      unfold layout
      rw [List.append_assoc]
      rfl
    have hmain := hcalled (List.mem_cons_self ..) fun line hline => by
      rw [hlayout]
      exact List.mem_append_right _ (List.mem_append_left _ hline)
    have hat := Program.at_of_layout hcode hpos hlayout hmain
    have hstop : Code.size ([] : Code τ) + Code.size a.main = Code.size a.main := Nat.zero_add _
    rwa [hstop] at hat
  · obtain ⟨b, hb, rfl⟩ := hl
    obtain ⟨pre, post, hlayout⟩ := exists_layout_of_reachable hb
    have hlayout' : a.layout = pre ++ [Line.mark b.entry] ++ (b.code ++ .instr .ret :: post) := by
      rw [hlayout, List.append_assoc]
      rfl
    have hblock := mem_reachable hb
    have hcalls := hcalled (List.mem_cons_of_mem _ (List.mem_map_of_mem hblock)) fun line hline => by
      rw [hlayout']
      exact List.mem_append_right _ (List.mem_append_left _ hline)
    have hat := Program.at_of_layout hcode hpos hlayout' hcalls
    rw [h.codeOf_entry hblock, hpos pre b.entry _ hlayout]
    rw [Code.size_append] at hat
    exact ⟨_, hat⟩

/-! ### Runs of linked programs -/

/-- What there is around the main code that is begun in a state. -/
def around (a : Assembly τ) (s : State τ) : Around := ⟨s.calls, s.handlers, Code.size a.main⟩

theorem runs_begin (h : a.Sound) (hlink : a.link = .ok p) {s : State τ} (hpc : s.pc = 0)
    (hstatus : s.status = .running) : p.Runs a.pos a.IsEntry (a.around s) (a.begin s) s := by
  have hat := (at_of_link h hlink).1
  have hsound : (a.begin s).Sound :=
    ⟨h.closed _ (List.mem_cons_self ..), List.suffix_refl _, nofun, hpc, fun _ => rfl, nofun⟩
  refine ⟨hsound, hstatus, 0, Code.size a.main, s.calls, s.handlers, hat, hpc ▸ hat, .nil, ?_⟩
  have hmap : s.status.mapPc (place a.pos s.pc) = s.status := by
    rw [hstatus]
    rfl
  unfold begin State.embed
  dsimp only
  rw [hmap, show place a.pos s.pc s.pc = s.pc by rw [hpc, place_zero]]
  rfl

theorem runs_start (h : a.Sound) (hlink : a.link = .ok p) (input : List τ) :
    p.Runs a.pos a.IsEntry ⟨.empty, [], Code.size a.main⟩ (a.start input)
      { input := input.toArray, more := false } :=
  runs_begin (s := { input := input.toArray, more := false }) h hlink rfl rfl

theorem simulates_of_link (h : a.Sound) (hlink : a.link = .ok p) (A : Around) :
    Simulates (Config.step? a.codeOf) p.step?
      (fun x S => p.Runs a.pos a.IsEntry A x S ∨ Program.Leaves A x S) fun x => x.rest.length :=
  Program.simulates (at_of_link h hlink).2 h.codeOf_closed

/-- The program comes to the outcomes of the assembly, and at its end only the result is left on the
stacks. -/
theorem Parses.run (h : a.Sound) (hlink : a.link = .ok p) {input : List τ} {o : Outcome τ}
    (ho : a.Parses input o) :
    ∃ n T, p.run n { input := input.toArray, more := false } = some T ∧ o.Agrees T.outcome ∧
      (T.status = .running → T.Clean ∧ T.calls = .empty) := by
  obtain ⟨x, hx, hfinished, hagrees⟩ := ho
  obtain ⟨n, T, hT, hT', hclean⟩ := Program.ends_of_finished (simulates_of_link h hlink _)
    (runs_start h hlink input) hx hfinished
  exact ⟨n, T, hT, hagrees.trans hT', hclean⟩

theorem Parses.parse (h : a.Sound) (hlink : a.link = .ok p) {input : List τ} {o : Outcome τ}
    (ho : a.Parses input o) : ∃ n o', p.parse n input = some o' ∧ o.Agrees o' := by
  obtain ⟨n, T, hT, hagrees, -⟩ := ho.run h hlink
  exact ⟨n, T.outcome, by rw [Program.parse, hT]; rfl, hagrees⟩

/-- Where a run of the assembly does not end, neither does one of the program. -/
theorem Loops.run (h : a.Sound) (hlink : a.link = .ok p) {input : List τ}
    (hloops : a.Loops input) (n : Nat) :
    p.run n { input := input.toArray, more := false } = none := by
  have hprogram := (simulates_of_link h hlink _).lasts (.inl (runs_start h hlink input)) hloops
  exact Program.run_eq_none_of_lasts (hprogram (n + 1))

end Assembly

end ParserMachine
