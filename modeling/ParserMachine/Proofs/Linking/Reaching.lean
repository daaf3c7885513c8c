import Mathlib.Algebra.GroupWithZero.Nat
import ParserMachine.Proofs.Linking.Placement

/-!
# What is linked

The subroutines that are laid out are those that main reaches by calls: the bound on the number of calls
taken up is never met before all are (`Assembly.reaches_reachableFrom`). So all that laid out code jumps to or
calls is laid out, and every sound assembly can be linked (`Assembly.Sound.exists_link`).
-/

namespace ParserMachine

variable {τ : Type} [Token τ]

namespace Assembly

/-! ### Blocks by entry -/

theorem getElem?_foldl_insert_entry {bs : List (Block τ)} {l : Nat} {b : Block τ}
    (m : Std.TreeMap Label (Block τ))
    (h : (bs.foldl (fun m b => m.insert b.entry b) m)[l]? = some b) :
    (b ∈ bs ∧ b.entry = l) ∨ m[l]? = some b := by
  induction bs generalizing m with
  | nil => exact .inr h
  | cons c bs ih =>
    rcases ih _ h with ⟨hb, hl⟩ | hm
    · exact .inl ⟨List.mem_cons_of_mem _ hb, hl⟩
    · rw [Std.TreeMap.getElem?_insert] at hm
      split at hm
      · rename_i heq
        cases hm
        rw [Std.LawfulEqCmp.compare_eq_iff_eq] at heq
        exact .inl ⟨List.mem_cons_self .., heq⟩
      · exact .inr hm

/-- What is found at a label is a block that is entered there. -/
theorem mem_of_getElem?_byEntry {bs : List (Block τ)} {l : Nat} {b : Block τ}
    (h : (byEntry bs)[l]? = some b) : b ∈ bs ∧ b.entry = l := by
  refine (getElem?_foldl_insert_entry ∅ h).resolve_right fun hnone => ?_
  simp at hnone

/-- Something is found at the entry of every block. -/
theorem exists_getElem?_byEntry {bs : List (Block τ)} {b : Block τ} (hb : b ∈ bs) :
    ∃ c, (byEntry bs)[b.entry]? = some c := by
  have hkeep (bs : List (Block τ)) (m : Std.TreeMap Label (Block τ)) (l : Nat) (hl : l ∈ m) :
      l ∈ bs.foldl (fun m b => m.insert b.entry b) m := by
    induction bs generalizing m with
    | nil => exact hl
    | cons c bs ih => exact ih _ (Std.TreeMap.mem_insert.2 (.inr hl))
  have hfind (bs : List (Block τ)) (m : Std.TreeMap Label (Block τ)) (hb : b ∈ bs) :
      b.entry ∈ bs.foldl (fun m b => m.insert b.entry b) m := by
    induction bs generalizing m with
    | nil => cases hb
    | cons c bs ih =>
      rcases List.mem_cons.1 hb with rfl | hb
      · exact hkeep bs _ _ Std.TreeMap.mem_insert_self
      · exact ih _ hb
  exact Option.isSome_iff_exists.1 (Std.TreeMap.mem_iff_isSome_getElem?.1 (hfind bs ∅ hb))

/-! ### Reaching -/

/-- How many calls blocks make that were not reached. -/
def pending (seen : Std.TreeSet Nat) (bs : List (Block τ)) : Nat :=
  ((bs.filter fun b => b.label ∉ seen).map fun b => (Code.calls b.code).length).sum

theorem pending_cons (seen : Std.TreeSet Nat) (b : Block τ) (bs : List (Block τ)) :
    pending seen (b :: bs) =
      (if b.label ∈ seen then 0 else (Code.calls b.code).length) + pending seen bs := by
  unfold pending
  by_cases hb : b.label ∈ seen
  · rw [List.filter_cons_of_neg (by simpa using hb), if_pos hb, Nat.zero_add]
  · rw [List.filter_cons_of_pos (by simpa using hb), if_neg hb]
    rfl

theorem pending_empty (bs : List (Block τ)) :
    pending ∅ bs = (Code.calls (bs.flatMap Block.code)).length := by
  induction bs with
  | nil => rfl
  | cons b bs ih =>
    rw [pending_cons, if_neg (by simp), ih, List.flatMap_cons, Code.calls_append, List.length_append]

theorem pending_mono {seen seen' : Std.TreeSet Nat} (h : ∀ l ∈ seen, l ∈ seen')
    (bs : List (Block τ)) : pending seen' bs ≤ pending seen bs := by
  induction bs with
  | nil => exact Nat.le_refl _
  | cons b bs ih =>
    rw [pending_cons, pending_cons]
    by_cases hb : b.label ∈ seen
    · rw [if_pos hb, if_pos (h _ hb)]
      omega
    · rw [if_neg hb]
      split <;> omega

/-- The calls of a block that is reached are pending no longer. -/
theorem pending_insert {seen : Std.TreeSet Nat} {bs : List (Block τ)} {b : Block τ} (hb : b ∈ bs)
    (hnew : b.label ∉ seen) :
    pending (seen.insert b.label) bs + (Code.calls b.code).length ≤ pending seen bs := by
  have hinsert : ∀ l ∈ seen, l ∈ seen.insert b.label := fun l hl => Std.TreeSet.mem_insert.2 (.inr hl)
  induction bs with
  | nil => cases hb
  | cons c bs ih =>
    rw [pending_cons, pending_cons]
    rcases List.mem_cons.1 hb with rfl | hb
    · have hrest := pending_mono hinsert bs
      rw [if_pos Std.TreeSet.mem_insert_self, if_neg hnew]
      omega
    · have hrest := ih hb
      by_cases hc : c.label ∈ seen
      · rw [if_pos hc, if_pos (hinsert _ hc)]
        omega
      · rw [if_neg hc]
        split <;> omega

/-- What a call goes to was reached. -/
def Reached (bs : List (Block τ)) (seen : Std.TreeSet Nat) (l : Label) : Prop :=
  ∀ b, (byEntry bs)[l]? = some b → b.label ∈ seen

/-- What taking up calls comes to: `all` are the labels that were reached in the end. -/
structure Reaches (bs : List (Block τ)) (seen : Std.TreeSet Nat) (calls : List Label)
    (all : Std.TreeSet Nat) : Prop where
  /-- What was reached before stays so. -/
  mono : ∀ l ∈ seen, l ∈ all
  /-- All calls were taken up. -/
  taken : ∀ l ∈ calls, Reached bs all l
  /-- So were the calls of every block that was reached thereby. -/
  bodies : ∀ (l : Nat) b, (byEntry bs)[l]? = some b → b.label ∈ all →
    b.label ∈ seen ∨ ∀ m ∈ Code.calls b.code, Reached bs all m

theorem reaches_reachableFrom {bs : List (Block τ)}
    (hlabels : ∀ b ∈ bs, ∀ c ∈ bs, b.label = c.label → b = c) (steps : Nat) (seen : Std.TreeSet Nat)
    (calls : List Label) (hsteps : calls.length + pending seen bs ≤ steps) :
    Reaches bs seen calls (reachableFrom (byEntry bs) steps seen calls) := by
  induction steps generalizing seen calls with
  | zero =>
    obtain rfl : calls = [] := List.length_eq_zero_iff.1 (by omega)
    exact ⟨fun l hl => hl, nofun, fun l b _ hb => .inl hb⟩
  | succ steps ih =>
    cases calls with
    | nil => exact ⟨fun l hl => hl, nofun, fun l b _ hb => .inl hb⟩
    | cons l calls =>
      rw [List.length_cons] at hsteps
      unfold reachableFrom
      cases hl : (byEntry bs)[l]? with
      | none =>
        obtain ⟨hseen, hcalls, hbodies⟩ := ih seen calls (by omega)
        refine ⟨hseen, fun m hm => ?_, hbodies⟩
        rcases List.mem_cons.1 hm with rfl | hm
        · intro b hb
          rw [hl] at hb
          cases hb
        · exact hcalls m hm
      | some b =>
        have hfound (c : Block τ) (hc : (byEntry bs)[l]? = some c) : c = b := by
          rw [hl] at hc
          cases hc
          rfl
        dsimp only
        split
        · rename_i hb
          obtain ⟨hseen, hcalls, hbodies⟩ := ih seen calls (by omega)
          refine ⟨hseen, fun m hm => ?_, hbodies⟩
          rcases List.mem_cons.1 hm with rfl | hm
          · intro c hc
            rw [hfound c hc]
            exact hseen _ hb
          · exact hcalls m hm
        · rename_i hnew
          have hmem := (mem_of_getElem?_byEntry hl).1
          have hpending := pending_insert hmem hnew
          obtain ⟨hseen, hcalls, hbodies⟩ := ih (seen.insert b.label)
            (Code.calls b.code ++ calls) (by rw [List.length_append]; omega)
          refine ⟨fun m hm => hseen m (Std.TreeSet.mem_insert.2 (.inr hm)), fun m hm => ?_,
            fun m c hc hall => ?_⟩
          · rcases List.mem_cons.1 hm with rfl | hm
            · intro c hc
              rw [hfound c hc]
              exact hseen _ Std.TreeSet.mem_insert_self
            · exact hcalls m (List.mem_append_right _ hm)
          · rcases hbodies m c hc hall with hin | hin
            · rcases Std.TreeSet.mem_insert.1 hin with hcb | hin
              · rw [Std.LawfulEqCmp.compare_eq_iff_eq] at hcb
                obtain rfl := hlabels b hmem c (mem_of_getElem?_byEntry hc).1 hcb
                exact .inr fun k hk => hcalls k (List.mem_append_left _ hk)
              · exact .inl hin
            · exact .inr hin

/-! ### Linking -/

variable {a : Assembly τ}

/-- Blocks with one label are the same. -/
theorem Sound.eq_of_label (h : a.Sound) {b c : Block τ} (hb : b ∈ a.blocks) (hc : c ∈ a.blocks)
    (hlabel : b.label = c.label) : b = c := by
  rw [h.named b hb, h.named c hc] at hlabel
  refine h.eq_of_mem_labels hb hc (List.mem_cons_self ..) ?_
  rw [hlabel]
  exact List.mem_cons_self ..

/-- All that laid out code calls is laid out. -/
theorem Sound.isEntry_of_call (h : a.Sound) {c : Code τ}
    (hc : c = a.main ∨ ∃ b ∈ a.reachable, b.code = c) {l : Label} (hl : l ∈ Code.calls c) :
    a.IsEntry l := by
  have hreaches := reaches_reachableFrom (fun b hb c hc => h.eq_of_label hb hc)
    (Code.calls (a.main ++ a.blocks.flatMap Block.code)).length ∅ (Code.calls a.main)
    (Nat.le_of_eq (by rw [pending_empty, Code.calls_append, List.length_append]))
  have hcode : c ∈ a.codes := by
    rcases hc with rfl | ⟨b, hb, rfl⟩
    · exact List.mem_cons_self ..
    · exact List.mem_cons_of_mem _ (List.mem_map_of_mem (mem_reachable hb))
  obtain ⟨b, hb, rfl⟩ := List.mem_map.1 (h.calls c hcode l hl)
  obtain ⟨b', hb'⟩ := exists_getElem?_byEntry hb
  have hfound (b : Block τ) (hb : b ∈ a.blocks) (b' : Block τ)
      (hb' : (byEntry a.blocks)[b.entry]? = some b') : b' = b := by
    obtain ⟨hmem, hentry⟩ := mem_of_getElem?_byEntry hb'
    refine h.eq_of_label hmem hb ?_
    rw [h.named b hb, h.named b' hmem, hentry]
  obtain rfl := hfound b hb b' hb'
  refine ⟨b', List.mem_filter.2 ⟨hb, decide_eq_true ?_⟩, rfl⟩
  rcases hc with rfl | ⟨d, hd, rfl⟩
  · exact hreaches.taken _ hl b' hb'
  · have hdmem := List.mem_filter.1 hd
    obtain ⟨d', hd'⟩ := exists_getElem?_byEntry hdmem.1
    obtain rfl := hfound d hdmem.1 d' hd'
    have hbodies := hreaches.bodies _ _ hd' (of_decide_eq_true hdmem.2)
    exact hbodies.resolve_left (by simp) _ hl b' hb'

theorem mem_marks_of_reachable {b : Block τ} (hb : b ∈ a.reachable) {l : Label} (hl : l ∈ b.labels) :
    l ∈ Code.marks a.layout := by
  rw [marks_layout]
  exact List.mem_append_right _ (List.mem_flatMap.2 ⟨b, hb, hl⟩)

/-- The code that a laid out instruction stands in, unless it is the return behind it. -/
theorem exists_code_of_mem_layout {i : Instr τ Label} (hi : .instr i ∈ a.layout) :
    i = .ret ∨ ∃ c ∈ a.codes, (c = a.main ∨ ∃ b ∈ a.reachable, b.code = c) ∧
      .instr i ∈ c ∧ ∀ l ∈ Code.marks c, l ∈ Code.marks a.layout := by
  unfold layout at hi
  simp only [List.mem_append, List.mem_flatMap, List.mem_cons, List.not_mem_nil, or_false] at hi
  rcases hi with (hmain | hret) | ⟨b, hb, (hmark | hcode) | hret⟩
  · refine .inr ⟨_, List.mem_cons_self .., .inl rfl, hmain, fun l hl => ?_⟩
    rw [marks_layout]
    exact List.mem_append_left _ hl
  · cases hret
    exact .inl rfl
  · cases hmark
  · have hmem : b.code ∈ a.codes :=
      List.mem_cons_of_mem _ (List.mem_map_of_mem (mem_reachable hb))
    exact .inr ⟨_, hmem, .inr ⟨b, hb, rfl⟩, hcode,
      fun l hl => mem_marks_of_reachable hb (List.mem_cons_of_mem _ hl)⟩
  · cases hret
    exact .inl rfl

/-- What a laid out call goes to is laid out. -/
theorem Sound.isEntry_of_mem_layout (h : a.Sound) {l : Label} (hl : .instr (.call l) ∈ a.layout) :
    a.IsEntry l := by
  rcases exists_code_of_mem_layout hl with hret | ⟨c, -, hlaid, hmem, -⟩
  · cases hret
  · exact h.isEntry_of_call hlaid (List.mem_filterMap.2 ⟨_, hmem, rfl⟩)

/-- What laid out code jumps to or calls is marked in the layout. -/
theorem Sound.mem_marks_layout (h : a.Sound) {i : Instr τ Label} (hi : .instr i ∈ a.layout) {l : Label}
    (hl : l ∈ i.targets) : l ∈ Code.marks a.layout := by
  cases hplain : i.isPlain with
  | true =>
    rcases exists_code_of_mem_layout hi with rfl | ⟨c, hc, -, hmem, hmarks⟩
    · cases hl
    · have hjumps : Line.jumps (.instr i) = i.targets := if_pos hplain
      exact hmarks l ((h.closed c hc).jumps _ hmem l (hjumps ▸ hl))
  | false =>
    cases i with
    | ret => cases hl
    | call m =>
      obtain rfl := List.mem_singleton.1 hl
      obtain ⟨b, hb, rfl⟩ := h.isEntry_of_mem_layout hi
      exact mem_marks_of_reachable hb (List.mem_cons_self ..)
    | _ => cases hplain

/-- The position of every label is known that laid out code jumps to or calls. -/
theorem Sound.getElem?_positions (h : a.Sound) (i : Instr τ Label) (hi : .instr i ∈ a.layout) (l : Label)
    (hl : l ∈ i.targets) : (Code.positions a.layout)[l]? = some (a.pos l) := by
  obtain ⟨pre, hpre⟩ := Code.suffix_of_mem_marks (h.mem_marks_layout hi hl)
  have hnodup := h.nodup_layout
  rw [← hpre] at hnodup
  have hget := Code.getElem?_positionsFrom hnodup ∅ 0
  rw [hpre] at hget
  unfold pos Code.positions
  rw [Std.TreeMap.getD_eq_getD_getElem?, hget]
  rfl

/-- A sound assembly can be linked. -/
theorem Sound.exists_link (h : a.Sound) : ∃ p, a.link = .ok p := by
  obtain ⟨lines, hlines, -⟩ := Code.mapM_resolveLine h.getElem?_positions
  refine ⟨⟨(lines.filterMap id).toArray⟩, ?_⟩
  unfold link
  dsimp only
  rw [hlines]
  rfl

end Assembly

end ParserMachine
