import Mathlib.Data.List.Nodup
import Mathlib.Data.List.Pairwise
import ParserMachine.Proofs.Machine.Invariant

/-!
# Running assemblies

An assembly runs from the beginning of its main block (`Assembly.start`), with calls going to the blocks
of their labels (`Assembly.codeOf`). A sound assembly marks every label in one place, and its jumps and
calls find what they go to (`Assembly.Sound`).
-/

namespace ParserMachine

variable {τ : Type} [Token τ]

namespace Code

@[simp] theorem calls_nil : calls ([] : Code τ) = [] := rfl

@[simp] theorem calls_cons (line : Line τ) (c : Code τ) :
    calls (line :: c) = line.call?.toList ++ calls c := by
  unfold calls
  rw [List.filterMap_cons]
  cases line.call? <;> rfl

@[simp] theorem calls_append (c d : Code τ) : calls (c ++ d) = calls c ++ calls d :=
  List.filterMap_append

end Code

/-- The labels of a subroutine: that of its entry and those that its code marks. -/
def Block.labels (b : Block τ) : List Label := b.entry :: Code.marks b.code

namespace Assembly

/-- The code of the subroutine that is entered at a label. -/
def codeOf (a : Assembly τ) (l : Label) : Code τ :=
  ((a.blocks.find? fun b => b.entry = l).map Block.code).getD []

/-- The labels at which subroutines are entered. -/
def entries (a : Assembly τ) : List Label := a.blocks.map Block.entry

/-- All labels, each as often as it is marked. -/
def labels (a : Assembly τ) : List Label := Code.marks a.main ++ a.blocks.flatMap Block.labels

/-- Main and the code of each subroutine. -/
def codes (a : Assembly τ) : List (Code τ) := a.main :: a.blocks.map Block.code

/-- An assembly whose jumps and calls find what they go to. -/
structure Sound (a : Assembly τ) : Prop where
  /-- No label is marked twice. -/
  nodup : a.labels.Nodup
  /-- Labels from `fresh` on are not used. -/
  fresh : ∀ l : Nat, l ∈ a.labels → l < a.fresh
  /-- Control stays in each block until its end. -/
  closed : ∀ c ∈ a.codes, c.Closed
  /-- Calls go to subroutines. -/
  calls : ∀ c ∈ a.codes, ∀ l ∈ Code.calls c, l ∈ a.entries
  /-- A subroutine has the label of its entry. -/
  named : ∀ b ∈ a.blocks, b.label = b.entry

/-- Where main is begun in a state, with no return positions and handlers of the state. -/
def begin (a : Assembly τ) (s : State τ) : Config τ :=
  ⟨a.main, a.main, { s with calls := .empty, handlers := [] }, []⟩

/-- Where a run on a whole input begins. -/
def start (a : Assembly τ) (input : List τ) : Config τ :=
  ⟨a.main, a.main, { input := input.toArray, more := false }, []⟩

variable {a : Assembly τ}

theorem codeOf_mem_codes_or (a : Assembly τ) (l : Label) :
    a.codeOf l ∈ a.codes ∨ a.codeOf l = [] := by
  unfold codeOf
  cases h : a.blocks.find? fun b => b.entry = l with
  | none => exact .inr rfl
  | some b =>
    exact .inl (List.mem_cons_of_mem _ (List.mem_map_of_mem (List.mem_of_find?_eq_some h)))

theorem Sound.codeOf_closed (h : a.Sound) (l : Label) : (a.codeOf l).Closed := by
  rcases codeOf_mem_codes_or a l with hmem | hnil
  · exact h.closed _ hmem
  · rw [hnil]
    exact Code.Closed.nil

theorem Sound.start_sound (h : a.Sound) (input : List τ) : (a.start input).Sound where
  closed := h.closed _ (List.mem_cons_self ..)
  suffix := List.suffix_refl _
  handlers := nofun
  pc := rfl
  failed := nofun
  frames := nofun

/-- Two blocks that share a label are the same. -/
theorem Sound.eq_of_mem_labels (h : a.Sound) {b c : Block τ} (hb : b ∈ a.blocks)
    (hc : c ∈ a.blocks) {l : Label} (hlb : l ∈ b.labels) (hlc : l ∈ c.labels) : b = c := by
  by_contra hne
  have hblocks := (List.nodup_append.1 h.nodup).2.1
  have hdisjoint := (List.nodup_flatMap.1 hblocks).2
  have : Std.Symm (Function.onFun List.Disjoint (@Block.labels τ _)) :=
    ⟨fun _ _ hxy _ hy hx => hxy hx hy⟩
  exact hdisjoint.forall hb hc hne hlb hlc

theorem Sound.codeOf_entry (h : a.Sound) {b : Block τ} (hb : b ∈ a.blocks) :
    a.codeOf b.entry = b.code := by
  unfold codeOf
  cases hfind : a.blocks.find? fun c => c.entry = b.entry with
  | none =>
    have := List.find?_eq_none.1 hfind b hb
    simp at this
  | some c =>
    have hentry : c.entry = b.entry := by simpa using List.find?_some hfind
    have hlc : b.entry ∈ c.labels := by
      rw [← hentry]
      exact List.mem_cons_self ..
    rw [h.eq_of_mem_labels hb (List.mem_of_find?_eq_some hfind) (List.mem_cons_self ..) hlc]
    rfl

/-- Main marks no label of a subroutine. -/
theorem Sound.not_mem_main (h : a.Sound) {b : Block τ} (hb : b ∈ a.blocks) {l : Label}
    (hl : l ∈ b.labels) : l ∉ Code.marks a.main := by
  intro hmain
  exact (List.nodup_append.1 h.nodup).2.2 l hmain l (List.mem_flatMap.2 ⟨b, hb, hl⟩) rfl

/-! ### Outcomes -/

/-- A run of the assembly on the input comes to this outcome. -/
def Parses (a : Assembly τ) (input : List τ) (o : Outcome τ) : Prop :=
  ∃ x, Ends (Config.step? a.codeOf) (a.start input) x ∧ x.Finished ∧ o.Agrees x.state.outcome

/-- The run of the assembly on the input does not end. -/
def Loops (a : Assembly τ) (input : List τ) : Prop :=
  ∀ n, Lasts (Config.step? a.codeOf) n (a.start input)

/-- The second assembly does on every input what the first one does. -/
structure Refines (a a' : Assembly τ) : Prop where
  /-- It comes to the same outcomes. -/
  parses : ∀ {input o}, a.Parses input o → a'.Parses input o
  /-- Its runs do not end where those of the first do not. -/
  loops : ∀ {input}, a.Loops input → a'.Loops input

/-- The second assembly is sound if the first one is, and then it does what that does. -/
def Improves (a a' : Assembly τ) : Prop := a.Sound → a'.Sound ∧ a.Refines a'

theorem Refines.refl (a : Assembly τ) : a.Refines a := ⟨id, id⟩

theorem Refines.trans {a a' a'' : Assembly τ} (h : a.Refines a') (h' : a'.Refines a'') :
    a.Refines a'' := ⟨fun ho => h'.parses (h.parses ho), fun hl => h'.loops (h.loops hl)⟩

theorem Improves.refl (a : Assembly τ) : a.Improves a := fun h => ⟨h, .refl a⟩

theorem Improves.trans {a a' a'' : Assembly τ} (h : a.Improves a') (h' : a'.Improves a'') :
    a.Improves a'' := by
  intro hsound
  obtain ⟨hsound', hrefines⟩ := h hsound
  obtain ⟨hsound'', hrefines'⟩ := h' hsound'
  exact ⟨hsound'', hrefines.trans hrefines'⟩

end Assembly

end ParserMachine
