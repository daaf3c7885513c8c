import ParserMachine.Program.Listing
import ParserMachine.Proofs.Compiling.Discipline
import ParserMachine.Proofs.Compiling.Flows
import ParserMachine.Proofs.Linking.Layout
import ParserMachine.Proofs.Machine.Departing

/-!
# Control-flow graphs

Every step of a parse with the program of a type-correct grammar goes on at a target of its instruction, with the next
one if the instruction is not terminal, at the handler of a checkpoint if it unwinds, or after a call or at the end of
the program if it returns. So the graph of a program has an edge for every step that neither unwinds nor returns
(`Grammar.TypeCorrect.control_flow_graph_complete`).
-/

namespace ParserMachine

variable {τ : Type} [Token τ] {p : Program τ}

namespace Program

/-- An edge of the control-flow graph as it is written, with what tells how it is drawn. -/
def graphEdge (k t : Nat) (style : String) : String := "id" ++ toString k ++ " -> id" ++ toString t ++ style

/-- On a line of its own the control-flow graph has an edge from the first position to the second one, dashed or not. -/
def HasEdge (p : Program τ) (k t : Nat) : Prop :=
  ∃ style ∈ ["", " [style=dashed]"], ∃ before after, p.graph = before ++ "\n" ++ graphEdge k t style ++ "\n" ++ after

/-- Lines that are not the first ones stand between line ends. -/
theorem exists_join_lines (first : String) (above below : List String) (line : String) :
    ∃ before after,
      String.join (((first :: above) ++ line :: below).map (· ++ "\n")) = before ++ "\n" ++ line ++ "\n" ++ after := by
  have hended : ∃ before, String.join ((first :: above).map (· ++ "\n")) = before ++ "\n" := by
    rcases List.eq_nil_or_concat above with rfl | ⟨init, last, rfl⟩
    · exact ⟨first, by simp⟩
    · refine ⟨String.join ((first :: init).map (· ++ "\n")) ++ last, ?_⟩
      simp [String.join_append, String.join_cons, String.append_assoc]
  obtain ⟨before, hbefore⟩ := hended
  refine ⟨before, String.join (below.map (· ++ "\n")), ?_⟩
  rw [List.map_append, String.join_append, hbefore, List.map_cons, String.join_cons]
  simp only [String.append_assoc]

theorem graph_eq (p : Program τ) : p.graph = String.join
    ((["digraph \x7b"] ++ (p.code.toList.zipIdx.flatMap fun x => graphNode p.size x.2 x.1) ++ ["\x7d"]).map
      (· ++ "\n")) := rfl

/-- The lines of an instruction are lines of the graph. -/
theorem hasEdge_of_mem_graphNode {k t : Nat} {i : Instr τ Nat} (style : String) (hi : p.code[k]? = some i)
    (hstyle : style ∈ ["", " [style=dashed]"]) (h : graphEdge k t style ∈ graphNode p.size k i) : p.HasEdge k t := by
  have hmem : (i, k) ∈ p.code.toList.zipIdx := by
    rw [List.mem_zipIdx_iff_getElem?, Array.getElem?_toList]
    exact hi
  obtain ⟨above, below, hlines⟩ := List.append_of_mem (List.mem_flatMap.2 ⟨(i, k), hmem, h⟩ :
    graphEdge k t style ∈ p.code.toList.zipIdx.flatMap fun x => graphNode p.size x.2 x.1)
  obtain ⟨before, after, hjoin⟩ := exists_join_lines "digraph \x7b" above (below ++ ["\x7d"]) (graphEdge k t style)
  refine ⟨style, hstyle, before, after, hjoin ▸ ?_⟩
  rw [graph_eq, hlines]
  simp

theorem hasEdge_of_target {k t : Nat} {i : Instr τ Nat} (hi : p.code[k]? = some i) (ht : t ∈ i.targets) :
    p.HasEdge k t := by
  refine hasEdge_of_mem_graphNode " [style=dashed]" hi (by simp) ?_
  exact List.mem_append_right _ (List.mem_map.2 ⟨t, ht, rfl⟩)

theorem hasEdge_of_next {k : Nat} {i : Instr τ Nat} (hi : p.code[k]? = some i) (hterminal : i.isTerminal = false)
    (hsize : k + 1 < p.size) : p.HasEdge k (k + 1) := by
  refine hasEdge_of_mem_graphNode "" hi (by simp) ?_
  unfold graphNode
  rw [if_pos (by simp [hterminal, hsize])]
  simp [graphEdge]

/-- A linked program ends with a return. -/
theorem exists_code_of_link {a : Assembly τ} (hlink : a.link = .ok p) : ∃ init, p.code.toList = init ++ [.ret] := by
  obtain ⟨pre, hlayout⟩ := Assembly.exists_layout_eq a
  refine ⟨Code.placed a.pos pre, ?_⟩
  rw [Assembly.code_of_link hlink, hlayout, Code.placed_append]
  rfl

/-- After an instruction that is not terminal there is another one. -/
theorem lt_size_of_link {a : Assembly τ} (hlink : a.link = .ok p) {k : Nat} {i : Instr τ Nat}
    (hi : p.code[k]? = some i) (hterminal : i.isTerminal = false) : k + 1 < p.size := by
  obtain ⟨init, hinit⟩ := exists_code_of_link hlink
  have hsize : p.size = init.length + 1 := by
    show p.code.toList.length = _
    rw [hinit, List.length_append]
    rfl
  have hk : k < p.size := Array.getElem?_eq_some_iff.1 hi |>.1
  have hlast : k ≠ init.length := by
    rintro rfl
    rw [← Array.getElem?_toList, hinit, List.getElem?_concat_length] at hi
    cases hi
    cases hterminal
  omega

/-- Where a step leads that neither stops the machine nor makes it wait. -/
theorem FlowsBy.leads {bad : Unary τ → Prop} {into : Nat → Flow → Prop} (hflows : p.FlowsBy bad into) {s t : State τ}
    (hs : p.Reachable s) {i : Instr τ Nat} (hi : p.code[s.pc]? = some i) (hstep : p.step? s = some t)
    (ht : t.status = .running) :
    t.pc ∈ i.targets ∨ (t.pc = s.pc + 1 ∧ i.isTerminal = false) ∨
      (s.Unwinds t ∧ ∃ (q : Nat) (snapshot : Bool), p.code[q]? = some (.checkpoint t.pc snapshot)) ∨
      i = .ret ∧ (t.pc = p.size ∨ ∃ q l : Nat, p.code[q]? = some (.call l) ∧ t.pc = q + 1) := by
  obtain ⟨hrunning, j, hj, rfl⟩ := step?_eq_some_iff.1 hstep
  obtain rfl : i = j := Option.some.inj (hi.symm.trans hj)
  have hrooted : s.Rooted p := (hflows.rooted hs).resolve_left fun ⟨f, hf⟩ => by cases hf.symm.trans hrunning
  by_cases hcall : ∃ q, i = .call q
  · obtain ⟨q, rfl⟩ := hcall
    exact .inl (List.mem_singleton_self q)
  by_cases hret : i = .ret
  · subst hret
    refine .inr (.inr (.inr ⟨rfl, ?_⟩))
    show s.calls.top?.getD p.size = p.size ∨ ∃ q l : Nat, p.code[q]? = some (.call l) ∧ s.calls.top?.getD p.size = q + 1
    cases htop : s.calls.top? with
    | none => exact .inl rfl
    | some r =>
      obtain ⟨q, l, hq, hr⟩ := hrooted.calls r (List.mem_of_head? htop)
      exact .inr ⟨q, l, hq, hr⟩
  by_cases hcheckpoint : ∃ q snapshot, i = .checkpoint q snapshot
  · obtain ⟨q, snapshot, rfl⟩ := hcheckpoint
    exact .inr (.inl ⟨rfl, rfl⟩)
  have hdeparts := State.exec_departs (s := s) (fun q h => hcall ⟨q, h⟩) hret (fun q b h => hcheckpoint ⟨q, b, h⟩)
    (hflows.error_of_reacts hs hi hrunning) p.size
  cases hdeparts with
  | faults hf => cases hf.symm.trans ht
  | stands _ hstands => exact absurd ht hstands
  | goes _ hpc =>
    rcases hpc with hnext | htarget | hunwinds
    · exact .inr (.inl hnext)
    · exact .inl htarget
    · obtain ⟨h, hsuffix, hpc⟩ := hunwinds.handler
      obtain ⟨q, snapshot, hq⟩ := hrooted.handlers h (hsuffix.subset (List.mem_cons_self ..))
      exact .inr (.inr (.inl ⟨hunwinds, q, snapshot, hpc ▸ hq⟩))

end Program

/-- In a parse with the program of a type-correct grammar, of a whole input or of one that arrives in chunks, every step
that neither waits for input nor fails leads to a target of its instruction, to the next one if the instruction is not
terminal, to the handler of a checkpoint if it unwinds, or, from a return, to the place after a call or the end of the
program. So the control-flow graph has an edge for each that neither unwinds nor returns. -/
theorem Grammar.TypeCorrect.control_flow_graph_complete {g : Grammar τ} (htyped : g.TypeCorrect) (hcalls : g.CallFree)
    {o : Options} {root : NodeId} (hcompile : g.compile o root = .ok p) {s t : State τ} (hs : p.Reachable s)
    {i : Instr τ Nat} (hi : p.code[s.pc]? = some i) (hstep : p.step? s = some t) (hawake : t.status ≠ .suspended)
    (hfails : t.status ≠ .failed) :
    (t.pc ∈ i.targets ∨ (t.pc = s.pc + 1 ∧ i.isTerminal = false) ∨
      (s.Unwinds t ∧ ∃ (q : Nat) (snapshot : Bool), p.code[q]? = some (.checkpoint t.pc snapshot)) ∨
      i = .ret ∧ (t.pc = p.size ∨ ∃ q l : Nat, p.code[q]? = some (.call l) ∧ t.pc = q + 1)) ∧
    (¬ s.Unwinds t → i ≠ .ret → p.HasEdge s.pc t.pc) := by
  obtain ⟨_, b, S, -, -, -, -, hb, hrealizes⟩ := htyped.realizes hcalls hcompile
  have ht : t.status = .running := by
    cases hstatus : t.status with
    | running => rfl
    | suspended => exact absurd hstatus hawake
    | failed => exact absurd hstatus hfails
    | faulted f => exact absurd hstatus ((hrealizes.reachable hb (hs.step hstep)).1 f)
  have hall : g.Without fun _ => False := fun _ _ _ _ => id
  obtain ⟨into, hflows⟩ := hall.exists_flows ⟨fun _ => id, id, id⟩ hcompile
  have hleads := hflows.leads hs hi hstep ht
  refine ⟨hleads, fun hunwinds hret => ?_⟩
  rcases hleads with htarget | ⟨hpc, hterminal⟩ | ⟨h, -⟩ | ⟨h, -⟩
  · exact Program.hasEdge_of_target hi htarget
  · obtain ⟨b, -, hcompile⟩ := bind_eq_ok_iff.1 hcompile
    obtain ⟨b', -, hassemble⟩ := bind_eq_ok_iff.1 (b.compile_eq o ▸ hcompile)
    obtain ⟨a, -, hlink⟩ := bind_eq_ok_iff.1 hassemble
    rw [hpc]
    exact Program.hasEdge_of_next hi hterminal (Program.lt_size_of_link hlink hi hterminal)
  · exact absurd h hunwinds
  · exact absurd h hret

/-- The first step of a parse of one digit. -/
theorem Grammar.control_flow_graph_complete_signed :
    ∃ p t, signed.compile {} 5 = .ok p ∧ p.step? (Program.wholeStart ['1']) = some t ∧ t.pc = 6 ∧ p.HasEdge 0 6 := by
  have hcalls : signed.CallFree := callFree_of_forall (by simp [signed])
  have hrun : ((signed.compile {} 5).toOption.bind fun p => (p.code[0]?).bind fun i =>
      (p.step? (Program.wholeStart ['1'])).map fun t => (i.targets, t.status, t.pc, t.error.isSome)) =
      some ([1, 6], .running, 6, false) := by
    decide +kernel
  obtain ⟨p, hp, hcode⟩ := Option.bind_eq_some_iff.1 hrun
  obtain ⟨i, hi, hstep⟩ := Option.bind_eq_some_iff.1 hcode
  obtain ⟨t, ht, hwhere⟩ := Option.map_eq_some_iff.1 hstep
  obtain ⟨htargets, hstatus, hpc, herror⟩ :
      i.targets = [1, 6] ∧ t.status = .running ∧ t.pc = 6 ∧ t.error = none := by simpa using hwhere
  have hcompile : signed.compile {} 5 = .ok p := eq_ok_of_toOption hp
  obtain ⟨-, hedge⟩ := typeCorrect_signed.control_flow_graph_complete hcalls hcompile (.whole ['1']) hi ht
    (by simp [hstatus]) (by simp [hstatus])
  refine ⟨p, t, hcompile, ht, hpc, hpc ▸ hedge (fun h => ?_) ?_⟩
  · have hnone := h.error
    rw [herror] at hnone
    cases hnone
  · rintro rfl
    cases htargets

end ParserMachine
