import ParserMachine.Proofs.Binding.Trees

/-!
# References and reachability

A chain of references that ends meets no cell twice, so following it for as many steps as there are
cells finds its end (`Grammar.resolve_eq_ok_iff`). A root can be bound just if every reference that it
reaches leads to a parser (`Grammar.exists_bind_iff`), and otherwise a chain was cut off or never defined
(`Grammar.bind_error`).
-/

namespace ParserMachine

variable {τ : Type} [Token τ] {g : Grammar τ} {p q r : NodeId} {n m : Nat} {e : CompileError}

namespace Grammar

/-! ### Chains of references -/

/-- A chain of so many references leads from a node to one that is no reference. -/
inductive LeadsIn (g : Grammar τ) : Nat → NodeId → NodeId → Prop where
  /-- The node itself is no reference. -/
  | here {p : NodeId} (h : ∀ c, g.node p ≠ .lazy c) : LeadsIn g 0 p p
  /-- The node is a reference, and its target leads on. -/
  | next {n : Nat} {p q r : NodeId} {c : CellId} (h : g.node p = .lazy c)
    (htarget : (g.cell c).target? = some q) (hq : LeadsIn g n q r) : LeadsIn g (n + 1) p r

/-- Finitely many references lead from a node to one that is no reference. -/
def LeadsTo (g : Grammar τ) (p q : NodeId) : Prop := ∃ n, g.LeadsIn n p q

theorem LeadsIn.not_lazy (h : g.LeadsIn n p q) : ∀ c, g.node q ≠ .lazy c := by
  induction h with
  | here h => exact h
  | next _ _ _ ih => exact ih

theorem LeadsIn.unique (h : g.LeadsIn n p q) (h' : g.LeadsIn m p r) : n = m ∧ q = r := by
  induction h generalizing m with
  | here h =>
    cases h' with
    | here _ => exact ⟨rfl, rfl⟩
    | next hlazy _ _ => exact absurd hlazy (h _)
  | next hlazy htarget _ ih =>
    cases h' with
    | here h => exact absurd hlazy (h _)
    | next hlazy' htarget' hq =>
      obtain rfl := Node.lazy.inj (hlazy.symm.trans hlazy')
      obtain rfl := Option.some.inj (htarget.symm.trans htarget')
      obtain ⟨rfl, rfl⟩ := ih hq
      exact ⟨rfl, rfl⟩

theorem LeadsTo.refl (h : ∀ c, g.node p ≠ .lazy c) : g.LeadsTo p p := ⟨0, .here h⟩

/-- What a reference leads to, its target leads to. -/
theorem LeadsTo.target {c : CellId} (h : g.LeadsTo p r) (hlazy : g.node p = .lazy c)
    (htarget : (g.cell c).target? = some q) : g.LeadsTo q r := by
  obtain ⟨n, h⟩ := h
  cases h with
  | here h => exact absurd hlazy (h c)
  | next hlazy' htarget' hq =>
    obtain rfl := Node.lazy.inj (hlazy.symm.trans hlazy')
    obtain rfl := Option.some.inj (htarget.symm.trans htarget')
    exact ⟨_, hq⟩

theorem lt_size_of_target? {c : CellId} (h : (g.cell c).target? = some q) : c < g.cells.size := by
  by_contra hc
  unfold cell at h
  rw [Array.getD_eq_getD_getElem?, Array.getElem?_eq_none (Nat.le_of_not_lt hc)] at h
  cases h

/-- The cells of a chain that ends are different ones: from each cell the end is another number of steps
away. -/
theorem LeadsIn.exists_cells (h : g.LeadsIn n p r) :
    ∃ cs : List CellId, cs.length = n ∧ cs.Nodup ∧
      ∀ c ∈ cs, ∃ m q, m < n ∧ (g.cell c).target? = some q ∧ g.LeadsIn m q r := by
  induction h with
  | here h => exact ⟨[], rfl, .nil, nofun⟩
  | @next n p q r c hlazy htarget hq ih =>
    obtain ⟨cs, hlength, hnodup, hcs⟩ := ih
    refine ⟨c :: cs, congrArg (· + 1) hlength, List.nodup_cons.2 ⟨fun hmem => ?_, hnodup⟩, fun d hd => ?_⟩
    · obtain ⟨m, q', hm, htarget', hq'⟩ := hcs c hmem
      obtain rfl := Option.some.inj (htarget.symm.trans htarget')
      exact absurd (hq.unique hq').1 (Nat.ne_of_gt hm)
    · rcases List.mem_cons.1 hd with rfl | hd
      · exact ⟨n, q, Nat.lt_succ_self n, htarget, hq⟩
      · obtain ⟨m, q', hm, hd⟩ := hcs d hd
        exact ⟨m, q', Nat.lt_succ_of_lt hm, hd⟩

theorem LeadsIn.le_size (h : g.LeadsIn n p q) : n ≤ g.cells.size := by
  obtain ⟨cs, rfl, hnodup, hcs⟩ := h.exists_cells
  have hsubset : cs ⊆ List.range g.cells.size := fun c hc => by
    obtain ⟨_, _, -, htarget, -⟩ := hcs c hc
    exact List.mem_range.2 (lt_size_of_target? htarget)
  have hlength := (List.subperm_of_subset hnodup hsubset).length_le
  rwa [List.length_range] at hlength

theorem LeadsIn.followFor (h : g.LeadsIn n p q) {steps : Nat} (hn : n ≤ steps) :
    (g.followFor steps p).2 = .ok q := by
  induction h generalizing steps with
  | here h =>
    unfold Grammar.followFor
    split
    · rename_i hlazy
      exact absurd hlazy (h _)
    · rfl
  | next hlazy htarget _ ih =>
    obtain ⟨steps, rfl⟩ := Nat.exists_eq_succ_of_ne_zero (Nat.ne_zero_of_lt hn)
    rw [Grammar.followFor, hlazy]
    dsimp only
    rw [htarget]
    exact ih (Nat.le_of_succ_le_succ hn)

/-- Following references finds where they lead, or the chain was not defined or is cut off. -/
theorem followFor_spec (g : Grammar τ) (steps : Nat) (p : NodeId) :
    (∃ q, (g.followFor steps p).2 = .ok q ∧ g.LeadsTo p q) ∨
      ∃ e, (g.followFor steps p).2 = .error e ∧ (e = .undefinedReference ∨ e = .cyclicReference) := by
  induction steps generalizing p with
  | zero =>
    unfold followFor
    split
    · exact .inr ⟨_, rfl, .inr rfl⟩
    · rename_i hp
      exact .inl ⟨p, rfl, .refl hp⟩
  | succ steps ih =>
    unfold followFor
    split
    · rename_i c hlazy
      cases htarget : (g.cell c).target? with
      | none => exact .inr ⟨_, rfl, .inl rfl⟩
      | some q =>
        refine (ih q).imp_left ?_
        rintro ⟨r, hr, n, hn⟩
        exact ⟨r, hr, n + 1, .next hlazy htarget hn⟩
    · rename_i hp
      exact .inl ⟨p, rfl, .refl hp⟩

/-- Resolving finds the end of every chain of references that ends. -/
theorem resolve_eq_ok_iff : g.resolve p = .ok q ↔ g.LeadsTo p q := by
  constructor
  · intro h
    rcases g.followFor_spec g.cells.size p with ⟨q', hq', hleads⟩ | ⟨e, he, -⟩
    · cases hq'.symm.trans h
      exact hleads
    · cases he.symm.trans h
  · rintro ⟨n, h⟩
    exact h.followFor h.le_size

theorem resolve_error (h : g.resolve p = .error e) : e = .undefinedReference ∨ e = .cyclicReference := by
  rcases g.followFor_spec g.cells.size p with ⟨q', hq', -⟩ | ⟨e', he', hkind⟩
  · cases hq'.symm.trans h
  · cases he'.symm.trans h
    exact hkind

/-! ### Reachability -/

/-- The nodes that a root reaches: over parts of nodes and over targets of references. -/
inductive Reaches (g : Grammar τ) (root : NodeId) : NodeId → Prop where
  /-- The root itself. -/
  | refl : Reaches g root root
  /-- The parts of what is reached. -/
  | part {p k : NodeId} (h : Reaches g root p) (hk : k ∈ g.children p) : Reaches g root k
  /-- The target of a reference that is reached. -/
  | target {p q : NodeId} {c : CellId} (h : Reaches g root p) (hlazy : g.node p = .lazy c)
    (htarget : (g.cell c).target? = some q) : Reaches g root q

theorem Reaches.trans (h : g.Reaches p q) (h' : g.Reaches q r) : g.Reaches p r := by
  induction h' with
  | refl => exact h
  | part _ hk ih => exact ih.part hk
  | target _ hlazy htarget ih => exact ih.target hlazy htarget

theorem LeadsTo.reaches (h : g.LeadsTo p q) : g.Reaches p q := by
  obtain ⟨n, h⟩ := h
  induction h with
  | here _ => exact .refl
  | next hlazy htarget _ ih => exact (Reaches.refl.target hlazy htarget).trans ih

/-- Every reference that a node reaches leads to a parser. -/
def Resolvable (g : Grammar τ) (root : NodeId) : Prop :=
  ∀ p c, g.Reaches root p → g.node p = .lazy c → ∃ q, g.LeadsTo p q

theorem Resolvable.of_reaches (h : g.Resolvable p) (hq : g.Reaches p q) : g.Resolvable q :=
  fun r c hr => h r c (hq.trans hr)

theorem Resolvable.exists_resolve (h : g.Resolvable p) : ∃ q, g.resolve p = .ok q := by
  cases hnode : g.node p with
  | lazy c =>
    obtain ⟨q, hq⟩ := h p c .refl hnode
    exact ⟨q, resolve_eq_ok_iff.2 hq⟩
  | leaf l => exact ⟨p, resolve_eq_ok_iff.2 (.refl fun c => by simp [hnode])⟩
  | unary u k => exact ⟨p, resolve_eq_ok_iff.2 (.refl fun c => by simp [hnode])⟩
  | binary b k l => exact ⟨p, resolve_eq_ok_iff.2 (.refl fun c => by simp [hnode])⟩

/-- Every reference that a root reaches leads to a parser if it does so for the root and if all parts of what
it reaches are resolved. -/
theorem resolvable_of_forall {root : NodeId} {P : NodeId → Prop} (hroot : ∃ q, g.LeadsTo root q ∧ P q)
    (hpart : ∀ p, P p → ∀ k ∈ g.children p, ∃ q, g.LeadsTo k q ∧ P q) : g.Resolvable root := by
  have hall : ∀ p, g.Reaches root p → ∃ q, g.LeadsTo p q ∧ P q := by
    intro p hp
    induction hp with
    | refl => exact hroot
    | @part p k _ hk ih =>
      obtain ⟨q, hq, hP⟩ := ih
      -- a node with parts is no reference
      have hp : ∀ c, g.node p ≠ .lazy c := fun c hc => by
        rw [children, hc] at hk
        cases hk
      obtain ⟨n, hq⟩ := hq
      obtain ⟨-, hqp⟩ := hq.unique (.here hp)
      exact hpart p (hqp ▸ hP) k hk
    | target _ hlazy htarget ih =>
      obtain ⟨q, hq, hP⟩ := ih
      exact ⟨q, hq.target hlazy htarget, hP⟩
  intro p c hp _
  obtain ⟨q, hq, -⟩ := hall p hp
  exact ⟨q, hq⟩

/-! ### When binding succeeds -/

theorem exists_mapM_resolve {ks : List NodeId} (h : ∀ k ∈ ks, g.Resolvable k) :
    ∃ js, ks.mapM g.resolve = .ok js := by
  induction ks with
  | nil => exact ⟨[], rfl⟩
  | cons k ks ih =>
    obtain ⟨j, hj⟩ := (h k (List.mem_cons_self ..)).exists_resolve
    obtain ⟨js, hjs⟩ := ih fun l hl => h l (List.mem_cons_of_mem _ hl)
    refine ⟨j :: js, ?_⟩
    rw [List.mapM_cons, hj, hjs]
    rfl

theorem exists_walk (h : g.Resolvable p) (depth : Nat) (w : Walk) : ∃ w', g.walk depth p w = .ok w' := by
  induction depth generalizing p w with
  | zero => exact ⟨w, rfl⟩
  | succ depth ih =>
    rw [walk]
    split
    · exact ⟨w, rfl⟩
    · have hparts : ∀ k ∈ g.children p, g.Resolvable k := fun k hk => h.of_reaches (.part .refl hk)
      obtain ⟨ks, hks⟩ := exists_mapM_resolve hparts
      have hresolved : ∀ j ∈ ks, g.Resolvable j := fun j hj => by
        obtain ⟨k, hk, hkj⟩ := exists_of_mem_forall₂ (forall₂_of_mapM_eq_ok hks) hj
        exact (hparts k hk).of_reaches (resolve_eq_ok_iff.1 hkj).reaches
      have hfold : ∀ w, ∃ w', ks.foldlM (fun w k => g.walk depth k w) w = .ok w' := by
        clear hks
        induction ks with
        | nil => exact fun w => ⟨w, rfl⟩
        | cons k ks ihks =>
          intro w
          obtain ⟨w₁, hw₁⟩ := ih (hresolved k (List.mem_cons_self ..)) w
          obtain ⟨w₂, hw₂⟩ := ihks (fun j hj => hresolved j (List.mem_cons_of_mem _ hj)) w₁
          refine ⟨w₂, ?_⟩
          rw [List.foldlM_cons, hw₁]
          exact hw₂
      rw [hks]
      obtain ⟨w', hw'⟩ := hfold { w with kids := w.kids.setIfInBounds p (some ks) }
      refine ⟨{ w' with left := w'.left.push p }, bind_eq_ok_iff.2 ⟨ks, rfl, bind_eq_ok_iff.2 ⟨w', hw', rfl⟩⟩⟩

/-- A root can be bound just if every reference that it reaches leads to a parser. -/
theorem exists_bind_iff {root : NodeId} : (∃ b, g.bind root = .ok b) ↔ g.Resolvable root := by
  constructor
  · rintro ⟨b, hbind⟩
    obtain ⟨root', hroot, hbind⟩ := bind_eq_ok_iff.1 hbind
    obtain ⟨w, hwalk, -⟩ := bind_eq_ok_iff.1 hbind
    obtain ⟨hw, -, hentered⟩ := walk_visits visits_start (by simp) hwalk
    refine resolvable_of_forall (P := fun p => w.entered p = true) ⟨root', resolve_eq_ok_iff.1 hroot, hentered⟩ ?_
    intro p hp k hk
    rcases Walk.entered_iff.1 hp with hsize | ⟨ks, hks⟩
    · -- a node that does not exist has no parts
      rw [children, node, Array.getD_eq_getD_getElem?, Array.getElem?_eq_none (hw.size ▸ hsize)] at hk
      cases hk
    · obtain ⟨k', hk', hkk'⟩ := exists_of_mem_forall₂ (forall₂_of_mapM_eq_ok (hw.kids p ks hks)).flip hk
      refine ⟨k', resolve_eq_ok_iff.1 hkk', hw.closed p ((hw.entered p).2 ⟨ks, hks⟩) k' ?_⟩
      rw [Walk.kidsOf_of_getElem? hks]
      exact hk'
  · intro h
    obtain ⟨root', hroot⟩ := h.exists_resolve
    have hreaches := (resolve_eq_ok_iff.1 hroot).reaches
    obtain ⟨w, hw⟩ := exists_walk (h.of_reaches hreaches) (g.nodes.size + 1) (.start g.nodes.size)
    exact ⟨_, bind_eq_ok_iff.2 ⟨root', hroot, bind_eq_ok_iff.2 ⟨w, hw, rfl⟩⟩⟩

/-! ### Why binding fails -/

theorem mapM_resolve_error {ks : List NodeId} (h : ks.mapM g.resolve = .error e) :
    e = .undefinedReference ∨ e = .cyclicReference := by
  induction ks with
  | nil => cases h
  | cons k ks ih =>
    rw [List.mapM_cons] at h
    rcases bind_eq_error_iff.1 h with h | ⟨j, -, h⟩
    · exact resolve_error h
    · rcases bind_eq_error_iff.1 h with h | ⟨js, -, h⟩
      · exact ih h
      · cases h

theorem walk_error {depth : Nat} {w : Walk} (h : g.walk depth p w = .error e) :
    e = .undefinedReference ∨ e = .cyclicReference := by
  induction depth generalizing p w with
  | zero => cases h
  | succ depth ih =>
    rw [walk] at h
    split at h
    · cases h
    · rcases bind_eq_error_iff.1 h with h | ⟨ks, -, h⟩
      · exact mapM_resolve_error h
      · have hfold : ∀ (ks : List NodeId) (w : Walk),
            ks.foldlM (fun w k => g.walk depth k w) w = .error e → e = .undefinedReference ∨ e = .cyclicReference := by
          intro ks
          induction ks with
          | nil =>
            intro w h
            cases h
          | cons k ks ihks =>
            intro w h
            rw [List.foldlM_cons] at h
            rcases bind_eq_error_iff.1 h with h | ⟨w₁, -, h⟩
            · exact ih h
            · exact ihks w₁ h
        rcases bind_eq_error_iff.1 h with h | ⟨w', -, h⟩
        · exact hfold ks _ h
        · cases h

theorem bind_error {root : NodeId} (h : g.bind root = .error e) :
    e = .undefinedReference ∨ e = .cyclicReference := by
  rcases bind_eq_error_iff.1 h with h | ⟨root', -, h⟩
  · exact resolve_error h
  · rcases bind_eq_error_iff.1 h with h | ⟨w, -, h⟩
    · exact walk_error h
    · cases h

end Grammar

end ParserMachine
