import ParserMachine.Assembly.Dispatch
import ParserMachine.Proofs.Lists

/-!
# What dispatch tables hold

Sorting keeps alternatives and their order, and the lists that describe a table are as long as the table.
-/

namespace ParserMachine

variable {τ : Type} [Token τ]

/-! ### Sorting -/

/-- What is sorted into the table or left out comes from the list. -/
theorem Dispatch.mem_of_mem_sortFrom {α : Type} {f : α → Option (Lead τ)} {seen : List τ}
    {as : List α} :
    (∀ x ∈ (sortFrom f seen as).1, x.1 ∈ as) ∧ ∀ a ∈ (sortFrom f seen as).2, a ∈ as := by
  induction as generalizing seen with
  | nil => exact ⟨List.forall_mem_nil _, List.forall_mem_nil _⟩
  | cons b as ih =>
    rw [sortFrom_cons]
    cases f b with
    | none => exact ⟨List.forall_mem_nil _, fun _ => id⟩
    | some lead =>
      obtain ⟨htable, hothers⟩ := @ih (seen ++ lead.tokens.filter (· ∉ seen))
      dsimp only
      split
      · refine ⟨fun x hx => List.mem_cons_of_mem _ (htable x hx), fun a ha => ?_⟩
        rcases List.mem_cons.1 ha with rfl | ha
        · exact List.mem_cons_self ..
        · exact List.mem_cons_of_mem _ (hothers a ha)
      · refine ⟨fun x hx => ?_, fun a ha => List.mem_cons_of_mem _ (hothers a ha)⟩
        rcases List.mem_cons.1 hx with rfl | hx
        · exact List.mem_cons_self ..
        · exact List.mem_cons_of_mem _ (htable x hx)

/-- What is in the table stands there with its lead. -/
theorem Dispatch.lead_of_mem_sortFrom {α : Type} {f : α → Option (Lead τ)} {seen : List τ} {as : List α} :
    ∀ x ∈ (sortFrom f seen as).1, f x.1 = some x.2 := by
  induction as generalizing seen with
  | nil => exact List.forall_mem_nil _
  | cons b as ih =>
    rw [sortFrom_cons]
    cases hlead : f b with
    | none => exact List.forall_mem_nil _
    | some l =>
      dsimp only
      split
      · exact ih
      · exact List.forall_mem_cons.2 ⟨hlead, ih⟩

/-- An alternative in the table begins with no token that was seen before. -/
theorem Dispatch.not_mem_seen {α : Type} {f : α → Option (Lead τ)} {seen : List τ} {as : List α} :
    ∀ x ∈ (sortFrom f seen as).1, ∀ t ∈ x.2.tokens, t ∉ seen := by
  induction as generalizing seen with
  | nil => exact List.forall_mem_nil _
  | cons b as ih =>
    rw [sortFrom_cons]
    cases f b with
    | none => exact List.forall_mem_nil _
    | some l =>
      have hlater : ∀ x ∈ (sortFrom f (seen ++ l.tokens.filter (· ∉ seen)) as).1,
          ∀ t ∈ x.2.tokens, t ∉ seen :=
        fun x hx t ht hseen => ih x hx t ht (List.mem_append_left _ hseen)
      dsimp only
      split
      · exact hlater
      · rename_i hmeets
        intro x hx t ht hseen
        rcases List.mem_cons.1 hx with rfl | hx
        · exact hmeets (List.any_eq_true.2 ⟨t, ht, decide_eq_true hseen⟩)
        · exact hlater x hx t ht hseen

/-- The tokens of a lead are seen behind it. -/
theorem Dispatch.mem_seen {l : Lead τ} {t : τ} (ht : t ∈ l.tokens) (seen : List τ) :
    t ∈ seen ++ l.tokens.filter (· ∉ seen) :=
  mem_append_filter_not_mem.2 (.inr ht)

/-- Alternatives of one lead each are sorted alike. -/
theorem Dispatch.sortFrom_forall₂ {α β : Type} {R : α → β → Prop} {f : α → Option (Lead τ)}
    {g : β → Option (Lead τ)} (hlead : ∀ a b, R a b → f a = g b) {as : List α} {bs : List β}
    (h : List.Forall₂ R as bs) (seen : List τ) :
    List.Forall₂ (fun a b => R a.1 b.1 ∧ a.2 = b.2) (sortFrom f seen as).1 (sortFrom g seen bs).1 ∧
      List.Forall₂ R (sortFrom f seen as).2 (sortFrom g seen bs).2 := by
  induction h generalizing seen with
  | nil => exact ⟨.nil, .nil⟩
  | @cons a b as bs hab has ih =>
    rw [sortFrom_cons, sortFrom_cons, hlead a b hab]
    cases g b with
    | none => exact ⟨.nil, .cons hab has⟩
    | some l =>
      obtain ⟨htable, hothers⟩ := ih (seen ++ l.tokens.filter (· ∉ seen))
      dsimp only
      by_cases hmeets : l.tokens.any (· ∈ seen)
      · rw [if_pos hmeets, if_pos hmeets]
        exact ⟨htable, .cons hab hothers⟩
      · rw [if_neg hmeets, if_neg hmeets]
        exact ⟨.cons ⟨hab, rfl⟩ htable, hothers⟩

/-- What is sorted keeps its leads: each of them is in the table or among those of the rest. -/
theorem Dispatch.mem_leads_sortFrom {α : Type} {f : α → Option (Lead τ)} {seen : List τ} {as : List α}
    {l : Lead τ} : l ∈ as.filterMap f ↔
      l ∈ (sortFrom f seen as).1.map Prod.snd ∨ l ∈ (sortFrom f seen as).2.filterMap f := by
  induction as generalizing seen with
  | nil => exact (or_iff_right List.not_mem_nil).symm
  | cons a as ih =>
    rw [sortFrom_cons]
    cases hlead : f a with
    | none => simp
    | some m =>
      rw [List.filterMap_cons_some hlead, List.mem_cons, @ih (seen ++ m.tokens.filter (· ∉ seen))]
      dsimp only
      split
      · rw [List.filterMap_cons_some hlead, List.mem_cons]
        exact or_left_comm
      · rw [List.map_cons, List.mem_cons]
        exact or_assoc.symm

/-! ### Entries and expectations -/

/-- What all leads expect is what one of them expects. -/
theorem Dispatch.mem_all {leads : List (Lead τ)} {x : ErrorItem τ} :
    x ∈ all leads ↔ ∃ l ∈ leads, x ∈ l.expected := by
  have hmem {acc : ExpectedSet τ} {sets : List (ExpectedSet τ)} :
      x ∈ sets.foldl SortedSet.union acc ↔ x ∈ acc ∨ ∃ s ∈ sets, x ∈ s := by
    induction sets generalizing acc with
    | nil => simp
    | cons s sets ih =>
      rw [List.foldl_cons, ih]
      simp [or_assoc]
  unfold all SortedSet.unions
  rw [hmem]
  simp

theorem Dispatch.all_cons (l : Lead τ) (leads : List (Lead τ)) :
    all (l :: leads) = l.expected.union (all leads) := by
  apply SortedSet.ext
  intro x
  rw [SortedSet.mem_union, mem_all, mem_all]
  simp

@[simp] theorem Dispatch.all_singleton (l : Lead τ) : all [l] = l.expected := by
  apply SortedSet.ext
  intro x
  rw [mem_all]
  simp

/-- What all leads expect lies in two parts of them. -/
theorem Dispatch.all_eq_union {leads table others : List (Lead τ)}
    (h : ∀ l, l ∈ leads ↔ l ∈ table ∨ l ∈ others) : all leads = (all table).union (all others) := by
  apply SortedSet.ext
  intro x
  rw [SortedSet.mem_union, mem_all, mem_all, mem_all]
  constructor
  · rintro ⟨l, hl, hx⟩
    exact ((h l).1 hl).imp (fun hl => ⟨l, hl, hx⟩) fun hl => ⟨l, hl, hx⟩
  · rintro (⟨l, hl, hx⟩ | ⟨l, hl, hx⟩)
    · exact ⟨l, (h l).2 (.inl hl), hx⟩
    · exact ⟨l, (h l).2 (.inr hl), hx⟩

theorem SortedSet.length_prefixUnionsFrom {α : Type} [Ord α] [Std.LawfulEqOrd α]
    [Std.TransOrd α] (acc : SortedSet α)
    (sets : List (SortedSet α)) : (prefixUnionsFrom acc sets).length = sets.length + 1 := by
  induction sets generalizing acc with
  | nil => rfl
  | cons s sets ih =>
    unfold prefixUnionsFrom
    rw [List.length_cons, ih, List.length_cons]

/-- Each running union holds the members of the sets before it. -/
theorem SortedSet.mem_of_getElem?_prefixUnionsFrom {α : Type} [Ord α] [Std.LawfulEqOrd α] [Std.TransOrd α]
    {acc s : SortedSet α} {sets : List (SortedSet α)} {k : Nat} (h : (prefixUnionsFrom acc sets)[k]? = some s)
    {x : α} : x ∈ s ↔ x ∈ acc ∨ ∃ t ∈ sets.take k, x ∈ t := by
  induction sets generalizing acc k with
  | nil =>
    cases k with
    | zero =>
      cases h
      simp
    | succ k => cases h
  | cons t sets ih =>
    cases k with
    | zero =>
      cases h
      simp
    | succ k =>
      have h' : (prefixUnionsFrom (acc.union t) sets)[k]? = some s := h
      rw [ih h', mem_union, List.take_succ_cons, List.exists_mem_cons_iff, or_assoc]

/-- What is expected before an alternative is what the leads before its own expect. -/
theorem Dispatch.mem_of_getElem?_before {leads : List (Lead τ)} {k : Nat} {e : ExpectedSet τ}
    (h : (before leads)[k]? = some e) {x : ErrorItem τ} : x ∈ e ↔ ∃ l ∈ leads.take k, x ∈ l.expected := by
  unfold before SortedSet.prefixUnions at h
  rw [List.getElem?_dropLast] at h
  split at h
  · rw [SortedSet.mem_of_getElem?_prefixUnionsFrom h, ← List.map_take]
    simp only [SortedSet.not_mem_empty, false_or, List.mem_map, exists_exists_and_eq_and]
  · cases h

/-- What is expected after an alternative is what the leads after its own expect. -/
theorem Dispatch.mem_of_getElem?_after {leads : List (Lead τ)} {k : Nat} {e : ExpectedSet τ}
    (h : (after leads)[k]? = some e) {x : ErrorItem τ} : x ∈ e ↔ ∃ l ∈ leads.drop (k + 1), x ∈ l.expected := by
  unfold after SortedSet.prefixUnions at h
  have hk := (List.getElem?_eq_some_iff.1 h).1
  rw [List.length_reverse] at hk
  rw [List.getElem?_reverse hk] at h
  rw [SortedSet.length_prefixUnionsFrom, List.length_map, List.length_reverse] at hk h
  -- the unions run over the leads from the last one to the second, and are then turned round
  have hturned : leads.tail.length - (leads.tail.length + 1 - 1 - k) = k := by omega
  rw [SortedSet.mem_of_getElem?_prefixUnionsFrom h, ← List.map_take, List.take_reverse, hturned, List.drop_tail]
  simp only [SortedSet.not_mem_empty, false_or, List.mem_map, List.mem_reverse, exists_exists_and_eq_and]

theorem Dispatch.length_before (leads : List (Lead τ)) : (before leads).length = leads.length := by
  unfold before SortedSet.prefixUnions
  rw [List.length_dropLast, SortedSet.length_prefixUnionsFrom, List.length_map]
  rfl

theorem Dispatch.length_after {leads : List (Lead τ)} (h : leads ≠ []) :
    (after leads).length = leads.length := by
  unfold after SortedSet.prefixUnions
  rw [List.length_reverse, SortedSet.length_prefixUnionsFrom, List.length_map, List.length_reverse,
    List.length_tail]
  have := List.length_pos_iff.2 h
  omega

theorem Dispatch.mem_entries {leads : List (Lead τ)} {t : τ} {k : Nat} :
    (t, k) ∈ entries leads ↔ ∃ l, leads[k]? = some l ∧ t ∈ l.tokens := by
  unfold entries
  simp only [List.mem_flatMap, List.mem_map, Prod.exists, Prod.mk.injEq]
  constructor
  · rintro ⟨l, j, hl, u, hu, rfl, rfl⟩
    exact ⟨l, List.mem_zipIdx_iff_getElem?.1 hl, hu⟩
  · rintro ⟨l, hl, ht⟩
    exact ⟨l, k, List.mem_zipIdx_iff_getElem?.2 hl, t, ht, rfl, rfl⟩

/-- A token chooses an alternative that begins with it. -/
theorem Dispatch.exists_of_lookup_entries {leads : List (Lead τ)} {t : τ} {k : Nat}
    (h : (entries leads).lookup t = some k) : ∃ l, leads[k]? = some l ∧ t ∈ l.tokens := by
  refine mem_entries.1 ?_
  obtain ⟨l₁, l₂, heq, -⟩ := List.lookup_eq_some_iff.1 h
  rw [heq]
  exact List.mem_append_right _ (List.mem_cons_self ..)

/-- A token that chooses no alternative begins none. -/
theorem Dispatch.not_mem_of_lookup_entries {leads : List (Lead τ)} {t : τ}
    (h : (entries leads).lookup t = none) : ∀ l ∈ leads, t ∉ l.tokens := by
  intro l hl ht
  obtain ⟨k, hk⟩ := List.getElem?_of_mem hl
  have hne := List.lookup_eq_none_iff.1 h (t, k) (mem_entries.2 ⟨l, hk, ht⟩)
  simp at hne

theorem Dispatch.lt_of_lookup_entries {leads : List (Lead τ)} {t : τ} {k : Nat}
    (h : (entries leads).lookup t = some k) : k < leads.length := by
  obtain ⟨l, hl, -⟩ := exists_of_lookup_entries h
  exact (List.getElem?_eq_some_iff.1 hl).1

end ParserMachine
