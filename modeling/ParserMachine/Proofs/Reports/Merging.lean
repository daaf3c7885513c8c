import ParserMachine.Error.ParseError

/-!
# Merging errors

Merging is associative and commutative, and an error that lies further ahead absorbs the other
(`ParseError.merge_of_lt`). The hints that can still matter at a place are those that lie there or further
ahead (`ParseError.live`): a failure there absorbs all others.
-/

namespace ParserMachine

variable {τ : Type} [Token τ]

/-! ### What was found -/

namespace ErrorItem

instance : Std.TransCmp (compareDetail : ErrorItem τ → ErrorItem τ → Ordering) :=
  inferInstanceAs (Std.TransCmp (compareLex (compareOn span) (compareLex (compareOn rank) compare)))

theorem eq_of_compareDetail {a b : ErrorItem τ} (h : compareDetail a b = .eq) : a = b :=
  Std.LawfulEqOrd.eq_of_compare (Ordering.then_eq_eq.1 (Ordering.then_eq_eq.1 h).2).2

theorem moreSpecific_of_lt {a b : ErrorItem τ} (h : compareDetail a b = .lt) : a.moreSpecific b = b := by
  unfold moreSpecific
  rw [h]

theorem moreSpecific_of_not_lt {a b : ErrorItem τ} (h : compareDetail a b ≠ .lt) : a.moreSpecific b = a := by
  unfold moreSpecific
  split
  · rename_i hlt
    exact absurd hlt h
  · rfl
  · rfl

theorem moreSpecific_comm (a b : ErrorItem τ) : a.moreSpecific b = b.moreSpecific a := by
  cases h : compareDetail a b with
  | lt =>
    have hgt : compareDetail b a = .gt := Std.OrientedCmp.gt_of_lt h
    rw [moreSpecific_of_lt h, moreSpecific_of_not_lt (by rw [hgt]; decide)]
  | eq => rw [eq_of_compareDetail h]
  | gt =>
    rw [moreSpecific_of_not_lt (by rw [h]; decide), moreSpecific_of_lt (Std.OrientedCmp.lt_of_gt h)]

theorem moreSpecific_assoc (a b c : ErrorItem τ) :
    (a.moreSpecific b).moreSpecific c = a.moreSpecific (b.moreSpecific c) := by
  by_cases hab : compareDetail a b = .lt
  · rw [moreSpecific_of_lt hab]
    by_cases hbc : compareDetail b c = .lt
    · rw [moreSpecific_of_lt hbc, moreSpecific_of_lt (Std.TransCmp.lt_trans hab hbc)]
    · rw [moreSpecific_of_not_lt hbc, moreSpecific_of_lt hab]
  · rw [moreSpecific_of_not_lt hab]
    by_cases hbc : compareDetail b c = .lt
    · rw [moreSpecific_of_lt hbc]
    · rw [moreSpecific_of_not_lt hbc, moreSpecific_of_not_lt hab]
      refine moreSpecific_of_not_lt fun hac => hbc ?_
      cases h : compareDetail a b with
      | lt => exact absurd h hab
      | eq => rwa [← eq_of_compareDetail h]
      | gt => exact Std.TransCmp.lt_trans (Std.OrientedCmp.lt_of_gt h) hac

end ErrorItem

theorem SortedSet.union_comm {α : Type} [Ord α] [Std.LawfulEqOrd α] [Std.TransOrd α]
    (s t : SortedSet α) : s.union t = t.union s := SortedSet.ext fun x => by simp [or_comm]

theorem SortedSet.union_assoc {α : Type} [Ord α] [Std.LawfulEqOrd α] [Std.TransOrd α]
    (s t u : SortedSet α) : (s.union t).union u = s.union (t.union u) :=
  SortedSet.ext fun x => by simp [or_assoc]

namespace ParseError

theorem mergeUnexpected_comm (a b : Option (ErrorItem τ)) : mergeUnexpected a b = mergeUnexpected b a := by
  cases a <;> cases b <;> simp [mergeUnexpected, ErrorItem.moreSpecific_comm]

theorem mergeUnexpected_assoc (a b c : Option (ErrorItem τ)) :
    mergeUnexpected (mergeUnexpected a b) c = mergeUnexpected a (mergeUnexpected b c) := by
  cases a <;> cases b <;> cases c <;> simp [mergeUnexpected, ErrorItem.moreSpecific_assoc]

theorem mergeUnexpected_self (a : Option (ErrorItem τ)) : mergeUnexpected a a = a := by
  cases a with
  | none => rfl
  | some item =>
    show some (item.moreSpecific item) = some item
    unfold ErrorItem.moreSpecific
    split <;> rfl

/-! ### Errors -/

theorem mergeSameOffset_comm {a b : ParseError τ} (h : a.offset = b.offset) :
    a.mergeSameOffset b = b.mergeSameOffset a := by
  cases a with
  | trivial o u e =>
    cases b with
    | trivial o' u' e' =>
      obtain rfl : o = o' := h
      simp [mergeSameOffset, mergeUnexpected_comm u, SortedSet.union_comm e]
    | fancy o' ds => rfl
  | fancy o ds =>
    cases b with
    | trivial o' u' e' => rfl
    | fancy o' ds' =>
      obtain rfl : o = o' := h
      have hds : SortedSet.ofList (ds ++ ds') = SortedSet.ofList (ds' ++ ds) :=
        SortedSet.ext fun x => by simp [or_comm]
      simp [mergeSameOffset, hds]

theorem mergeSameOffset_assoc (a b c : ParseError τ) :
    (a.mergeSameOffset b).mergeSameOffset c = a.mergeSameOffset (b.mergeSameOffset c) := by
  have hds (ds ds' ds'' : List Detail) :
      SortedSet.ofList ((SortedSet.ofList (ds ++ ds')).toList ++ ds'') =
        SortedSet.ofList (ds ++ (SortedSet.ofList (ds' ++ ds'')).toList) := by
    refine SortedSet.ext fun x => ?_
    simp only [SortedSet.mem_ofList, List.mem_append, ← SortedSet.mem_def, or_assoc]
  cases a <;> cases b <;> cases c <;>
    simp [mergeSameOffset, mergeUnexpected_assoc, SortedSet.union_assoc, hds]

theorem merge_of_lt {a b : ParseError τ} (h : a.offset < b.offset) : a.merge b = b := by
  unfold merge
  rw [Nat.compare_eq_lt.2 h]

theorem merge_of_gt {a b : ParseError τ} (h : b.offset < a.offset) : a.merge b = a := by
  unfold merge
  rw [Nat.compare_eq_gt.2 h]

theorem merge_of_eq {a b : ParseError τ} (h : a.offset = b.offset) : a.merge b = a.mergeSameOffset b := by
  unfold merge
  rw [Nat.compare_eq_eq.2 h]

theorem offset_mergeSameOffset {a b : ParseError τ} (h : a.offset = b.offset) :
    (a.mergeSameOffset b).offset = b.offset := by
  cases a <;> cases b <;> first | rfl | exact h

/-- The merge lies where the error further ahead lies. -/
theorem offset_merge (a b : ParseError τ) : (a.merge b).offset = max a.offset b.offset := by
  rcases Nat.lt_trichotomy a.offset b.offset with h | h | h
  · rw [merge_of_lt h, Nat.max_eq_right (Nat.le_of_lt h)]
  · rw [merge_of_eq h, offset_mergeSameOffset h, h, Nat.max_self]
  · rw [merge_of_gt h, Nat.max_eq_left (Nat.le_of_lt h)]

theorem merge_comm (a b : ParseError τ) : a.merge b = b.merge a := by
  rcases Nat.lt_trichotomy a.offset b.offset with h | h | h
  · rw [merge_of_lt h, merge_of_gt h]
  · rw [merge_of_eq h, merge_of_eq h.symm, mergeSameOffset_comm h]
  · rw [merge_of_gt h, merge_of_lt h]

theorem merge_assoc (a b c : ParseError τ) : (a.merge b).merge c = a.merge (b.merge c) := by
  have hab := offset_merge a b
  have hbc := offset_merge b c
  rcases Nat.lt_trichotomy a.offset b.offset with h | h | h
  · rw [merge_of_lt h]
    exact (merge_of_lt (by omega)).symm
  · rcases Nat.lt_trichotomy b.offset c.offset with h' | h' | h'
    · rw [merge_of_lt h', merge_of_lt (by omega), merge_of_lt (by omega)]
    · rw [merge_of_eq h, merge_of_eq h', merge_of_eq (by rw [offset_mergeSameOffset h, h']),
        merge_of_eq (by rw [offset_mergeSameOffset h', h, h']), mergeSameOffset_assoc]
    · rw [merge_of_gt h', merge_of_gt (by omega)]
  · rw [merge_of_gt h]
    rcases Nat.lt_or_ge b.offset c.offset with h' | h'
    · rw [merge_of_lt h']
    · rw [merge_of_gt (by omega), merge_of_gt (by omega)]

theorem merge_trivial (o : Nat) (u : Option (ErrorItem τ)) (e e' : ExpectedSet τ) :
    (trivial o u e).merge (.trivial o u e') = .trivial o u (e.union e') := by
  have hmerge := merge_of_eq (show (trivial o u e).offset = (trivial o u e').offset from rfl)
  rw [hmerge]
  simp [mergeSameOffset, mergeUnexpected_self]

/-! ### Errors that may be absent -/

@[simp] theorem mergeOpt_none (a : Option (ParseError τ)) : mergeOpt a none = a := by
  cases a <;> rfl

@[simp] theorem none_mergeOpt (a : Option (ParseError τ)) : mergeOpt none a = a := by
  cases a <;> rfl

theorem mergeOpt_comm (a b : Option (ParseError τ)) : mergeOpt a b = mergeOpt b a := by
  cases a <;> cases b <;> simp [mergeOpt, merge_comm]

theorem mergeOpt_assoc (a b c : Option (ParseError τ)) :
    mergeOpt (mergeOpt a b) c = mergeOpt a (mergeOpt b c) := by
  cases a <;> cases b <;> cases c <;> simp [mergeOpt, merge_assoc]

/-- A merge lies as far ahead as one of its parts. -/
theorem exists_mem_mergeOpt {i : Nat} {a b : Option (ParseError τ)} :
    (∃ e ∈ mergeOpt a b, i < e.offset) ↔ (∃ e ∈ a, i < e.offset) ∨ ∃ e ∈ b, i < e.offset := by
  cases a with
  | none => simp
  | some a =>
    cases b with
    | none => simp
    | some b =>
      have hoffset := offset_merge a b
      simp only [mergeOpt, Option.mem_def, Option.some.injEq, exists_eq_left']
      omega

/-- The errors that lie at a place or further ahead. -/
def live (i : Nat) (h : Option (ParseError τ)) : Option (ParseError τ) := h.filter fun e => i ≤ e.offset

@[simp] theorem live_none (i : Nat) : live i (none : Option (ParseError τ)) = none := rfl

theorem live_of_le {i : Nat} {e : ParseError τ} (h : i ≤ e.offset) : live i (some e) = some e := by
  unfold live
  rw [Option.filter_some, if_pos (decide_eq_true h)]

theorem live_of_lt {i : Nat} {e : ParseError τ} (h : e.offset < i) : live i (some e) = none := by
  unfold live
  rw [Option.filter_some, if_neg (by simpa using h)]

theorem live_mergeOpt (i : Nat) (a b : Option (ParseError τ)) :
    live i (mergeOpt a b) = mergeOpt (live i a) (live i b) := by
  cases a with
  | none => simp
  | some a =>
    cases b with
    | none => simp
    | some b =>
      have hoffset := offset_merge a b
      show live i (some (a.merge b)) = _
      rcases Nat.lt_or_ge a.offset i with ha | ha
      · rw [live_of_lt ha, none_mergeOpt]
        rcases Nat.lt_or_ge b.offset i with hb | hb
        · rw [live_of_lt hb, live_of_lt (by omega)]
        · rw [merge_of_lt (by omega)]
      · rw [live_of_le ha]
        rcases Nat.lt_or_ge b.offset i with hb | hb
        · rw [live_of_lt hb, mergeOpt_none, merge_of_gt (by omega), live_of_le ha]
        · rw [live_of_le hb, live_of_le (by omega)]
          rfl

theorem live_of_forall_le {i j : Nat} {h : Option (ParseError τ)} (hh : ∀ e ∈ h, e.offset ≤ i)
    (hij : i < j) : live j h = none := by
  cases h with
  | none => rfl
  | some e => exact live_of_lt (Nat.lt_of_le_of_lt (hh e rfl) hij)

/-- Fewer errors are left further ahead. -/
theorem live_live {i j : Nat} (h : i ≤ j) (a : Option (ParseError τ)) : live j (live i a) = live j a := by
  cases a with
  | none => rfl
  | some a =>
    rcases Nat.lt_or_ge a.offset i with ha | ha
    · rw [live_of_lt ha, live_of_lt (by omega)]
      rfl
    · rw [live_of_le ha]

theorem live_congr {i j : Nat} (h : i ≤ j) {a b : Option (ParseError τ)} (hab : live i a = live i b) :
    live j a = live j b := by
  rw [← live_live h a, hab, live_live h]

end ParseError

end ParserMachine
