import Mathlib.Data.List.Perm.Basic
import ParserMachine.Proofs.Reports.Merging

/-!
# Merging many errors

Because merging is commutative and associative, the merge of several errors is a function of which
errors there are (`ParseError.Merging.result_eq_of_perm`): neither their order nor the way they are
bracketed matters. `ParseError.Sums` says what that merge is, without merging: it reports what the
errors furthest ahead report, the fancy ones alone if there are any.
-/

namespace ParserMachine

variable {τ : Type} [Token τ]

namespace ErrorItem

theorem isLE_compareDetail_self (a : ErrorItem τ) : (a.compareDetail a).isLE := by
  have h : a.compareDetail a = .eq := Std.ReflCmp.compare_self
  simp [h]

theorem moreSpecific_eq_or (a b : ErrorItem τ) : a.moreSpecific b = a ∨ a.moreSpecific b = b := by
  by_cases h : a.compareDetail b = .lt
  · exact .inr (moreSpecific_of_lt h)
  · exact .inl (moreSpecific_of_not_lt h)

theorem isLE_moreSpecific_left (a b : ErrorItem τ) : (a.compareDetail (a.moreSpecific b)).isLE := by
  by_cases h : a.compareDetail b = .lt
  · rw [moreSpecific_of_lt h, h]
    rfl
  · rw [moreSpecific_of_not_lt h]
    exact isLE_compareDetail_self a

theorem isLE_moreSpecific_right (a b : ErrorItem τ) : (b.compareDetail (a.moreSpecific b)).isLE := by
  rw [moreSpecific_comm]
  exact isLE_moreSpecific_left b a

end ErrorItem

namespace ParseError

/-! ### The merge of a list -/

/-- All errors of a list merged, if there are any. -/
def mergeAll (es : List (ParseError τ)) : Option (ParseError τ) :=
  es.foldr (fun e m => mergeOpt (some e) m) none

@[simp] theorem mergeAll_nil : mergeAll ([] : List (ParseError τ)) = none := rfl

@[simp] theorem mergeAll_cons (e : ParseError τ) (es : List (ParseError τ)) :
    mergeAll (e :: es) = mergeOpt (some e) (mergeAll es) := rfl

theorem mergeAll_append (es es' : List (ParseError τ)) :
    mergeAll (es ++ es') = mergeOpt (mergeAll es) (mergeAll es') := by
  induction es with
  | nil => simp
  | cons e es ih => rw [List.cons_append, mergeAll_cons, ih, mergeAll_cons, mergeOpt_assoc]

/-- The order of the errors does not matter. -/
theorem mergeAll_perm {es es' : List (ParseError τ)} (h : es.Perm es') : mergeAll es = mergeAll es' := by
  induction h with
  | nil => rfl
  | cons e _ ih => rw [mergeAll_cons, ih, mergeAll_cons]
  | swap a b l =>
    simp only [mergeAll_cons]
    rw [← mergeOpt_assoc, mergeOpt_comm (some b), mergeOpt_assoc]
  | trans _ _ ih ih' => exact ih.trans ih'

/-! ### Brackets -/

/-- A way to merge errors two by two: the errors in some order, with brackets. -/
inductive Merging (τ : Type) [Token τ] where
  /-- There is one error. -/
  | one (e : ParseError τ)
  /-- The errors of two groups are merged, and then the results. -/
  | both (s t : Merging τ)

namespace Merging

/-- The errors, in the order in which they stand. -/
def errors : Merging τ → List (ParseError τ)
  | one e => [e]
  | both s t => s.errors ++ t.errors

/-- What the merging comes to. -/
def result : Merging τ → ParseError τ
  | one e => e
  | both s t => s.result.merge t.result

theorem some_result (s : Merging τ) : some s.result = mergeAll s.errors := by
  induction s with
  | one e => rfl
  | both s t ihs iht =>
    show mergeOpt (some s.result) (some t.result) = mergeAll (s.errors ++ t.errors)
    rw [ihs, iht, mergeAll_append]

theorem exists_errors_eq {es : List (ParseError τ)} (h : es ≠ []) : ∃ s : Merging τ, s.errors = es := by
  induction es with
  | nil => exact absurd rfl h
  | cons e es ih =>
    cases es with
    | nil => exact ⟨one e, rfl⟩
    | cons e' es =>
      obtain ⟨s, hs⟩ := ih nofun
      exact ⟨both (one e) s, congrArg (e :: ·) hs⟩

theorem result_eq_of_perm {s t : Merging τ} (h : s.errors.Perm t.errors) : s.result = t.result := by
  have hresult : some s.result = some t.result := by
    rw [some_result, some_result, mergeAll_perm h]
  exact Option.some.inj hresult

end Merging

/-! ### What a merge reports -/

/-- The lines of a fancy error. -/
def details : ParseError τ → List Detail
  | trivial _ _ _ => []
  | fancy _ ds => ds

/-- The error names the item among those that would have been accepted. -/
def Expects (e : ParseError τ) (item : ErrorItem τ) : Prop := ∃ s ∈ e.expected?, item ∈ s

/-- An item that is there if any is, and says most of all. -/
structure Tops (u : Option (ErrorItem τ)) (found : ErrorItem τ → Prop) : Prop where
  /-- It is one of the items. -/
  isFound : ∀ item ∈ u, found item
  /-- Each of the items says less, or the same. -/
  above : ∀ item, found item → ∃ top ∈ u, (item.compareDetail top).isLE

/-- An error reports what all errors of a list have to report that lie furthest ahead. -/
structure Sums (m : ParseError τ) (es : List (ParseError τ)) : Prop where
  /-- No error lies further ahead. -/
  furthest : ∀ e ∈ es, e.offset ≤ m.offset
  /-- One lies as far ahead. -/
  attained : ∃ e ∈ es, e.offset = m.offset
  /-- It is fancy if one of those that lie there is. -/
  fancy_iff : m.isTrivial = false ↔ ∃ e ∈ es, e.offset = m.offset ∧ e.isTrivial = false
  /-- It has the lines of the fancy ones. -/
  mem_details : ∀ d, d ∈ m.details ↔ ∃ e ∈ es, e.offset = m.offset ∧ d ∈ e.details
  /-- A trivial one expects what any of those that lie there does. -/
  expects_iff : m.isTrivial = true →
    ∀ item, m.Expects item ↔ ∃ e ∈ es, e.offset = m.offset ∧ e.Expects item
  /-- A trivial one has found what says most. -/
  tops : m.isTrivial = true →
    Tops m.unexpected? fun item => ∃ e ∈ es, e.offset = m.offset ∧ item ∈ e.unexpected?

theorem sums_one (e : ParseError τ) : e.Sums [e] where
  furthest := by simp
  attained := ⟨e, List.mem_singleton_self e, rfl⟩
  fancy_iff := by simp
  mem_details := by simp
  expects_iff := by simp
  tops _ := ⟨by simp, by
    simp only [List.mem_singleton, exists_eq_left, true_and]
    exact fun item hitem => ⟨item, hitem, ErrorItem.isLE_compareDetail_self item⟩⟩

/-- Only one item can say most. -/
theorem Tops.unique {u v : Option (ErrorItem τ)} {P : ErrorItem τ → Prop} (hu : Tops u P) (hv : Tops v P) : u = v := by
  have hsame {u v : Option (ErrorItem τ)} (hu : Tops u P) (hv : Tops v P) (item : ErrorItem τ) (h : item ∈ u) :
      item ∈ v := by
    obtain ⟨top, htop, hle⟩ := hv.above item (hu.isFound item h)
    obtain ⟨top', htop', hle'⟩ := hu.above top (hv.isFound top htop)
    obtain rfl : item = top' := Option.some.inj (h.symm.trans htop')
    obtain rfl := ErrorItem.eq_of_compareDetail (Std.OrientedCmp.isLE_antisymm hle hle')
    exact htop
  exact Option.ext fun item => ⟨hsame hu hv item, hsame hv hu item⟩

/-- Of the tops of two groups, the one that says more tops both. -/
theorem Tops.merge {u v : Option (ErrorItem τ)} {P Q : ErrorItem τ → Prop} (hu : Tops u P) (hv : Tops v Q) :
    Tops (mergeUnexpected u v) fun item => P item ∨ Q item := by
  cases u with
  | none =>
    have hP : ∀ item, ¬ P item := fun item h => by simpa using hu.above item h
    simp only [mergeUnexpected, hP, false_or]
    exact hv
  | some a =>
    cases v with
    | none =>
      have hQ : ∀ item, ¬ Q item := fun item h => by simpa using hv.above item h
      simp only [mergeUnexpected, hQ, or_false]
      exact hu
    | some b =>
      refine ⟨fun item hitem => ?_, fun item hitem => ⟨_, rfl, ?_⟩⟩
      · obtain rfl : a.moreSpecific b = item := Option.some.inj hitem
        rcases ErrorItem.moreSpecific_eq_or a b with h | h <;> rw [h]
        · exact .inl (hu.isFound a rfl)
        · exact .inr (hv.isFound b rfl)
      · rcases hitem with hitem | hitem
        · obtain ⟨top, htop, hle⟩ := hu.above item hitem
          obtain rfl : a = top := Option.some.inj htop
          exact Std.TransCmp.isLE_trans hle (ErrorItem.isLE_moreSpecific_left a b)
        · obtain ⟨top, htop, hle⟩ := hv.above item hitem
          obtain rfl : b = top := Option.some.inj htop
          exact Std.TransCmp.isLE_trans hle (ErrorItem.isLE_moreSpecific_right a b)

/-- Errors that lie further back add nothing. -/
theorem Sums.append_of_lt {m m' : ParseError τ} {es es' : List (ParseError τ)} (h : m.Sums es)
    (h' : m'.Sums es') (hlt : m.offset < m'.offset) : m'.Sums (es ++ es') := by
  have hback (e : ParseError τ) (he : e ∈ es) : e.offset ≠ m'.offset :=
    Nat.ne_of_lt (Nat.lt_of_le_of_lt (h.furthest e he) hlt)
  have hthere (P : ParseError τ → Prop) :
      (∃ e ∈ es ++ es', e.offset = m'.offset ∧ P e) ↔ ∃ e ∈ es', e.offset = m'.offset ∧ P e := by
    constructor
    · rintro ⟨e, he, hoffset, hP⟩
      rcases List.mem_append.1 he with he | he
      · exact absurd hoffset (hback e he)
      · exact ⟨e, he, hoffset, hP⟩
    · rintro ⟨e, he, hoffset, hP⟩
      exact ⟨e, List.mem_append_right _ he, hoffset, hP⟩
  refine ⟨fun e he => ?_, ?_, ?_, fun d => ?_, fun ht item => ?_, fun ht => ?_⟩
  · rcases List.mem_append.1 he with he | he
    · exact Nat.le_of_lt (Nat.lt_of_le_of_lt (h.furthest e he) hlt)
    · exact h'.furthest e he
  · obtain ⟨e, he, hoffset⟩ := h'.attained
    exact ⟨e, List.mem_append_right _ he, hoffset⟩
  · rw [hthere]
    exact h'.fancy_iff
  · rw [hthere]
    exact h'.mem_details d
  · rw [hthere]
    exact h'.expects_iff ht item
  · simp only [hthere]
    exact h'.tops ht

theorem Sums.perm {m : ParseError τ} {es es' : List (ParseError τ)} (h : m.Sums es) (hes : es.Perm es') :
    m.Sums es' := by
  obtain ⟨h₁, h₂, h₃, h₄, h₅, h₆⟩ := h
  simp only [hes.mem_iff] at h₁ h₂ h₃ h₄ h₅ h₆
  exact ⟨h₁, h₂, h₃, h₄, h₅, h₆⟩

theorem isTrivial_mergeSameOffset (a b : ParseError τ) :
    (a.mergeSameOffset b).isTrivial = (a.isTrivial && b.isTrivial) := by
  cases a <;> cases b <;> rfl

theorem mem_details_mergeSameOffset (a b : ParseError τ) (d : Detail) :
    d ∈ (a.mergeSameOffset b).details ↔ d ∈ a.details ∨ d ∈ b.details := by
  cases a <;> cases b <;> simp [mergeSameOffset, details, ← SortedSet.mem_def]

/-- Two groups that reach equally far are summed by joining their sums. -/
theorem Sums.append_of_eq {m m' : ParseError τ} {es es' : List (ParseError τ)} (h : m.Sums es)
    (h' : m'.Sums es') (heq : m.offset = m'.offset) : (m.mergeSameOffset m').Sums (es ++ es') := by
  have hoffset : (m.mergeSameOffset m').offset = m.offset := (offset_mergeSameOffset heq).trans heq.symm
  have hsplit (P : ParseError τ → Prop) : (∃ e ∈ es ++ es', e.offset = m.offset ∧ P e) ↔
      (∃ e ∈ es, e.offset = m.offset ∧ P e) ∨ ∃ e ∈ es', e.offset = m'.offset ∧ P e := by
    simp only [List.mem_append, or_and_right, exists_or, heq]
  refine ⟨fun e he => ?_, ?_, ?_, fun d => ?_, fun ht item => ?_, fun ht => ?_⟩
  · rw [hoffset]
    rcases List.mem_append.1 he with he | he
    · exact h.furthest e he
    · exact heq ▸ h'.furthest e he
  · obtain ⟨e, he, he'⟩ := h.attained
    exact ⟨e, List.mem_append_left _ he, he'.trans hoffset.symm⟩
  · rw [hoffset, hsplit, ← h.fancy_iff, ← h'.fancy_iff, isTrivial_mergeSameOffset, Bool.and_eq_false_iff]
  · rw [hoffset, hsplit, ← h.mem_details, ← h'.mem_details, mem_details_mergeSameOffset]
  · obtain ⟨ht₁, ht₂⟩ := Bool.and_eq_true_iff.1 (isTrivial_mergeSameOffset m m' ▸ ht)
    rw [hoffset, hsplit, ← h.expects_iff ht₁, ← h'.expects_iff ht₂]
    cases m <;> cases m' <;> simp_all [isTrivial, mergeSameOffset, Expects, expected?]
  · obtain ⟨ht₁, ht₂⟩ := Bool.and_eq_true_iff.1 (isTrivial_mergeSameOffset m m' ▸ ht)
    simp only [hoffset, hsplit]
    have htops := (h.tops ht₁).merge (h'.tops ht₂)
    cases m with
    | fancy => cases ht₁
    | trivial =>
      cases m' with
      | fancy => cases ht₂
      | trivial => exact htops

theorem Sums.append {m m' : ParseError τ} {es es' : List (ParseError τ)} (h : m.Sums es) (h' : m'.Sums es') :
    (m.merge m').Sums (es ++ es') := by
  rcases Nat.lt_trichotomy m.offset m'.offset with hlt | heq | hgt
  · rw [merge_of_lt hlt]
    exact h.append_of_lt h' hlt
  · rw [merge_of_eq heq]
    exact h.append_of_eq h' heq
  · rw [merge_of_gt hgt]
    exact (h'.append_of_lt h hgt).perm List.perm_append_comm

theorem Merging.sums (s : Merging τ) : s.result.Sums s.errors := by
  induction s with
  | one e => exact sums_one e
  | both s t ihs iht => exact ihs.append iht

/-! ### Equality and text -/

/-- Two errors say the same, where what they expect is compared item by item. -/
structure Same (a b : ParseError τ) : Prop where
  isTrivial_eq : a.isTrivial = b.isTrivial
  offset_eq : a.offset = b.offset
  unexpected_eq : a.unexpected? = b.unexpected?
  details_eq : a.details = b.details
  expects_iff : ∀ item, a.Expects item ↔ b.Expects item

theorem Same.eq {a b : ParseError τ} (h : a.Same b) : a = b := by
  obtain ⟨hkind, hoffset, hunexpected, hdetails, hexpects⟩ := h
  cases a with
  | trivial o u e =>
    cases b with
    | fancy o' ds' => cases hkind
    | trivial o' u' e' =>
      obtain rfl : o = o' := hoffset
      obtain rfl : u = u' := hunexpected
      obtain rfl : e = e' := SortedSet.ext fun item => by simpa [Expects, expected?] using hexpects item
      rfl
  | fancy o ds =>
    cases b with
    | trivial o' u' e' => cases hkind
    | fancy o' ds' =>
      obtain rfl : o = o' := hoffset
      obtain rfl : ds = ds' := hdetails
      rfl

end ParseError

/-- The text of a set depends on its items only, not on the order in which a list has them. -/
theorem ExpectedSet.render_eq_of_mem_iff {s : ExpectedSet τ} {l : List (ErrorItem τ)} (h : ∀ x, x ∈ l ↔ x ∈ s) :
    s.render = disjunction (SortedSet.ofList (l.map ErrorItem.render)).toList := by
  have hnames : SortedSet.ofList (s.toList.map ErrorItem.render) = SortedSet.ofList (l.map ErrorItem.render) :=
    SortedSet.ext fun name => by simp only [SortedSet.mem_ofList, List.mem_map, ← SortedSet.mem_def, h]
  rw [render, hnames]

namespace ParseError

/-- Merging does not depend on order or brackets: it commutes and associates, any two ways to merge
the same errors come to the same, and that is what the errors furthest ahead report together. Merges that say
the same have the same text, whatever the order in which the expected items are listed. -/
theorem merging_order_irrelevant :
    (∀ a b : ParseError τ, a.merge b = b.merge a) ∧
    (∀ a b c : ParseError τ, a.merge (b.merge c) = (a.merge b).merge c) ∧
    (∀ s t : Merging τ, s.errors.Perm t.errors → s.result = t.result) ∧
    (∀ s : Merging τ, s.result.Sums s.errors) ∧
    (∀ s t : Merging τ, s.result.Same t.result → s.result.render = t.result.render) ∧
    ∀ (s : ExpectedSet τ) (l : List (ErrorItem τ)), (∀ x, x ∈ l ↔ x ∈ s) →
      s.render = ExpectedSet.disjunction (SortedSet.ofList (l.map ErrorItem.render)).toList := by
  refine ⟨merge_comm, fun a b c => (merge_assoc a b c).symm, fun s t => Merging.result_eq_of_perm,
    Merging.sums, fun s t h => ?_, fun s l => ExpectedSet.render_eq_of_mem_iff⟩
  rw [h.eq]

/-- Three errors, the first two at one offset, merged from the left and the other way round from the right. -/
theorem merging_order_irrelevant_three :
    let digit : ParseError Char := .trivial 1 (some (.tokens ['x'])) (.label "digit")
    let comma : ParseError Char := .trivial 1 (some (.tokens ['x'])) (.tokens [','])
    let start : ParseError Char := .fancy 0 [.message "no start"]
    let s : Merging Char := .both (.both (.one digit) (.one comma)) (.one start)
    let t : Merging Char := .both (.one start) (.both (.one comma) (.one digit))
    s.errors.Perm t.errors ∧ s.result = t.result ∧ s.result.Same t.result ∧ s.result.render = t.result.render := by
  intro digit comma start s t
  have hperm : s.errors.Perm t.errors := (List.reverse_perm t.errors)
  have hresult := merging_order_irrelevant.2.2.1 s t hperm
  have hsame : s.result.Same t.result := hresult ▸ ⟨rfl, rfl, rfl, rfl, fun _ => Iff.rfl⟩
  exact ⟨hperm, hresult, hsame, merging_order_irrelevant.2.2.2.2.1 s t hsame⟩

end ParseError

end ParserMachine
