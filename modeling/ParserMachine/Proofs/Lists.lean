import Mathlib.Data.List.Forall2

/-!
# Lists, arrays and computations that may fail
-/

namespace ParserMachine

variable {ε α β : Type} {f : α → Except ε β}

/-- A computation succeeds if its first step does and what follows does. -/
theorem bind_eq_ok_iff {x : Except ε α} {b : β} :
    x >>= f = .ok b ↔ ∃ a, x = .ok a ∧ f a = .ok b := by
  cases x with
  | error e => exact ⟨nofun, fun ⟨_, h, _⟩ => nomatch h⟩
  | ok a =>
    constructor
    · intro h
      exact ⟨a, rfl, h⟩
    · rintro ⟨a, h, h'⟩
      cases h
      exact h'

/-- A computation fails if its first step does or what follows does. -/
theorem bind_eq_error_iff {x : Except ε α} {e : ε} :
    x >>= f = .error e ↔ x = .error e ∨ ∃ a, x = .ok a ∧ f a = .error e := by
  cases x with
  | error e' =>
    constructor
    · intro h
      cases h
      exact .inl rfl
    · rintro (h | ⟨a, h, -⟩)
      · cases h
        rfl
      · cases h
  | ok a =>
    constructor
    · intro h
      exact .inr ⟨a, rfl, h⟩
    · rintro (h | ⟨a', h, h'⟩)
      · cases h
      · cases h
        exact h'

theorem eq_ok_of_toOption {x : Except ε α} {a : α} (h : x.toOption = some a) : x = .ok a := by
  cases x with
  | error e => cases h
  | ok a =>
    cases h
    rfl

/-- A computation over a list succeeds if it does so for each item. -/
theorem mapM_eq_ok {g : α → β} {as : List α} (h : ∀ a ∈ as, f a = .ok (g a)) :
    as.mapM f = .ok (as.map g) := by
  induction as with
  | nil => rfl
  | cons a as ih =>
    have ha := h a (List.mem_cons_self ..)
    rw [List.mapM_cons, ha, ih fun b hb => h b (List.mem_cons_of_mem _ hb)]
    rfl

/-- A computation over a list that succeeds does so for each item. -/
theorem forall₂_of_mapM_eq_ok {as : List α} {bs : List β} (h : as.mapM f = .ok bs) :
    List.Forall₂ (fun a b => f a = .ok b) as bs := by
  induction as generalizing bs with
  | nil =>
    cases h
    exact .nil
  | cons a as ih =>
    rw [List.mapM_cons] at h
    obtain ⟨b, hb, h⟩ := bind_eq_ok_iff.1 h
    obtain ⟨bs', hbs, h⟩ := bind_eq_ok_iff.1 h
    cases h
    exact .cons hb (ih hbs)

/-- What stands in the second of two lists that match has its match in the first. -/
theorem exists_of_mem_forall₂ {R : α → β → Prop} {as : List α} {bs : List β}
    (h : List.Forall₂ R as bs) {b : β} (hb : b ∈ bs) : ∃ a ∈ as, R a b := by
  induction h with
  | nil => cases hb
  | cons hab _ ih =>
    rcases List.mem_cons.1 hb with rfl | hb
    · exact ⟨_, List.mem_cons_self .., hab⟩
    · obtain ⟨a, ha, hR⟩ := ih hb
      exact ⟨a, List.mem_cons_of_mem _ ha, hR⟩

/-- What stands at a place in the first of two lists that match has its match there in the second. -/
theorem getElem?_of_forall₂ {R : α → β → Prop} {as : List α} {bs : List β}
    (h : List.Forall₂ R as bs) {i : Nat} {a : α} (ha : as[i]? = some a) :
    ∃ b, bs[i]? = some b ∧ R a b := by
  induction h generalizing i with
  | nil => cases ha
  | cons hab _ ih =>
    cases i with
    | zero =>
      cases ha
      exact ⟨_, rfl, hab⟩
    | succ i => exact ih ha

/-- Two lists that both match a third one match each other. -/
theorem forall₂_trans {γ : Type} {R : α → β → Prop} {S : β → γ → Prop} {as : List α} {bs : List β} {cs : List γ}
    (h : List.Forall₂ R as bs) (h' : List.Forall₂ S bs cs) : List.Forall₂ (fun a c => ∃ b, R a b ∧ S b c) as cs := by
  induction h generalizing cs with
  | nil =>
    cases h'
    exact .nil
  | cons hab _ ih =>
    cases h' with
    | cons hbc h' => exact .cons ⟨_, hab, hbc⟩ (ih h')

theorem exists_of_mapM_eq_ok {as : List α} {bs : List β} (h : as.mapM f = .ok bs) {a : α}
    (ha : a ∈ as) : ∃ b, f a = .ok b := by
  obtain ⟨b, -, hb⟩ := exists_of_mem_forall₂ (forall₂_of_mapM_eq_ok h).flip ha
  exact ⟨b, hb⟩

/-- What is in a list at whose end the missing elements of another one were added. -/
theorem mem_append_filter_not_mem [DecidableEq α] {l m : List α} {x : α} :
    x ∈ l ++ m.filter (· ∉ l) ↔ x ∈ l ∨ x ∈ m := by
  by_cases hx : x ∈ l <;> simp [hx]

/-- What an array holds from a position on. -/
theorem toList_extract_size (as : Array α) (i : Nat) :
    (as.extract i as.size).toList = as.toList.drop i := by
  rw [Array.toList_extract, List.extract_eq_take_drop]
  refine List.take_of_length_le (Nat.le_of_eq ?_)
  rw [List.length_drop, Array.length_toList]

end ParserMachine
