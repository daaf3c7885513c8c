import ParserMachine.Machine.Run

/-!
# Reading a part of the input

What `spanEnd` and `matchLength` find in a part of the input they also find in the whole, unless
they ran into the end of the part (`spanEnd_append`, `matchLength_append`). A repetition that did
run into the end may go on from there (`spanEnd_eq_of_forall`).
-/

namespace ParserMachine

variable {τ : Type}

/-! ### Runs of tokens that pass a test -/

theorem le_spanEnd (test : τ → Bool) (input : Array τ) (i : Nat) : i ≤ spanEnd test input i := by
  fun_induction spanEnd test input i with
  | case1 i h ht ih => omega
  | case2 => exact Nat.le_refl _
  | case3 => exact Nat.le_refl _

theorem spanEnd_le_size (test : τ → Bool) (input : Array τ) {i : Nat} (h : i ≤ input.size) :
    spanEnd test input i ≤ input.size := by
  fun_induction spanEnd test input i with
  | case1 i hi ht ih => exact ih hi
  | case2 => exact h
  | case3 => exact h

/-- Every token that is passed over passes the test. -/
theorem test_of_lt_spanEnd (test : τ → Bool) (input : Array τ) (i : Nat) :
    ∀ j t, i ≤ j → j < spanEnd test input i → input[j]? = some t → test t := by
  fun_induction spanEnd test input i with
  | case1 i h ht ih =>
    intro j t hij hj hget
    rcases Nat.eq_or_lt_of_le hij with rfl | hlt
    · rw [Array.getElem?_eq_getElem h] at hget
      cases hget
      exact ht
    · exact ih j t hlt hj hget
  | case2 i h ht => intro j t hij hj; omega
  | case3 i h => intro j t hij hj; omega

/-- The token that ends the run fails the test. -/
theorem not_test_spanEnd (test : τ → Bool) (input : Array τ) (i : Nat) :
    ∀ t, input[spanEnd test input i]? = some t → test t = false := by
  fun_induction spanEnd test input i with
  | case1 i h ht ih => exact ih
  | case2 i h ht =>
    intro t hget
    rw [Array.getElem?_eq_getElem h] at hget
    cases hget
    simpa using ht
  | case3 i h =>
    intro t hget
    exact absurd (Array.getElem?_eq_some_iff.1 hget).1 h

/-- From `i` on the run goes as far as from any place `k` that it passes. -/
theorem spanEnd_eq_of_forall (test : τ → Bool) (input : Array τ) {i k : Nat} (hik : i ≤ k)
    (hk : k ≤ input.size) (h : ∀ j t, i ≤ j → j < k → input[j]? = some t → test t) :
    spanEnd test input i = spanEnd test input k := by
  obtain ⟨d, rfl⟩ := Nat.exists_eq_add_of_le hik
  induction d generalizing i with
  | zero => rfl
  | succ d ih =>
    have hlt : i < input.size := by omega
    have hpass : test input[i] := h i _ (Nat.le_refl _) (by omega) (Array.getElem?_eq_getElem hlt)
    rw [spanEnd, dif_pos hlt, if_pos hpass,
      ih (i := i + 1) (by omega) (by omega) (fun j t hij hj => h j t (by omega) (by omega))]
    congr 1
    omega

/-- A run that ends inside a part of the input ends there in the whole. -/
theorem spanEnd_append (test : τ → Bool) (a b : Array τ) {i : Nat}
    (h : spanEnd test a i < a.size) : spanEnd test (a ++ b) i = spanEnd test a i := by
  have hend := not_test_spanEnd test a i _ (Array.getElem?_eq_getElem h)
  have hlt : spanEnd test a i < (a ++ b).size := by rw [Array.size_append]; omega
  rw [spanEnd_eq_of_forall test (a ++ b) (le_spanEnd test a i) (by omega), spanEnd, dif_pos hlt,
    if_neg (by rw [Array.getElem_append_left h, hend]; decide)]
  intro j t hij hj hget
  rw [Array.getElem?_append_left (by omega)] at hget
  exact test_of_lt_spanEnd test a i j t hij hj hget

/-! ### Literals -/

variable [Token τ]

theorem add_matchLength_le_size (input : Array τ) {i : Nat} (ts : List τ) (h : i ≤ input.size) :
    i + matchLength input i ts ≤ input.size := by
  induction ts generalizing i with
  | nil => simpa [matchLength] using h
  | cons t ts ih =>
    rw [matchLength]
    split
    · rename_i hget
      have := ih (i := i + 1) (Array.getElem?_eq_some_iff.1 hget).1
      omega
    · simpa using h

/-- What matches in a part of the input matches in the whole and no more, unless the part ends where
the match does. -/
theorem matchLength_append (a b : Array τ) {i : Nat} {ts : List τ}
    (h : matchLength a i ts = ts.length ∨ i + matchLength a i ts < a.size) :
    matchLength (a ++ b) i ts = matchLength a i ts := by
  induction ts generalizing i with
  | nil => rfl
  | cons t ts ih =>
    rw [matchLength] at h ⊢
    rw [matchLength]
    by_cases hget : a[i]? = some t
    · have hlt := (Array.getElem?_eq_some_iff.1 hget).1
      rw [if_pos hget] at h ⊢
      rw [if_pos (by rw [Array.getElem?_append_left hlt, hget]), ih]
      rw [List.length_cons] at h
      omega
    · rw [if_neg hget] at h
      have hlt : i < a.size := by
        rcases h with h | h
        · simp at h
        · simpa using h
      rw [if_neg hget, if_neg (by rwa [Array.getElem?_append_left hlt])]

end ParserMachine
