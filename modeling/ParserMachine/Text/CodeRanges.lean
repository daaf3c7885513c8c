/-!
# Classes of characters as ranges of code points

A class of characters is a table of ranges of code points in increasing order, in which a code point
is looked up by halving. `covers_eq_true_iff` says that halving overlooks no range.
-/

namespace ParserMachine.Text

/-- Ranges of code points, first and last included, in increasing order and apart. -/
abbrev CodeRanges := Array (Nat × Nat)

namespace CodeRanges

/-- The ranges are in increasing order and do not overlap. -/
def Ordered (ranges : CodeRanges) : Prop :=
  ∀ i j, (hi : i < ranges.size) → (hj : j < ranges.size) → i < j → ranges[i].2 < ranges[j].1

/-- Whether a code point lies in one of the ranges from position `lo` to before `hi`. Every step
halves the distance, so it is more than enough if `steps` is the distance. -/
def search (ranges : CodeRanges) (n : Nat) : Nat → Nat → Nat → Bool
  | 0, _, _ => false
  | steps + 1, lo, hi =>
    let mid := (lo + hi) / 2
    match ranges[mid]? with
    | none => false
    | some r =>
      if hi ≤ lo then false
      else if n < r.1 then search ranges n steps lo mid
      else n ≤ r.2 || search ranges n steps (mid + 1) hi

/-- Whether a code point lies in one of the ranges. -/
def covers (ranges : CodeRanges) (n : Nat) : Bool := ranges.search n ranges.size 0 ranges.size

theorem search_eq_true_iff {ranges : CodeRanges} (ordered : ranges.Ordered)
    (nonempty : ∀ i, (h : i < ranges.size) → ranges[i].1 ≤ ranges[i].2) (n : Nat) :
    ∀ steps lo hi, hi - lo ≤ steps → hi ≤ ranges.size →
      (ranges.search n steps lo hi = true ↔
        ∃ i, ∃ h : i < ranges.size, lo ≤ i ∧ i < hi ∧ ranges[i].1 ≤ n ∧ n ≤ ranges[i].2) := by
  intro steps
  induction steps with
  | zero =>
    intro lo hi hsteps _
    simp only [search, Bool.false_eq_true, false_iff]
    rintro ⟨i, _, hlo, hhi, _⟩
    omega
  | succ steps ih =>
    intro lo hi hsteps hsize
    unfold search
    by_cases hlt : lo < hi
    · have hmid : (lo + hi) / 2 < ranges.size := by omega
      simp only [Array.getElem?_eq_getElem hmid, Nat.not_le.2 hlt, if_false]
      by_cases hn : n < (ranges[(lo + hi) / 2]).1
      · rw [if_pos hn, ih lo _ (by omega) (by omega)]
        constructor
        · rintro ⟨i, h, hlo, hhi, hin⟩
          exact ⟨i, h, hlo, by omega, hin⟩
        · rintro ⟨i, h, hlo, _, hfirst, hlast⟩
          refine ⟨i, h, hlo, Nat.lt_of_not_le fun hge => ?_, hfirst, hlast⟩
          rcases Nat.lt_or_eq_of_le hge with hmi | rfl
          · have := ordered _ i hmid h hmi
            have := nonempty _ hmid
            omega
          · omega
      · rw [if_neg hn, Bool.or_eq_true, decide_eq_true_eq, ih _ hi (by omega) hsize]
        constructor
        · rintro (hlast | ⟨i, h, hlo, hhi, hin⟩)
          · exact ⟨_, hmid, by omega, by omega, Nat.not_lt.1 hn, hlast⟩
          · exact ⟨i, h, by omega, hhi, hin⟩
        · rintro ⟨i, h, hlo, hhi, hfirst, hlast⟩
          rcases Nat.lt_trichotomy i ((lo + hi) / 2) with him | rfl | him
          · have := ordered i _ h hmid him
            omega
          · exact Or.inl hlast
          · exact Or.inr ⟨i, h, him, hhi, hfirst, hlast⟩
    · have hle : hi ≤ lo := Nat.not_lt.1 hlt
      have hnone : ¬ ∃ i, ∃ h : i < ranges.size,
          lo ≤ i ∧ i < hi ∧ ranges[i].1 ≤ n ∧ n ≤ ranges[i].2 := by
        rintro ⟨i, _, hlo, hhi, _⟩
        omega
      simp only [hnone, iff_false]
      cases ranges[(lo + hi) / 2]? <;> simp [hle]

/-- A code point is covered just if some range has it. -/
theorem covers_eq_true_iff {ranges : CodeRanges} (ordered : ranges.Ordered)
    (nonempty : ∀ i, (h : i < ranges.size) → ranges[i].1 ≤ ranges[i].2) (n : Nat) :
    ranges.covers n = true ↔
      ∃ i, ∃ h : i < ranges.size, ranges[i].1 ≤ n ∧ n ≤ ranges[i].2 := by
  unfold covers
  rw [search_eq_true_iff ordered nonempty n _ _ _ (by omega) (Nat.le_refl _)]
  exact ⟨fun ⟨i, h, _, _, hin⟩ => ⟨i, h, hin⟩,
    fun ⟨i, h, hin⟩ => ⟨i, h, Nat.zero_le i, h, hin⟩⟩

end CodeRanges

end ParserMachine.Text
