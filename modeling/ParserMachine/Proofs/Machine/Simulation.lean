/-!
# Stepping and simulation

A machine is a partial function that makes one step. `Leads f n a b` says that `n` steps lead from
`a` to `b`, `Lasts f n a` that `n` steps can be made, and `Ends f a b` that the run from `a` ends at
`b`.

One machine simulates another if related states stay related when the first makes some steps and the
second makes some, too; the second may stand still only where a rank goes down. Then each run that
ends has a counterpart (`Simulates.leads_of_ends`), and each run without end as well
(`Simulates.lasts`). As machines are deterministic, this settles every run.
-/

namespace ParserMachine

variable {α β : Type}

/-- So many steps, if they can be made. -/
def stepsFor (f : α → Option α) : Nat → α → Option α
  | 0, a => some a
  | n + 1, a => (f a).bind (stepsFor f n)

/-- So many steps lead from one state to another. -/
def Leads (f : α → Option α) (n : Nat) (a b : α) : Prop := stepsFor f n a = some b

/-- So many steps can be made. -/
def Lasts (f : α → Option α) (n : Nat) (a : α) : Prop := ∃ b, Leads f n a b

/-- The run from the first state ends at the second. -/
def Ends (f : α → Option α) (a b : α) : Prop := (∃ n, Leads f n a b) ∧ f b = none

variable {f : α → Option α} {n m k : Nat} {a b c : α}

theorem Leads.refl (f : α → Option α) (a : α) : Leads f 0 a a := rfl

theorem Leads.single (h : f a = some b) : Leads f 1 a b := by
  show (f a).bind (stepsFor f 0) = some b
  rw [h]
  rfl

theorem Leads.trans (h : Leads f n a b) (h' : Leads f m b c) : Leads f (n + m) a c := by
  induction n generalizing a with
  | zero =>
    cases h
    rwa [Nat.zero_add]
  | succ n ih =>
    obtain ⟨a', ha, hn⟩ := Option.bind_eq_some_iff.1 h
    rw [Nat.add_right_comm]
    show (f a).bind (stepsFor f (n + m)) = some c
    rw [ha]
    exact ih hn

theorem Leads.cons (h : f a = some b) (h' : Leads f n b c) : Leads f (n + 1) a c := by
  show (f a).bind (stepsFor f n) = some c
  rw [h]
  exact h'

/-- What each step preserves is preserved on the way. -/
theorem Leads.preserves {I : α → Prop} (h : Leads f n a b) (hstep : ∀ a b, I a → f a = some b → I b) (ha : I a) :
    I b := by
  induction n generalizing a with
  | zero =>
    cases h
    exact ha
  | succ n ih =>
    obtain ⟨a', ha', hn⟩ := Option.bind_eq_some_iff.1 h
    exact ih hn (hstep a a' ha ha')

theorem Leads.lasts (h : Leads f n a b) : Lasts f n a := ⟨b, h⟩

theorem Lasts.zero (f : α → Option α) (a : α) : Lasts f 0 a := ⟨a, rfl⟩

theorem Leads.lasts_add (h : Leads f n a b) (h' : Lasts f m b) : Lasts f (n + m) a := by
  obtain ⟨c, hc⟩ := h'
  exact ⟨c, h.trans hc⟩

theorem Lasts.mono (h : Lasts f n a) (hm : m ≤ n) : Lasts f m a := by
  induction m generalizing n a with
  | zero => exact Lasts.zero f a
  | succ m ih =>
    obtain ⟨n, rfl⟩ := Nat.exists_eq_succ_of_ne_zero (Nat.ne_zero_of_lt hm)
    obtain ⟨b, hb⟩ := h
    obtain ⟨a', ha, hn⟩ := Option.bind_eq_some_iff.1 hb
    obtain ⟨c, hc⟩ := ih ⟨b, hn⟩ (Nat.le_of_succ_le_succ hm)
    exact ⟨c, Leads.cons ha hc⟩

/-- What lies ahead of a state lies ahead of every state that leads to it. -/
theorem Leads.lasts_of_lasts (h : Leads f n a b) (h' : Lasts f m b) (hnm : k ≤ n + m) :
    Lasts f k a :=
  (h.lasts_add h').mono hnm

/-- Steps are determined: the shorter of two ways is the beginning of the longer one. -/
theorem Leads.split (h : Leads f n a b) (h' : Leads f (n + m) a c) : Leads f m b c := by
  induction n generalizing a with
  | zero =>
    cases h
    rwa [Nat.zero_add] at h'
  | succ n ih =>
    obtain ⟨a', ha, hn⟩ := Option.bind_eq_some_iff.1 h
    rw [Nat.add_right_comm] at h'
    obtain ⟨a'', ha', hn'⟩ := Option.bind_eq_some_iff.1 h'
    rw [ha] at ha'
    cases ha'
    exact ih hn hn'

/-- No way is longer than one that ends. -/
theorem Leads.le_of_stop (h : Leads f n a b) (hb : f b = none) (h' : Lasts f m a) : m ≤ n := by
  rcases Nat.le_total m n with hle | hle
  · exact hle
  · obtain ⟨k, rfl⟩ := Nat.exists_eq_add_of_le hle
    obtain ⟨c, hc⟩ := h'
    have hrest := h.split hc
    cases k with
    | zero => exact Nat.le_refl _
    | succ k =>
      obtain ⟨a', ha, -⟩ := Option.bind_eq_some_iff.1 hrest
      rw [hb] at ha
      cases ha

/-- A run ends at one state only. -/
theorem Ends.unique (h : Ends f a b) (h' : Ends f a c) : b = c := by
  obtain ⟨⟨n, hn⟩, hb⟩ := h
  obtain ⟨⟨m, hm⟩, hc⟩ := h'
  obtain rfl : n = m :=
    Nat.le_antisymm (hm.le_of_stop hc hn.lasts) (hn.le_of_stop hb hm.lasts)
  exact Option.some.inj (hn.symm.trans hm)

theorem Leads.ends (h : Leads f n a b) (h' : Ends f b c) : Ends f a c := by
  obtain ⟨⟨m, hm⟩, hc⟩ := h'
  exact ⟨⟨n + m, h.trans hm⟩, hc⟩

/-- The second machine simulates the first along a relation. -/
def Simulates (f : α → Option α) (g : β → Option β) (R : α → β → Prop) (rank : α → Nat) : Prop :=
  ∀ a a' b, R a b → f a = some a' → ∃ n m a'' b',
    Leads f n a' a'' ∧ Leads g m b b' ∧ R a'' b' ∧ (m = 0 → rank a'' < rank a)

section Simulates

variable {g : β → Option β} {R : α → β → Prop} {rank : α → Nat}

/-- A run that ends is simulated up to its end. -/
theorem Simulates.leads_of_ends (h : Simulates f g R rank) {a' : α} {b : β} (hR : R a b)
    (ha : Ends f a a') : ∃ m b', Leads g m b b' ∧ R a' b' := by
  obtain ⟨⟨n, hn⟩, hstop⟩ := ha
  induction n using Nat.strongRecOn generalizing a b with
  | ind n ih =>
    cases n with
    | zero =>
      cases hn
      exact ⟨0, b, Leads.refl g b, hR⟩
    | succ n =>
      obtain ⟨a₁, ha₁, hn⟩ := Option.bind_eq_some_iff.1 hn
      obtain ⟨k, m, a₂, b₂, hk, hm, hR₂, -⟩ := h a a₁ b hR ha₁
      have hle : k ≤ n := Leads.le_of_stop hn hstop hk.lasts
      obtain ⟨l, rfl⟩ := Nat.exists_eq_add_of_le hle
      obtain ⟨m', b', hm', hR'⟩ := ih l (by omega) hR₂ (hk.split hn)
      exact ⟨m + m', b', hm.trans hm', hR'⟩

/-- A run without end is simulated by one without end. -/
theorem Simulates.lasts (h : Simulates f g R rank) {b : β} (hR : R a b) (ha : ∀ n, Lasts f n a) :
    ∀ n, Lasts g n b := by
  intro n
  -- the second machine stands still only as often as the rank allows
  induction hr : (⟨n, rank a⟩ : Nat × Nat) using (Prod.lex Nat.lt_wfRel Nat.lt_wfRel).wf.induction
    generalizing n a b with
  | _ x ih =>
    subst hr
    cases n with
    | zero => exact Lasts.zero g b
    | succ n =>
      obtain ⟨a₁, ha₁⟩ := ha 1
      obtain ⟨a₁, hstep, -⟩ := Option.bind_eq_some_iff.1 ha₁
      obtain ⟨k, m, a₂, b₂, hk, hm, hR₂, hrank⟩ := h a a₁ b hR hstep
      have ha₂ : ∀ j, Lasts f j a₂ := by
        intro j
        obtain ⟨c, hc⟩ := ha (k + 1 + j)
        exact ⟨c, Leads.split (Leads.cons hstep hk) hc⟩
      cases m with
      | zero =>
        cases hm
        exact ih ⟨n + 1, rank a₂⟩ (Prod.Lex.right _ (hrank rfl)) hR₂ ha₂ (n + 1) rfl
      | succ m =>
        have hrest := ih ⟨n, rank a₂⟩ (Prod.Lex.left _ _ (Nat.lt_succ_self n)) hR₂ ha₂ n rfl
        exact hm.lasts_of_lasts hrest (by omega)

end Simulates

end ParserMachine
