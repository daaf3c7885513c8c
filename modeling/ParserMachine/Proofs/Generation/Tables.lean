import ParserMachine.Proofs.Generation.Success
import ParserMachine.Proofs.Meaning.Tables

/-!
# What goes into a table

An alternative is registered in a table if its lead and those of all alternatives before it are known, and none of
those before it, registered or not, begins with a token that it begins with (`Dispatch.Registers`). The others are left
out, in order.

So the keys of a table are the tokens that lead a registered alternative, and a key chooses the first of all
alternatives that it leads; what a table expects before, after and at its alternatives is what the registered ones
expect (`Dispatch.Tabulates`). `Draft.alternation_registers_leads` says how the code for alternatives is made of these.
-/

namespace ParserMachine

variable {τ : Type} [Token τ] {α : Type}

namespace Dispatch

/-- Whether a table registers an alternative that comes after some others. -/
def Registers (leadOf : α → Option (Lead τ)) (earlier : List α) (a : α) : Prop :=
  ∃ l ∈ leadOf a, ∀ b ∈ earlier, ∃ m ∈ leadOf b, ∀ t ∈ l.tokens, t ∉ m.tokens

instance (leadOf : α → Option (Lead τ)) (earlier : List α) (a : α) : Decidable (Registers leadOf earlier a) :=
  inferInstanceAs (Decidable (∃ l ∈ leadOf a, ∀ b ∈ earlier, ∃ m ∈ leadOf b, ∀ t ∈ l.tokens, t ∉ m.tokens))

variable (leadOf : α → Option (Lead τ)) (alts : List α)

/-- Whether a table registers the alternative at a position. -/
def RegistersAt (i : Nat) : Prop := ∃ a ∈ alts[i]?, Registers leadOf (alts.take i) a

instance (i : Nat) : Decidable (RegistersAt leadOf alts i) :=
  inferInstanceAs (Decidable (∃ a ∈ alts[i]?, Registers leadOf (alts.take i) a))

/-- The positions of the alternatives that a table registers, in order. -/
def registered : List Nat := (List.range alts.length).filter (RegistersAt leadOf alts ·)

/-- The positions of the alternatives that a table leaves out, in order. -/
def leftOut : List Nat := (List.range alts.length).filter (¬ RegistersAt leadOf alts ·)

/-- What is known of the alternative at a position. -/
def leadAt (i : Nat) : Option (Lead τ) := alts[i]?.bind leadOf

/-- Whether one of the alternatives at these positions is known to expect an item. -/
def ExpectsAt (positions : List Nat) (x : ErrorItem τ) : Prop :=
  ∃ i ∈ positions, ∃ l ∈ leadAt leadOf alts i, x ∈ l.expected

/-- Entries and expectations are those of the registered alternatives. -/
structure Tabulates (entries : List (τ × Nat)) (before after : List (ExpectedSet τ)) (all : ExpectedSet τ) :
    Prop where
  /-- The keys are the tokens that lead a registered alternative. -/
  key_iff : ∀ t, (∃ k, entries.lookup t = some k) ↔
    ∃ i ∈ registered leadOf alts, ∃ l ∈ leadAt leadOf alts i, t ∈ l.tokens
  /-- A key chooses the alternative that it leads. -/
  lookup_iff : ∀ t k, entries.lookup t = some k ↔
    ∃ i ∈ (registered leadOf alts)[k]?, ∃ l ∈ leadAt leadOf alts i, t ∈ l.tokens
  /-- No alternative that stands before the chosen one begins with the key. -/
  first : ∀ t k, entries.lookup t = some k → ∀ i ∈ (registered leadOf alts)[k]?, ∀ j < i,
    ∀ l ∈ leadAt leadOf alts j, t ∉ l.tokens
  /-- Each registered alternative has its own sets. -/
  length_before : before.length = (registered leadOf alts).length
  length_after : after.length = (registered leadOf alts).length
  /-- What the registered alternatives before each one expect. -/
  mem_before : ∀ (k : Nat) (e : ExpectedSet τ), before[k]? = some e →
    ∀ x, x ∈ e ↔ ExpectsAt leadOf alts ((registered leadOf alts).take k) x
  /-- What the registered alternatives after each one expect. -/
  mem_after : ∀ (k : Nat) (e : ExpectedSet τ), after[k]? = some e →
    ∀ x, x ∈ e ↔ ExpectsAt leadOf alts ((registered leadOf alts).drop (k + 1)) x
  /-- What all registered alternatives expect. -/
  mem_all : ∀ x, x ∈ all ↔ ExpectsAt leadOf alts (registered leadOf alts) x

/-! ### Positions -/

variable {leadOf alts}

/-- The items of the second part of a list stand at the positions from the length of the first part on. -/
theorem forall₂_positions (earlier alts : List α) :
    List.Forall₂ (fun i a => (earlier ++ alts)[i]? = some a) (List.range' earlier.length alts.length) alts := by
  induction alts generalizing earlier with
  | nil => exact .nil
  | cons a alts ih =>
    have hrest := ih (earlier ++ [a])
    rw [List.length_append, List.append_assoc] at hrest
    exact .cons (by simp) hrest

/-- Whether an alternative is registered depends on those before it only. -/
theorem registersAt_length (earlier : List α) (a : α) (rest : List α) :
    RegistersAt leadOf (earlier ++ a :: rest) earlier.length ↔ Registers leadOf earlier a := by
  unfold RegistersAt
  simp

/-- From an alternative without a lead on, none is registered. -/
theorem not_registersAt_of_none {earlier rest : List α} {a : α} (hlead : leadOf a = none) {i : Nat}
    (hi : earlier.length ≤ i) : ¬ RegistersAt leadOf (earlier ++ a :: rest) i := by
  rintro ⟨b, hb, l, hl, hearlier⟩
  rcases Nat.eq_or_lt_of_le hi with rfl | hi
  · obtain rfl : a = b := by simpa using hb
    cases hlead.symm.trans hl
  · have ha : a ∈ (earlier ++ a :: rest).take i := by
      refine List.mem_of_getElem? (i := earlier.length) ?_
      rw [List.getElem?_take_of_lt hi]
      simp
    obtain ⟨m, hm, -⟩ := hearlier a ha
    cases hlead.symm.trans hm

/-- Sorting the alternatives that come after some others puts those into the table that are registered, with their
leads, and leaves out the rest, if the leads of the others are known and the tokens seen are theirs. -/
theorem forall₂_sortFrom {earlier : List α} {seen : List τ} (hknown : ∀ b ∈ earlier, ∃ m, leadOf b = some m)
    (hseen : ∀ t, t ∈ seen ↔ ∃ b ∈ earlier, ∃ m ∈ leadOf b, t ∈ m.tokens) (alts : List α) :
    List.Forall₂ (fun i x => (earlier ++ alts)[i]? = some x.1 ∧ leadOf x.1 = some x.2)
      ((List.range' earlier.length alts.length).filter (RegistersAt leadOf (earlier ++ alts) ·))
      (sortFrom leadOf seen alts).1 ∧
    List.Forall₂ (fun i a => (earlier ++ alts)[i]? = some a)
      ((List.range' earlier.length alts.length).filter (¬ RegistersAt leadOf (earlier ++ alts) ·))
      (sortFrom leadOf seen alts).2 := by
  induction alts generalizing earlier seen with
  | nil => exact ⟨.nil, .nil⟩
  | cons a alts ih =>
    rw [sortFrom_cons]
    cases hlead : leadOf a with
    | none =>
      have hnone : ∀ i ∈ List.range' earlier.length (a :: alts).length,
          ¬ RegistersAt leadOf (earlier ++ a :: alts) i :=
        fun i hi => not_registersAt_of_none hlead (List.mem_range'_1.1 hi).1
      rw [List.filter_eq_nil_iff.2 fun i hi => by simpa using hnone i hi,
        List.filter_eq_self.2 fun i hi => by simpa using hnone i hi]
      exact ⟨.nil, forall₂_positions earlier (a :: alts)⟩
    | some l =>
      have hknown' : ∀ b ∈ earlier ++ [a], ∃ m, leadOf b = some m := by
        intro b hb
        rcases List.mem_append.1 hb with hb | hb
        · exact hknown b hb
        · exact ⟨l, List.mem_singleton.1 hb ▸ hlead⟩
      have hseen' : ∀ t, t ∈ seen ++ l.tokens.filter (· ∉ seen) ↔
          ∃ b ∈ earlier ++ [a], ∃ m ∈ leadOf b, t ∈ m.tokens := by
        intro t
        rw [mem_append_filter_not_mem, hseen]
        simp [hlead, or_and_right, exists_or]
      obtain ⟨htable, hothers⟩ := ih hknown' hseen'
      rw [List.length_append, List.append_assoc] at htable hothers
      have hhead : (earlier ++ a :: alts)[earlier.length]? = some a := by simp
      -- an alternative is left out exactly if it begins with a token that was seen
      have hmeets : l.tokens.any (· ∈ seen) = true ↔ ¬ RegistersAt leadOf (earlier ++ a :: alts) earlier.length := by
        rw [registersAt_length, List.any_eq_true]
        constructor
        · rintro ⟨t, ht, htseen⟩ ⟨l', hl', hearlier⟩
          cases hlead.symm.trans hl'
          obtain ⟨b, hb, m, hm, htm⟩ := (hseen t).1 (of_decide_eq_true htseen)
          obtain ⟨m', hm', hdisjoint⟩ := hearlier b hb
          cases Option.mem_unique hm hm'
          exact hdisjoint t ht htm
        · intro hnot
          by_contra hnone
          refine hnot ⟨l, hlead, fun b hb => ?_⟩
          obtain ⟨m, hm⟩ := hknown b hb
          exact ⟨m, hm, fun t ht htm => hnone ⟨t, ht, decide_eq_true ((hseen t).2 ⟨b, hb, m, hm, htm⟩)⟩⟩
      dsimp only
      rw [List.length_cons, List.range'_succ]
      by_cases hregisters : RegistersAt leadOf (earlier ++ a :: alts) earlier.length
      · rw [if_neg fun h => hmeets.1 h hregisters, List.filter_cons_of_pos (by simpa using hregisters),
          List.filter_cons_of_neg (by simpa using hregisters)]
        exact ⟨.cons ⟨hhead, hlead⟩ htable, hothers⟩
      · rw [if_pos (hmeets.2 hregisters), List.filter_cons_of_neg (by simpa using hregisters),
          List.filter_cons_of_pos (by simpa using hregisters)]
        exact ⟨htable, .cons hhead hothers⟩

/-- A table has the registered alternatives in order, and leaves out the others in order. -/
theorem forall₂_sort (leadOf : α → Option (Lead τ)) (alts : List α) :
    List.Forall₂ (fun i x => alts[i]? = some x.1 ∧ leadOf x.1 = some x.2) (registered leadOf alts)
      (sort leadOf alts).1 ∧
    List.Forall₂ (fun i a => alts[i]? = some a) (leftOut leadOf alts) (sort leadOf alts).2 := by
  unfold registered leftOut
  rw [List.range_eq_range']
  have hknown : ∀ b ∈ ([] : List α), ∃ m, leadOf b = some m := List.forall_mem_nil _
  exact forall₂_sortFrom hknown (fun t => by simp) alts

theorem registersAt_of_mem {i : Nat} (h : i ∈ registered leadOf alts) : RegistersAt leadOf alts i :=
  of_decide_eq_true (List.mem_filter.1 h).2

/-- A registered alternative begins with no token that leads one before it. -/
theorem not_mem_of_registersAt {i j : Nat} (hi : RegistersAt leadOf alts i) (hj : j < i) {l m : Lead τ}
    (hl : l ∈ leadAt leadOf alts i) (hm : m ∈ leadAt leadOf alts j) {t : τ} (ht : t ∈ l.tokens) : t ∉ m.tokens := by
  obtain ⟨a, ha, l', hl', hearlier⟩ := hi
  obtain ⟨b, hb, hm⟩ := Option.bind_eq_some_iff.1 hm
  obtain ⟨a', ha', hl⟩ := Option.bind_eq_some_iff.1 hl
  cases Option.mem_unique ha ha'
  cases Option.mem_unique hl hl'
  obtain ⟨m', hm', hdisjoint⟩ := hearlier b (List.mem_of_getElem? (by rwa [List.getElem?_take_of_lt hj]))
  cases Option.mem_unique hm hm'
  exact hdisjoint t ht

/-- A token leads one registered alternative at most. -/
theorem registered_unique {i j : Nat} (hi : RegistersAt leadOf alts i) (hj : RegistersAt leadOf alts j) {l m : Lead τ}
    (hl : l ∈ leadAt leadOf alts i) (hm : m ∈ leadAt leadOf alts j) {t : τ} (htl : t ∈ l.tokens) (htm : t ∈ m.tokens) :
    i = j := by
  rcases Nat.lt_trichotomy i j with h | h | h
  · exact absurd htl (not_mem_of_registersAt hj h hm hl htm)
  · exact h
  · exact absurd htm (not_mem_of_registersAt hi h hl hm htl)

/-! ### Entries and expectations -/

/-- Where leads stand for positions, one of the leads has a property if one of the alternatives there has such a
lead. -/
theorem exists_lead_iff {positions : List Nat} {leads : List (Lead τ)}
    (h : List.Forall₂ (fun i l => leadAt leadOf alts i = some l) positions leads) {P : Lead τ → Prop} :
    (∃ l ∈ leads, P l) ↔ ∃ i ∈ positions, ∃ l ∈ leadAt leadOf alts i, P l := by
  constructor
  · rintro ⟨l, hl, hP⟩
    obtain ⟨i, hi, hlead⟩ := exists_of_mem_forall₂ h hl
    exact ⟨i, hi, l, hlead, hP⟩
  · rintro ⟨i, hi, l, hlead, hP⟩
    obtain ⟨l', hl', hlead'⟩ := exists_of_mem_forall₂ h.flip hi
    cases Option.mem_unique hlead hlead'
    exact ⟨l, hl', hP⟩

/-- The entries and the expectations of the leads of the registered alternatives are those of the table. -/
theorem tabulates_leads {leads : List (Lead τ)}
    (h : List.Forall₂ (fun i l => leadAt leadOf alts i = some l) (registered leadOf alts) leads) (hne : leads ≠ []) :
    Tabulates leadOf alts (entries leads) (before leads) (after leads) (all leads) := by
  have hchosen {t : τ} {k : Nat} (hk : (entries leads).lookup t = some k) :
      ∃ i ∈ (registered leadOf alts)[k]?, ∃ l ∈ leadAt leadOf alts i, t ∈ l.tokens := by
    obtain ⟨l, hl, ht⟩ := exists_of_lookup_entries hk
    obtain ⟨i, hi, hlead⟩ := getElem?_of_forall₂ h.flip hl
    exact ⟨i, hi, l, hlead, ht⟩
  have hkey {t : τ} {i : Nat} (hi : i ∈ registered leadOf alts) {l : Lead τ} (hl : l ∈ leadAt leadOf alts i)
      (ht : t ∈ l.tokens) : ∃ k, (entries leads).lookup t = some k := by
    by_contra hnone
    rw [← Option.isSome_iff_exists, Option.not_isSome_iff_eq_none] at hnone
    obtain ⟨l', hl', ht'⟩ := (exists_lead_iff h (P := fun l => t ∈ l.tokens)).2 ⟨i, hi, l, hl, ht⟩
    exact not_mem_of_lookup_entries hnone l' hl' ht'
  refine ⟨fun t => ⟨?_, ?_⟩, fun t k => ⟨hchosen, ?_⟩, ?_, ?_, ?_, fun k e he x => ?_, fun k e he x => ?_, fun x => ?_⟩
  · rintro ⟨k, hk⟩
    obtain ⟨i, hi, hlead⟩ := hchosen hk
    exact ⟨i, List.mem_of_getElem? hi, hlead⟩
  · rintro ⟨i, hi, l, hl, ht⟩
    exact hkey hi hl ht
  · rintro ⟨i, hi, l, hl, ht⟩
    obtain ⟨k', hk'⟩ := hkey (List.mem_of_getElem? hi) hl ht
    obtain ⟨j, hj, m, hm, ht'⟩ := hchosen hk'
    have hij : i = j := registered_unique (registersAt_of_mem (List.mem_of_getElem? hi))
      (registersAt_of_mem (List.mem_of_getElem? hj)) hl hm ht ht'
    have hnodup : (registered leadOf alts).Nodup := List.nodup_range.filter _
    have hkk' : k = k' := (List.getElem?_inj (List.getElem?_eq_some_iff.1 hi).1 hnodup).1
      (hi.trans (hij ▸ hj.symm))
    exact hkk' ▸ hk'
  · intro t k hk i hi j hj m hm
    obtain ⟨i', hi', l, hl, ht⟩ := hchosen hk
    cases Option.mem_unique hi hi'
    exact not_mem_of_registersAt (registersAt_of_mem (List.mem_of_getElem? hi)) hj hl hm ht
  · rw [length_before, h.length_eq]
  · rw [length_after hne, h.length_eq]
  · rw [mem_of_getElem?_before he]
    exact exists_lead_iff (List.forall₂_take k h)
  · rw [mem_of_getElem?_after he]
    exact exists_lead_iff (List.forall₂_drop (k + 1) h)
  · rw [mem_all]
    exact exists_lead_iff h

end Dispatch

/-! ### Code -/

namespace Draft

/-- Whether a piece of code is written for the alternative at a position. -/
def Writes (alts : List (Operand τ)) (discard : Bool) (i : Nat) (part : Draft τ) : Prop :=
  ∃ a ∈ alts[i]?, ∃ l l', (a.emit discard).run l = .ok (part, l')

/-- What is written where nothing or one label is asked for. -/
theorem handlerFor_eq_none_iff {noOthers : Bool} {e : ExpectedSet τ} {h : Option Label} {l l' : Label}
    (hrun : (handlerFor noOthers e).run l = .ok (h, l')) : h = none ↔ noOthers ∧ e.isEmpty := by
  unfold handlerFor at hrun
  split at hrun
  · rename_i hnone
    cases hrun
    simpa using hnone
  · rename_i hsome
    obtain ⟨f, -, rfl⟩ := Emit.run_map_eq_ok_iff.1 hrun
    simpa using hsome

/-- How the code for alternatives is made with tables switched on. If at least two are registered, the code begins
with a table, which tells them apart. Then comes the code of the registered alternatives, each at its target and with
what the later ones expect, which is reported if the alternative fails, and then that of those left out, tried in order.
Else the code tries all alternatives in order. -/
theorem alternation_registers_leads {tgt : Target τ} (htables : tgt.options.dispatchTables = true)
    (alts : List (Operand τ)) (discard : Bool) :
    let leadOf := fun a : Operand τ => a.expr.lead tgt.subroutines
    let registered := Dispatch.registered leadOf alts
    let leftOut := Dispatch.leftOut leadOf alts
    (Operand.AllSucceed alts → (alternation tgt alts discard).Succeeds) ∧
    ∀ (l l' : Label) (d : Draft τ), (alternation tgt alts discard).run l = .ok (d, l') →
      (registered.length < 2 → (chain alts discard).run l = .ok (d, l')) ∧
      (2 ≤ registered.length → ∃ entries targets before after all fallback stop handlers parts rest,
        Dispatch.Tabulates leadOf alts entries before after all ∧
        d.toCode = .instr (.dispatch entries targets before all fallback) ::
          (allChosen stop fallback targets handlers after parts).toCode ++ rest ++ [Line.mark stop] ∧
        targets.Nodup ∧ targets.length = registered.length ∧
        List.Forall₂ (fun e h => h = none ↔ leftOut = [] ∧ e.isEmpty) after handlers ∧
        List.Forall₂ (Writes alts discard) registered parts ∧
        (leftOut = [] → fallback = none ∧ rest = []) ∧
        (leftOut ≠ [] → ∃ f chainStop chainHandlers otherParts, fallback = some f ∧
          rest = .mark f :: (tryInOrder chainStop chainHandlers otherParts).toCode ∧
          chainHandlers.length + 1 = leftOut.length ∧ List.Forall₂ (Writes alts discard) leftOut otherParts)) := by
  intro leadOf registered leftOut
  refine ⟨fun h => succeeds_alternation h discard, fun l l' d h => ?_⟩
  obtain ⟨htable, hothers⟩ := Dispatch.forall₂_sort leadOf alts
  have hleads : List.Forall₂ (fun i l => Dispatch.leadAt leadOf alts i = some l) registered
      ((Dispatch.sort leadOf alts).1.map Prod.snd) :=
    List.forall₂_map_right_iff.2 (htable.imp fun i x hx => Option.bind_eq_some_iff.2 ⟨x.1, hx⟩)
  have hlength : (Dispatch.sort leadOf alts).1.length = registered.length := htable.length_eq.symm
  unfold alternation at h
  rw [if_pos htables] at h
  dsimp only at h
  refine ⟨fun hfew => ?_, fun hmany => ?_⟩
  · rwa [if_pos (hlength ▸ hfew)] at h
  · rw [if_neg (Nat.not_lt.2 (hlength ▸ hmany))] at h
    have hne : (Dispatch.sort leadOf alts).1.map Prod.snd ≠ [] := by
      rw [← List.length_pos_iff, List.length_map, hlength]
      exact Nat.lt_of_lt_of_le Nat.zero_lt_two hmany
    have htabulates := Dispatch.tabulates_leads hleads hne
    have hwrites {parts : List (Draft τ)} {m m' : Label} (hparts :
        Emit.Each (fun a : Operand τ × Lead τ => a.1.emit discard) m (Dispatch.sort leadOf alts).1 parts m') :
        List.Forall₂ (Writes alts discard) registered parts :=
      (forall₂_trans htable hparts.forall₂).imp fun i part ⟨x, ⟨ha, _⟩, hpart⟩ => ⟨x.1, ha, hpart⟩
    cases hsort : (Dispatch.sort leadOf alts).2 with
    | nil =>
      rw [hsort] at h hothers
      have hleft : leftOut = [] := List.forall₂_nil_right_iff.1 hothers
      obtain ⟨handlers, parts, m, hhandlers, hparts, hcode⟩ := exists_of_dispatch_nil h
      refine ⟨_, _, _, _, _, none, l, handlers, parts, [], htabulates, hcode, List.nodup_range', ?_, ?_,
        hwrites hparts, fun _ => ⟨rfl, rfl⟩, fun hleft' => absurd hleft hleft'⟩
      · rw [List.length_range', hlength]
      · refine hhandlers.forall₂.imp fun e handler ⟨m, m', hrun⟩ => ?_
        rw [handlerFor_eq_none_iff hrun]
        simp [hleft]
    | cons o others =>
      rw [hsort] at h hothers
      have hleft : leftOut ≠ [] := fun hleft => by
        have hlength := hothers.length_eq
        rw [show Dispatch.leftOut leadOf alts = [] from hleft] at hlength
        cases hlength
      obtain ⟨handlers, parts, otherParts, m, m', hhandlers, hparts, hotherParts, hcode⟩ := exists_of_dispatch_cons h
      refine ⟨_, _, _, _, _, some (l + 1), l, handlers, parts, _, htabulates, hcode, List.nodup_range', ?_, ?_,
        hwrites hparts, fun hleft' => absurd hleft' hleft, fun _ => ⟨l + 1, m, _, otherParts, rfl, rfl, ?_, ?_⟩⟩
      · rw [List.length_range', hlength]
      · refine hhandlers.forall₂.imp fun e handler ⟨m, m', hrun⟩ => ?_
        rw [handlerFor_eq_none_iff hrun]
        simp [hleft]
      · rw [List.length_range', hothers.length_eq, List.length_cons]
      · exact (forall₂_trans hothers hotherParts.forall₂).imp fun i part ⟨a, ha, hpart⟩ => ⟨a, ha, hpart⟩

/-- Letters, a word that begins with the first of them, and the end of the input, whose lead is not known. -/
def lettersAndEnd : Expr Char :=
  .alt (.leaf (.single 'a' (ExpectedSet.tokens ['a'])))
    (.alt (.leaf (.literal ['a', 'b'] .unit (ExpectedSet.label "word")))
      (.alt (.leaf (.single 'b' (ExpectedSet.tokens ['b'])))
        (.alt (.leaf .eof) (.leaf (.single 'c' (ExpectedSet.tokens ['c']))))))

/-- The first two letters are registered. The word is left out, since it begins with the first letter, and so are the
end of the input and the third letter behind it. -/
theorem alternation_registers_leads_lettersAndEnd :
    let alts := lettersAndEnd.operands ⟨{}, #[]⟩ []
    ({} : Options).dispatchTables = true ∧
    Dispatch.registered (fun a : Operand Char => a.expr.lead #[]) alts = [0, 2] ∧
    Dispatch.leftOut (fun a : Operand Char => a.expr.lead #[]) alts = [1, 3, 4] ∧
    ∃ d l' entries targets before all f, (alternation ⟨{}, #[]⟩ alts false).run 0 = .ok (d, l') ∧
      d.toCode.head? = some (.instr (.dispatch entries targets before all (some f))) ∧
      entries.lookup 'b' = some 1 ∧ entries.lookup 'c' = none ∧
      ∀ x, x ∈ all ↔ x = .tokens ['a'] ∨ x = .tokens ['b'] := by
  intro alts
  have hregistered : Dispatch.registered (fun a : Operand Char => a.expr.lead #[]) alts = [0, 2] := by decide +kernel
  have hleft : Dispatch.leftOut (fun a : Operand Char => a.expr.lead #[]) alts = [1, 3, 4] := by decide +kernel
  have hfirst : Dispatch.leadAt (fun a : Operand Char => a.expr.lead #[]) alts 0 =
      some ⟨['a'], ExpectedSet.tokens ['a']⟩ := rfl
  have hsecond : Dispatch.leadAt (fun a : Operand Char => a.expr.lead #[]) alts 2 =
      some ⟨['b'], ExpectedSet.tokens ['b']⟩ := rfl
  have htables : (⟨{}, #[]⟩ : Target Char).options.dispatchTables = true := rfl
  obtain ⟨hsucceeds, hcode⟩ := alternation_registers_leads htables alts false
  obtain ⟨⟨d, l'⟩, hrun⟩ := hsucceeds (Expr.succeeds_operands lettersAndEnd (by simp [lettersAndEnd, Expr.CallsBelow,
    Leaf.CallsBelow]) Operand.allSucceed_nil) 0
  obtain ⟨-, hmany⟩ := hcode 0 l' d hrun
  obtain ⟨entries, targets, before, after, all, fallback, stop, handlers, parts, rest, htabulates, hcode, -, -, -, -, -,
    hothers⟩ := hmany (by rw [hregistered]; decide)
  obtain ⟨f, -, -, -, rfl, -⟩ := hothers (by rw [hleft]; decide)
  refine ⟨rfl, hregistered, hleft, d, l', entries, targets, before, all, f, hrun, ?_, ?_, ?_, fun x => ?_⟩
  · rw [hcode]
    rfl
  · exact (htabulates.lookup_iff 'b' 1).2 ⟨2, congrArg (·[1]?) hregistered, _, hsecond, by decide⟩
  · rw [← Option.not_isSome_iff_eq_none, Option.isSome_iff_exists, htabulates.key_iff, hregistered]
    simp [hfirst, hsecond]
  · rw [htabulates.mem_all]
    unfold Dispatch.ExpectsAt
    rw [hregistered]
    simp [hfirst, hsecond, ExpectedSet.tokens]

end Draft

end ParserMachine
