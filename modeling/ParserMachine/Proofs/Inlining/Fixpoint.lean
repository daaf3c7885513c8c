import Mathlib.Logic.Function.Iterate
import ParserMachine.Proofs.Inlining.Rounds

/-!
# What is left when inlining ends

Where subroutines call, but for recursive ones, only those before them (`Assembly.Descends`), the first of the
candidates calls no other one, so that every round with a candidate drops a subroutine
(`Assembly.Descends.exists_dissolves`). A copy calls what the code calls that it stands for, so a round keeps this
order, and after as many rounds as there are subroutines no candidate is left
(`Assembly.Descends.not_candidate_of_inlineFor`).
-/

namespace ParserMachine

variable {τ : Type} [Token τ]

namespace Assembly

/-- One round in which all subroutines are inlined that can be. -/
def inlineOnce (threshold : Nat) (a : Assembly τ) : Assembly τ :=
  (a.inlineRound (inlineBodies threshold a.blocks)).1

/-- Subroutines call recursive ones, and of the others only those before them. -/
def Descends (a : Assembly τ) : Prop :=
  ∀ b ∈ a.blocks, ∀ c ∈ a.blocks, c.entry ∈ Code.calls b.code → c.recursive = true ∨ c.entry < b.entry

/-- From one assembly to the other calls of the subroutine are replaced by copies of its code everywhere, and it is
dropped. -/
structure Dissolves (b : Block τ) (a a' : Assembly τ) : Prop where
  /-- It is a subroutine. -/
  mem : b ∈ a.blocks
  /-- It is among those whose calls are replaced. -/
  inlined : ∃ bodies : Std.TreeMap Label (Block τ), bodies[b.entry]? = some b ∧ a.Inlines bodies a'
  /-- It is not there any more. -/
  dropped : b.entry ∉ a'.entries
  /-- Nothing calls it. -/
  uncalled : ∀ c ∈ a'.codes, b.entry ∉ Code.calls c

variable {a : Assembly τ} {b c : Block τ} {threshold rounds : Nat}

theorem isCandidate_iff : isCandidate threshold b = true ↔ b.recursive = false ∧ Code.size b.code ≤ threshold := by
  simp [isCandidate]

theorem inlines_inlineOnce (threshold : Nat) (a : Assembly τ) :
    a.Inlines (inlineBodies threshold a.blocks) (a.inlineOnce threshold) := inlines_inlineRound _ a

/-- A subroutine is inlined just if it is a candidate that calls none. -/
theorem getElem?_inlineBodies {l : Nat} {blocks : List (Block τ)} :
    (inlineBodies threshold blocks)[l]? = some b ↔
      (byEntry (blocks.filter (isCandidate threshold)))[l]? = some b ∧
        ∀ m ∈ Code.calls b.code, m ∉ byEntry (blocks.filter (isCandidate threshold)) := by
  unfold inlineBodies
  rw [Std.TreeMap.getElem?_filter', Option.filter_eq_some_iff]
  simp

/-- What is inlined is a candidate. -/
theorem isCandidate_of_getElem? {l : Nat} (h : (inlineBodies threshold a.blocks)[l]? = some b) :
    isCandidate threshold b = true :=
  (List.mem_filter.1 (mem_of_getElem?_byEntry (getElem?_inlineBodies.1 h).1).1).2

theorem Sound.inlineOnce (h : a.Sound) (threshold : Nat) : (a.inlineOnce threshold).Sound :=
  (inlines_inlineOnce threshold a).sound h (inlinable_inlineBodies threshold a)

/-- What is inlined is dropped. -/
theorem not_mem_entries_inlineOnce {l : Nat} (h : (inlineBodies threshold a.blocks)[l]? = some b) :
    l ∉ (a.inlineOnce threshold).entries := by
  intro hl
  obtain ⟨d, hd, rfl⟩ := List.mem_map.1 hl
  have hout := of_decide_eq_true (List.mem_filter.1 hd).2
  refine hout ?_
  rw [Std.TreeMap.mem_iff_isSome_getElem?, h]
  rfl

/-- A block that is left comes from one that calls, with what is inlined, all that it calls. -/
theorem exists_of_mem_inlineOnce (hsound : a.Sound) (hb : b ∈ (a.inlineOnce threshold).blocks) :
    ∃ c ∈ a.blocks, b.entry = c.entry ∧ b.recursive = c.recursive ∧ ∀ l ∈ Code.calls b.code,
      l ∈ Code.calls c.code ∨
        ∃ d ∈ a.blocks, isCandidate threshold d = true ∧ d.entry ∈ Code.calls c.code ∧ l ∈ Code.calls d.code := by
  have hbodies := inlinable_inlineBodies threshold a
  have hinlines := inlines_inlineOnce threshold a
  generalize a.inlineOnce threshold = a' at hb hinlines
  cases hinlines with
  | @round main main' bs bs' k m k' hmain hbs =>
    obtain ⟨c, hc, -, hentry, hrecursive, j, j', hcode⟩ := hbs.exists_of_mem (List.mem_of_mem_filter hb)
    refine ⟨c, hc, hentry, hrecursive, fun l hl => ?_⟩
    rcases hcode.calls (hbodies.sound hsound).marks hl with ⟨hl, -⟩ | ⟨n, hn, d, hd, hl⟩
    · exact .inl hl
    · obtain ⟨hmem, rfl⟩ := hbodies.mem n d hd
      exact .inr ⟨d, hmem, isCandidate_of_getElem? hd, hn, hl⟩

/-- A round keeps the order of calls. -/
theorem Descends.round (h : a.Descends) (hsound : a.Sound) (threshold : Nat) :
    (a.inlineOnce threshold).Descends := by
  intro b' hb' c' hc' hcalls
  obtain ⟨b, hb, hbentry, -, hfrom⟩ := exists_of_mem_inlineOnce hsound hb'
  obtain ⟨c, hc, hcentry, hcrecursive, -⟩ := exists_of_mem_inlineOnce hsound hc'
  rw [hbentry, hcentry, hcrecursive]
  rcases hfrom _ (hcentry ▸ hcalls) with hcall | ⟨d, hd, hcandidate, hbd, hdc⟩
  · exact h b hb c hc hcall
  · -- through a copy: the code that is copied lies between the two
    have hdb := (h b hb d hd hbd).resolve_left fun hrec => by
      cases hrec.symm.trans (isCandidate_iff.1 hcandidate).1
    exact (h d hd c hc hdc).imp_right fun hcd => Nat.lt_trans hcd hdb

/-- Of the candidates the first one calls no other, and is inlined. -/
theorem Descends.exists_getElem? (h : a.Descends) (hcandidate : ∃ b ∈ a.blocks, isCandidate threshold b = true) :
    ∃ b ∈ a.blocks, (inlineBodies threshold a.blocks)[b.entry]? = some b := by
  obtain ⟨b, hb, hfirst⟩ : ∃ b ∈ a.blocks.filter (isCandidate threshold),
      ∀ c ∈ a.blocks.filter (isCandidate threshold), b.entry ≤ c.entry := by
    obtain ⟨b, hb, hcandidate⟩ := hcandidate
    have hne : (a.blocks.filter (isCandidate threshold)).map Block.entry ≠ [] :=
      List.ne_nil_of_mem (List.mem_map_of_mem (List.mem_filter.2 ⟨hb, hcandidate⟩))
    obtain ⟨b, hb, hmin⟩ := List.mem_map.1 (List.min_mem hne)
    exact ⟨b, hb, fun c hc => hmin ▸ List.min_le_of_mem (List.mem_map_of_mem hc)⟩
  obtain ⟨c, hc⟩ := exists_getElem?_byEntry hb
  obtain ⟨hcmem, hcentry⟩ := mem_of_getElem?_byEntry hc
  refine ⟨c, List.mem_of_mem_filter hcmem, getElem?_inlineBodies.2 ⟨hcentry ▸ hc, fun m hm hcalled => ?_⟩⟩
  rw [Std.TreeMap.mem_iff_isSome_getElem?] at hcalled
  obtain ⟨d, hd⟩ := Option.isSome_iff_exists.1 hcalled
  obtain ⟨hdmem, rfl⟩ := mem_of_getElem?_byEntry hd
  obtain ⟨hdblocks, hdcandidate⟩ := List.mem_filter.1 hdmem
  rcases h c (List.mem_of_mem_filter hcmem) d hdblocks hm with hrec | hlt
  · cases hrec.symm.trans (isCandidate_iff.1 hdcandidate).1
  · exact absurd (hfirst d hdmem) (Nat.not_le.2 (hcentry ▸ hlt))

/-- A round with a candidate drops a subroutine. -/
theorem Descends.exists_dissolves (h : a.Descends) (hsound : a.Sound)
    (hcandidate : ∃ b ∈ a.blocks, isCandidate threshold b = true) :
    ∃ b, isCandidate threshold b = true ∧ a.Dissolves b (a.inlineOnce threshold) := by
  obtain ⟨b, hb, hbody⟩ := h.exists_getElem? hcandidate
  have hdropped := not_mem_entries_inlineOnce hbody
  refine ⟨b, isCandidate_of_getElem? hbody, hb, ⟨_, hbody, inlines_inlineOnce threshold a⟩, hdropped, ?_⟩
  exact fun c hc hcalls => hdropped ((hsound.inlineOnce threshold).calls c hc _ hcalls)

/-- A round with a candidate leaves fewer subroutines. -/
theorem Descends.length_inlineOnce_lt (h : a.Descends) (hcandidate : ∃ b ∈ a.blocks, isCandidate threshold b = true) :
    (a.inlineOnce threshold).blocks.length < a.blocks.length := by
  obtain ⟨b, hb, hbody⟩ := h.exists_getElem? hcandidate
  have hdropped := not_mem_entries_inlineOnce hbody
  have hinlines := inlines_inlineOnce threshold a
  unfold entries at hdropped
  generalize a.inlineOnce threshold = a' at hdropped hinlines
  cases hinlines with
  | @round main main' bs bs' k m k' hmain hbs =>
    have hlength : bs'.length = bs.length := by
      rw [← List.length_map (f := Block.entry), hbs.entries, List.length_map]
    have hentry : b.entry ∈ bs'.map Block.entry := hbs.entries ▸ List.mem_map_of_mem hb
    obtain ⟨c, hc, hcentry⟩ := List.mem_map.1 hentry
    refine Nat.lt_of_lt_of_eq (List.length_filter_lt_length_iff_exists.2 ⟨c, hc, fun hkept => ?_⟩) hlength
    exact hdropped (hcentry ▸ List.mem_map_of_mem (List.mem_filter.2 ⟨hc, hkept⟩))

/-! ### Rounds -/

/-- Nothing is inlined just if there is no candidate. -/
theorem Descends.isEmpty_inlineBodies_iff (h : a.Descends) :
    (inlineBodies threshold a.blocks).isEmpty = true ↔ ∀ b ∈ a.blocks, isCandidate threshold b = false := by
  constructor
  · intro hempty b hb
    refine Bool.eq_false_iff.2 fun hcandidate => ?_
    obtain ⟨c, -, hbody⟩ := h.exists_getElem? ⟨b, hb, hcandidate⟩
    rw [Std.TreeMap.getElem?_of_isEmpty hempty] at hbody
    cases hbody
  · intro hnone
    have hfilter : a.blocks.filter (isCandidate threshold) = [] :=
      List.filter_eq_nil_iff.2 fun b hb => Bool.eq_false_iff.1 (hnone b hb)
    unfold inlineBodies
    rw [hfilter]
    rfl

/-- After as many rounds as there are subroutines no candidate is left. -/
theorem Descends.not_candidate_of_inlineFor (h : a.Descends) (hsound : a.Sound) (hrounds : a.blocks.length ≤ rounds) :
    ∀ b ∈ (a.inlineFor threshold rounds).1.blocks, isCandidate threshold b = false := by
  induction rounds generalizing a with
  | zero =>
    intro b hb
    rw [List.length_eq_zero_iff.1 (Nat.le_zero.1 hrounds : (a.inlineFor threshold 0).1.blocks.length = 0)] at hb
    cases hb
  | succ rounds ih =>
    intro b hb
    unfold inlineFor at hb
    dsimp only at hb
    split at hb
    · rename_i hempty
      exact h.isEmpty_inlineBodies_iff.1 hempty b hb
    · rename_i hsome
      have hcandidate : ∃ c ∈ a.blocks, isCandidate threshold c = true := by
        by_contra hnone
        refine hsome (h.isEmpty_inlineBodies_iff.2 fun c hc => Bool.eq_false_iff.2 fun hcandidate => ?_)
        exact hnone ⟨c, hc, hcandidate⟩
      have hlt := h.length_inlineOnce_lt hcandidate
      exact ih (h.round hsound threshold) (hsound.inlineOnce threshold) (by omega) b hb

theorem Descends.iterate (h : a.Descends) (hsound : a.Sound) (threshold n : Nat) :
    ((inlineOnce threshold)^[n] a).Descends ∧ ((inlineOnce threshold)^[n] a).Sound := by
  induction n with
  | zero => exact ⟨h, hsound⟩
  | succ n ih =>
    rw [Function.iterate_succ_apply']
    exact ⟨ih.1.round ih.2 threshold, ih.2.inlineOnce threshold⟩

/-- Inlining makes some number of rounds. -/
theorem exists_inlineFor_eq (threshold rounds : Nat) (a : Assembly τ) :
    ∃ n ≤ rounds, (a.inlineFor threshold rounds).1 = (inlineOnce threshold)^[n] a := by
  induction rounds generalizing a with
  | zero => exact ⟨0, Nat.le_refl 0, rfl⟩
  | succ rounds ih =>
    unfold inlineFor
    dsimp only
    split
    · exact ⟨0, Nat.zero_le _, rfl⟩
    · obtain ⟨n, hn, heq⟩ := ih (a.inlineOnce threshold)
      exact ⟨n + 1, Nat.succ_le_succ hn, heq⟩

end Assembly

end ParserMachine
