import ParserMachine.Proofs.Compiling.Flows
import ParserMachine.Proofs.Compiling.Reports
import ParserMachine.Proofs.Machine.Keeping

/-!
# Reports that tell the truth

An error lies in the input or at its end, and what it has found is there (`ParseError.Truthful`): the tokens stand in
the input from its offset on, and the end of the input is found at the end only. Merging keeps this, because the item
that is kept stems from one of two errors at one offset, and so does every instruction that does not amend errors
(`State.Errors.truthful_exec`). So the errors that a parse reports tell the truth, and those that it captures
(`Grammar.reports_truthful`).
-/

namespace ParserMachine

variable {τ : Type} [Token τ]

open ParseError

/-! ### Items and errors -/

/-- The item can be found at the offset of the input. -/
def ErrorItem.FoundAt (input : List τ) (offset : Nat) : ErrorItem τ → Prop
  | tokens ts => ts ≠ [] ∧ (input.drop offset).take ts.length = ts
  | endOfInput => offset = input.length
  | label _ => True

/-- What the error says of the input is true. -/
structure ParseError.Truthful (input : List τ) (e : ParseError τ) : Prop where
  /-- It lies in the input or at its end. -/
  offset_le : e.offset ≤ input.length
  /-- What it has found is there. -/
  found : ∀ item ∈ e.unexpected?, item.FoundAt input e.offset

namespace ParseError

variable {input : List τ} {a b e : ParseError τ}

/-- An error that has found nothing. -/
theorem Truthful.of_none {offset : Nat} (h : offset ≤ input.length) (expected : ExpectedSet τ) :
    (ParseError.trivial offset none expected).Truthful input := ⟨h, nofun⟩

theorem Truthful.raise {offset : Nat} (h : offset ≤ input.length) (f : Failure) :
    (f.raise offset : ParseError τ).Truthful input := by
  cases f with
  | message | custom => exact ⟨h, nofun⟩
  | unexpected name =>
    refine ⟨h, ?_⟩
    rintro item ⟨⟩
    trivial

theorem Truthful.withExpected (h : e.Truthful input) (expected : ExpectedSet τ) :
    (e.withExpected expected).Truthful input := by
  cases e <;> exact ⟨h.offset_le, h.found⟩

theorem Truthful.mergeSameOffset (ha : a.Truthful input) (hb : b.Truthful input) (hoffset : a.offset = b.offset) :
    (a.mergeSameOffset b).Truthful input := by
  cases a with
  | fancy o ds =>
    cases b with
    | fancy => exact ⟨ha.offset_le, nofun⟩
    | trivial => exact ha
  | trivial o u e =>
    cases b with
    | fancy => exact hb
    | trivial o' u' e' =>
      obtain rfl : o = o' := hoffset
      refine ⟨ha.offset_le, fun item hitem => ?_⟩
      cases u with
      | none => exact hb.found item hitem
      | some x =>
        cases u' with
        | none => exact ha.found item hitem
        | some y =>
          obtain rfl : x.moreSpecific y = item := Option.some.inj hitem
          rcases ErrorItem.moreSpecific_eq_or x y with h | h <;> rw [h]
          · exact ha.found x rfl
          · exact hb.found y rfl

theorem Truthful.merge (ha : a.Truthful input) (hb : b.Truthful input) : (a.merge b).Truthful input := by
  rcases Nat.lt_trichotomy a.offset b.offset with hlt | heq | hgt
  · rwa [merge_of_lt hlt]
  · rw [merge_of_eq heq]
    exact ha.mergeSameOffset hb heq
  · rwa [merge_of_gt hgt]

end ParseError

/-! ### What the machine says -/

namespace State

variable {s : State τ}

theorem Ordered.offset_le_length (h : s.Ordered) : s.offset ≤ s.input.toList.length := by
  rw [Array.length_toList]
  exact h.offset_le

theorem foundAt_here (h : s.offset ≤ s.input.size) : s.here.FoundAt s.input.toList s.offset := by
  unfold here current?
  cases ht : s.input[s.offset]? with
  | none => exact Nat.le_antisymm h (Array.getElem?_eq_none_iff.1 ht)
  | some t =>
    refine ⟨nofun, ?_⟩
    rw [← Array.getElem?_toList] at ht
    obtain ⟨hlt, rfl⟩ := List.getElem?_eq_some_iff.1 ht
    rw [List.drop_eq_getElem_cons hlt]
    rfl

theorem truthful_errorHere (h : s.offset ≤ s.input.size) (expected : ExpectedSet τ) :
    (s.errorHere expected).Truthful s.input.toList := by
  refine ⟨Nat.le_trans h (Nat.le_of_eq s.input.length_toList.symm), ?_⟩
  rintro item ⟨⟩
  exact foundAt_here h

omit [Token τ] in
/-- A span of the input that is not empty stands where it begins. -/
theorem foundAt_extract {input : Array τ} {i j : Nat} (hij : i < j) (hj : j ≤ input.size) :
    (ErrorItem.tokens (input.extract i j).toList).FoundAt input.toList i := by
  have hspan : (input.extract i j).toList = (input.toList.drop i).take (j - i) := by
    rw [Array.toList_extract, List.extract_eq_take_drop]
  have hlength : ((input.toList.drop i).take (j - i)).length = j - i := by
    rw [List.length_take, List.length_drop, Array.length_toList]
    omega
  refine ⟨fun hnil => ?_, ?_⟩
  · rw [hspan] at hnil
    rw [hnil, List.length_nil] at hlength
    omega
  · rw [hspan, hlength]

theorem truthful_missed (h : s.Ordered) {accept : τ → Bool} {expected : ExpectedSet τ} :
    ∀ e ∈ s.missed accept expected, e.Truthful s.input.toList := by
  unfold missed
  intro e he
  split at he
  · split at he <;> cases he
    exact truthful_errorHere h.offset_le expected
  · split at he <;> cases he
    exact truthful_errorHere h.offset_le expected

/-- The errors that are raised tell the truth. -/
theorem truthful_raised (h : s.Ordered) (i : Instr τ Nat) : ∀ e ∈ s.raised i, e.Truthful s.input.toList := by
  intro e he
  cases i with
  | single | satisfy => exact truthful_missed h e he
  | literal ts v expected out =>
    dsimp only [raised] at he
    split at he <;> cases he
    exact truthful_errorHere (s := { s with offset := _ }) (add_matchLength_le_size s.input ts h.offset_le) expected
  | eof expected | expect expected =>
    dsimp only [raised] at he
    split at he <;> cases he
    exact truthful_errorHere h.offset_le expected
  | fail f =>
    cases he
    exact .raise h.offset_le_length f
  | empty =>
    cases he
    exact .of_none h.offset_le_length .empty
  | dispatch table ts before all fallback =>
    dsimp only [raised] at he
    split at he <;> cases he
    exact truthful_errorHere h.offset_le all
  | negFail =>
    dsimp only [raised] at he
    split at he
    · cases he
    · rename_i c rest hpop
      split at he <;> cases he
      have hc : c.offset ≤ s.offset := (h.of_pop? hpop).checks_le c (List.mem_cons_self ..)
      refine ⟨Nat.le_trans hc h.offset_le_length, ?_⟩
      rintro item ⟨⟩
      split
      · rename_i hlt
        exact foundAt_extract hlt h.offset_le
      · rename_i hnlt
        rw [Nat.le_antisymm hc (Nat.not_lt.1 hnlt)]
        exact foundAt_here h.offset_le
  | _ => cases he

/-- The expectations that are recorded tell the truth. -/
theorem truthful_recorded (h : s.Ordered) (i : Instr τ Nat) : ∀ e ∈ s.recorded i, e.Truthful s.input.toList := by
  intro e he
  cases i with
  | satisfyMany test expected pushes =>
    dsimp only [recorded] at he
    split at he <;> cases he
    exact truthful_errorHere (s := { s with offset := _ }) (spanEnd_le_size test s.input h.offset_le) expected
  | hint expected =>
    cases he
    exact .of_none h.offset_le_length expected
  | dispatch table ts before all fallback =>
    dsimp only [recorded] at he
    split at he
    · cases he
    · split at he
      · split at he
        · split at he <;> cases he
          exact truthful_errorHere h.offset_le _
        · cases he
      · split at he <;> cases he
        exact truthful_errorHere h.offset_le all
  | _ => cases he

namespace Errors

variable {E H : ParseError τ → Prop}

/-- Where no error is in flight, the one that is made up for it lies at the cursor. -/
theorem inFlight (h : s.Errors E H) (hnone : E (.unknown s.offset)) : E s.inFlight := by
  unfold State.inFlight
  cases herror : s.error with
  | none => exact hnone
  | some e => exact h.flying e herror

/-- Unless a guard amends an error, all errors go on to tell the truth. -/
theorem truthful_exec (h : s.Errors (Truthful s.input.toList) (Truthful s.input.toList)) (hs : s.Ordered) (size : Nat)
    {i : Instr τ Nat} (hguard : ∀ mode pushes, i = .guardErr mode pushes → mode = .capture) :
    (s.exec size i).Errors (Truthful s.input.toList) (Truthful s.input.toList) := by
  have hflying : s.inFlight.Truthful s.input.toList := h.inFlight (.of_none hs.offset_le_length .empty)
  refine h.exec (fun _ _ => .merge) size i (truthful_raised hs i) (truthful_recorded hs i) (fun e he => ?_)
    (fun _ _ _ c hc l => ?_) (fun _ _ => ⟨hflying, hflying.withExpected⟩) hguard
  · have : e = s.inFlight := by
      cases i with
      | recover | manyDone =>
        dsimp only [survived] at he
        split at he
        · cases he
        · split at he <;> cases he
          rfl
      | _ => cases he
    exact this ▸ hflying
  · exact .of_none (Nat.le_trans (hs.checks_le c hc) hs.offset_le_length) _

end Errors

/-- What a guard captures is the error in flight, with the cursor back at the check. -/
theorem data_of_capture {c : Check τ} {rest : Stack (Check τ)} (hpop : s.checks.pop? = some (c, rest)) (size : Nat) :
    (s.exec size (.guardErr .capture true)).data = s.data.push (.err (State.inFlight { s with offset := c.offset })) := by
  rw [State.exec, State.guardErr, State.withCheck, hpop]
  rfl

/-- A guard captures nothing else. -/
theorem captured_of_data {size : Nat} {pushes : Bool} {e : ParseError τ}
    (h : (s.exec size (.guardErr .capture pushes)).data = s.data.push (.err e)) :
    ∃ c rest, s.checks.pop? = some (c, rest) ∧ e = State.inFlight { s with offset := c.offset } := by
  have hgrows (h : s.data = s.data.push (.err e)) : False :=
    List.cons_ne_self _ _ (congrArg Stack.toList h).symm
  rw [State.exec, State.guardErr, State.withCheck] at h
  split at h
  · exact (hgrows h).elim
  · rename_i c rest hpop
    cases pushes with
    | true =>
      have htop := congrArg (fun data => data.toList.head?) h
      cases htop
      exact ⟨c, rest, hpop, rfl⟩
    | false => exact (hgrows h).elim

/-- What a guard captures tells the truth. -/
theorem Errors.truthful_captured (h : s.Errors (Truthful s.input.toList) (Truthful s.input.toList)) (hs : s.Ordered)
    {size : Nat} {pushes : Bool} {e : ParseError τ}
    (hdata : (s.exec size (.guardErr .capture pushes)).data = s.data.push (.err e)) :
    e.Truthful s.input.toList := by
  obtain ⟨c, rest, hpop, rfl⟩ := captured_of_data hdata
  have hback : State.Errors (Truthful s.input.toList) (Truthful s.input.toList) { s with offset := c.offset } :=
    ⟨h.flying, h.hinted, h.saved⟩
  have hordered : State.Ordered { s with offset := c.offset, checks := rest } := (hs.of_pop? hpop).back
  exact hback.inFlight (.of_none hordered.offset_le_length .empty)

end State

/-! ### Runs that tell the truth -/

variable {bad : Unary τ → Prop} {into : Nat → Flow → Prop} {p : Program τ}

/-- Without forms that amend errors no guard does. -/
theorem Instr.Passes.guardErr_capture {ι : Type} {via : ι → Flow → Prop} {f f' : Flow} {i : Instr τ ι}
    (h : i.Passes bad via f f') (hbad : ∀ u, Unary.Amends u → bad u) :
    ∀ mode pushes, i = .guardErr mode pushes → mode = .capture := by
  rintro mode pushes rfl
  cases h with
  | steady hi => cases hi
  | failing hi => cases hi
  | guardErr hgood =>
    cases mode with
    | capture => rfl
    | amend f => exact absurd (hbad (.guard (.amend f)) .intro) hgood
    | merge other => exact absurd (hbad (.guard (.merge other)) .intro) hgood

/-- The state of a run on the input whose errors tell the truth. -/
structure State.TellsTruth (p : Program τ) (into : Nat → Flow → Prop) (input : List τ) (s : State τ) : Prop where
  /-- The places that are remembered are in order. -/
  ordered : s.Ordered
  /-- Control has come by a flow. -/
  stands : ∃ m, s.Stands p into (Unary.Keeps Unary.Amends m)
  /-- The buffer holds the input. -/
  buffer : s.input.toList = input
  /-- The errors of the state tell the truth. -/
  errors : s.Errors (Truthful input) (Truthful input)

namespace Program

theorem FlowsBy.tellsTruth_start (hflows : p.FlowsBy Unary.Amends into) (input : List τ) :
    (wholeStart input).TellsTruth p into input :=
  ⟨.start input.toArray false, ⟨none, hflows.begins input⟩, rfl, nofun, nofun, fun _ hc => nomatch hc⟩

theorem FlowsBy.tellsTruth_step (hflows : p.FlowsBy Unary.Amends into) {input : List τ} {s s' : State τ}
    (h : s.TellsTruth p into input) (hstep : p.step? s = some s') : s'.TellsTruth p into input := by
  obtain ⟨hrunning, i, hi, rfl⟩ := step?_eq_some_iff.1 hstep
  obtain ⟨hordered, ⟨m, hstands⟩, rfl, herrors⟩ := h
  have hguard : ∀ mode pushes, i = .guardErr mode pushes → mode = .capture := by
    rcases hstands.running hrunning with hnone | ⟨f, hinto, -, -⟩
    · rw [hi] at hnone
      cases hnone
    · rcases hflows.next hinto hi with ⟨rfl, -⟩ | ⟨-, f', hpasses, -⟩
      · nofun
      · exact hpasses.guardErr_capture fun _ => id
  exact ⟨hordered.exec p.size i, ⟨_, hflows.step (fun _ => id) hordered hstands hrunning hi⟩,
    congrArg Array.toList (State.sameBuffer_exec p.size s i).1, herrors.truthful_exec hordered p.size hguard⟩

theorem FlowsBy.tellsTruth_of_leads (hflows : p.FlowsBy Unary.Amends into) {input : List τ} {n : Nat} {s : State τ}
    (h : Leads p.step? n (wholeStart input) s) : s.TellsTruth p into input :=
  h.preserves (fun _ _ => hflows.tellsTruth_step) (hflows.tellsTruth_start input)

end Program

theorem Unary.foreign_amends : Unary.Foreign (Unary.Amends : Unary τ → Prop) := ⟨fun _ => id, id, False.elim⟩

/-- Reports tell the truth. Where no form amends errors, a parse that fails reports an error that does not lie behind
the rest of the input and of which all is true, and so is what a guard captures in the course of any parse. -/
theorem Grammar.reports_truthful {g : Grammar τ} (hamends : g.Without Unary.Amends) {o : Options} {root : NodeId}
    {p : Program τ} (hcompile : g.compile o root = .ok p) (input : List τ) :
    (∀ n e rest, p.parse n input = some (.failed e rest) →
      input.length - rest.length ≤ e.offset ∧ e.Truthful input) ∧
    ∀ n s s' pushes e, Leads p.step? n (Program.wholeStart input) s →
      p.code[s.pc]? = some (.guardErr .capture pushes) → p.step? s = some s' →
      s'.data = s.data.push (.err e) → e.Truthful input := by
  obtain ⟨into, hflows⟩ := hamends.exists_flows Unary.foreign_amends hcompile
  refine ⟨fun n e rest hparse => ?_, fun n s s' pushes e hleads hi hstep hdata => ?_⟩
  · obtain ⟨-, t, hrun, hreport, hle, hrest⟩ := hflows.reports (fun _ => id) hparse
    obtain ⟨m, hleads⟩ := Program.exists_leads_of_run hrun
    have htruth := hflows.tellsTruth_of_leads hleads
    refine ⟨?_, forall_mem_mergeOpt (fun _ _ => .merge) htruth.errors.hinted htruth.errors.flying e hreport⟩
    rw [hrest, List.length_drop]
    omega
  · have htruth := hflows.tellsTruth_of_leads hleads
    obtain ⟨-, i, hi', rfl⟩ := Program.step?_eq_some_iff.1 hstep
    obtain rfl := Option.some.inj (hi.symm.trans hi')
    obtain ⟨hordered, -, rfl, herrors⟩ := htruth
    exact herrors.truthful_captured hordered hdata

/-- Whether the instruction captures an error as a value. -/
def Instr.isCapture {ι : Type} : Instr τ ι → Bool
  | guardErr .capture true => true
  | _ => false

theorem Instr.eq_of_isCapture {ι : Type} {i : Instr τ ι} (h : i.isCapture = true) : i = .guardErr .capture true := by
  cases i with
  | guardErr mode pushes =>
    cases mode with
    | capture =>
      cases pushes with
      | true => rfl
      | false => cases h
    | amend | merge => cases h
  | _ => cases h

/-- A token whose absence is captured, and then one that must be there. -/
def Grammar.forgiving : Grammar Char where
  nodes := #[.leaf (.single 'c' (ExpectedSet.tokens ['c'])), .unary (.guard .capture) 0,
    .leaf (.single 'a' (ExpectedSet.tokens ['a'])), .binary (.seq .left) 1 2]

theorem Grammar.reports_truthful_forgiving :
    ∃ p e rest, forgiving.compile .unoptimized 3 = .ok p ∧ p.parse 100 ['x'] = some (.failed e rest) ∧
      ['x'].length - rest.length ≤ e.offset ∧ e.Truthful ['x'] ∧
      ∃ s s' e', Leads p.step? 2 (Program.wholeStart ['x']) s ∧ p.step? s = some s' ∧
        s'.data = s.data.push (.err e') ∧ e'.Truthful ['x'] := by
  have hamends : forgiving.Without Unary.Amends := without_of_forall (by simp [forgiving, Unary.Amends])
  have hok : (forgiving.compile .unoptimized 3).toOption.isSome = true := by decide +kernel
  have hfails : ((forgiving.compile .unoptimized 3).toOption.bind fun p => (p.parse 100 ['x']).bind
      Outcome.error?).isSome = true := by decide +kernel
  have hcaptures : ((forgiving.compile .unoptimized 3).toOption.bind fun p =>
      (stepsFor p.step? 2 (Program.wholeStart ['x'])).map fun s =>
        decide (s.status = .running) && s.checks.pop?.isSome && p.code[s.pc]?.any Instr.isCapture) = some true := by
    decide +kernel
  obtain ⟨p, hp⟩ := Option.isSome_iff_exists.1 hok
  rw [hp, Option.bind_some] at hfails hcaptures
  obtain ⟨e, hfails⟩ := Option.isSome_iff_exists.1 hfails
  obtain ⟨r, hr, he⟩ := Option.bind_eq_some_iff.1 hfails
  obtain ⟨rest, rfl⟩ := Outcome.eq_failed_of_error? he
  obtain ⟨hreport, hcaptured⟩ := reports_truthful hamends (eq_ok_of_toOption hp) ['x']
  obtain ⟨hle, htruth⟩ := hreport 100 e rest hr
  refine ⟨p, e, rest, eq_ok_of_toOption hp, hr, hle, htruth, ?_⟩
  obtain ⟨s, hs, hguard⟩ := Option.map_eq_some_iff.1 hcaptures
  simp only [Bool.and_eq_true, decide_eq_true_eq] at hguard
  obtain ⟨⟨hrunning, hcheck⟩, hguard⟩ := hguard
  obtain ⟨⟨c, checks⟩, hpop⟩ := Option.isSome_iff_exists.1 hcheck
  cases hi : p.code[s.pc]? with
  | none =>
    rw [hi] at hguard
    cases hguard
  | some i =>
    rw [hi] at hguard
    obtain rfl := Instr.eq_of_isCapture hguard
    have hstep := Program.step?_of_code hrunning hi
    have hdata := State.data_of_capture hpop p.size
    exact ⟨s, _, _, hs, hstep, hdata, hcaptured 2 s _ true _ hs hi hstep hdata⟩

end ParserMachine
