import Mathlib.Data.List.GetD
import Mathlib.Data.List.Perm.Subperm
import ParserMachine.Proofs.Lists
import ParserMachine.SetPool

/-!
# Pools hold what was put into them

A pool is sound if no list repeats an element and every set lies within its list. It represents the lists of the
elements of its sets (`SetPool.Represents`), and each operation of a pool is an operation on these lists: it changes the
set that it is about and no other, whatever lists the sets share.

The reason is that a list is changed at its end only. So what a set holds stays where it is as long as the set itself is
not replaced (`SetPool.Continues`), and of the sets that are new it is enough to know their own lists
(`SetPool.Represents.replace`, `SetPool.Represents.append`).
-/

namespace ParserMachine.SetPool

variable {α : Type} {p q : SetPool α} {ls : List (List α)} {l : List α} {i j : Nat}

/-- No list repeats an element, and every set lies within its list. -/
structure Sound (p : SetPool α) : Prop where
  /-- The elements of a list are different. -/
  nodup : ∀ l ∈ p.lists, l.Nodup
  /-- A set ends where its list ends, or before. -/
  size_le : ∀ s ∈ p.sets, s.size ≤ (p.listAt s.list).length

/-- The sets of a pool have these elements. -/
structure Represents (p : SetPool α) (ls : List (List α)) : Prop extends p.Sound where
  /-- The elements of each set. -/
  elements : p.sets.map p.elements = ls

/-! ### Reading -/

theorem Sound.nodup_items (h : p.Sound) (i : Nat) : (p.items i).Nodup := by
  refine (List.take_sublist _ _).nodup ?_
  unfold listAt
  rw [List.getD_eq_getElem?_getD]
  cases hl : p.lists[(p.setAt i).list]? with
  | none => exact List.nodup_nil
  | some l => exact h.nodup l (List.mem_of_getElem? hl)

theorem setAt_of_le (h : p.sets.length ≤ i) : p.setAt i = ⟨0, 0⟩ := List.getD_eq_default _ _ h

theorem Sound.size_setAt_le (h : p.Sound) (i : Nat) : (p.setAt i).size ≤ (p.listAt (p.setAt i).list).length := by
  rcases Nat.lt_or_ge i p.sets.length with hi | hi
  · rw [setAt, List.getD_eq_getElem _ _ hi]
    exact h.size_le _ (List.getElem_mem hi)
  · rw [setAt_of_le hi]
    exact Nat.zero_le _

theorem Sound.length_items (h : p.Sound) (i : Nat) : (p.items i).length = (p.setAt i).size := by
  unfold items SetPool.elements
  rw [List.length_take]
  exact Nat.min_eq_left (h.size_setAt_le i)

theorem Sound.items_eq_nil_iff (h : p.Sound) : p.items i = [] ↔ (p.setAt i).size = 0 := by
  rw [← List.length_eq_zero_iff, h.length_items]

theorem Represents.items_eq (h : p.Represents ls) (i : Nat) : p.items i = ls.getD i [] := by
  rw [← h.elements]
  exact (List.getD_map p.sets ⟨0, 0⟩ p.elements).symm

theorem Represents.length_eq (h : p.Represents ls) : p.sets.length = ls.length := by
  rw [← h.elements, List.length_map]

/-- Sets that come behind the others do not change these. -/
theorem Represents.items_of_append {q : SetPool α} {l : List (List α)} (h : p.Represents ls)
    (hq : q.Represents (ls ++ l)) {k : Nat} (hk : k < p.sets.length) : q.items k = p.items k := by
  rw [hq.items_eq, List.getD_append _ _ _ _ (h.length_eq ▸ hk), h.items_eq]

theorem Represents.items_new {q : SetPool α} {l : List (List α)} (h : p.Represents ls)
    (hq : q.Represents (ls ++ l)) (k : Nat) : q.items (p.sets.length + k) = l.getD k [] := by
  rw [hq.items_eq, h.length_eq, List.getD_append_right _ _ _ _ (Nat.le_add_right ..), Nat.add_sub_cancel_left]

/-! ### Pools that go on from others -/

/-- Lists are changed at their ends only, and none repeats an element. -/
structure Continues (p q : SetPool α) : Prop where
  /-- The old list is the beginning of the new one. -/
  isPrefix : ∀ n, p.listAt n <+: q.listAt n
  /-- The elements of a list are different. -/
  nodup : ∀ l ∈ q.lists, l.Nodup

theorem Continues.refl (h : p.Sound) (sets : List SharedSet) : p.Continues ⟨p.lists, sets⟩ :=
  ⟨fun _ => List.prefix_rfl, h.nodup⟩

theorem Continues.size_le (h : p.Continues q) {s : SharedSet} (hs : s.size ≤ (p.listAt s.list).length) :
    s.size ≤ (q.listAt s.list).length :=
  Nat.le_trans hs (h.isPrefix s.list).length_le

theorem Continues.elements_eq (h : p.Continues q) {s : SharedSet} (hs : s.size ≤ (p.listAt s.list).length) :
    q.elements s = p.elements s := by
  obtain ⟨extra, hextra⟩ := h.isPrefix s.list
  unfold SetPool.elements
  rw [← hextra, List.take_append_of_le_length hs]

theorem Continues.map_elements (h : p.Continues q) (hp : p.Represents ls) : p.sets.map q.elements = ls := by
  rw [← hp.elements]
  exact List.map_congr_left fun s hs => h.elements_eq (hp.size_le s hs)

/-- A pool in which one set is another one now. -/
theorem Represents.replace (h : p.Represents ls) (hq : p.Continues q) {s : SharedSet}
    (hs : s.size ≤ (q.listAt s.list).length) (hsets : q.sets = p.sets.set i s) :
    q.Represents (ls.set i (q.elements s)) := by
  refine ⟨⟨hq.nodup, fun t ht => ?_⟩, ?_⟩
  · rcases List.mem_or_eq_of_mem_set (hsets ▸ ht) with ht | rfl
    · exact hq.size_le (h.size_le t ht)
    · exact hs
  · rw [hsets, List.map_set, hq.map_elements h]

/-- A pool that has more sets now. -/
theorem Represents.append (h : p.Represents ls) (hq : p.Continues q) {sets : List SharedSet}
    (hs : ∀ s ∈ sets, s.size ≤ (q.listAt s.list).length) (hsets : q.sets = p.sets ++ sets) :
    q.Represents (ls ++ sets.map q.elements) := by
  refine ⟨⟨hq.nodup, fun t ht => ?_⟩, ?_⟩
  · rcases List.mem_append.1 (hsets ▸ ht) with ht | ht
    · exact hq.size_le (h.size_le t ht)
    · exact hs t ht
  · rw [hsets, List.map_append, hq.map_elements h]

/-! ### Making and replacing sets -/

theorem represents_empty : (empty : SetPool α).Represents [] :=
  ⟨⟨List.forall_mem_nil _, List.forall_mem_nil _⟩, rfl⟩

theorem Represents.assign (h : p.Represents ls) (i j : Nat) :
    (p.assign i (p.setAt j)).Represents (ls.set i (ls.getD j [])) := by
  rw [← h.items_eq]
  exact h.replace (.refl h.toSound _) (h.size_setAt_le j) rfl

theorem Represents.copy (h : p.Represents ls) (i : Nat) : (p.copy i).Represents (ls ++ [ls.getD i []]) := by
  rw [← h.items_eq]
  exact h.append (q := p.copy i) (.refl h.toSound _) (List.forall_mem_singleton.2 (h.size_setAt_le i)) rfl

theorem Represents.drop (h : p.Represents ls) (i : Nat) : (p.drop i).Represents (ls.eraseIdx i) := by
  refine ⟨⟨h.nodup, fun t ht => h.size_le t (List.mem_of_mem_eraseIdx ht)⟩, ?_⟩
  rw [← h.elements]
  exact (List.eraseIdx_map ..).symm

section NewList

variable (lists : List (List α)) (l : List α) (sets : List SharedSet)

theorem listAt_length : (⟨lists ++ [l], sets⟩ : SetPool α).listAt lists.length = l := by
  simp [listAt]

theorem continues_append (hp : p.Sound) (hl : l.Nodup) : p.Continues ⟨p.lists ++ [l], sets⟩ := by
  refine ⟨fun n => ?_, fun m hm => ?_⟩
  · rcases Nat.lt_or_ge n p.lists.length with hn | hn
    · have hsame : (⟨p.lists ++ [l], sets⟩ : SetPool α).listAt n = p.listAt n := List.getD_append _ _ _ _ hn
      exact hsame ▸ List.prefix_rfl
    · have hnil : p.listAt n = [] := List.getD_eq_default _ _ hn
      rw [hnil]
      exact List.nil_prefix
  · rcases List.mem_append.1 hm with hm | hm
    · exact hp.nodup m hm
    · exact List.mem_singleton.1 hm ▸ hl

end NewList

/-- Sets on a new list are beginnings of it. -/
theorem Represents.addAll (h : p.Represents ls) (hl : l.Nodup) {sizes : List Nat} (hsizes : ∀ n ∈ sizes, n ≤ l.length) :
    (⟨p.lists ++ [l], p.sets ++ sizes.map (⟨p.lists.length, ·⟩)⟩ : SetPool α).Represents
      (ls ++ sizes.map (l.take ·)) := by
  let new : List SharedSet := sizes.map (⟨p.lists.length, ·⟩)
  have hlist := listAt_length p.lists l (p.sets ++ new)
  have hnew : ∀ s ∈ new, s.size ≤ ((⟨p.lists ++ [l], p.sets ++ new⟩ : SetPool α).listAt s.list).length :=
    List.forall_mem_map.2 fun n hn => hlist.symm ▸ hsizes n hn
  have hrepresents := h.append (continues_append l (p.sets ++ new) h.toSound hl) hnew rfl
  have helements : new.map (⟨p.lists ++ [l], p.sets ++ new⟩ : SetPool α).elements = sizes.map (l.take ·) := by
    rw [List.map_map]
    exact List.map_congr_left fun n _ => congrArg (List.take n) hlist
  exact helements ▸ hrepresents

theorem Represents.add (h : p.Represents ls) (hl : l.Nodup) : (p.add l).Represents (ls ++ [l]) := by
  have hsizes : ∀ n ∈ [l.length], n ≤ l.length := List.forall_mem_singleton.2 (Nat.le_refl _)
  have hadd : (p.add l).Represents (ls ++ [l.take l.length]) := h.addAll hl hsizes
  rwa [List.take_length] at hadd

theorem Represents.move (h : p.Represents ls) (hl : l.Nodup) (i : Nat) : (p.move i l).Represents (ls.set i l) := by
  have hlist : (p.move i l).listAt p.lists.length = l := listAt_length ..
  have hmove := h.replace (q := p.move i l) (s := ⟨p.lists.length, l.length⟩) (continues_append l _ h.toSound hl)
    (Nat.le_of_eq (congrArg List.length hlist.symm)) rfl
  unfold SetPool.elements at hmove
  rwa [hlist, List.take_length] at hmove

theorem setAt_move (hi : i < p.sets.length) (l : List α) : (p.move i l).setAt i = ⟨p.lists.length, l.length⟩ := by
  simp [SetPool.move, setAt, hi]

/-- A set that has moved is the whole of its list. -/
theorem items_move (hi : i < p.sets.length) (l : List α) :
    (p.move i l).items i = l ∧ (p.move i l).listAt ((p.move i l).setAt i).list = l := by
  have hlist : (p.move i l).listAt p.lists.length = l := listAt_length ..
  rw [items, setAt_move hi, SetPool.elements, hlist, List.take_length]
  exact ⟨rfl, rfl⟩

/-! ### Growing -/

section OldList

variable (p : SetPool α) (l : List α) (sets : List SharedSet)

theorem listAt_set {n : Nat} (hn : n < p.lists.length) : (⟨p.lists.set n l, sets⟩ : SetPool α).listAt n = l := by
  simp [listAt, hn]

theorem continues_set {extra : List α} (hp : p.Sound) {n : Nat} (hn : n < p.lists.length)
    (hnodup : (p.listAt n ++ extra).Nodup) : p.Continues ⟨p.lists.set n (p.listAt n ++ extra), sets⟩ := by
  refine ⟨fun m => ?_, fun m hm => ?_⟩
  · by_cases hm : m = n
    · rw [hm, listAt_set p _ _ hn]
      exact List.prefix_append ..
    · have hsame : (⟨p.lists.set n (p.listAt n ++ extra), sets⟩ : SetPool α).listAt m = p.listAt m := by
        simp [listAt, List.getElem?_set_ne (Ne.symm hm)]
      exact hsame ▸ List.prefix_rfl
  · rcases List.mem_or_eq_of_mem_set hm with hm | rfl
    · exact hp.nodup m hm
    · exact hnodup

end OldList

/-- A set that is the whole of its list grows at the end. -/
theorem Represents.grow (h : p.Represents ls) {extra : List α} (hlist : (p.setAt i).list < p.lists.length)
    (hwhole : p.listAt (p.setAt i).list = p.items i) (hnodup : (p.items i ++ extra).Nodup) :
    (p.grow i extra).Represents (ls.set i (p.items i ++ extra)) := by
  rw [← hwhole] at hnodup ⊢
  unfold SetPool.grow
  dsimp only
  split
  · exact h.move hnodup i
  · have hself := listAt_set p (p.listAt (p.setAt i).list ++ extra)
      (p.sets.set i ⟨(p.setAt i).list, (p.listAt (p.setAt i).list ++ extra).length⟩) hlist
    have hsize := Nat.le_of_eq (congrArg List.length hself.symm)
    have hgrow := h.replace (continues_set p _ h.toSound hlist hnodup)
      (s := ⟨(p.setAt i).list, (p.listAt (p.setAt i).list ++ extra).length⟩) hsize rfl
    unfold SetPool.elements at hgrow
    rwa [hself, List.take_length] at hgrow

variable [DecidableEq α]

/-- The elements of a set are added to another one. -/
theorem Represents.extend (h : p.Represents ls) (i j : Nat) :
    (p.extend i j).Represents (ls.set i (ls.getD i [] ++ (ls.getD j []).filter (· ∉ ls.getD i []))) := by
  rw [← h.items_eq, ← h.items_eq]
  -- where nothing is missing, the set stays as it is
  have hunchanged (hmissing : (p.items j).filter (· ∉ p.items i) = []) :
      p.Represents (ls.set i (p.items i ++ (p.items j).filter (· ∉ p.items i))) := by
    rw [hmissing, List.append_nil, h.items_eq, List.getD_eq_getElem?_getD]
    rcases Nat.lt_or_ge i ls.length with hi | hi
    · simpa [hi] using h
    · rwa [List.set_eq_of_length_le hi]
  unfold SetPool.extend
  dsimp only
  split
  · rename_i hcovered
    refine hunchanged (List.filter_eq_nil_iff.2 fun a ha => ?_)
    rcases hcovered with hempty | ⟨hlist, hsize⟩
    · rw [h.items_eq_nil_iff.2 hempty] at ha
      cases ha
    · have hsubset : p.items j ⊆ p.items i := by
        unfold items SetPool.elements
        rw [hlist]
        exact List.take_subset_take_left _ hsize
      simpa using hsubset ha
  · split
    · rename_i hempty
      rw [h.items_eq_nil_iff.2 hempty, h.items_eq]
      simpa using h.assign i j
    · rename_i hne
      have hi : i < p.sets.length := by
        by_contra hi
        exact hne (congrArg SharedSet.size (setAt_of_le (Nat.le_of_not_lt hi)))
      have hlist : (p.setAt i).list < p.lists.length := by
        by_contra hlist
        have hsize := h.size_setAt_le i
        rw [listAt, List.getD_eq_default _ _ (Nat.le_of_not_lt hlist)] at hsize
        exact hne (Nat.le_zero.1 hsize)
      have hnodup : (p.items i ++ (p.items j).filter (· ∉ p.items i)).Nodup := by
        refine List.nodup_append.2 ⟨h.nodup_items i, (h.nodup_items j).filter _, fun a ha b hb hab => ?_⟩
        exact of_decide_eq_true (List.mem_filter.1 hb).2 (hab ▸ ha)
      split
      · rename_i hmissing
        exact hunchanged hmissing
      · split
        · -- the set moves to a list of its own, of which it is the whole
          obtain ⟨hitems, hwhole⟩ := items_move hi (p.items i)
          have hlast : ((p.move i (p.items i)).setAt i).list < (p.move i (p.items i)).lists.length := by
            rw [setAt_move hi]
            simp [SetPool.move]
          have hgrow := (h.move (h.nodup_items i) i).grow hlast (hwhole.trans hitems.symm) (hitems.symm ▸ hnodup)
          rwa [hitems, List.set_set] at hgrow
        · rename_i hwhole
          exact h.grow hlist (List.take_of_length_le (Nat.le_of_not_lt hwhole)).symm hnodup

/-- The union of two sets comes after all sets. -/
theorem Represents.union (h : p.Represents ls) (i j : Nat) :
    (p.union i j).Represents (ls ++ [ls.getD i [] ++ (ls.getD j []).filter (· ∉ ls.getD i [])]) := by
  have hlength := h.length_eq.symm
  have hextend := (h.copy i).extend p.sets.length j
  have hlast : (ls ++ [ls.getD i []]).getD p.sets.length [] = ls.getD i [] := by
    rw [← hlength]
    simp
  rw [hlast, ← hlength, List.set_append_right _ _ (Nat.le_refl _), Nat.sub_self, List.set_cons_zero] at hextend
  have hother : ((ls ++ [ls.getD i []]).getD j []).filter (· ∉ ls.getD i []) =
      (ls.getD j []).filter (· ∉ ls.getD i []) := by
    rcases Nat.lt_trichotomy j ls.length with hj | rfl | hj
    · rw [List.getD_append _ _ _ _ hj]
    · -- the position of the copy itself named no set before
      rw [List.getD_eq_default ls [] (Nat.le_refl _)]
      simp
    · have hbeyond : (ls ++ [ls.getD i []]).length ≤ j := by simpa [Nat.succ_le_iff] using hj
      rw [List.getD_eq_default _ _ hbeyond, List.getD_eq_default ls [] (Nat.le_of_lt hj)]
  rw [← hother]
  unfold SetPool.union
  rwa [← hlength]

/-! ### Running unions -/

theorem mem_appendNew {l as : List α} {x : α} : x ∈ appendNew l as ↔ x ∈ l ∨ x ∈ as := by
  induction as generalizing l with
  | nil => simp [appendNew]
  | cons a as ih =>
    show x ∈ appendNew (if a ∈ l then l else l ++ [a]) as ↔ _
    rw [ih]
    split
    · rename_i ha
      constructor
      · exact Or.imp_right (List.mem_cons_of_mem a)
      · rintro (hx | hx)
        · exact .inl hx
        · rcases List.mem_cons.1 hx with rfl | hx
          · exact .inl ha
          · exact .inr hx
    · simp [or_assoc]

theorem nodup_appendNew {l as : List α} (h : l.Nodup) : (appendNew l as).Nodup := by
  induction as generalizing l with
  | nil => exact h
  | cons a as ih =>
    show (appendNew (if a ∈ l then l else l ++ [a]) as).Nodup
    split
    · exact ih h
    · rename_i ha
      exact ih (List.nodup_append.2 ⟨h, by simp, fun b hb c hc hbc =>
        ha (List.mem_singleton.1 hc ▸ hbc ▸ hb)⟩)

theorem prefix_appendNew (l as : List α) : l <+: appendNew l as := by
  induction as generalizing l with
  | nil => exact List.prefix_rfl
  | cons a as ih =>
    show l <+: appendNew (if a ∈ l then l else l ++ [a]) as
    split
    · exact ih l
    · exact (List.prefix_append l [a]).trans (ih _)

/-- The lists that come about when one list after another is appended. -/
def appendsFrom (all : List α) : List (List α) → List (List α)
  | [] => [all]
  | l :: rest => all :: appendsFrom (appendNew all l) rest

theorem nodup_gather {all : List α} (h : all.Nodup) (ls : List (List α)) : (gather all ls).1.Nodup := by
  induction ls generalizing all with
  | nil => exact h
  | cons l ls ih => exact ih (nodup_appendNew h)

theorem prefix_gather (all : List α) (ls : List (List α)) : all <+: (gather all ls).1 := by
  induction ls generalizing all with
  | nil => exact List.prefix_rfl
  | cons l ls ih => exact (prefix_appendNew all l).trans (ih _)

/-- Each list that comes about is a beginning of the last one, cut where the sizes say. -/
theorem map_take_gather (all : List α) (ls : List (List α)) :
    (gather all ls).2.map ((gather all ls).1.take ·) = appendsFrom all ls := by
  induction ls generalizing all with
  | nil => exact congrArg (List.cons · []) (List.take_length ..)
  | cons l ls ih =>
    exact congrArg₂ List.cons (List.prefix_iff_eq_take.1 (prefix_gather all (l :: ls))).symm (ih _)

theorem le_of_mem_gather {all : List α} {ls : List (List α)} {n : Nat} (h : n ∈ (gather all ls).2) :
    n ≤ (gather all ls).1.length := by
  induction ls generalizing all with
  | nil => exact Nat.le_of_eq (List.mem_singleton.1 h)
  | cons l ls ih =>
    rcases List.mem_cons.1 h with rfl | h
    · exact (prefix_gather all (l :: ls)).length_le
    · exact ih h

/-- The running unions come after all sets. -/
theorem Represents.prefixUnions (h : p.Represents ls) (is : List Nat) :
    (p.prefixUnions is).Represents (ls ++ appendsFrom [] (is.map (ls.getD · []))) := by
  have hitems : is.map p.items = is.map (ls.getD · []) := List.map_congr_left fun i _ => h.items_eq i
  rw [← hitems, ← map_take_gather]
  exact h.addAll (nodup_gather List.nodup_nil _) fun n => le_of_mem_gather

theorem length_gather (all : List α) (ls : List (List α)) : (gather all ls).2.length = ls.length + 1 := by
  induction ls generalizing all with
  | nil => rfl
  | cons l ls ih => exact congrArg (· + 1) (ih _)

theorem mem_getD_appendsFrom {all : List α} {k : Nat} (hk : k ≤ ls.length) {x : α} :
    x ∈ (appendsFrom all ls).getD k [] ↔ x ∈ all ∨ ∃ l ∈ ls.take k, x ∈ l := by
  induction ls generalizing all k with
  | nil =>
    obtain rfl : k = 0 := Nat.le_zero.1 hk
    simp [appendsFrom]
  | cons l ls ih =>
    cases k with
    | zero => simp [appendsFrom]
    | succ k =>
      show x ∈ (appendsFrom (appendNew all l) ls).getD k [] ↔ _
      rw [ih (Nat.le_of_succ_le_succ hk), mem_appendNew, List.take_succ_cons, List.exists_mem_cons_iff, or_assoc]

/-! ### What an operation does to one set and to the others -/

theorem Represents.mem_items_extend (h : p.Represents ls) (i j : Nat) (hi : i < p.sets.length) (x : α) :
    x ∈ (p.extend i j).items i ↔ x ∈ p.items i ∨ x ∈ p.items j := by
  have hitems : (p.extend i j).items i = ls.getD i [] ++ (ls.getD j []).filter (· ∉ ls.getD i []) := by
    rw [(h.extend i j).items_eq, List.getD_eq_getElem?_getD, List.getElem?_set_self (h.length_eq ▸ hi),
      Option.getD_some]
  rw [hitems, mem_append_filter_not_mem, h.items_eq, h.items_eq]

theorem Represents.items_extend (h : p.Represents ls) (i j k : Nat) (hk : k ≠ i) :
    (p.extend i j).items k = p.items k := by
  rw [(h.extend i j).items_eq, List.getD_eq_getElem?_getD, List.getElem?_set_ne hk.symm,
    ← List.getD_eq_getElem?_getD, h.items_eq]

theorem Represents.mem_items_union (h : p.Represents ls) (i j : Nat) (x : α) :
    x ∈ (p.union i j).items p.sets.length ↔ x ∈ p.items i ∨ x ∈ p.items j := by
  have hitems := h.items_new (h.union i j) 0
  rw [Nat.add_zero, List.getD_cons_zero] at hitems
  rw [hitems, mem_append_filter_not_mem, h.items_eq, h.items_eq]

theorem Represents.items_union (h : p.Represents ls) (i j k : Nat) (hk : k < p.sets.length) :
    (p.union i j).items k = p.items k :=
  h.items_of_append (h.union i j) hk

theorem list_setAt_prefixUnions (is : List Nat) (k : Nat) (hk : k ≤ is.length) :
    ((p.prefixUnions is).setAt (p.sets.length + k)).list = p.lists.length := by
  unfold SetPool.prefixUnions setAt
  have hk' : k < ((gather [] (is.map p.items)).2.map fun n => (⟨p.lists.length, n⟩ : SharedSet)).length := by
    rw [List.length_map, length_gather, List.length_map]
    exact Nat.lt_succ_of_le hk
  dsimp only
  rw [List.getD_append_right _ _ _ _ (Nat.le_add_right ..), Nat.add_sub_cancel_left, List.getD_eq_getElem _ _ hk',
    List.getElem_map]

theorem Represents.mem_items_prefixUnions (h : p.Represents ls) (is : List Nat) (k : Nat) (hk : k ≤ is.length) (x : α) :
    x ∈ (p.prefixUnions is).items (p.sets.length + k) ↔ ∃ i ∈ is.take k, x ∈ p.items i := by
  have hk' : k ≤ (is.map (ls.getD · [])).length := by rwa [List.length_map]
  rw [h.items_new (h.prefixUnions is), mem_getD_appendsFrom hk', ← List.map_take]
  simp only [List.not_mem_nil, false_or, List.mem_map, exists_exists_and_eq_and, h.items_eq]

theorem Represents.items_prefixUnions (h : p.Represents ls) (is : List Nat) (k : Nat) (hk : k < p.sets.length) :
    (p.prefixUnions is).items k = p.items k :=
  h.items_of_append (h.prefixUnions is) hk

/-! ### Comparing -/

/-- Two sets of a pool are found equal if they have the same elements. Comparing lengths is enough, since no element
occurs twice. -/
theorem Sound.same_iff (h : p.Sound) (i j : Nat) : p.same i j = true ↔ ∀ x, x ∈ p.items i ↔ x ∈ p.items j := by
  unfold same
  simp only [Bool.or_eq_true, Bool.and_eq_true, decide_eq_true_eq, List.all_eq_true]
  constructor
  · rintro (⟨hlist, hsize⟩ | ⟨hsize, hall⟩) x
    · unfold items SetPool.elements
      rw [hlist, hsize]
    · have hlength : (p.items j).length ≤ (p.items i).length := by
        rw [h.length_items, h.length_items]
        exact Nat.le_of_eq hsize.symm
      exact ((h.nodup_items i).subperm hall).perm_of_length_le hlength |>.mem_iff
  · intro hmem
    have hperm : (p.items i).Perm (p.items j) :=
      (List.perm_ext_iff_of_nodup (h.nodup_items i) (h.nodup_items j)).2 hmem
    have hsize := hperm.length_eq
    rw [h.length_items, h.length_items] at hsize
    exact .inr ⟨hsize, fun x => (hmem x).1⟩

theorem Sound.equivalence_same (h : p.Sound) : Equivalence fun i j => p.same i j = true := by
  simp only [h.same_iff]
  exact ⟨fun _ _ => Iff.rfl, fun h x => (h x).symm, fun h h' x => (h x).trans (h' x)⟩

end ParserMachine.SetPool
