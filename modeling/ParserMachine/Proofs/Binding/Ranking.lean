import Mathlib.Data.List.Chain
import ParserMachine.Proofs.Binding.Calling

/-!
# The order of subroutines

A walk has left every part of a node before the node, unless the part is recursive. So a subroutine calls, but for
those that are recursive, only subroutines whose labels are smaller than its own (`Grammar.CallFree.descends`), and
every cycle of calls passes through a recursive one (`Bound.Descends.exists_recursive_of_cycle`).
-/

namespace ParserMachine

variable {τ : Type} [Token τ] {g : Grammar τ} {root p k : NodeId} {b : Bound τ} {w : Walk} {t : Trees τ}
  {pre post : List NodeId} {n m : Nat}

namespace Bound

/-- The body of the first subroutine calls the second one. -/
def Invokes (b : Bound τ) (k l : Nat) : Prop := ∃ s r, b.subroutines[k]? = some s ∧ (l, r) ∈ s.body.calls

/-- Subroutines call recursive ones, and of the others only those before them. -/
def Descends (b : Bound τ) : Prop :=
  ∀ k l, b.Invokes k l → (∃ s, b.subroutines[l]? = some s ∧ s.recursive = true) ∨ l < k

/-- Every cycle of calls passes through a recursive subroutine. -/
theorem Descends.exists_recursive_of_cycle (h : b.Descends) {l : Nat} {ls : List Nat}
    (hcycle : (l :: ls ++ [l]).IsChain b.Invokes) :
    ∃ m ∈ l :: ls, ∃ s, b.subroutines[m]? = some s ∧ s.recursive = true := by
  by_contra hnone
  -- labels would become smaller all the way round
  have hdown : (l :: ls ++ [l]).IsChain (· > ·) := by
    refine hcycle.imp_of_mem_imp fun k m _ hm hkm => (h k m hkm).resolve_left fun hrec => hnone ⟨m, ?_, hrec⟩
    rcases List.mem_append.1 hm with hm | hm
    · exact hm
    · exact List.mem_singleton.1 hm ▸ List.mem_cons_self ..
  have hall := (List.pairwise_cons.1 hdown.pairwise).1 l (List.mem_append_right _ (List.mem_singleton_self l))
  exact Nat.lt_irrefl l hall

end Bound

/-- Calls go to the first `n` subroutines, and to others only if these are said to be recursive. -/
def Expr.CallsDown (n : Nat) (p : Expr τ) : Prop := ∀ c ∈ p.calls, c.2 = true ∨ c.1 < n

theorem Expr.CallsDown.mono {p : Expr τ} (h : p.CallsDown n) (hle : n ≤ m) : p.CallsDown m :=
  fun c hc => (h c hc).imp_right fun hlt => Nat.lt_of_lt_of_le hlt hle

theorem Expr.callsBelow_iff {p : Expr τ} : p.CallsBelow n ↔ ∀ c ∈ p.calls, c.1 < n := by
  induction p with
  | leaf l =>
    cases l with
    | call l r => exact ⟨fun h => List.forall_mem_singleton.2 h, fun h => h (l, r) (List.mem_singleton_self _)⟩
    | _ => exact ⟨fun _ => nofun, fun _ => trivial⟩
  | unary u p ih => exact ih
  | binary b p q ihp ihq => exact (and_congr ihp ihq).trans List.forall_mem_append.symm

/-- Without recursion calls go to the first subroutines. -/
theorem Expr.CallsDown.callsBelow {p : Expr τ} (h : p.CallsDown n) (hloops : ∀ c ∈ p.calls, c.2 = false) :
    p.CallsBelow n :=
  callsBelow_iff.2 fun c hc => (h c hc).resolve_left fun hrec => by cases hrec.symm.trans (hloops c hc)

/-- Trees without calls of their own call what the calls that stand for nodes call. -/
theorem Grammar.CallFree.inductive_callsDown (h : g.CallFree) (n : Nat) :
    g.Inductive (fun l r _ => r = true ∨ l < n) fun _ e => e.CallsDown n := by
  refine ⟨fun _ => nofun, fun p l hl => ?_, fun _ _ _ hl => List.forall_mem_singleton.2 hl,
    fun _ _ _ _ _ _ _ he => he, fun _ _ _ _ _ _ _ _ _ _ _ he he' => List.forall_mem_append.2 ⟨he, he'⟩⟩
  cases l with
  | call l r => exact absurd hl (h p l r)
  | _ => nofun

/-- The items before one of those that a filter leaves. -/
theorem exists_append_of_getElem?_filter {α : Type} {f : α → Bool} {xs : List α} {x : α}
    (h : (xs.filter f)[n]? = some x) : ∃ pre post, xs = pre ++ x :: post ∧ (pre.filter f).length = n := by
  induction xs generalizing n with
  | nil => cases h
  | cons y ys ih =>
    cases hy : f y with
    | false =>
      rw [List.filter_cons_of_neg (by rw [hy]; exact Bool.false_ne_true)] at h
      obtain ⟨pre, post, rfl, hlength⟩ := ih h
      refine ⟨y :: pre, post, rfl, ?_⟩
      rwa [List.filter_cons_of_neg (by rw [hy]; exact Bool.false_ne_true)]
    | true =>
      rw [List.filter_cons_of_pos hy] at h
      cases n with
      | zero =>
        cases h
        exact ⟨[], ys, rfl, rfl⟩
      | succ n =>
        obtain ⟨pre, post, rfl, hlength⟩ := ih h
        refine ⟨y :: pre, post, rfl, ?_⟩
        rw [List.filter_cons_of_pos hy, List.length_cons, hlength]

namespace Grammar.Binds

variable (h : g.Binds root b w t) (hcalls : g.CallFree)
include h

/-- Every part of a node was left before, or it is recursive. -/
theorem part_before (hleft : w.left.toList = pre ++ p :: post) (hk : k ∈ w.kidsOf p) :
    k ∈ pre ∨ w.kids.size ≤ k ∨ k ∈ w.left.toList ∧ w.uses.recursive.getD k false = true := by
  have hp : p ∈ w.left.toList := hleft ▸ List.mem_append_right _ (List.mem_cons_self ..)
  rcases Walk.entered_iff.1 (h.visits.closed p hp k hk) with hsize | hks
  · exact .inr (.inl hsize)
  · have hkleft := (h.visits.entered k).2 hks
    by_cases hpre : k ∈ pre
    · exact .inl hpre
    · obtain ⟨pre', post', hsplit, hpmem⟩ := exists_append_of_not_mem hleft hkleft hpre
      have hlt : ∀ q ∈ w.left.toList, q < w.kids.size := fun q hq => h.visits.size ▸ h.visits.lt hq
      exact .inr (.inr ⟨hkleft, Walk.recursive_of_edge h.visits.nodup hlt hsplit hpmem hk⟩)

/-- The label of a shared node is the number of the shared nodes that were left before it. -/
theorem useOf_eq_call (hleft : w.left.toList = pre ++ p :: post) (hshared : g.isShared w w.uses p = true) :
    t.useOf p = .leaf (.call (pre.filter (g.isShared w w.uses)).length (w.uses.recursive.getD p false)) := by
  have hp : p ∈ w.left.toList := hleft ▸ List.mem_append_right _ (List.mem_cons_self ..)
  obtain ⟨l, huse, hl⟩ := h.built.exists_call h.visits hp hshared
  have hplace : (w.left.toList.filter (g.isShared w w.uses))[(pre.filter (g.isShared w w.uses)).length]? =
      some p := by
    rw [hleft, List.filter_append, List.filter_cons_of_pos hshared, List.getElem?_append_right (Nat.le_refl _),
      Nat.sub_self]
    rfl
  have hlabel := (List.getElem?_inj (List.getElem?_eq_some_iff.1 hl).1 (h.visits.nodup.filter _)).1
    (hl.trans hplace.symm)
  rw [huse, hlabel]

include hcalls

/-- A tree calls, but for recursive subroutines, only those of nodes that were left before its node, if what stands for
these does. -/
theorem callsDown_tree (hleft : w.left.toList = pre ++ p :: post)
    (huses : ∀ q ∈ pre, (t.useOf q).CallsDown (pre.filter (g.isShared w w.uses)).length) :
    (g.treeOf p ((w.kidsOf p).map t.useOf)).CallsDown (pre.filter (g.isShared w w.uses)).length := by
  have hp : p ∈ w.left.toList := hleft ▸ List.mem_append_right _ (List.mem_cons_self ..)
  refine (hcalls.inductive_callsDown _).treeOf h.visits hp fun k hk => ?_
  rcases h.part_before hleft hk with hk | hk | ⟨hk, hrec⟩
  · exact huses k hk
  · rw [Trees.useOf_of_size_le (by rwa [h.built.size])]
    nofun
  · have hshared : g.isShared w w.uses k = true := by
      unfold isShared
      rw [hrec]
      rfl
    obtain ⟨pre', post', hk⟩ := List.append_of_mem hk
    rw [h.useOf_eq_call hk hshared, hrec]
    exact List.forall_mem_singleton.2 (.inl rfl)

/-- What stands for nodes that were left calls, but for recursive subroutines, only those of these nodes. -/
theorem callsDown_useOf (hleft : w.left.toList = pre ++ post) :
    ∀ p ∈ pre, (t.useOf p).CallsDown (pre.filter (g.isShared w w.uses)).length := by
  induction pre using List.reverseRecOn generalizing post with
  | nil => nofun
  | append_singleton pre p ih =>
    rw [List.append_assoc] at hleft
    have hp : p ∈ w.left.toList := hleft ▸ List.mem_append_right _ (List.mem_cons_self ..)
    have hlength : (pre.filter (g.isShared w w.uses)).length ≤
        ((pre ++ [p]).filter (g.isShared w w.uses)).length :=
      ((List.sublist_append_left pre [p]).filter _).length_le
    intro q hq
    rcases List.mem_append.1 hq with hq | hq
    · exact (ih hleft q hq).mono hlength
    · cases List.mem_singleton.1 hq
      cases hshared : g.isShared w w.uses p with
      | false =>
        rw [h.built.tree p hp hshared]
        exact (h.callsDown_tree hcalls hleft (ih hleft)).mono hlength
      | true =>
        rw [h.useOf_eq_call hleft hshared, List.filter_append, List.filter_cons_of_pos hshared, List.length_append]
        exact List.forall_mem_singleton.2 (.inr (Nat.lt_succ_self _))

end Grammar.Binds

namespace Grammar.CallFree

variable (hcalls : g.CallFree) (hbind : g.bind root = .ok b)
include hcalls hbind

/-- A subroutine calls, but for recursive ones, only those before it. -/
theorem callsDown {l : Nat} {s : Subroutine τ} (hs : b.subroutines[l]? = some s) : s.body.CallsDown l := by
  obtain ⟨root', w, t, -, h⟩ := exists_binds hbind
  have hbody := hs
  rw [h.subroutines, h.built.subroutines, List.getElem?_map] at hbody
  obtain ⟨p, hp, rfl⟩ := Option.map_eq_some_iff.1 hbody
  obtain ⟨pre, post, hleft, hlength⟩ := exists_append_of_getElem?_filter hp
  have htree := h.callsDown_tree hcalls hleft (h.callsDown_useOf hcalls hleft)
  rwa [hlength] at htree

/-- A call goes to a subroutine and says rightly whether it is recursive. -/
theorem target {c : Nat × Bool} (hc : c ∈ b.calls) : ∃ s, b.subroutines[c.1]? = some s ∧ s.recursive = c.2 := by
  obtain ⟨root', w, t, -, h⟩ := exists_binds hbind
  exact h.target (fun p l r _ => hcalls p l r) hc

theorem descends : b.Descends := by
  rintro k l ⟨s, r, hs, hc⟩
  refine (hcalls.callsDown hbind hs _ hc).imp_left fun hrec => ?_
  obtain ⟨s', hs', hrec'⟩ := hcalls.target hbind (Bound.mem_calls.2 (.inr ⟨s, List.mem_of_getElem? hs, hc⟩))
  exact ⟨s', hs', hrec'.trans hrec⟩

/-- Where no subroutine is recursive, each calls only those before it. -/
theorem callsBelow (hloops : ∀ s ∈ b.subroutines, s.recursive = false) {l : Nat} {s : Subroutine τ}
    (hs : b.subroutines[l]? = some s) : s.body.CallsBelow l := by
  refine (hcalls.callsDown hbind hs).callsBelow fun c hc => ?_
  obtain ⟨s', hs', hrec⟩ :=
    hcalls.target hbind (Bound.mem_calls.2 (.inr ⟨s, List.mem_of_getElem? hs, hc⟩))
  exact hrec ▸ hloops s' (List.mem_of_getElem? hs')

end Grammar.CallFree

end ParserMachine
