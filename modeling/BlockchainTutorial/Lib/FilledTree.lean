import Mathlib.Data.Nat.Log
import BlockchainTutorial.Lib.HashTree
import BlockchainTutorial.Lib.Positions

namespace BlockchainTutorial.Lib

/-! Lists of different lengths under one root. A list stands for the full bottom of its
tree, in which the copies of the last nodes are written out. -/

universe u

variable {α : Type u}

/-- Neighbours are coupled, and a last node without a neighbour with itself. -/
def couples : List α → List (α × α)
  | [] => []
  | [node] => [(node, node)]
  | left :: right :: nodes => (left, right) :: couples nodes

def uncoupled : List (α × α) → List α
  | [] => []
  | couple :: rest => couple.1 :: couple.2 :: uncoupled rest

/-- The full bottom of a tree of so many levels. -/
def filled : Nat → {α : Type u} → List α → List α
  | 0, _, nodes => nodes
  | count + 1, _, nodes => uncoupled (filled count (couples nodes))

/-- All couples that are combined in so many levels. -/
def couplesBelow (combine : α → α → α) : Nat → List α → List (α × α)
  | 0, _ => []
  | count + 1, nodes => couples nodes ++ couplesBelow combine count (pairUp combine nodes)

section Map

variable {β : Type u} (f : α → β)

theorem couples_map (nodes : List α) :
    couples (nodes.map f) = (couples nodes).map (Prod.map f f) := by
  induction nodes using couples.induct with
  | case1 => rfl
  | case2 node => rfl
  | case3 left right nodes ih =>
      rw [List.map_cons, List.map_cons, couples, ih]
      rfl

theorem uncoupled_map (nodes : List (α × α)) :
    uncoupled (nodes.map (Prod.map f f)) = (uncoupled nodes).map f := by
  induction nodes with
  | nil => rfl
  | cons couple nodes ih =>
      rw [List.map_cons, uncoupled, ih]
      rfl

end Map

theorem filled_map (count : Nat) {α β : Type u} (f : α → β) (nodes : List α) :
    filled count (nodes.map f) = (filled count nodes).map f := by
  induction count generalizing α β with
  | zero => rfl
  | succ count ih => rw [filled, filled, couples_map, ih, uncoupled_map]

/-! The full bottom has the nodes of the list, and the list is its first part. -/

theorem mem_of_mem_couples {nodes : List α} {couple : α × α} (h : couple ∈ couples nodes) :
    couple.1 ∈ nodes ∧ couple.2 ∈ nodes := by
  induction nodes using couples.induct with
  | case1 => cases h
  | case2 node =>
      obtain rfl := List.mem_singleton.mp h
      exact ⟨List.mem_cons_self, List.mem_cons_self⟩
  | case3 left right nodes ih =>
      rcases List.mem_cons.mp h with rfl | h
      · exact ⟨List.mem_cons_self, List.mem_cons_of_mem _ List.mem_cons_self⟩
      · obtain ⟨hleft, hright⟩ := ih h
        exact ⟨List.mem_cons_of_mem _ (List.mem_cons_of_mem _ hleft),
          List.mem_cons_of_mem _ (List.mem_cons_of_mem _ hright)⟩

theorem exists_couple_of_mem {nodes : List (α × α)} {node : α} (h : node ∈ uncoupled nodes) :
    ∃ couple ∈ nodes, node = couple.1 ∨ node = couple.2 := by
  induction nodes with
  | nil => cases h
  | cons couple nodes ih =>
      rcases List.mem_cons.mp h with rfl | h
      · exact ⟨couple, List.mem_cons_self, .inl rfl⟩
      · rcases List.mem_cons.mp h with rfl | h
        · exact ⟨couple, List.mem_cons_self, .inr rfl⟩
        · obtain ⟨other, hother, hnode⟩ := ih h
          exact ⟨other, List.mem_cons_of_mem _ hother, hnode⟩

theorem mem_of_mem_filled (count : Nat) {α : Type u} {nodes : List α} {node : α}
    (h : node ∈ filled count nodes) : node ∈ nodes := by
  induction count generalizing α with
  | zero => exact h
  | succ count ih =>
      obtain ⟨couple, hcouple, hnode⟩ := exists_couple_of_mem h
      obtain ⟨hleft, hright⟩ := mem_of_mem_couples (ih hcouple)
      rcases hnode with rfl | rfl
      · exact hleft
      · exact hright

theorem append_uncoupled (nodes more : List (α × α)) :
    uncoupled (nodes ++ more) = uncoupled nodes ++ uncoupled more := by
  induction nodes with
  | nil => rfl
  | cons couple nodes ih => rw [List.cons_append, uncoupled, ih]; rfl

theorem isPrefix_uncoupled (nodes : List α) : nodes <+: uncoupled (couples nodes) := by
  induction nodes using couples.induct with
  | case1 => exact List.nil_prefix
  | case2 node => exact ⟨[node], rfl⟩
  | case3 left right nodes ih =>
      exact List.prefix_cons_inj left |>.mpr (List.prefix_cons_inj right |>.mpr ih)

theorem isPrefix_filled (count : Nat) {α : Type u} (nodes : List α) :
    nodes <+: filled count nodes := by
  induction count generalizing α with
  | zero => exact List.prefix_rfl
  | succ count ih =>
      obtain ⟨more, hmore⟩ := ih (couples nodes)
      refine (isPrefix_uncoupled nodes).trans ?_
      rw [filled, ← hmore, append_uncoupled]
      exact List.prefix_append _ _

/-! The full bottom pairs up as the list does. -/

section Root

variable (combine : α → α → α)

theorem pairUp_eq_map_couples (nodes : List α) :
    pairUp combine nodes = (couples nodes).map fun couple => combine couple.1 couple.2 := by
  induction nodes using couples.induct with
  | case1 => rfl
  | case2 node => rfl
  | case3 left right nodes ih => rw [pairUp_cons_cons, couples, ih, List.map_cons]

theorem pairUp_uncoupled (nodes : List (α × α)) :
    pairUp combine (uncoupled nodes) = nodes.map fun couple => combine couple.1 couple.2 := by
  induction nodes with
  | nil => rfl
  | cons couple nodes ih => rw [uncoupled, pairUp_cons_cons, ih, List.map_cons]

theorem pairUp_filled (count : Nat) (nodes : List α) :
    pairUp combine (filled (count + 1) nodes) = filled count (pairUp combine nodes) := by
  rw [filled, pairUp_uncoupled, pairUp_eq_map_couples, filled_map]

theorem iterate_pairUp_filled (count : Nat) (nodes : List α) :
    (pairUp combine)^[count] (filled count nodes) = (pairUp combine)^[count] nodes := by
  induction count generalizing nodes with
  | zero => rfl
  | succ count ih =>
      rw [Function.iterate_succ_apply, pairUp_filled, ih, Function.iterate_succ_apply]

theorem iterate_pairUp_clog {nodes : List α} (h : nodes ≠ []) :
    ∃ root, (pairUp combine)^[Nat.clog 2 nodes.length] nodes = [root] ∧
      treeRoot combine nodes = some root := by
  induction nodes using treeRoot.induct combine with
  | case1 => exact absurd rfl h
  | case2 node => exact ⟨node, by rw [List.length_singleton, Nat.clog_one_right]; rfl,
      treeRoot_singleton combine node⟩
  | case3 left right nodes ih =>
      obtain ⟨root, hroot, htree⟩ := ih (List.cons_ne_nil _ _)
      rw [length_pairUp] at hroot
      refine ⟨root, ?_, by rw [treeRoot, htree]⟩
      rw [Nat.clog_of_two_le Nat.one_lt_two (by simp), Function.iterate_succ_apply]
      exact hroot

end Root

/-- Lists with the same nodes so many levels above have the same full bottom, if the couples
on the way are told apart. -/
theorem filled_eq_of_iterate_eq {combine : α → α → α} {count : Nat} {nodes nodes' : List α}
    (hinj : ∀ p ∈ couplesBelow combine count nodes, ∀ p' ∈ couplesBelow combine count nodes',
      combine p.1 p.2 = combine p'.1 p'.2 → p = p')
    (h : (pairUp combine)^[count] nodes = (pairUp combine)^[count] nodes') :
    filled count nodes = filled count nodes' := by
  induction count generalizing nodes nodes' with
  | zero => exact h
  | succ count ih =>
      have hup := ih (fun p hp p' hp' => hinj p (List.mem_append_right _ hp) p'
        (List.mem_append_right _ hp')) h
      rw [pairUp_eq_map_couples, pairUp_eq_map_couples, filled_map, filled_map] at hup
      rw [filled, filled, map_inj_on (fun p hp p' hp' => hinj p
        (List.mem_append_left _ (mem_of_mem_filled count hp)) p'
        (List.mem_append_left _ (mem_of_mem_filled count hp'))) hup]

end BlockchainTutorial.Lib
