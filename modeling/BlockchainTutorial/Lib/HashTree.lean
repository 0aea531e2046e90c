import Mathlib.Data.Nat.Init
import Mathlib.Logic.Function.Iterate
import Mathlib.Tactic.Ring

namespace BlockchainTutorial.Lib

/-! Binary trees over a list of nodes, level by level. -/

universe u

variable {α : Type u} (combine : α → α → α)

/-- Neighbours are paired, and a last node without a neighbour with itself. -/
def pairUp : List α → List α
  | [] => []
  | [node] => [combine node node]
  | left :: right :: nodes => combine left right :: pairUp nodes

@[simp] theorem pairUp_nil : pairUp combine [] = [] := rfl

@[simp] theorem pairUp_cons_cons (left right : α) (nodes : List α) :
    pairUp combine (left :: right :: nodes) = combine left right :: pairUp combine nodes := rfl

theorem length_pairUp (nodes : List α) :
    (pairUp combine nodes).length = (nodes.length + 1) / 2 := by
  induction nodes using pairUp.induct with
  | case1 => simp
  | case2 node => simp [pairUp]
  | case3 left right nodes ih =>
      rw [pairUp_cons_cons, List.length_cons, ih, List.length_cons, List.length_cons]
      omega

/-- The node that remains when the levels are paired up as long as there are several
nodes. -/
def treeRoot : List α → Option α
  | [] => none
  | [node] => some node
  | left :: right :: nodes => treeRoot (pairUp combine (left :: right :: nodes))
  termination_by nodes => nodes.length
  decreasing_by
    rw [length_pairUp, List.length_cons, List.length_cons]
    omega

@[simp] theorem treeRoot_singleton (node : α) : treeRoot combine [node] = some node := by
  rw [treeRoot]

theorem treeRoot_pairUp {nodes : List α} (h : 1 < nodes.length) :
    treeRoot combine (pairUp combine nodes) = treeRoot combine nodes := by
  match nodes, h with
  | left :: right :: nodes, _ => rw [treeRoot]

theorem treeRoot_isSome {nodes : List α} (h : nodes ≠ []) :
    (treeRoot combine nodes).isSome := by
  induction nodes using treeRoot.induct combine with
  | case1 => exact absurd rfl h
  | case2 node => rw [treeRoot_singleton]; rfl
  | case3 left right nodes ih =>
      rw [treeRoot]
      exact ih (List.cons_ne_nil _ _)

/-- A list of the length `2 ^ count` has the root after that many levels. -/
theorem iterate_pairUp_eq (count : Nat) {nodes : List α} (h : nodes.length = 2 ^ count) :
    ∃ root, (pairUp combine)^[count] nodes = [root] ∧ treeRoot combine nodes = some root := by
  induction count generalizing nodes with
  | zero =>
      obtain ⟨root, rfl⟩ := List.length_eq_one_iff.mp h
      exact ⟨root, rfl, treeRoot_singleton combine root⟩
  | succ count ih =>
      have hpos := Nat.two_pow_pos count
      rw [Nat.pow_succ] at h
      have hnext : (pairUp combine nodes).length = 2 ^ count := by
        rw [length_pairUp]
        omega
      obtain ⟨root, hroot, htree⟩ := ih hnext
      refine ⟨root, by rw [Function.iterate_succ_apply, hroot], ?_⟩
      rw [← htree, treeRoot_pairUp combine (by omega)]

/-! The pairs of a level of even length. -/

def pairs : List α → List (α × α)
  | left :: right :: nodes => (left, right) :: pairs nodes
  | _ => []

/-- All pairs that are combined in so many levels. -/
def pairsBelow : Nat → List α → List (α × α)
  | 0, _ => []
  | count + 1, nodes => pairs nodes ++ pairsBelow count (pairUp combine nodes)

variable {combine}

theorem forall_pairUp {P : α → Prop} (hcombine : ∀ left right, P (combine left right))
    (nodes : List α) : ∀ node ∈ pairUp combine nodes, P node := by
  induction nodes using pairUp.induct with
  | case1 => exact fun node hnode => absurd hnode List.not_mem_nil
  | case2 node => exact List.forall_mem_singleton.mpr (hcombine node node)
  | case3 left right nodes ih => exact List.forall_mem_cons.mpr ⟨hcombine left right, ih⟩

theorem forall_iterate_pairUp {P : α → Prop} (hcombine : ∀ left right, P (combine left right))
    (count : Nat) {nodes : List α} (hnodes : ∀ node ∈ nodes, P node) :
    ∀ node ∈ (pairUp combine)^[count] nodes, P node := by
  induction count generalizing nodes with
  | zero => exact hnodes
  | succ count ih =>
      rw [Function.iterate_succ_apply]
      exact ih (forall_pairUp hcombine nodes)

theorem forall_pairs {P : α → Prop} {nodes : List α} (hnodes : ∀ node ∈ nodes, P node) :
    ∀ p ∈ pairs nodes, P p.1 ∧ P p.2 := by
  induction nodes using pairs.induct with
  | case1 left right nodes ih =>
      obtain ⟨hleft, hnodes⟩ := List.forall_mem_cons.mp hnodes
      obtain ⟨hright, hnodes⟩ := List.forall_mem_cons.mp hnodes
      exact List.forall_mem_cons.mpr ⟨⟨hleft, hright⟩, ih hnodes⟩
  | case2 nodes hshort =>
      rw [pairs]
      · exact fun p hp => absurd hp List.not_mem_nil
      · exact hshort

/-- What holds of the nodes at the bottom and of all that are made holds of every pair. -/
theorem forall_pairsBelow {P : α → Prop} (hcombine : ∀ left right, P (combine left right))
    (count : Nat) {nodes : List α} (hnodes : ∀ node ∈ nodes, P node) :
    ∀ p ∈ pairsBelow combine count nodes, P p.1 ∧ P p.2 := by
  induction count generalizing nodes with
  | zero => exact fun p hp => absurd hp List.not_mem_nil
  | succ count ih =>
      intro p hp
      rcases List.mem_append.mp hp with hp | hp
      · exact forall_pairs hnodes p hp
      · exact ih (forall_pairUp hcombine nodes) p hp

/-- Two levels of the same even length that pair up to the same are the same, if the
pairs in them are told apart. -/
theorem eq_of_pairUp_eq {nodes nodes' : List α} (heven : nodes.length % 2 = 0)
    (hlength : nodes.length = nodes'.length)
    (hinj : ∀ p ∈ pairs nodes, ∀ p' ∈ pairs nodes', combine p.1 p.2 = combine p'.1 p'.2 →
      p = p')
    (h : pairUp combine nodes = pairUp combine nodes') : nodes = nodes' := by
  induction nodes using pairUp.induct generalizing nodes' with
  | case1 => exact (List.length_eq_zero_iff.mp hlength.symm).symm
  | case2 node => simp at heven
  | case3 left right nodes ih =>
      match nodes', hlength, h, hinj with
      | left' :: right' :: nodes', hlength, h, hinj =>
          rw [pairUp_cons_cons, pairUp_cons_cons] at h
          obtain ⟨hhead, htail⟩ := List.cons.inj h
          have hpair := hinj (left, right) List.mem_cons_self (left', right') List.mem_cons_self
            hhead
          obtain ⟨rfl, rfl⟩ := Prod.mk.inj hpair
          simp only [List.length_cons] at heven hlength
          rw [ih (by omega) (by omega) (fun p hp p' hp' => hinj p (List.mem_cons_of_mem _ hp) p'
            (List.mem_cons_of_mem _ hp')) htail]

/-- The nodes at the bottom are determined by those so many levels above. -/
theorem eq_of_iterate_pairUp_eq {count : Nat} {nodes nodes' : List α}
    (hdvd : 2 ^ count ∣ nodes.length) (hlength : nodes.length = nodes'.length)
    (hinj : ∀ p ∈ pairsBelow combine count nodes, ∀ p' ∈ pairsBelow combine count nodes',
      combine p.1 p.2 = combine p'.1 p'.2 → p = p')
    (h : (pairUp combine)^[count] nodes = (pairUp combine)^[count] nodes') :
    nodes = nodes' := by
  induction count generalizing nodes nodes' with
  | zero => exact h
  | succ count ih =>
      obtain ⟨n, hn⟩ := hdvd
      have heven : nodes.length = 2 * (2 ^ count * n) := by
        rw [hn]
        ring
      refine eq_of_pairUp_eq (by omega) hlength (fun p hp p' hp' => hinj p
        (List.mem_append_left _ hp) p' (List.mem_append_left _ hp')) ?_
      refine ih ⟨n, by rw [length_pairUp]; omega⟩ (by rw [length_pairUp, length_pairUp, hlength])
        (fun p hp p' hp' => hinj p (List.mem_append_right _ hp) p'
          (List.mem_append_right _ hp')) ?_
      rwa [Function.iterate_succ_apply, Function.iterate_succ_apply] at h

end BlockchainTutorial.Lib
