import Mathlib.Data.List.Count
import Mathlib.Data.List.Induction
import Mathlib.Data.List.Perm.Basic

namespace BlockchainTutorial.Lib

universe u

/-! Pools in which every entrant has as many tickets as its weight, however often it enters. -/

namespace Pool

variable {α : Type u} [DecidableEq α] (weight : α → Nat)

/-- Who has tickets already gets no more. -/
def enter (pool : List α) (entrant : α) : List α :=
  if entrant ∈ pool then pool else pool ++ List.replicate (weight entrant) entrant

def fill (entrants : List α) : List α :=
  entrants.foldl (enter weight) []

@[simp] theorem fill_nil : fill weight [] = [] := rfl

theorem fill_concat (entrants : List α) (entrant : α) :
    fill weight (entrants ++ [entrant]) = enter weight (fill weight entrants) entrant := by
  rw [fill, List.foldl_append]
  rfl

variable {weight}

theorem count_enter_of_mem {pool : List α} {entrant : α} (h : entrant ∈ pool) (a : α) :
    (enter weight pool entrant).count a = pool.count a := by
  rw [enter, if_pos h]

theorem count_enter_self {pool : List α} {entrant : α} (h : entrant ∉ pool) :
    (enter weight pool entrant).count entrant = weight entrant := by
  rw [enter, if_neg h, List.count_append, List.count_eq_zero.mpr h, Nat.zero_add,
    List.count_replicate_self]

theorem count_enter_of_ne {pool : List α} {entrant a : α} (h : a ≠ entrant) :
    (enter weight pool entrant).count a = pool.count a := by
  unfold enter
  split
  · rfl
  · have hrest : (List.replicate (weight entrant) entrant).count a = 0 := by
      refine List.count_eq_zero.mpr fun hmem => ?_
      exact h (List.eq_of_mem_replicate hmem)
    rw [List.count_append, hrest, Nat.add_zero]

/-- The test of membership is made on the pool and not on the entrants: who entered without
weight is not found there, and gets nothing again. -/
theorem count_fill (entrants : List α) (a : α) :
    (fill weight entrants).count a = if a ∈ entrants then weight a else 0 := by
  induction entrants using List.reverseRecOn with
  | nil => rfl
  | append_singleton front entrant ih =>
      rw [fill_concat]
      by_cases ha : a = entrant
      · subst ha
        rw [if_pos (List.mem_append_right front List.mem_cons_self)]
        by_cases hmem : a ∈ fill weight front
        · have hentered : a ∈ front := by
            by_contra hnew
            rw [if_neg hnew] at ih
            exact List.count_eq_zero.mp ih hmem
          rw [count_enter_of_mem hmem, ih, if_pos hentered]
        · exact count_enter_self hmem
      · rw [count_enter_of_ne ha, ih]
        have hiff : a ∈ front ++ [entrant] ↔ a ∈ front := by
          rw [List.mem_append, List.mem_singleton, or_iff_left ha]
        simp only [hiff]

theorem mem_fill {entrants : List α} {a : α} :
    a ∈ fill weight entrants ↔ a ∈ entrants ∧ 0 < weight a := by
  rw [← List.count_pos_iff, count_fill]
  by_cases ha : a ∈ entrants
  · rw [if_pos ha, and_iff_right ha]
  · rw [if_neg ha]
    exact ⟨nofun, fun h => absurd h.1 ha⟩

theorem fill_ne_nil_iff {entrants : List α} :
    fill weight entrants ≠ [] ↔ ∃ a ∈ entrants, 0 < weight a := by
  constructor
  · intro h
    obtain ⟨a, ha⟩ := List.exists_mem_of_ne_nil _ h
    exact ⟨a, mem_fill.mp ha⟩
  · rintro ⟨a, ha⟩
    exact List.ne_nil_of_mem (mem_fill.mpr ha)

end Pool

end BlockchainTutorial.Lib
