import Mathlib.Algebra.BigOperators.Group.List.Basic
import Mathlib.Algebra.Order.Group.Nat
import Mathlib.Algebra.Order.Monoid.Defs
import Mathlib.Algebra.Ring.Nat
import Mathlib.Data.List.Perm.Subperm

namespace BlockchainTutorial.Lib

/-! The greatest sum that some of the items of a list can have. -/

universe u v

variable {α : Type u} {M : Type v} [AddCommMonoid M] [PartialOrder M] [IsOrderedAddMonoid M]

section Sum

variable (value : α → M)

/-- In a list with the greatest values first, a step to the right loses value. -/
theorem sum_take_le_cons {a : α} {l : List α}
    (hsorted : (a :: l).Pairwise fun first second => value second ≤ value first) {n : Nat}
    (hn : n ≤ l.length) :
    ((l.take n).map value).sum ≤ (((a :: l).take n).map value).sum := by
  induction n generalizing a l with
  | zero => exact le_rfl
  | succ n ih =>
      cases l with
      | nil => exact absurd hn (Nat.not_succ_le_zero n)
      | cons b l =>
          obtain ⟨hhead, htail⟩ := List.pairwise_cons.mp hsorted
          rw [List.take_succ_cons, List.take_succ_cons, List.map_cons, List.map_cons,
            List.sum_cons, List.sum_cons]
          exact add_le_add (hhead b List.mem_cons_self)
            (ih htail (Nat.le_of_succ_le_succ hn))

theorem sum_le_sum_take_of_sublist {s l : List α}
    (hsorted : l.Pairwise fun first second => value second ≤ value first)
    (h : s.Sublist l) : (s.map value).sum ≤ ((l.take s.length).map value).sum := by
  induction h with
  | slnil => exact le_rfl
  | cons a hsub ih =>
      exact (ih (List.pairwise_cons.mp hsorted).2).trans
        (sum_take_le_cons value hsorted hsub.length_le)
  | cons_cons a hsub ih =>
      rw [List.length_cons, List.take_succ_cons, List.map_cons, List.map_cons, List.sum_cons,
        List.sum_cons]
      exact add_le_add le_rfl (ih (List.pairwise_cons.mp hsorted).2)

/-- No choice of items has more value than as many items of the greatest values. -/
theorem sum_le_sum_take {s l : List α}
    (hsorted : l.Pairwise fun first second => value second ≤ value first)
    (h : s.Subperm l) : (s.map value).sum ≤ ((l.take s.length).map value).sum := by
  obtain ⟨chosen, hperm, hsub⟩ := h
  rw [← (hperm.map value).sum_eq, ← hperm.length_eq]
  exact sum_le_sum_take_of_sublist value hsorted hsub

end Sum

end BlockchainTutorial.Lib
