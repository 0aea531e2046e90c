import Mathlib.Data.List.Perm.Basic
import Mathlib.Order.Lattice

namespace BlockchainTutorial.Lib

universe u

variable {α : Type u} [LinearOrder α]

/-! The two largest elements of a list, with ties, whatever its order. -/

structure TopTwo (l : List α) (top second : α) : Prop where
  le : second ≤ top
  others : ∃ rest, l.Perm (top :: second :: rest) ∧ ∀ a ∈ rest, a ≤ second

namespace TopTwo

variable {l l' : List α} {a top second : α}

theorem perm (h : TopTwo l top second) (hperm : l'.Perm l) : TopTwo l' top second := by
  obtain ⟨rest, hrest, hle⟩ := h.others
  exact ⟨h.le, rest, hperm.trans hrest, hle⟩

theorem mem_top (h : TopTwo l top second) : top ∈ l := by
  obtain ⟨rest, hrest, _⟩ := h.others
  exact hrest.mem_iff.mpr List.mem_cons_self

theorem le_top (h : TopTwo l top second) (ha : a ∈ l) : a ≤ top := by
  obtain ⟨rest, hrest, hle⟩ := h.others
  rcases List.mem_cons.mp (hrest.mem_iff.mp ha) with rfl | ha
  · exact le_rfl
  · rcases List.mem_cons.mp ha with rfl | ha
    · exact h.le
    · exact (hle a ha).trans h.le

theorem pair (h : second ≤ top) : TopTwo [second, top] top second :=
  ⟨h, [], List.Perm.swap top second [], by simp⟩

/-! One more element. -/

theorem above (h : TopTwo l top second) (ha : top < a) : TopTwo (a :: l) a top := by
  obtain ⟨rest, hrest, hle⟩ := h.others
  refine ⟨le_of_lt ha, second :: rest, hrest.cons a, ?_⟩
  intro b hb
  rcases List.mem_cons.mp hb with rfl | hb
  · exact h.le
  · exact (hle b hb).trans h.le

theorem between (h : TopTwo l top second) (hsecond : second < a) (htop : a ≤ top) :
    TopTwo (a :: l) top a := by
  obtain ⟨rest, hrest, hle⟩ := h.others
  refine ⟨htop, second :: rest, (hrest.cons a).trans (List.Perm.swap top a _), ?_⟩
  intro b hb
  rcases List.mem_cons.mp hb with rfl | hb
  · exact le_of_lt hsecond
  · exact (hle b hb).trans (le_of_lt hsecond)

theorem below (h : TopTwo l top second) (ha : a ≤ second) : TopTwo (a :: l) top second := by
  obtain ⟨rest, hrest, hle⟩ := h.others
  have hlast : (a :: top :: second :: rest).Perm (top :: second :: a :: rest) :=
    (List.Perm.swap top a _).trans ((List.Perm.swap second a rest).cons top)
  refine ⟨h.le, a :: rest, (hrest.cons a).trans hlast, ?_⟩
  · intro b hb
    rcases List.mem_cons.mp hb with rfl | hb
    · exact ha
    · exact hle b hb

/-- The two largest do not depend on the order. -/
theorem unique {top' second' : α} (h : TopTwo l top second) (h' : TopTwo l' top' second')
    (hperm : l.Perm l') : top = top' ∧ second = second' := by
  have htop : top = top' := le_antisymm (h'.le_top (hperm.mem_iff.mp h.mem_top))
    (h.le_top (hperm.mem_iff.mpr h'.mem_top))
  subst htop
  obtain ⟨rest, hrest, hle⟩ := h.others
  obtain ⟨rest', hrest', hle'⟩ := h'.others
  have htail : (second :: rest).Perm (second' :: rest') :=
    List.Perm.cons_inv ((hrest.symm.trans hperm).trans hrest')
  refine ⟨rfl, le_antisymm ?_ ?_⟩
  · rcases List.mem_cons.mp (htail.mem_iff.mp List.mem_cons_self) with heq | hmem
    · exact heq.le
    · exact hle' _ hmem
  · rcases List.mem_cons.mp (htail.mem_iff.mpr List.mem_cons_self) with heq | hmem
    · exact heq.le
    · exact hle _ hmem

end TopTwo

end BlockchainTutorial.Lib
