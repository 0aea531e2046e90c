import Mathlib.Data.List.Basic

namespace BlockchainTutorial.Lib

universe u v w

variable {α : Type u} {β : Type v} {σ : Type w}

/-! The first entries of a list that are added up until there is enough. -/

def reach (add : σ → α → σ) (enough : σ → Bool) : σ → List α → List α
  | _, [] => []
  | sum, a :: rest => if enough sum then [] else a :: reach add enough (add sum a) rest

variable {add : σ → α → σ} {enough : σ → Bool}

theorem reach_of_enough {sum : σ} (h : enough sum = true) (l : List α) :
    reach add enough sum l = [] := by
  cases l with
  | nil => rfl
  | cons a rest => exact if_pos h

theorem reach_cons {sum : σ} (h : enough sum = false) (a : α) (rest : List α) :
    reach add enough sum (a :: rest) = a :: reach add enough (add sum a) rest :=
  if_neg (Bool.eq_false_iff.mp h)

theorem reach_map (f : β → α) (sum : σ) (l : List β) :
    reach add enough sum (l.map f) =
      (reach (fun sum b => add sum (f b)) enough sum l).map f := by
  induction l generalizing sum with
  | nil => rfl
  | cons a rest ih =>
      rw [List.map_cons]
      unfold reach
      split
      · rfl
      · rw [ih, List.map_cons]

theorem reach_congr {add' : σ → α → σ} {l : List α} (h : ∀ a ∈ l, ∀ sum, add sum a = add' sum a)
    (sum : σ) : reach add enough sum l = reach add' enough sum l := by
  induction l generalizing sum with
  | nil => rfl
  | cons a rest ih =>
      unfold reach
      rw [h a List.mem_cons_self, ih fun b hb => h b (List.mem_cons_of_mem _ hb)]

theorem reach_starts (add : σ → α → σ) (enough : σ → Bool) (sum : σ) (l : List α) :
    reach add enough sum l <+: l := by
  induction l generalizing sum with
  | nil => exact List.nil_prefix
  | cons a rest ih =>
      unfold reach
      split
      · exact List.nil_prefix
      · exact (List.prefix_cons_inj a).mpr (ih _)

/-- What is taken is enough, or it is all there is. -/
theorem reach_enough_or (add : σ → α → σ) (enough : σ → Bool) (sum : σ) (l : List α) :
    enough ((reach add enough sum l).foldl add sum) = true ∨ reach add enough sum l = l := by
  induction l generalizing sum with
  | nil => exact .inr rfl
  | cons a rest ih =>
      cases henough : enough sum with
      | true => exact .inl (by rw [reach_of_enough henough, List.foldl_nil, henough])
      | false =>
          rw [reach_cons henough, List.foldl_cons]
          exact (ih (add sum a)).imp_right (congrArg (a :: ·))

end BlockchainTutorial.Lib
