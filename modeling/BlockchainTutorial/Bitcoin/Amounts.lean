import Mathlib.Algebra.BigOperators.Group.List.Basic
import Mathlib.Algebra.Order.Ring.Int
import BlockchainTutorial.Lib.Reach

namespace BlockchainTutorial.Bitcoin

/-! Amounts, and sums of them, are of the type `int` of 64 bits. -/

/-- A number of type `int`. -/
def IsInt (n : Int) : Prop :=
  -2 ^ 63 ≤ n ∧ n < 2 ^ 63

instance (n : Int) : Decidable (IsInt n) :=
  inferInstanceAs (Decidable (_ ∧ _))

/-- What an `int` has of a number. -/
def wrap (n : Int) : Int :=
  n.bmod (2 ^ 64)

def addInt (a b : Int) : Int :=
  wrap (a + b)

def subInt (a b : Int) : Int :=
  wrap (a - b)

theorem isInt_wrap (n : Int) : IsInt (wrap n) := by
  have hword : ((2 ^ 64 : Nat) : Int) = 2 ^ 64 := rfl
  have hlow := Int.le_bmod (x := n) (m := 2 ^ 64) (by decide)
  have hhigh := Int.bmod_lt (x := n) (m := 2 ^ 64) (by decide)
  constructor <;> unfold wrap <;> omega

theorem wrap_eq_self_iff {n : Int} : wrap n = n ↔ IsInt n := by
  have hword : ((2 ^ 64 : Nat) : Int) = 2 ^ 64 := rfl
  constructor
  · intro h
    exact h ▸ isInt_wrap n
  · rintro ⟨hlow, hhigh⟩
    exact Int.bmod_eq_of_le (by omega) (by omega)

theorem subInt_eq {a b : Int} (ha : IsInt a) (hb : 0 < b) (hle : b ≤ a) :
    subInt a b = a - b := by
  have hhigh := ha.2
  exact wrap_eq_self_iff.mpr ⟨by omega, by omega⟩

theorem addInt_wrap (n m : Int) : addInt (wrap n) m = wrap (n + m) :=
  Int.bmod_add_bmod

section Reach

variable {α β : Type*}

/-- The first entries whose values, added to a sum, reach an amount. -/
def reach (value : α → Int) (amount : Int) : Int → List α → List α :=
  Lib.reach (fun sum a => addInt sum (value a)) fun sum => amount ≤ sum

theorem reach_of_le (value : α → Int) {amount sum : Int} (h : amount ≤ sum) (l : List α) :
    reach value amount sum l = [] := by
  refine Lib.reach_of_enough ?_ l
  exact decide_eq_true h

theorem reach_cons (value : α → Int) {amount sum : Int} (h : sum < amount) (a : α)
    (rest : List α) :
    reach value amount sum (a :: rest) =
      a :: reach value amount (addInt sum (value a)) rest := by
  refine Lib.reach_cons ?_ a rest
  exact decide_eq_false (Int.not_le.mpr h)

theorem reach_map (f : α → β) (value : β → Int) (amount sum : Int) (l : List α) :
    reach value amount sum (l.map f) = (reach (value ∘ f) amount sum l).map f :=
  Lib.reach_map f sum l

theorem reach_congr {value value' : α → Int} {l : List α} (h : ∀ a ∈ l, value a = value' a)
    (amount sum : Int) : reach value amount sum l = reach value' amount sum l :=
  Lib.reach_congr (fun a ha sum => congrArg (addInt sum) (h a ha)) sum

theorem reach_starts (value : α → Int) (amount sum : Int) (l : List α) :
    reach value amount sum l <+: l :=
  Lib.reach_starts _ _ sum l

theorem foldl_addInt (value : α → Int) (n : Int) (l : List α) :
    l.foldl (fun sum a => addInt sum (value a)) (wrap n) = wrap (n + (l.map value).sum) := by
  induction l generalizing n with
  | nil => rw [List.foldl_nil, List.map_nil, List.sum_nil, Int.add_zero]
  | cons a rest ih =>
      rw [List.foldl_cons, addInt_wrap, ih, List.map_cons, List.sum_cons, Int.add_assoc]

/-- What is taken reaches the amount when all entries do, if its sum is an `int`. -/
theorem le_sum_reach (value : α → Int) {amount : Int} {l : List α}
    (h : amount ≤ (l.map value).sum)
    (hfits : IsInt ((reach value amount 0 l).map value).sum) :
    amount ≤ ((reach value amount 0 l).map value).sum := by
  rcases Lib.reach_enough_or (fun sum a => addInt sum (value a))
    (fun sum => decide (amount ≤ sum)) (wrap 0) l with henough | hall
  · rw [foldl_addInt, Int.zero_add] at henough
    exact (of_decide_eq_true henough).trans_eq (wrap_eq_self_iff.mpr hfits)
  · exact h.trans_eq (congrArg (fun l => (l.map value).sum) hall).symm

end Reach

end BlockchainTutorial.Bitcoin
