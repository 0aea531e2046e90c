import Mathlib.Data.List.MinMax
import Mathlib.Data.List.Sort
import BlockchainTutorial.Lib.Greedy

namespace BlockchainTutorial.Bitcoin.SelectUtxo

/-! `select-utxo.py`. -/

structure OutputInfo where
  txHash : String
  txIndex : Nat
  value : Nat
  deriving DecidableEq

/-- The values that are returned: `None`, `(None, 0)`, or outputs and a text. -/
inductive Selected where
  | none
  | noResults
  | outputs (result : List OutputInfo) (change : String)
  deriving DecidableEq

def changeText (change : Nat) : String :=
  "Change: " ++ toString change ++ " Satoshis"

/-- The loop over the sorted lessers. -/
def gatherOutputs (minValue : Nat) : List OutputInfo → List OutputInfo → Nat → Selected
  | [], _, _ => .noResults
  | utxo :: lessers, result, accum =>
      if accum + utxo.value ≥ minValue then
        .outputs (result ++ [utxo]) (changeText (accum + utxo.value - minValue))
      else gatherOutputs minValue lessers (result ++ [utxo]) (accum + utxo.value)

/-- The biggest come first, and equal ones keep their order. -/
def biggestFirst (lessers : List OutputInfo) : List OutputInfo :=
  lessers.insertionSort fun first second => second.value ≤ first.value

def selectOutputsGreedy (unspent : List OutputInfo) (minValue : Nat) : Selected :=
  if unspent = [] then .none
  else
    let lessers := unspent.filter fun utxo => utxo.value < minValue
    let greaters := unspent.filter fun utxo => utxo.value ≥ minValue
    match greaters.argmin OutputInfo.value with
    | some minGreater => .outputs [minGreater] (changeText (minGreater.value - minValue))
    | none => gatherOutputs minValue (biggestFirst lessers) [] 0

def totalValue (outputs : List OutputInfo) : Nat :=
  (outputs.map OutputInfo.value).sum

/-- Outputs that can be spent together for the value. -/
structure Pays (unspent : List OutputInfo) (minValue : Nat) (outputs : List OutputInfo) :
    Prop where
  nonempty : outputs ≠ []
  available : outputs.Subperm unspent
  enough : minValue ≤ totalValue outputs

/-- What the comments of `select_outputs_greedy` ask of its results. -/
def Optimal (unspent : List OutputInfo) (minValue : Nat) : Selected → Prop
  | .outputs result text =>
      Pays unspent minValue result ∧ text = changeText (totalValue result - minValue) ∧
        ∀ other, Pays unspent minValue other →
          result.length ≤ other.length ∧
            (other.length = 1 → totalValue result ≤ totalValue other)
  | .none => unspent = []
  | .noResults => ∀ other, ¬ Pays unspent minValue other

@[simp] theorem totalValue_append (outputs more : List OutputInfo) :
    totalValue (outputs ++ more) = totalValue outputs + totalValue more := by
  simp [totalValue]

@[simp] theorem totalValue_singleton (output : OutputInfo) :
    totalValue [output] = output.value := by
  simp [totalValue]

/-- The loop stops at the first of the sums that is enough. -/
inductive Gathered (minValue : Nat) (outputs : List OutputInfo) : Selected → Prop where
  | enough (n : Nat) (pos : 0 < n) (bound : n ≤ outputs.length)
      (paid : minValue ≤ totalValue (outputs.take n))
      (least : ∀ m, 0 < m → m < n → totalValue (outputs.take m) < minValue) :
      Gathered minValue outputs (.outputs (outputs.take n)
        (changeText (totalValue (outputs.take n) - minValue)))
  | short (least : ∀ m, 0 < m → m ≤ outputs.length → totalValue (outputs.take m) < minValue) :
      Gathered minValue outputs .noResults

theorem gathered_from {minValue : Nat} (lessers result : List OutputInfo)
    (hleast : ∀ m, 0 < m → m ≤ result.length →
      totalValue ((result ++ lessers).take m) < minValue) :
    Gathered minValue (result ++ lessers)
      (gatherOutputs minValue lessers result (totalValue result)) := by
  induction lessers generalizing result with
  | nil =>
      rw [List.append_nil] at hleast ⊢
      exact .short hleast
  | cons utxo lessers ih =>
      have hsum : totalValue result + utxo.value = totalValue (result ++ [utxo]) := by
        rw [totalValue_append, totalValue_singleton]
      have hsplit : result ++ utxo :: lessers = result ++ [utxo] ++ lessers := by simp
      have htake : (result ++ utxo :: lessers).take (result.length + 1) = result ++ [utxo] := by
        rw [hsplit, List.take_left' (by simp)]
      rw [gatherOutputs, hsum]
      split
      · rename_i hpaid
        rw [← htake] at hpaid ⊢
        refine .enough (result.length + 1) (Nat.succ_pos _) (by simp) hpaid ?_
        exact fun m hpos hm => hleast m hpos (Nat.le_of_lt_succ hm)
      · rename_i hshort
        rw [hsplit] at hleast htake ⊢
        refine ih (result ++ [utxo]) ?_
        intro m hpos hm
        rw [List.length_append, List.length_singleton] at hm
        rcases Nat.lt_succ_iff_lt_or_eq.mp (Nat.lt_succ_of_le hm) with hlt | rfl
        · exact hleast m hpos (Nat.le_of_lt_succ hlt)
        · rw [htake]
          omega

theorem gathered (minValue : Nat) (lessers : List OutputInfo) :
    Gathered minValue lessers (gatherOutputs minValue lessers [] 0) :=
  gathered_from lessers [] fun m hpos hm => absurd hm (by simpa using hpos.ne')

theorem biggestFirst_sorted (lessers : List OutputInfo) :
    (biggestFirst lessers).Pairwise fun first second => second.value ≤ first.value :=
  List.pairwise_insertionSort _ lessers

theorem biggestFirst_perm (lessers : List OutputInfo) : (biggestFirst lessers).Perm lessers :=
  List.perm_insertionSort _ lessers

/-- Fewer outputs than the biggest that are too few do not pay. -/
theorem length_le_of_pays {unspent sorted : List OutputInfo} {minValue n : Nat}
    (hsorted : sorted.Pairwise fun first second => second.value ≤ first.value)
    (hperm : sorted.Perm unspent)
    (hleast : ∀ m, 0 < m → m < n → totalValue (sorted.take m) < minValue)
    {other : List OutputInfo} (h : Pays unspent minValue other) : n ≤ other.length := by
  by_contra hfew
  have hsub : other.Subperm sorted := h.available.trans hperm.symm.subperm
  have hbest : totalValue other ≤ totalValue (sorted.take other.length) :=
    Lib.sum_le_sum_take OutputInfo.value hsorted hsub
  have hshort := hleast other.length (List.length_pos_iff.mpr h.nonempty) (by omega)
  have henough := h.enough
  omega

theorem optimal_of_greater {unspent : List OutputInfo} {minValue : Nat}
    {minGreater : OutputInfo} (hmem : minGreater ∈ unspent) (hvalue : minValue ≤ minGreater.value)
    (hmin : ∀ utxo ∈ unspent, minValue ≤ utxo.value → minGreater.value ≤ utxo.value) :
    Optimal unspent minValue
      (.outputs [minGreater] (changeText (minGreater.value - minValue))) := by
  refine ⟨⟨List.cons_ne_nil _ _, List.singleton_subperm_iff.mpr hmem, by simpa⟩,
    by rw [totalValue_singleton], ?_⟩
  intro other hother
  refine ⟨List.length_pos_iff.mpr hother.nonempty, fun hone => ?_⟩
  obtain ⟨utxo, rfl⟩ := List.length_eq_one_iff.mp hone
  have henough := hother.enough
  rw [totalValue_singleton] at henough
  rw [totalValue_singleton, totalValue_singleton]
  exact hmin utxo (List.singleton_subperm_iff.mp hother.available) henough

theorem optimal_of_gathered {unspent sorted : List OutputInfo} {minValue : Nat}
    (hall : ∀ utxo ∈ unspent, utxo.value < minValue)
    (hsorted : sorted.Pairwise fun first second => second.value ≤ first.value)
    (hperm : sorted.Perm unspent) {selected : Selected}
    (h : Gathered minValue sorted selected) : Optimal unspent minValue selected := by
  cases h with
  | enough n hpos hbound hpaid hleast =>
      have hlength : (sorted.take n).length = n := by
        rw [List.length_take, Nat.min_eq_left hbound]
      refine ⟨⟨?_, (List.take_sublist n sorted).subperm.trans hperm.subperm, hpaid⟩, rfl, ?_⟩
      · rw [← List.length_pos_iff, hlength]
        exact hpos
      · intro other hother
        refine ⟨hlength.trans_le (length_le_of_pays hsorted hperm hleast hother), fun hone => ?_⟩
        obtain ⟨utxo, rfl⟩ := List.length_eq_one_iff.mp hone
        have henough := hother.enough
        rw [totalValue_singleton] at henough
        exact absurd (hall utxo (List.singleton_subperm_iff.mp hother.available))
          (Nat.not_lt.mpr henough)
  | short hleast =>
      intro other hother
      have hfew := length_le_of_pays (n := sorted.length + 1) hsorted hperm
        (fun m hpos hm => hleast m hpos (Nat.le_of_lt_succ hm)) hother
      have hle := hother.available.length_le
      rw [hperm.length_eq] at hfew
      omega

/-- The selection pays with the fewest outputs that do, and with the least change if one
output pays. It fails only if no outputs pay. -/
theorem select_optimal (unspent : List OutputInfo) (minValue : Nat) :
    Optimal unspent minValue (selectOutputsGreedy unspent minValue) := by
  unfold selectOutputsGreedy
  split
  · rename_i hempty
    exact hempty
  · dsimp only
    cases hgreater : (unspent.filter fun utxo => utxo.value ≥ minValue).argmin
        OutputInfo.value with
    | some minGreater =>
        obtain ⟨hmem, hmin, _⟩ := List.mem_argmin_iff.mp hgreater
        obtain ⟨hmem, hvalue⟩ := List.mem_filter.mp hmem
        refine optimal_of_greater hmem (of_decide_eq_true hvalue) ?_
        intro utxo hutxo hpays
        exact hmin utxo (List.mem_filter.mpr ⟨hutxo, decide_eq_true hpays⟩)
    | none =>
        have hall : ∀ utxo ∈ unspent, utxo.value < minValue := by
          intro utxo hutxo
          by_contra hbig
          have hnone := List.filter_eq_nil_iff.mp (List.argmin_eq_none.mp hgreater) utxo hutxo
          exact hnone (decide_eq_true (Nat.le_of_not_lt hbig))
        have hlessers : (unspent.filter fun utxo => utxo.value < minValue) = unspent :=
          List.filter_eq_self.mpr fun utxo hutxo => decide_eq_true (hall utxo hutxo)
        rw [hlessers]
        exact optimal_of_gathered hall (biggestFirst_sorted unspent) (biggestFirst_perm unspent)
          (gathered minValue _)

end BlockchainTutorial.Bitcoin.SelectUtxo
