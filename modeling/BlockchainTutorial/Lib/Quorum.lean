import Mathlib.Data.Fintype.Card

namespace BlockchainTutorial.Lib

universe u

variable {α : Type u}

/-! Quorums among a finite set of members. -/

section Finset

variable [DecidableEq α]

/-- Two sets of members that are large enough share one outside a given set. -/
theorem exists_common_of_card {members first second bad : Finset α}
    (hfirst : first ⊆ members) (hsecond : second ⊆ members)
    (h : members.card + bad.card < first.card + second.card) :
    ∃ member, member ∈ first ∧ member ∈ second ∧ member ∉ bad := by
  have hlarge : members.card < (first \ bad).card + second.card := by
    have hdiff := Finset.le_card_sdiff bad first
    omega
  obtain ⟨member, hmember⟩ := Finset.inter_nonempty_of_card_lt_card_add_card
    (Finset.sdiff_subset.trans hfirst) hsecond hlarge
  obtain ⟨hmem, hmem'⟩ := Finset.mem_inter.mp hmember
  obtain ⟨hmem, hbad⟩ := Finset.mem_sdiff.mp hmem
  exact ⟨member, hmem, hmem', hbad⟩

end Finset

section Fintype

variable [Fintype α]

def Majority (members : Finset α) : Prop :=
  Fintype.card α / 2 < members.card

theorem Majority.exists_common [DecidableEq α] {first second : Finset α}
    (hfirst : Majority first) (hsecond : Majority second) :
    ∃ member, member ∈ first ∧ member ∈ second := by
  have hcard : (Finset.univ : Finset α).card + (∅ : Finset α).card <
      first.card + second.card := by
    unfold Majority at hfirst hsecond
    rw [Finset.card_empty, Finset.card_univ]
    omega
  obtain ⟨member, hmem, hmem', _⟩ := exists_common_of_card (Finset.subset_univ first)
    (Finset.subset_univ second) hcard
  exact ⟨member, hmem, hmem'⟩

end Fintype

end BlockchainTutorial.Lib
