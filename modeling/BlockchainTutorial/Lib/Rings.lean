import Mathlib.Data.Set.Finite.List
import Mathlib.Logic.Relation

namespace BlockchainTutorial.Lib

universe u

variable {α : Type u} {r r' : α → α → Prop}

/-! Rings of a relation, such as those of processes that wait for each other. -/

def OnRing (r : α → α → Prop) (a : α) : Prop := Relation.TransGen r a a

namespace OnRing

theorem next {a : α} (h : OnRing r a) : ∃ b, r a b ∧ OnRing r b := by
  obtain ⟨b, hab, hba⟩ := Relation.TransGen.head'_iff.mp h
  exact ⟨b, hab, Relation.TransGen.tail' hba hab⟩

/-- A ring is made of pairs whose members are both on a ring. -/
theorem mono {a : α} (h : OnRing r a)
    (himp : ∀ b c, r b c → OnRing r b → OnRing r c → r' b c) : OnRing r' a := by
  have hpath : ∀ c, Relation.TransGen r a c → Relation.ReflTransGen r c a →
      Relation.TransGen r' a c := by
    intro c hac
    induction hac with
    | single hac =>
        intro hca
        exact .single (himp _ _ hac h (Relation.TransGen.tail' hca hac))
    | @tail b c hab hbc ih =>
        intro hca
        have hba : Relation.ReflTransGen r b a := .head hbc hca
        have hb : OnRing r b := hab.trans_right hba
        have hc : OnRing r c := Relation.TransGen.tail' (hca.trans hab.to_reflTransGen) hbc
        exact .tail (ih hba) (himp b c hbc hb hc)
  exact hpath a h .refl

end OnRing

/-- Where every node of a finite set leads to one of the set, some are on a ring. -/
theorem exists_onRing {nodes : List α} (hne : nodes ≠ [])
    (hnext : ∀ a ∈ nodes, ∃ b ∈ nodes, r a b) : ∃ a ∈ nodes, OnRing r a := by
  by_contra hnone
  push Not at hnone
  have hirrefl : Std.Irrefl (Relation.TransGen
      (InvImage (Function.swap r) (Subtype.val : {a // a ∈ nodes} → α))) := by
    refine ⟨fun a haa => hnone a.1 a.2 ?_⟩
    exact Relation.transGen_swap.mp (haa.lift Subtype.val fun _ _ h => h)
  have hfinite : Finite {a // a ∈ nodes} := (List.finite_toSet nodes).to_subtype
  have hfounded := Finite.wellFounded_of_trans_of_irrefl (Relation.TransGen
    (InvImage (Function.swap r) (Subtype.val : {a // a ∈ nodes} → α)))
  have hnever (node : {a // a ∈ nodes}) : False := by
    induction node using hfounded.induction with
    | _ a ih =>
        obtain ⟨b, hb, hab⟩ := hnext a.1 a.2
        exact ih ⟨b, hb⟩ (.single hab)
  obtain ⟨a, hmem⟩ := List.exists_mem_of_ne_nil nodes hne
  exact hnever ⟨a, hmem⟩

end BlockchainTutorial.Lib
