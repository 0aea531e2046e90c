import Mathlib.Algebra.BigOperators.Group.List.Basic
import Mathlib.Algebra.Ring.Nat
import Mathlib.Data.List.InsertIdx
import Mathlib.Data.List.Nodup
import Mathlib.Data.List.Perm.Basic
import Mathlib.Data.Nat.Init

namespace BlockchainTutorial.Lib

universe u v

/-! Entries of a list are taken out by their positions, one after another. A position is
the one that the entry had at the start only while all entries before it are there. -/

def eraseAll {α : Type u} (l : List α) (positions : List Nat) : List α :=
  positions.foldl List.eraseIdx l

theorem eraseAll_cons {α : Type u} (l : List α) (p : Nat) (ps : List Nat) :
    eraseAll l (p :: ps) = eraseAll (l.eraseIdx p) ps := rfl

theorem eraseAll_map {α : Type u} {β : Type v} (g : α → β) (l : List α) (ps : List Nat) :
    eraseAll (l.map g) ps = (eraseAll l ps).map g := by
  induction ps generalizing l with
  | nil => rfl
  | cons p ps ih => rw [eraseAll_cons, List.eraseIdx_map, ih, eraseAll_cons]

theorem eraseAll_sublist {α : Type u} (l : List α) (ps : List Nat) :
    (eraseAll l ps).Sublist l := by
  induction ps generalizing l with
  | nil => exact List.Sublist.refl _
  | cons p ps ih => exact (ih (l.eraseIdx p)).trans (List.eraseIdx_sublist l p)

theorem length_le_eraseAll {α : Type u} (l : List α) (ps : List Nat) :
    l.length ≤ (eraseAll l ps).length + ps.length := by
  induction ps generalizing l with
  | nil => exact Nat.le_refl _
  | cons p ps ih =>
      have hrest := ih (l.eraseIdx p)
      rw [eraseAll_cons, List.length_cons]
      rw [List.length_eraseIdx] at hrest
      split at hrest <;> omega

theorem map_inj_on {α : Type u} {β : Type v} {g : α → β} {l l' : List α}
    (hinj : ∀ x ∈ l, ∀ y ∈ l', g x = g y → x = y) (h : l.map g = l'.map g) : l = l' := by
  induction l generalizing l' with
  | nil => exact (List.map_eq_nil_iff.mp h.symm).symm
  | cons x l ih =>
      cases l' with
      | nil => cases h
      | cons y l' =>
          obtain ⟨hhead, htail⟩ := List.cons.inj h
          rw [hinj x List.mem_cons_self y List.mem_cons_self hhead,
            ih (fun a ha b hb => hinj a (List.mem_cons_of_mem _ ha) b
              (List.mem_cons_of_mem _ hb)) htail]

/-- A list without repetitions is what is named of it and the rest. -/
theorem perm_append_filter {α : Type u} [DecidableEq α] {l names : List α} (hl : l.Nodup)
    (hnames : names.Nodup) (hsub : names ⊆ l) :
    l.Perm (names ++ l.filter (· ∉ names)) := by
  refine (List.perm_ext_iff_of_nodup hl ?_).mpr ?_
  · refine List.Nodup.append hnames (hl.filter _) ?_
    intro x hx hrest
    simp [hx] at hrest
  · intro x
    rw [List.mem_append, List.mem_filter]
    constructor
    · intro hx
      by_cases hname : x ∈ names
      · exact .inl hname
      · exact .inr ⟨hx, decide_eq_true hname⟩
    · rintro (hname | ⟨hx, _⟩)
      · exact hsub hname
      · exact hx

/-! Increasing lists of numbers. -/

/-- What is asked of each entry that comes after only good ones is asked of the first, and
of the others if the first is good. -/
theorem forall_until_cons {α : Type u} {ok : Nat → α → Prop} {holds : α → Prop} {first : Nat}
    {a : α} {l : List α} :
    (∀ i b, (a :: l)[i]? = some b →
      (∀ j c, j < i → (a :: l)[j]? = some c → ok (first + j) c) → holds b) ↔
    holds a ∧ (ok first a → ∀ i b, l[i]? = some b →
      (∀ j c, j < i → l[j]? = some c → ok (first + 1 + j) c) → holds b) := by
  constructor
  · intro h
    refine ⟨h 0 a rfl fun j _ hj => absurd hj (Nat.not_lt_zero j), ?_⟩
    intro hok i b hi hearlier
    refine h (i + 1) b hi ?_
    intro j c hj hc
    cases j with
    | zero =>
        obtain rfl := Option.some.inj hc
        exact hok
    | succ j =>
        have hprev := hearlier j c (Nat.lt_of_succ_lt_succ hj) hc
        rwa [Nat.add_right_comm] at hprev
  · rintro ⟨hfirst, hrest⟩ i b hi hearlier
    cases i with
    | zero =>
        obtain rfl := Option.some.inj hi
        exact hfirst
    | succ i =>
        refine hrest (hearlier 0 a (Nat.succ_pos i) rfl) i b hi ?_
        intro j c hj hc
        have hprev := hearlier (j + 1) c (Nat.succ_lt_succ hj) hc
        rwa [Nat.add_right_comm]

section Increasing

variable {l : List Nat}

theorem le_getElem (hl : l.Pairwise (· < ·)) {p : Nat} (hp : p < l.length) : p ≤ l[p] := by
  induction p with
  | zero => exact Nat.zero_le _
  | succ p ih =>
      have hstep := List.pairwise_iff_getElem.mp hl p (p + 1) (by omega) hp (by omega)
      have hle := ih (by omega)
      omega

theorem getElem?_of_le (hl : l.Pairwise (· < ·)) {p q : Nat} (h : l[p]? = some p)
    (hq : q ≤ p) : l[q]? = some q := by
  induction hq using Nat.decreasingInduction with
  | self => exact h
  | of_succ q hq ih =>
      obtain ⟨hlt, heq⟩ := List.getElem?_eq_some_iff.mp ih
      have hstep := List.pairwise_iff_getElem.mp hl q (q + 1) (by omega) hlt (by omega)
      have hle := le_getElem hl (p := q) (by omega)
      rw [List.getElem?_eq_getElem (by omega), Option.some.injEq]
      omega

theorem getElem?_eq_self_iff (hl : l.Pairwise (· < ·)) {p : Nat} :
    l[p]? = some p ↔ ∀ q, q ≤ p → q ∈ l := by
  constructor
  · intro h q hq
    exact List.mem_of_getElem? (getElem?_of_le hl h hq)
  · intro h
    -- all smaller numbers stand before `p`, at their own places
    have hplace : ∀ q, q ≤ p → l[q]? = some q := by
      intro q hq
      induction q using Nat.strong_induction_on with
      | _ q ih =>
          obtain ⟨j, hj, hjq⟩ := List.mem_iff_getElem.mp (h q hq)
          have hle := le_getElem hl hj
          rcases Nat.lt_or_eq_of_le (hjq ▸ hle) with hlt | rfl
          · have hown := ih j hlt (by omega)
            rw [List.getElem?_eq_getElem hj, hjq, Option.some.injEq] at hown
            omega
          · rw [List.getElem?_eq_getElem hj, hjq]
    exact hplace p (Nat.le_refl p)

def Exact (l : List Nat) : List Nat → Prop
  | [] => True
  | p :: ps => l[p]? = some p ∧ Exact (l.eraseIdx p) ps

theorem nodup_of_increasing (hl : l.Pairwise (· < ·)) : l.Nodup :=
  hl.imp fun h => Nat.ne_of_lt h

theorem eraseIdx_increasing (hl : l.Pairwise (· < ·)) (p : Nat) :
    (l.eraseIdx p).Pairwise (· < ·) :=
  hl.sublist (List.eraseIdx_sublist l p)

theorem eraseIdx_eq_filter (hl : l.Pairwise (· < ·)) {p : Nat} (h : l[p]? = some p) :
    l.eraseIdx p = l.filter (· ≠ p) := by
  obtain ⟨hp, heq⟩ := List.getElem?_eq_some_iff.mp h
  have hnodup := nodup_of_increasing hl
  have herase := hnodup.erase_getElem p hp
  rw [heq, hnodup.erase_eq_filter] at herase
  rw [← herase]
  refine List.filter_congr fun x _ => ?_
  rw [Bool.eq_iff_iff]
  simp

theorem eraseAll_of_exact (hl : l.Pairwise (· < ·)) {ps : List Nat} (h : Exact l ps) :
    eraseAll l ps = l.filter (· ∉ ps) := by
  induction ps generalizing l with
  | nil => simp [eraseAll]
  | cons p ps ih =>
      obtain ⟨hp, hrest⟩ := h
      rw [eraseAll_cons, ih (eraseIdx_increasing hl p) hrest, eraseIdx_eq_filter hl hp,
        List.filter_filter]
      refine List.filter_congr fun x _ => ?_
      rw [Bool.eq_iff_iff]
      simp [and_comm]

/-- What is taken out at a position is not less than the position. -/
theorem sum_eraseAll (hl : l.Pairwise (· < ·)) {ps : List Nat}
    (hlength : (eraseAll l ps).length + ps.length = l.length) :
    (eraseAll l ps).sum + ps.sum ≤ l.sum ∧
      ((eraseAll l ps).sum + ps.sum = l.sum → Exact l ps) := by
  induction ps generalizing l with
  | nil => exact ⟨Nat.le_refl _, fun _ => trivial⟩
  | cons p ps ih =>
      have hall := length_le_eraseAll (l.eraseIdx p) ps
      rw [eraseAll_cons, List.length_cons] at hlength
      have hp : p < l.length := by
        by_contra hp
        rw [List.eraseIdx_of_length_le (by omega)] at hall hlength
        omega
      rw [List.length_eraseIdx_of_lt hp] at hall
      have hperm := (List.getElem_cons_eraseIdx_perm hp).sum_eq
      rw [List.sum_cons] at hperm
      have hle := le_getElem hl hp
      obtain ⟨hsum, hexact⟩ := ih (eraseIdx_increasing hl p)
        (by rw [List.length_eraseIdx_of_lt hp]; omega)
      rw [eraseAll_cons, List.sum_cons]
      refine ⟨by omega, fun heq => ⟨?_, hexact (by omega)⟩⟩
      rw [List.getElem?_eq_getElem hp, Option.some.injEq]
      omega

/-- To take out by position is to take out by name only if every position is exact. -/
theorem eraseAll_eq_filter_iff (hl : l.Pairwise (· < ·)) {ps : List Nat} (hps : ps.Nodup)
    (hsub : ps ⊆ l) : eraseAll l ps = l.filter (· ∉ ps) ↔ Exact l ps := by
  constructor
  · intro heq
    have hperm := perm_append_filter (nodup_of_increasing hl) hps hsub
    have hlength := hperm.length_eq
    have hsum := hperm.sum_eq
    rw [List.length_append] at hlength
    rw [List.sum_append] at hsum
    refine (sum_eraseAll hl ?_).2 ?_
    · rw [heq]
      omega
    · rw [heq]
      omega
  · exact eraseAll_of_exact hl

theorem exact_iff (hl : l.Pairwise (· < ·)) {ps : List Nat} (hps : ps.Nodup)
    (hsub : ps ⊆ l) : Exact l ps ↔ ∀ front p back, ps = front ++ p :: back →
      ∀ q, q < p → q ∈ l ∧ q ∉ front := by
  induction ps generalizing l with
  | nil => simp [Exact]
  | cons p ps ih =>
      obtain ⟨hp, hps⟩ := List.nodup_cons.mp hps
      have hmem := hsub List.mem_cons_self
      have hsub' : ps ⊆ l.filter (· ≠ p) := by
        intro x hx
        refine List.mem_filter.mpr ⟨hsub (List.mem_cons_of_mem _ hx), decide_eq_true ?_⟩
        rintro rfl
        exact hp hx
      constructor
      · rintro ⟨hself, hexact⟩ front p' back heq q hq
        rw [eraseIdx_eq_filter hl hself] at hexact
        cases front with
        | nil =>
            obtain ⟨rfl, rfl⟩ := List.cons.inj heq
            exact ⟨(getElem?_eq_self_iff hl).mp hself q (Nat.le_of_lt hq), by simp⟩
        | cons first front =>
            obtain ⟨rfl, htail⟩ := List.cons.inj heq
            obtain ⟨hql, hqfront⟩ :=
              (ih (hl.filter _) hps hsub').mp hexact front p' back htail q hq
            simp only [List.mem_filter, decide_eq_true_eq] at hql
            exact ⟨hql.1, by simp [hql.2, hqfront]⟩
      · intro h
        have hself : l[p]? = some p := by
          refine (getElem?_eq_self_iff hl).mpr ?_
          intro q hq
          rcases Nat.lt_or_eq_of_le hq with hlt | rfl
          · exact (h [] p ps rfl q hlt).1
          · exact hmem
        refine ⟨hself, ?_⟩
        rw [eraseIdx_eq_filter hl hself]
        refine (ih (hl.filter _) hps hsub').mpr ?_
        intro front p' back heq q hq
        obtain ⟨hql, hqfront⟩ := h (p :: front) p' back (by rw [heq]; rfl) q hq
        rw [List.mem_cons, not_or] at hqfront
        exact ⟨List.mem_filter.mpr ⟨hql, decide_eq_true hqfront.1⟩, hqfront.2⟩

end Increasing

end BlockchainTutorial.Lib
