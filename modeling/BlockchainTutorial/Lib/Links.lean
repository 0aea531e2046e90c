import Mathlib.Data.List.Basic

namespace BlockchainTutorial.Lib

universe u v w z

/-! Nodes that are stored under keys, and name the key of the next one. -/

structure Links (κ : Type u) (ν : Type v) where
  get : κ → Option ν
  next : ν → Option κ

namespace Links

variable {κ : Type u} {ν : Type v} {σ : Type w} {ρ : Type z}

/-- The nodes from a key on, to one that names no next. -/
inductive Path (links : Links κ ν) : κ → List ν → Prop
  | last {key : κ} {node : ν} (hget : links.get key = some node)
      (hnext : links.next node = none) : Path links key [node]
  | cons {key key' : κ} {node : ν} {nodes : List ν} (hget : links.get key = some node)
      (hnext : links.next node = some key') (hrest : Path links key' nodes) :
      Path links key (node :: nodes)

/-- The loop that reads node after node, and leaves early when `body` gives a result. -/
def loop (links : Links κ ν) (body : σ → ν → σ ⊕ ρ) (done : σ → ρ) :
    Nat → κ → σ → Option ρ
  | 0, _, _ => none
  | fuel + 1, key, s =>
      match links.get key with
      | none => none
      | some node =>
          match body s node with
          | .inr r => some r
          | .inl s =>
              match links.next node with
              | none => some (done s)
              | some key => loop links body done fuel key s

/-- The same over the list of the nodes. -/
def through (body : σ → ν → σ ⊕ ρ) (done : σ → ρ) : List ν → σ → ρ
  | [], s => done s
  | node :: nodes, s =>
      match body s node with
      | .inr r => r
      | .inl s => through body done nodes s

theorem through_foldl (f : σ → ν → σ) (done : σ → ρ) (nodes : List ν) (s : σ) :
    through (fun s node => .inl (f s node)) done nodes s = done (nodes.foldl f s) := by
  induction nodes generalizing s with
  | nil => rfl
  | cons node nodes ih => exact ih (f s node)

namespace Path

variable {links links' : Links κ ν} {key : κ} {nodes nodes' : List ν}

theorem head (h : Path links key nodes) : ∃ node rest, nodes = node :: rest ∧
    links.get key = some node := by
  cases h with
  | last hget => exact ⟨_, _, rfl, hget⟩
  | cons hget => exact ⟨_, _, rfl, hget⟩

theorem unique (h : Path links key nodes) (h' : Path links key nodes') : nodes = nodes' := by
  induction h generalizing nodes' with
  | last hget hnext =>
      cases h' with
      | last hget' =>
          rw [hget] at hget'
          cases hget'
          rfl
      | cons hget' hnext' =>
          rw [hget] at hget'
          cases hget'
          rw [hnext] at hnext'
          cases hnext'
  | cons hget hnext _ ih =>
      cases h' with
      | last hget' hnext' =>
          rw [hget] at hget'
          cases hget'
          rw [hnext] at hnext'
          cases hnext'
      | cons hget' hnext' hrest' =>
          rw [hget] at hget'
          cases hget'
          rw [hnext] at hnext'
          cases hnext'
          rw [ih hrest']

/-- Only what is stored for the nodes of the path counts. -/
theorem mono_of_mem (h : Path links key nodes)
    (hget : ∀ key, ∀ node ∈ nodes, links.get key = some node → links'.get key = some node)
    (hnext : links'.next = links.next) : Path links' key nodes := by
  induction h with
  | last hkey hlast =>
      exact .last (hget _ _ List.mem_cons_self hkey) (by rw [hnext, hlast])
  | cons hkey hlink _ ih =>
      exact .cons (hget _ _ List.mem_cons_self hkey) (by rw [hnext, hlink])
        (ih fun key node hmem => hget key node (List.mem_cons_of_mem _ hmem))

theorem mono (h : Path links key nodes)
    (hget : ∀ key node, links.get key = some node → links'.get key = some node)
    (hnext : links'.next = links.next) : Path links' key nodes :=
  h.mono_of_mem (fun key node _ => hget key node) hnext

/-- The path goes on from each of its nodes. -/
theorem exists_suffix (h : Path links key nodes) {node : ν} (hmem : node ∈ nodes) :
    ∃ key rest, links.get key = some node ∧ Path links key (node :: rest) ∧
      rest.length < nodes.length := by
  induction h with
  | last hget hnext =>
      obtain rfl := List.mem_singleton.mp hmem
      exact ⟨_, [], hget, .last hget hnext, Nat.zero_lt_one⟩
  | cons hget hnext hrest ih =>
      rcases List.mem_cons.mp hmem with rfl | hmem
      · exact ⟨_, _, hget, .cons hget hnext hrest, Nat.lt_succ_self _⟩
      · obtain ⟨key, rest, hnode, hsuffix, hlength⟩ := ih hmem
        exact ⟨key, rest, hnode, hsuffix, Nat.lt_succ_of_lt hlength⟩

theorem get_of_mem (h : Path links key nodes) {node : ν} (hmem : node ∈ nodes) :
    ∃ key, links.get key = some node := by
  obtain ⟨key, _, hget, _⟩ := h.exists_suffix hmem
  exact ⟨key, hget⟩

/-- The first node does not come again. -/
theorem not_mem_tail {node : ν} (h : Path links key (node :: nodes)) : node ∉ nodes := by
  intro hmem
  cases h with
  | last => cases hmem
  | cons _ hnext hrest =>
      obtain ⟨_, rest, _, hsuffix, hlength⟩ := hrest.exists_suffix hmem
      cases hsuffix with
      | last _ hnone =>
          rw [hnext] at hnone
          cases hnone
      | cons _ hnext' hrest' =>
          rw [hnext] at hnext'
          cases hnext'
          rw [hrest.unique hrest'] at hlength
          exact Nat.lt_irrefl _ hlength

/-- The loop ends after as many rounds as there are nodes. -/
theorem loop_eq (h : Path links key nodes) (body : σ → ν → σ ⊕ ρ) (done : σ → ρ)
    {fuel : Nat} (hfuel : nodes.length ≤ fuel) (s : σ) :
    links.loop body done fuel key s = some (through body done nodes s) := by
  induction h generalizing fuel s with
  | last hget hnext =>
      obtain ⟨fuel, rfl⟩ := Nat.exists_eq_add_of_le' hfuel
      simp only [loop, through, List.length_singleton, hget, hnext]
      split <;> rfl
  | cons hget hnext _ ih =>
      obtain ⟨fuel, rfl⟩ := Nat.exists_eq_add_of_le' hfuel
      simp only [List.length_cons, ← Nat.add_assoc, loop, through, hget, hnext]
      split
      · rfl
      · exact ih (Nat.le_add_left _ _) _

end Path

/-- A loop that does not leave early comes to an end on a path only. -/
theorem exists_path_of_loop {links : Links κ ν} {f : σ → ν → σ} {done : σ → ρ} {fuel : Nat}
    {key : κ} {s : σ} {r : ρ}
    (h : links.loop (fun s node => .inl (f s node)) done fuel key s = some r) :
    ∃ nodes, links.Path key nodes ∧ nodes.length ≤ fuel ∧ r = done (nodes.foldl f s) := by
  induction fuel generalizing key s with
  | zero => cases h
  | succ fuel ih =>
      cases hget : links.get key with
      | none =>
          simp only [loop, hget] at h
          cases h
      | some node =>
          cases hnext : links.next node with
          | none =>
              simp only [loop, hget, hnext] at h
              cases h
              exact ⟨[node], .last hget hnext, Nat.le_add_left _ _, rfl⟩
          | some key' =>
              simp only [loop, hget, hnext] at h
              obtain ⟨nodes, hpath, hlength, hdone⟩ := ih h
              exact ⟨node :: nodes, .cons hget hnext hpath, Nat.succ_le_succ hlength, hdone⟩

end Links

end BlockchainTutorial.Lib
