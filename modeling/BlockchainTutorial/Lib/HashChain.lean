import Mathlib.Data.List.Basic

namespace BlockchainTutorial.Lib

/-! Lists of blocks, the newest first, in which each block names the digest of the block
before it. -/

universe u v w

variable {α : Type u} {δ : Type v} {β : Type w}

inductive HashChain (digest : α → δ) (prev : α → Option δ) : List α → Prop
  | genesis {block : α} (hprev : prev block = none) : HashChain digest prev [block]
  | cons {block last : α} {rest : List α} (hprev : prev block = some (digest last))
      (hrest : HashChain digest prev (last :: rest)) :
      HashChain digest prev (block :: last :: rest)

namespace HashChain

variable {digest : α → δ} {prev : α → Option δ}

/-- Chains with one digest at the top have the same content, if the digest tells the content
of their blocks apart and the content tells the digest of the block before. -/
theorem content_eq (content : α → β) {blocks blocks' : List α} {top top' : α}
    (h : HashChain digest prev (top :: blocks)) (h' : HashChain digest prev (top' :: blocks'))
    (hcontent : ∀ b ∈ top :: blocks, ∀ b' ∈ top' :: blocks', digest b = digest b' →
      content b = content b')
    (hprev : ∀ b ∈ top :: blocks, ∀ b' ∈ top' :: blocks', content b = content b' →
      prev b = prev b')
    (htop : digest top = digest top') :
    (top :: blocks).map content = (top' :: blocks').map content := by
  induction blocks generalizing top top' blocks' with
  | nil =>
      have hsame := hcontent top List.mem_cons_self top' List.mem_cons_self htop
      have hnamed := hprev top List.mem_cons_self top' List.mem_cons_self hsame
      cases h with
      | genesis hnone =>
          cases h' with
          | genesis _ => rw [List.map_singleton, List.map_singleton, hsame]
          | cons hsome _ =>
              rw [hnone, hsome] at hnamed
              cases hnamed
  | cons last rest ih =>
      have hsame := hcontent top List.mem_cons_self top' List.mem_cons_self htop
      have hnamed := hprev top List.mem_cons_self top' List.mem_cons_self hsame
      cases h with
      | cons hsome hrest =>
          cases h' with
          | genesis hnone =>
              rw [hnone, hsome] at hnamed
              cases hnamed
          | cons hsome' hrest' =>
              rw [hsome, hsome', Option.some.injEq] at hnamed
              rw [List.map_cons, List.map_cons (l := _ :: _), hsame]
              congr 1
              exact ih hrest hrest'
                (fun b hb b' hb' => hcontent b (List.mem_cons_of_mem _ hb) b'
                  (List.mem_cons_of_mem _ hb'))
                (fun b hb b' hb' => hprev b (List.mem_cons_of_mem _ hb) b'
                  (List.mem_cons_of_mem _ hb')) hnamed

/-- Chains with the same texts have the same digests, if the digest is made from the text and
the digest of the block before. -/
theorem digest_eq (text : α → β) {blocks blocks' : List α} (h : HashChain digest prev blocks)
    (h' : HashChain digest prev blocks')
    (hdigest : ∀ b ∈ blocks, ∀ b' ∈ blocks', prev b = prev b' → text b = text b' →
      digest b = digest b')
    (htext : blocks.map text = blocks'.map text) : blocks.map digest = blocks'.map digest := by
  induction h generalizing blocks' with
  | @genesis block hnone =>
      cases h' with
      | @genesis block' hnone' =>
          rw [List.map_singleton, List.map_singleton, List.singleton_inj] at htext
          rw [List.map_singleton, List.map_singleton, hdigest block (List.mem_singleton_self _)
            block' (List.mem_singleton_self _) (hnone.trans hnone'.symm) htext]
      | cons _ _ => cases List.eq_nil_of_map_eq_nil (List.cons.inj htext).2.symm
  | @cons block last rest hsome hrest ih =>
      cases h' with
      | genesis _ => cases List.eq_nil_of_map_eq_nil (List.cons.inj htext).2
      | @cons block' last' rest' hsome' hrest' =>
          obtain ⟨hblock, hbelow⟩ := List.cons.inj htext
          have hsame := ih hrest' (fun b hb b' hb' => hdigest b (List.mem_cons_of_mem _ hb) b'
            (List.mem_cons_of_mem _ hb')) hbelow
          have hprev : prev block = prev block' := by
            rw [hsome, hsome', (List.cons.inj hsame).1]
          rw [List.map_cons, List.map_cons (l := last' :: rest'), hsame, hdigest block
            List.mem_cons_self block' List.mem_cons_self hprev hblock]

/-! Chains with the oldest block first, as they grow. -/

theorem append {blocks : List α} {last block : α} (h : HashChain digest prev blocks.reverse)
    (hlast : blocks.getLast? = some last) (hprev : prev block = some (digest last)) :
    HashChain digest prev (blocks ++ [block]).reverse := by
  obtain ⟨front, rfl⟩ := List.getLast?_eq_some_iff.mp hlast
  rw [List.reverse_append, List.reverse_singleton, List.singleton_append] at h
  rw [List.reverse_append, List.reverse_append, List.reverse_singleton, List.reverse_singleton,
    List.singleton_append, List.singleton_append]
  exact .cons hprev h

theorem content_eq_of_last (content : α → β) {blocks blocks' : List α}
    (h : HashChain digest prev blocks.reverse) (h' : HashChain digest prev blocks'.reverse)
    (hcontent : ∀ b ∈ blocks, ∀ b' ∈ blocks', digest b = digest b' → content b = content b')
    (hprev : ∀ b ∈ blocks, ∀ b' ∈ blocks', content b = content b' → prev b = prev b')
    (hlast : blocks.getLast?.map digest = blocks'.getLast?.map digest) :
    blocks.map content = blocks'.map content := by
  rw [← List.head?_reverse, ← List.head?_reverse] at hlast
  rw [← List.reverse_inj, ← List.map_reverse, ← List.map_reverse]
  have hmem : ∀ b ∈ blocks.reverse, b ∈ blocks := fun _ => List.mem_reverse.mp
  have hmem' : ∀ b ∈ blocks'.reverse, b ∈ blocks' := fun _ => List.mem_reverse.mp
  generalize blocks.reverse = newest at h hlast hmem
  generalize blocks'.reverse = newest' at h' hlast hmem'
  cases newest with
  | nil => cases h
  | cons top rest =>
      cases newest' with
      | nil => cases h'
      | cons top' rest' =>
          exact h.content_eq content h'
            (fun b hb b' hb' => hcontent b (hmem b hb) b' (hmem' b' hb'))
            (fun b hb b' hb' => hprev b (hmem b hb) b' (hmem' b' hb')) (Option.some.inj hlast)

theorem last_digest_eq (text : α → β) {blocks blocks' : List α}
    (h : HashChain digest prev blocks.reverse) (h' : HashChain digest prev blocks'.reverse)
    (hdigest : ∀ b ∈ blocks, ∀ b' ∈ blocks', prev b = prev b' → text b = text b' →
      digest b = digest b')
    (htext : blocks.map text = blocks'.map text) :
    blocks.getLast?.map digest = blocks'.getLast?.map digest := by
  have hsame := h.digest_eq text h' (fun b hb b' hb' => hdigest b (List.mem_reverse.mp hb) b'
    (List.mem_reverse.mp hb')) (by rw [List.map_reverse, List.map_reverse, htext])
  rw [← List.getLast?_map, ← List.getLast?_map, ← List.head?_reverse, ← List.head?_reverse,
    ← List.map_reverse, ← List.map_reverse, hsame]

end HashChain

end BlockchainTutorial.Lib
