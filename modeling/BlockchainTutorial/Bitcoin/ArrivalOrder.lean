import Mathlib.Data.List.Basic
import BlockchainTutorial.Bitcoin.TipHeight

namespace BlockchainTutorial.Bitcoin

/-! The order in which blocks come in. -/

namespace BlockStore

def addBlocks (decode : Bytes → Option Block) (store : BlockStore) (blocks : List Block) :
    Option BlockStore :=
  blocks.foldlM (fun store block => store.addBlock decode block) store

variable {decode : Bytes → Option Block} {store store' : BlockStore} {height height' : Int}

@[simp] theorem addBlocks_nil : store.addBlocks decode [] = some store := rfl

@[simp] theorem addBlocks_cons (block : Block) (rest : List Block) :
    store.addBlocks decode (block :: rest) =
      (store.addBlock decode block).bind fun store => store.addBlocks decode rest := rfl

/-- The tip is as it was before the blocks came in, or is one of them and higher. -/
inductive TipMoved (store store' : BlockStore) (height height' : Int) : Prop
  | kept (hlast : store'.last = store.last) (htip : store'.tip = store.tip)
      (hheight : height' = height)
  | moved (hash : Bytes) (block : Block) (hlast : store'.last = hash)
      (htip : store'.tip = hash) (hget : store'.blocks.get hash = some block)
      (hheight : block.height = height') (hlt : height < height')

theorem TipHighest.unique (h : TipHighest decode store height)
    (h' : TipHighest decode store' height')
    (hsame : ∀ hash, store.blocks.get hash = store'.blocks.get hash) : height = height' := by
  obtain ⟨hash, block, hget, hheight⟩ := h.attained
  obtain ⟨hash', block', hget', hheight'⟩ := h'.attained
  have hle := h'.highest hash block (hsame hash ▸ hget)
  have hge := h.highest hash' block' (hsame hash' ▸ hget')
  omega

theorem ne_lastKey_of_length {hash : Bytes} (h : hash.length = 32) : hash ≠ lastKey := by
  rintro rfl
  cases h

theorem TipHighest.exists_lastBlock (h : TipHighest decode store height) :
    ∃ block, store.get decode store.last = some block ∧ block.height = height :=
  Option.map_eq_some_iff.mp h.best

theorem storable_of_length {hash : Bytes} (h : hash.length = 32) : Storable hash := by
  refine ⟨?_, by rw [h]; decide⟩
  rintro rfl
  cases h

/-- Reading the tip gives the same block after a new block is stored. -/
theorem get_last_put {block lastBlock : Block}
    (hnew : store.blocks.get block.hash = none)
    (hlast : store.get decode store.last = some lastBlock) :
    BlockStore.get decode { store with blocks := store.blocks.set block.hash (some block) }
      store.last = some lastBlock := by
  unfold BlockStore.get at hlast ⊢
  split
  · rename_i heq
    rwa [if_pos heq] at hlast
  · rename_i hne
    rw [if_neg hne] at hlast
    have hother : store.last ≠ block.hash := by
      intro heq
      rw [heq, hnew] at hlast
      cases hlast
    rw [Lib.Mapping.get_set_of_ne _ _ hother]
    exact hlast

/-- What is stored when blocks come in, of which the first one of a hash is kept. -/
def stored (store : BlockStore) (blocks : List Block) (hash : Bytes) : Option Block :=
  (store.blocks.get hash).or (blocks.find? fun block => block.hash = hash)

theorem get_set_eq_stored {block : Block} (hnew : store.blocks.get block.hash = none)
    (hash : Bytes) :
    (store.blocks.set block.hash (some block)).get hash = store.stored [block] hash := by
  unfold stored
  by_cases heq : hash = block.hash
  · subst heq
    simp [hnew]
  · rw [Lib.Mapping.get_set_of_ne _ _ heq]
    simp [Ne.symm heq]

theorem stored_of_stored {block : Block} {old : Block}
    (hold : store.blocks.get block.hash = some old) (hash : Bytes) :
    store.blocks.get hash = store.stored [block] hash := by
  unfold stored
  by_cases heq : hash = block.hash
  · subst heq
    simp [hold]
  · simp [Ne.symm heq]

theorem addBlock_spec (h : TipHighest decode store height) {block : Block}
    (hstorable : Storable block.hash) (hkey : block.hash ≠ lastKey) :
    ∃ store' height', store.addBlock decode block = some store' ∧
      TipHighest decode store' height' ∧ TipMoved store store' height height' ∧
      ∀ hash, store'.blocks.get hash = store.stored [block] hash := by
  obtain ⟨lastBlock, hlast, hheight⟩ := h.exists_lastBlock
  unfold addBlock
  cases hget : store.blocks.get block.hash with
  | some old =>
      have hcontains : store.contains block.hash = true := by
        simp [contains, hget]
      rw [if_pos hcontains]
      exact ⟨store, height, rfl, h, .kept rfl rfl rfl, stored_of_stored hget⟩
  | none =>
      have hcontains : ¬ store.contains block.hash = true := by
        simp [contains, hget, hkey]
      rw [if_neg hcontains, put_of_storable hstorable]
      simp only [Option.bind_eq_bind, Option.bind_some, get_last_put hget hlast]
      have hset : ∀ hash stored,
          (store.blocks.set block.hash (some block)).get hash = some stored →
          stored = block ∨ stored.height ≤ height := by
        intro hash found hfound
        by_cases heq : hash = block.hash
        · rw [heq, Lib.Mapping.get_set_self] at hfound
          exact .inl (Option.some.inj hfound).symm
        · rw [Lib.Mapping.get_set_of_ne _ _ heq] at hfound
          exact .inr (h.highest hash found hfound)
      split
      · rename_i hhigher
        refine ⟨_, block.height, rfl, ⟨?_, ⟨block.hash, block, ?_, rfl⟩, ?_⟩,
          .moved block.hash block rfl rfl ?_ rfl (hheight ▸ hhigher),
          get_set_eq_stored hget⟩
        · rw [getBestHeight, setTip, get_of_ne hkey]
          exact congrArg _ (Lib.Mapping.get_set_self _ _ _)
        · exact Lib.Mapping.get_set_self _ _ _
        · intro hash found hfound
          rcases hset hash found hfound with rfl | hle
          · exact Int.le_refl _
          · omega
        · exact Lib.Mapping.get_set_self _ _ _
      · rename_i hlower
        refine ⟨_, height, rfl, ⟨?_, ?_, ?_⟩, .kept rfl rfl rfl, get_set_eq_stored hget⟩
        · rw [getBestHeight, get_last_put hget hlast, Option.map_some, hheight]
        · obtain ⟨hash, found, hfound, hbest⟩ := h.attained
          refine ⟨hash, found, ?_, hbest⟩
          rw [get_set_eq_stored hget, stored, hfound, Option.some_or]
        · intro hash found hfound
          rcases hset hash found hfound with rfl | hle
          · omega
          · exact hle

theorem stored_cons {block : Block} {rest : List Block}
    (h : ∀ hash, store'.blocks.get hash = store.stored [block] hash) (hash : Bytes) :
    store'.stored rest hash = store.stored (block :: rest) hash := by
  unfold stored at h ⊢
  rw [h, Option.or_assoc, List.find?_cons, List.find?_cons]
  split <;> simp

theorem TipMoved.trans {store'' : BlockStore} {height'' : Int} {blocks : List Block}
    (h : TipMoved store store' height height')
    (h' : TipMoved store' store'' height' height'')
    (hstored : ∀ hash, store''.blocks.get hash = store'.stored blocks hash) :
    TipMoved store store'' height height'' := by
  cases h with
  | kept hlast htip hheight =>
      subst hheight
      cases h' with
      | kept hlast' htip' hheight' =>
          exact .kept (hlast'.trans hlast) (htip'.trans htip) hheight'
      | moved hash block hlast' htip' hget hheight' hlt =>
          exact .moved hash block hlast' htip' hget hheight' hlt
  | moved hash block hlast htip hget hheight hlt =>
      cases h' with
      | kept hlast' htip' hheight' =>
          refine .moved hash block (hlast'.trans hlast) (htip'.trans htip) ?_
            (hheight.trans hheight'.symm) (hheight' ▸ hlt)
          rw [hstored, stored, hget, Option.some_or]
      | moved hash' block' hlast' htip' hget' hheight' hlt' =>
          exact .moved hash' block' hlast' htip' hget' hheight' (Int.lt_trans hlt hlt')

theorem addBlocks_spec (h : TipHighest decode store height) {blocks : List Block}
    (hkeys : ∀ block ∈ blocks, Storable block.hash ∧ block.hash ≠ lastKey) :
    ∃ store' height', store.addBlocks decode blocks = some store' ∧
      TipHighest decode store' height' ∧ TipMoved store store' height height' ∧
      ∀ hash, store'.blocks.get hash = store.stored blocks hash := by
  induction blocks generalizing store height with
  | nil => exact ⟨store, height, rfl, h, .kept rfl rfl rfl, fun hash => by simp [stored]⟩
  | cons block rest ih =>
      obtain ⟨store₁, height₁, hadd, hhighest₁, hmoved₁, hstored₁⟩ :=
        addBlock_spec h (hkeys block List.mem_cons_self).1 (hkeys block List.mem_cons_self).2
      obtain ⟨store₂, height₂, hrest, hhighest₂, hmoved₂, hstored₂⟩ :=
        ih hhighest₁ fun other hother => hkeys other (List.mem_cons_of_mem _ hother)
      refine ⟨store₂, height₂, ?_, hhighest₂, hmoved₁.trans hmoved₂ hstored₂, ?_⟩
      · rw [addBlocks_cons, hadd, Option.bind_some, hrest]
      · intro hash
        rw [hstored₂, stored_cons hstored₁]

theorem stored_eq_some {blocks : List Block} {hash : Bytes} {block : Block}
    (h : store.stored blocks hash = some block) :
    store.blocks.get hash = some block ∨ (block ∈ blocks ∧ block.hash = hash) := by
  rcases Option.or_eq_some_iff.mp h with hold | ⟨_, hfind⟩
  · exact .inl hold
  · exact .inr ⟨List.mem_of_find?_eq_some hfind, by simpa using List.find?_some hfind⟩

theorem stored_of_mem {blocks : List Block} {block : Block}
    (hinj : ∀ block ∈ blocks, ∀ other ∈ blocks, block.hash = other.hash → block = other)
    (hmem : block ∈ blocks)
    (hold : ∀ old, store.blocks.get block.hash = some old → old = block) :
    store.stored blocks block.hash = some block := by
  cases hstored : store.stored blocks block.hash with
  | none =>
      have hfind := List.find?_eq_none.mp (Option.or_eq_none_iff.mp hstored).2 block hmem
      simp at hfind
  | some found =>
      rcases stored_eq_some hstored with hget | ⟨hfound, hhash⟩
      · rw [hold found hget]
      · rw [hinj found hfound block hmem hhash]

/-- Only the blocks count, and neither their order nor how often one comes in. -/
theorem stored_congr {blocks blocks' : List Block}
    (hinj : ∀ block ∈ blocks, ∀ other ∈ blocks, block.hash = other.hash → block = other)
    (hsame : ∀ block, block ∈ blocks ↔ block ∈ blocks') (hash : Bytes) :
    store.stored blocks hash = store.stored blocks' hash := by
  unfold stored
  congr 1
  cases hfind : blocks.find? fun block => block.hash = hash with
  | none =>
      refine (List.find?_eq_none.mpr ?_).symm
      intro block hblock
      exact List.find?_eq_none.mp hfind block ((hsame block).mpr hblock)
  | some block =>
      have hmem := List.mem_of_find?_eq_some hfind
      have hblock : block.hash = hash := by simpa using List.find?_some hfind
      cases hfind' : blocks'.find? fun block => block.hash = hash with
      | none =>
          have hnot := List.find?_eq_none.mp hfind' block ((hsame block).mp hmem)
          simp [hblock] at hnot
      | some other =>
          have hother : other.hash = hash := by simpa using List.find?_some hfind'
          have hmem' := (hsame other).mpr (List.mem_of_find?_eq_some hfind')
          rw [hinj block hmem other hmem' (hblock.trans hother.symm)]

/-- The one highest block of all is the tip when it is higher than the old one. -/
theorem TipMoved.eq_of_highest (h : TipMoved store store' height height')
    (hhighest : TipHighest decode store' height') {hash : Bytes} {top : Block}
    (htop : store'.blocks.get hash = some top)
    (honly : ∀ other block, store'.blocks.get other = some block → other ≠ hash →
      block.height < top.height)
    (hlt : height < top.height) : store'.last = hash ∧ store'.tip = hash := by
  have hle := hhighest.highest hash top htop
  cases h with
  | kept _ _ hheight => omega
  | moved other block hlast htip hget hheight _ =>
      have heq : other = hash := by
        by_contra hne
        have hlower := honly other block hget hne
        omega
      exact ⟨hlast.trans heq, htip.trans heq⟩

/-- Blocks that come in leave the same blocks stored and the same height of the tip in any
order and with any repetition, and the same tip when the highest block is one block and
higher than the old tip. -/
theorem addBlocks_any_order (h : TipHighest decode store height)
    (blocks blocks' : List Block) (hlength : ∀ block ∈ blocks, block.hash.length = 32)
    (hinj : ∀ block ∈ blocks, ∀ other ∈ blocks, block.hash = other.hash → block = other)
    (hsame : ∀ block, block ∈ blocks ↔ block ∈ blocks') :
    ∃ store₁ store₂, store.addBlocks decode blocks = some store₁ ∧
      store.addBlocks decode blocks' = some store₂ ∧
      (∀ hash, store₁.blocks.get hash = store₂.blocks.get hash) ∧
      store₁.getBestHeight decode = store₂.getBestHeight decode ∧
      (∀ hash top, store₁.blocks.get hash = some top →
        (∀ other block, store₁.blocks.get other = some block → other ≠ hash →
          block.height < top.height) →
        height < top.height →
        store₁.last = hash ∧ store₂.last = hash ∧ store₁.tip = hash ∧ store₂.tip = hash) ∧
      ∀ top ∈ blocks,
        (∀ block ∈ blocks, block ≠ top → block.height < top.height) →
        height < top.height →
        (∀ old, store.blocks.get top.hash = some old → old = top) →
        store₁.last = top.hash ∧ store₂.last = top.hash ∧
          store₁.tip = top.hash ∧ store₂.tip = top.hash := by
  have hkeys : ∀ block ∈ blocks, Storable block.hash ∧ block.hash ≠ lastKey := by
    intro block hblock
    have h32 := hlength block hblock
    exact ⟨storable_of_length h32, ne_lastKey_of_length h32⟩
  obtain ⟨store₁, height₁, hadd₁, hhighest₁, hmoved₁, hstored₁⟩ := addBlocks_spec h hkeys
  obtain ⟨store₂, height₂, hadd₂, hhighest₂, hmoved₂, hstored₂⟩ :=
    addBlocks_spec h fun block hblock => hkeys block ((hsame block).mpr hblock)
  have hblocks : ∀ hash, store₁.blocks.get hash = store₂.blocks.get hash := by
    intro hash
    rw [hstored₁, hstored₂, stored_congr hinj hsame]
  have hunique : ∀ hash top, store₁.blocks.get hash = some top →
      (∀ other block, store₁.blocks.get other = some block → other ≠ hash →
        block.height < top.height) →
      height < top.height →
      store₁.last = hash ∧ store₂.last = hash ∧ store₁.tip = hash ∧ store₂.tip = hash := by
    intro hash top htop honly hlt
    obtain ⟨hlast₁, htip₁⟩ := hmoved₁.eq_of_highest hhighest₁ htop honly hlt
    obtain ⟨hlast₂, htip₂⟩ := hmoved₂.eq_of_highest hhighest₂ (hblocks hash ▸ htop)
      (fun other block hblock => honly other block (hblocks other ▸ hblock)) hlt
    exact ⟨hlast₁, hlast₂, htip₁, htip₂⟩
  refine ⟨store₁, store₂, hadd₁, hadd₂, hblocks, ?_, hunique, ?_⟩
  · rw [hhighest₁.best, hhighest₂.best, hhighest₁.unique hhighest₂ hblocks]
  · intro top htop honly hlt hold
    refine hunique top.hash top ?_ ?_ hlt
    · rw [hstored₁]
      exact stored_of_mem hinj htop hold
    · intro other block hblock hne
      rw [hstored₁] at hblock
      rcases stored_eq_some hblock with hstored | ⟨hmem, rfl⟩
      · exact Int.lt_of_le_of_lt (h.highest other block hstored) hlt
      · exact honly block hmem fun heq => hne (congrArg Block.hash heq)

/-! Two blocks of a peer come in, the lower one twice. -/

def lowBlock : Block := ⟨0, [], newStore.last, List.replicate 32 1, 0, 1⟩

def highBlock : Block := ⟨0, [], lowBlock.hash, List.replicate 32 2, 0, 2⟩

theorem addBlocks_low_high : ∃ store₁ store₂,
    newStore.addBlocks (fun _ => none) [lowBlock, highBlock, lowBlock] = some store₁ ∧
    newStore.addBlocks (fun _ => none) [highBlock, lowBlock] = some store₂ ∧
    (∀ hash, store₁.blocks.get hash = store₂.blocks.get hash) ∧
    store₁.getBestHeight (fun _ => none) = store₂.getBestHeight (fun _ => none) ∧
    store₁.last = highBlock.hash ∧ store₂.last = highBlock.hash := by
  have hhighest : TipHighest (fun _ => none) newStore 0 :=
    (topped_createBlockchain sumCrypto_length createBlockchain_newStore).tipHighest _
  obtain ⟨store₁, store₂, hadd₁, hadd₂, hblocks, hbest, _, htip⟩ :=
    addBlocks_any_order hhighest [lowBlock, highBlock, lowBlock] [highBlock, lowBlock]
      (by decide) (by decide +kernel) (by intro block; simp; tauto)
  obtain ⟨hlast₁, hlast₂, _⟩ := htip highBlock (by simp) (by decide +kernel) (by decide) (by
    intro old hold
    have hnone : newStore.blocks.get highBlock.hash = none := by decide +kernel
    rw [hnone] at hold
    cases hold)
  exact ⟨store₁, store₂, hadd₁, hadd₂, hblocks, hbest, hlast₁, hlast₂⟩

end BlockStore

end BlockchainTutorial.Bitcoin
