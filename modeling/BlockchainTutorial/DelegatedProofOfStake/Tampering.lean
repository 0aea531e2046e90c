import BlockchainTutorial.DelegatedProofOfStake.Block
import BlockchainTutorial.Lib.BigEndian

namespace BlockchainTutorial

open BlockchainTutorial.ProofOfStake (CollisionFree Confusable)

universe u

/-! What the hash of a block says about the block, in the two programs that link their
blocks alike. -/

/-- Equal hashes are hashes of equal blocks, and no other block is accepted under the hash
of an accepted one. -/
structure DetectsTampering {β : Type u} (computed hash : β → String) (accepts : β → β → Bool)
    (Same : β → β → Prop) (block copy : β) : Prop where
  agree : computed block = computed copy → Same block copy
  rejected : ∀ oldBlock oldBlock', accepts block oldBlock = true → hash copy = hash block →
    accepts copy oldBlock' = true → Same block copy

namespace DetectsTampering

variable {β : Type u} {computed hash : β → String} {accepts : β → β → Bool}
  {Same : β → β → Prop} {block copy : β}

theorem of_same (h : Same block copy) :
    DetectsTampering computed hash accepts Same block copy :=
  ⟨fun _ => h, fun _ _ _ _ _ => h⟩

/-- Where the check computes the hash again, it adds nothing to what the hash says. -/
theorem iff_of_checked
    (hchecked : ∀ block oldBlock, accepts block oldBlock = true →
      computed block = hash block) :
    DetectsTampering computed hash accepts Same block copy ↔
      (computed block = computed copy → Same block copy) := by
  constructor
  · exact DetectsTampering.agree
  · intro hagree
    refine ⟨hagree, ?_⟩
    intro oldBlock oldBlock' hblock hhash hcopy
    refine hagree ?_
    rw [hchecked block oldBlock hblock, hchecked copy oldBlock' hcopy, hhash]

/-- Where the check does not look at the hash, every copy under the same hash passes. -/
theorem iff_of_unchecked (haccepts : ∀ block, ∃ oldBlock, accepts block oldBlock = true) :
    DetectsTampering computed hash accepts Same block copy ↔
      (computed block = computed copy → Same block copy) ∧
        (hash copy = hash block → Same block copy) := by
  constructor
  · intro h
    refine ⟨h.agree, ?_⟩
    intro hhash
    obtain ⟨oldBlock, hblock⟩ := haccepts block
    obtain ⟨oldBlock', hcopy⟩ := haccepts copy
    exact h.rejected oldBlock oldBlock' hblock hhash hcopy
  · rintro ⟨hagree, hsame⟩
    exact ⟨hagree, fun _ _ _ hhash _ => hsame hhash⟩

end DetectsTampering

variable {sha256 : String → List UInt8}

namespace ProofOfStake

variable (sha256) in
abbrev Detects (block copy : Block) : Prop :=
  DetectsTampering (calculateBlockHash sha256) Block.hash (isBlockValid sha256)
    Block.SameFields block copy

theorem detects_iff_agree {block copy : Block} :
    Detects sha256 block copy ↔
      (calculateBlockHash sha256 block = calculateBlockHash sha256 copy →
        block.SameFields copy) :=
  DetectsTampering.iff_of_checked fun _ _ h => (isBlockValid_iff.mp h).2.2

/-- Whatever the hash function is. -/
theorem not_detects {block copy : Block} (hne : ¬ block.SameFields copy)
    (h : Confusable block.record copy.record) : ¬ Detects sha256 block copy := by
  intro hdetects
  refine hne (hdetects.agree ?_)
  rw [calculateBlockHash_eq, calculateBlockHash_eq, Record.text_eq_iff.mpr h]

end ProofOfStake

namespace DelegatedProofOfStake

variable (sha256) in
abbrev Detects (block copy : Block) : Prop :=
  DetectsTampering (createBlockHash sha256) Block.hash isBlockValid
    Block.SameFields block copy

theorem detects_iff_agree {block copy : Block} :
    Detects sha256 block copy ↔
      (createBlockHash sha256 block = createBlockHash sha256 copy → block.SameFields copy) ∧
        (copy.hash = block.hash → block.SameFields copy) :=
  DetectsTampering.iff_of_unchecked exists_isBlockValid

end DelegatedProofOfStake

/-- The texts are joined without a mark between them, an integer is one character there, the
maker of a block is left out, and the delegates' program does not compare hashes. -/
theorem detects_iff (sha256 : String → List UInt8) :
    (∀ block copy : ProofOfStake.Block, CollisionFree sha256 block.record copy.record →
      (ProofOfStake.Detects sha256 block copy ↔
        block.SameFields copy ∨ ¬ Confusable block.record copy.record)) ∧
    ∀ block copy : DelegatedProofOfStake.Block,
      CollisionFree sha256 block.record copy.record →
      (DelegatedProofOfStake.Detects sha256 block copy ↔
        block.SameFields copy ∨
          ¬ Confusable block.record copy.record ∧ copy.hash ≠ block.hash) := by
  constructor
  · intro block copy hfree
    rw [ProofOfStake.detects_iff_agree, ProofOfStake.calculateBlockHash_eq,
      ProofOfStake.calculateBlockHash_eq, ProofOfStake.encodeToString_text_eq_iff hfree,
      imp_iff_or_not]
  · intro block copy hfree
    rw [DelegatedProofOfStake.detects_iff_agree, DelegatedProofOfStake.createBlockHash_eq,
      DelegatedProofOfStake.createBlockHash_eq, ProofOfStake.encodeToString_text_eq_iff hfree,
      imp_iff_or_not, imp_iff_or_not, or_and_left]

/-- SHA-256, of the two texts that are hashed below. -/
def noonSha256 (s : String) : List UInt8 :=
  let digest :=
    if s = "\u0001noonF" then
      0x7bcdd4e531958baee33e568e0ecd6f449e870173f513bb8990d7b387b4dec4e7
    else if s = "\u0001noonG" then
      0x6f4700eb3bb37180db37a1c6ab99e4312daf274236d7cef84ff4ae7502daff5d
    else 0
  (Lib.bigEndian 256 digest).map UInt8.ofNat

/-- A changed number that is a character changes the hash; the delegates' program accepts it
under the old one. -/
theorem detects_iff_noon :
    ProofOfStake.Detects noonSha256 ⟨1, "noon", 70, "a", "", "Ann"⟩
        ⟨1, "noon", 71, "a", "", "Ann"⟩ ∧
      ¬ DelegatedProofOfStake.Detects noonSha256 ⟨1, "noon", 70, "a", "", "node1"⟩
        ⟨1, "noon", 71, "a", "", "node1"⟩ := by
  obtain ⟨hstake, hdelegated⟩ := detects_iff noonSha256
  have hfree : CollisionFree noonSha256 ⟨1, "noon", 70, ""⟩ ⟨1, "noon", 71, ""⟩ :=
    fun hcollision => absurd hcollision (by decide +kernel)
  constructor
  · refine (hstake _ _ ?_).mpr (.inr ?_)
    · exact hfree
    · refine mt (ProofOfStake.confusable_iff_of_length_eq ?_).mp ?_
      · rfl
      · rintro ⟨_, _, hbpm, _⟩
        exact absurd hbpm (by decide)
  · refine mt (hdelegated _ _ ?_).mp ?_
    · exact hfree
    · rintro (hsame | ⟨_, hhash⟩)
      · exact absurd hsame (by decide)
      · exact hhash rfl

/-- Another maker, another number that is no character, a character moved over to the next
text; and another number under the hash that the copied block has. -/
theorem tampering_undetected :
    (¬ ∃ sha256, ProofOfStake.Detects sha256 ⟨1, "noon", 70, "", "", "Ann"⟩
      ⟨1, "noon", 70, "", "", "Bob"⟩) ∧
    (¬ ∃ sha256, ProofOfStake.Detects sha256 ⟨1, "noon", -1, "", "", "Ann"⟩
      ⟨1, "noon", -2, "", "", "Ann"⟩) ∧
    (¬ ∃ sha256, ProofOfStake.Detects sha256 ⟨1, "noon", 70, "", "Fa", "Ann"⟩
      ⟨1, "noonF", 70, "", "a", "Ann"⟩) ∧
    ¬ ∃ sha256, DelegatedProofOfStake.Detects sha256 ⟨1, "noon", 70, "a", "", "node1"⟩
      ⟨1, "noon", 71, "a", "", "node1"⟩ := by
  refine ⟨?_, ?_, ?_, ?_⟩
  · rintro ⟨sha256, hdetects⟩
    refine ProofOfStake.not_detects (by decide) ?_ hdetects
    exact ⟨.inl rfl, .inl ⟨rfl, .inl rfl, rfl⟩⟩
  · rintro ⟨sha256, hdetects⟩
    refine ProofOfStake.not_detects (by decide) ?_ hdetects
    exact ⟨.inl rfl, .inl ⟨rfl, .inr ⟨by decide, by decide⟩, rfl⟩⟩
  · rintro ⟨sha256, hdetects⟩
    refine ProofOfStake.not_detects (by decide) ?_ hdetects
    exact ⟨.inl rfl, .inr (.inl ⟨"", by decide, by decide⟩)⟩
  · rintro ⟨sha256, hdetects⟩
    have hsame := (DelegatedProofOfStake.detects_iff_agree.mp hdetects).2 rfl
    exact absurd hsame (by decide)

end BlockchainTutorial
