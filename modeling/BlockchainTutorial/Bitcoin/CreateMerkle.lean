import BlockchainTutorial.Lib.FilledTree
import BlockchainTutorial.Bitcoin.Transaction

namespace BlockchainTutorial.Bitcoin

/-! `merkle.cpp`. -/

abbrev HashDigest := Vector UInt8 32

def nullHash : HashDigest := .replicate 32 0

def concatData (left right : HashDigest) : Bytes :=
  left.toList ++ right.toList

section CreateMerkle

variable (bitcoinHash : Bytes → HashDigest)

def joined (left right : HashDigest) : HashDigest :=
  bitcoinHash (concatData left right)

/-- If the number of hashes is odd, the last one is there twice. -/
def pushBack (merkle : List HashDigest) : List HashDigest :=
  if merkle.length % 2 ≠ 0 then merkle ++ merkle.getLast?.toList else merkle

/-- The loop through the hashes, two at a time. -/
def newMerkle : List HashDigest → List HashDigest
  | left :: right :: merkle => joined bitcoinHash left right :: newMerkle merkle
  | _ => []

theorem pushBack_cons_cons (left right : HashDigest) (merkle : List HashDigest) :
    pushBack (left :: right :: merkle) = left :: right :: pushBack merkle := by
  have hmod : (left :: right :: merkle).length % 2 = merkle.length % 2 := by
    rw [List.length_cons, List.length_cons]
    omega
  unfold pushBack
  rw [hmod]
  split
  · cases merkle with
    | nil => contradiction
    | cons hash merkle => rw [List.getLast?_cons_cons, List.getLast?_cons_cons]; rfl
  · rfl

theorem newMerkle_pushBack (merkle : List HashDigest) :
    newMerkle bitcoinHash (pushBack merkle) = Lib.pairUp (joined bitcoinHash) merkle := by
  induction merkle using newMerkle.induct with
  | case1 left right merkle ih =>
      rw [pushBack_cons_cons, newMerkle, ih, Lib.pairUp_cons_cons]
  | case2 merkle hshort =>
      match merkle, hshort with
      | [], _ => rfl
      | [hash], _ => rfl
      | left :: right :: merkle, hshort => exact absurd rfl (hshort left right merkle)

/-- The loop over the levels leaves one hash in the list. -/
def hashLevels (merkle : List HashDigest) : List HashDigest :=
  if 1 < merkle.length then hashLevels (newMerkle bitcoinHash (pushBack merkle)) else merkle
  termination_by merkle.length
  decreasing_by
    rw [newMerkle_pushBack, Lib.length_pairUp]
    omega

def createMerkle (merkle : List HashDigest) : HashDigest :=
  match hashLevels bitcoinHash merkle with
  | [] => nullHash
  | root :: _ => root

theorem hashLevels_eq (merkle : List HashDigest) :
    hashLevels bitcoinHash merkle = (Lib.treeRoot (joined bitcoinHash) merkle).toList := by
  induction merkle using Lib.treeRoot.induct (joined bitcoinHash) with
  | case1 =>
      rw [hashLevels, Lib.treeRoot]
      rfl
  | case2 hash =>
      rw [hashLevels, Lib.treeRoot_singleton]
      rfl
  | case3 left right merkle ih =>
      rw [hashLevels, if_pos (by simp), newMerkle_pushBack, ih, Lib.treeRoot]

theorem treeRoot_eq_createMerkle {merkle : List HashDigest} (h : merkle ≠ []) :
    Lib.treeRoot (joined bitcoinHash) merkle = some (createMerkle bitcoinHash merkle) := by
  obtain ⟨root, hroot⟩ :=
    Option.isSome_iff_exists.mp (Lib.treeRoot_isSome (joined bitcoinHash) h)
  rw [createMerkle, hashLevels_eq, hroot]
  rfl

def depth (merkle : List HashDigest) : Nat :=
  Nat.clog 2 merkle.length

/-- Everything that is hashed on the way to the root. -/
def hashedData (merkle : List HashDigest) : List Bytes :=
  (Lib.couplesBelow (joined bitcoinHash) (depth merkle) merkle).map
    fun couple => concatData couple.1 couple.2

/-- Two different data with the same hash. -/
def Collide (data data' : List Bytes) : Prop :=
  ∃ first ∈ data, ∃ second ∈ data', first ≠ second ∧ bitcoinHash first = bitcoinHash second

instance (data data' : List Bytes) : Decidable (Collide bitcoinHash data data') :=
  inferInstanceAs (Decidable (∃ first ∈ data, ∃ second ∈ data',
    first ≠ second ∧ bitcoinHash first = bitcoinHash second))

theorem concatData_inj {left right left' right' : HashDigest}
    (h : concatData left right = concatData left' right') : left = left' ∧ right = right' := by
  obtain ⟨hleft, hright⟩ := List.append_inj h (by simp)
  exact ⟨Vector.toList_inj.mp hleft, Vector.toList_inj.mp hright⟩

theorem iterate_eq_createMerkle {merkle : List HashDigest} (h : merkle ≠ []) :
    (Lib.pairUp (joined bitcoinHash))^[depth merkle] merkle =
      [createMerkle bitcoinHash merkle] := by
  obtain ⟨root, hroot, htree⟩ := Lib.iterate_pairUp_clog (joined bitcoinHash) h
  rw [treeRoot_eq_createMerkle bitcoinHash h] at htree
  cases htree
  exact hroot

theorem createMerkle_eq_iff_filled {merkle merkle' : List HashDigest} (h : merkle ≠ [])
    (h' : merkle' ≠ []) (hdepth : depth merkle = depth merkle')
    (hfree : ¬ Collide bitcoinHash (hashedData bitcoinHash merkle)
      (hashedData bitcoinHash merkle')) :
    createMerkle bitcoinHash merkle = createMerkle bitcoinHash merkle' ↔
      Lib.filled (depth merkle) merkle = Lib.filled (depth merkle) merkle' := by
  have hroot := iterate_eq_createMerkle bitcoinHash h
  have hroot' := iterate_eq_createMerkle bitcoinHash h'
  rw [← hdepth] at hroot'
  constructor
  · intro heq
    refine Lib.filled_eq_of_iterate_eq ?_ (by rw [hroot, hroot', heq])
    intro couple hcouple couple' hcouple' hhash
    rw [hdepth] at hcouple'
    have hdata : concatData couple.1 couple.2 = concatData couple'.1 couple'.2 := by
      by_contra hne
      exact hfree ⟨_, List.mem_map_of_mem hcouple, _, List.mem_map_of_mem hcouple', hne, hhash⟩
    obtain ⟨hleft, hright⟩ := concatData_inj hdata
    exact Prod.ext hleft hright
  · intro heq
    rw [← Lib.iterate_pairUp_filled, heq, Lib.iterate_pairUp_filled, hroot'] at hroot
    exact (List.cons.inj hroot).1.symm

theorem eq_of_filled_eq {count : Nat} {merkle merkle' : List HashDigest}
    (hlength : merkle.length = merkle'.length)
    (h : Lib.filled count merkle = Lib.filled count merkle') : merkle = merkle' := by
  have hfirst := Lib.isPrefix_filled count merkle
  rw [h] at hfirst
  exact List.prefix_of_prefix_length_le hfirst (Lib.isPrefix_filled count merkle')
    hlength.le |>.eq_of_length hlength

/-- Two lists of the same depth have the same root exactly if they agree once the copies of
their last hashes are written out, and two of the same length only if they are the same. -/
theorem merkle_roots_agree {merkle merkle' : List HashDigest} (h : merkle ≠ [])
    (h' : merkle' ≠ []) (hdepth : depth merkle = depth merkle')
    (hfree : ¬ Collide bitcoinHash (hashedData bitcoinHash merkle)
      (hashedData bitcoinHash merkle')) :
    (createMerkle bitcoinHash merkle = createMerkle bitcoinHash merkle' ↔
      Lib.filled (depth merkle) merkle = Lib.filled (depth merkle) merkle') ∧
      (merkle.length = merkle'.length →
        createMerkle bitcoinHash merkle = createMerkle bitcoinHash merkle' →
          merkle = merkle') := by
  have hiff := createMerkle_eq_iff_filled bitcoinHash h h' hdepth hfree
  exact ⟨hiff, fun hlength hroot => eq_of_filled_eq hlength (hiff.mp hroot)⟩

end CreateMerkle

section Example

def mixedHash (data : Bytes) : HashDigest :=
  .replicate 32 (data.foldl (fun mixed byte => 3 * mixed + byte + 1) 0)

def threeHashes : List HashDigest :=
  [.replicate 32 1, .replicate 32 2, .replicate 32 3]

/-- The last of the three hashes is given twice. -/
def fourHashes : List HashDigest :=
  [.replicate 32 1, .replicate 32 2, .replicate 32 3, .replicate 32 3]

theorem merkle_roots_agree_three :
    createMerkle mixedHash threeHashes = createMerkle mixedHash fourHashes := by
  have hthree : threeHashes ≠ [] := List.cons_ne_nil _ _
  have hfour : fourHashes ≠ [] := List.cons_ne_nil _ _
  exact (merkle_roots_agree mixedHash hthree hfour rfl (by decide +kernel)).1.mpr rfl

end Example

end BlockchainTutorial.Bitcoin
