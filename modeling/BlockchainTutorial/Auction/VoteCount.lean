import Mathlib.Algebra.Ring.Nat
import BlockchainTutorial.Auction.Voting

namespace BlockchainTutorial.Auction

/-! Arithmetic that gives the sum and the difference where they are words. -/

structure Arithmetic.Exact (arith : Arithmetic) : Prop where
  add : ∀ {a b : Uint}, a.toNat + b.toNat < 2 ^ 256 → arith.add a b = .ok (a + b)
  sub : ∀ {a b : Uint}, b ≤ a → arith.sub a b = .ok (a - b)

namespace Arithmetic

theorem wrapping_exact : wrapping.Exact := ⟨fun _ => rfl, fun _ => rfl⟩

theorem checked_exact : checked.Exact := ⟨fun h => if_pos h, fun h => if_pos h⟩

theorem toNat_add {a b : Uint} (h : a.toNat + b.toNat < 2 ^ 256) :
    (a + b).toNat = a.toNat + b.toNat := by
  rw [BitVec.toNat_add, Nat.mod_eq_of_lt h]

theorem toNat_add_one {i : Uint} {n : Nat} (h : i.toNat + (n + 1) < 2 ^ 256) :
    (i + 1).toNat = i.toNat + 1 :=
  toNat_add (b := 1) (show i.toNat + 1 < 2 ^ 256 by omega)

theorem toNat_sub {a b : Uint} (h : b ≤ a) : (a - b).toNat = a.toNat - b.toNat :=
  BitVec.toNat_sub_of_le h

end Arithmetic

theorem ok_bind {α β : Type} (a : α) (f : α → Except String β) : (.ok a >>= f) = f a := rfl

theorem require_bind {α : Type} (condition : Prop) [Decidable condition] (message : String)
    (f : Unit → Except String α) :
    (require condition message >>= f) = if condition then f () else .error message := by
  by_cases h : condition <;> simp only [require, h, decide_true, decide_false, if_true] <;> rfl

/-! The loops. -/

namespace Voting

open Arithmetic

def sumOf (tokens : List Uint) : Nat :=
  (tokens.map BitVec.toNat).sum

@[simp] theorem sumOf_nil : sumOf [] = 0 := rfl

@[simp] theorem sumOf_cons (votes : Uint) (rest : List Uint) :
    sumOf (votes :: rest) = votes.toNat + sumOf rest := rfl

@[simp] theorem sumOf_replicate (n : Nat) : sumOf (List.replicate n 0) = 0 := by
  induction n with
  | zero => rfl
  | succ n ih => rw [List.replicate_succ, sumOf_cons, ih]; rfl

theorem getD_le_sumOf (tokens : List Uint) (place : Nat) :
    (tokens.getD place 0).toNat ≤ sumOf tokens := by
  induction tokens generalizing place with
  | nil => exact Nat.le_refl 0
  | cons votes rest ih =>
      cases place with
      | zero => exact Nat.le_add_right _ _
      | succ place => exact Nat.le_trans (ih place) (Nat.le_add_left _ _)

theorem sumOf_set {tokens : List Uint} {place : Nat} (hplace : place < tokens.length)
    (votes : Uint) :
    sumOf (tokens.set place votes) + (tokens.getD place 0).toNat =
      sumOf tokens + votes.toNat := by
  induction tokens generalizing place with
  | nil => cases hplace
  | cons first rest ih =>
      cases place with
      | zero =>
          simp only [List.set_cons_zero, List.getD_cons_zero, sumOf_cons]
          omega
      | succ place =>
          have hrest := ih (Nat.lt_of_succ_lt_succ hplace)
          simp only [List.set_cons_succ, List.getD_cons_succ, sumOf_cons]
          omega

section Loops

variable {arith : Arithmetic} (hexact : arith.Exact)
include hexact

theorem usedTokensFrom_eq {tokens : List Uint} {i usedTokens : Uint}
    (hi : i.toNat + tokens.length < 2 ^ 256)
    (hused : usedTokens.toNat + sumOf tokens < 2 ^ 256) :
    usedTokensFrom arith tokens i usedTokens =
      .ok (BitVec.ofNat 256 (usedTokens.toNat + sumOf tokens)) := by
  induction tokens generalizing i usedTokens with
  | nil => simp [usedTokensFrom]
  | cons votes rest ih =>
      rw [sumOf_cons] at hused
      rw [List.length_cons] at hi
      have hfirst : usedTokens.toNat + votes.toNat < 2 ^ 256 := by omega
      have hone : i.toNat + (1 : Uint).toNat < 2 ^ 256 :=
        show i.toNat + 1 < 2 ^ 256 by omega
      have hnext := toNat_add_one hi
      have hsum := toNat_add hfirst
      rw [usedTokensFrom, hexact.add hfirst, ok_bind, hexact.add hone, ok_bind,
        ih (by omega) (by omega), hsum, sumOf_cons, Nat.add_assoc]

theorem totalUsedTokens_eq {tokens : List Uint} (hlength : tokens.length < 2 ^ 256)
    (hsum : sumOf tokens < 2 ^ 256) :
    totalUsedTokens arith tokens = .ok (BitVec.ofNat 256 (sumOf tokens)) := by
  have heq := @usedTokensFrom_eq arith hexact tokens 0 0 (by simpa using hlength)
    (by simpa using hsum)
  simpa [totalUsedTokens] using heq

theorem indexFrom_eq (candidate : Bytes32) {names : List Bytes32} {i : Uint}
    (hi : i.toNat + names.length < 2 ^ 256) :
    indexFrom arith candidate names i =
      .ok (if candidate ∈ names then BitVec.ofNat 256 (i.toNat + names.idxOf candidate)
        else -1) := by
  induction names generalizing i with
  | nil => rfl
  | cons name rest ih =>
      rw [List.length_cons] at hi
      by_cases hname : candidate = name
      · subst hname
        simp [indexFrom]
      · have hone : i.toNat + (1 : Uint).toNat < 2 ^ 256 :=
          show i.toNat + 1 < 2 ^ 256 by omega
        have hnext := toNat_add_one hi
        have hplace : (name :: rest).idxOf candidate = rest.idxOf candidate + 1 :=
          List.idxOf_cons_ne _ (Ne.symm hname)
        have hmem : candidate ∈ name :: rest ↔ candidate ∈ rest := by simp [hname]
        rw [indexFrom, if_neg hname, hexact.add hone, ok_bind, ih (by omega), hnext, hplace,
          Nat.add_assoc, Nat.add_comm 1]
        simp only [hmem]

theorem pushFrom_eq {names : List Bytes32} {i : Uint} (tokens : List Uint)
    (hi : i.toNat + names.length < 2 ^ 256) :
    pushFrom arith names i tokens = .ok (tokens ++ List.replicate names.length 0) := by
  induction names generalizing i tokens with
  | nil => simp [pushFrom]
  | cons name rest ih =>
      rw [List.length_cons] at hi
      have hone : i.toNat + (1 : Uint).toNat < 2 ^ 256 :=
        show i.toNat + 1 < 2 ^ 256 by omega
      have hnext := toNat_add_one hi
      rw [pushFrom, hexact.add hone, ok_bind, ih _ (by omega), List.append_assoc,
        List.length_cons, List.replicate_succ, List.singleton_append]

end Loops

/-! What every call keeps. -/

/-- The place that `indexOfCandidate` gives. -/
def place (voting : Voting) (candidate : Bytes32) : Nat :=
  voting.candidateList.1.idxOf candidate

/-- The array of a voter, once it is created. -/
def tokensOf (voting : Voting) (account : Address) : List Uint :=
  let tokens := (voting.voterInfo.get account).tokensVoteForCandidates
  if tokens.length = 0 then List.replicate voting.candidateList.1.length 0 else tokens

structure VoterKept (candidates : Nat) (voter : Voter) : Prop where
  used : sumOf voter.tokensVoteForCandidates ≤ voter.tokenNum.toNat
  length : voter.tokensVoteForCandidates.length = 0 ∨
    voter.tokensVoteForCandidates.length = candidates

structure Kept (voting : Voting) : Prop where
  sold : voting.tokenBalance.toNat +
    voting.voterInfo.total (fun _ voter => voter.tokenNum.toNat) = voting.totalTokens.toNat
  voters : ∀ account,
    VoterKept voting.candidateList.1.length (voting.voterInfo.get account)
  received : ∀ candidate ∈ voting.candidateList.1,
    (voting.votesReceived.get candidate).toNat = voting.voterInfo.total
      fun _ voter => (voter.tokensVoteForCandidates.getD (voting.place candidate) 0).toNat

theorem create_kept (totalSupply price : Uint) (names : CandidateList) :
    (create totalSupply price names).Kept where
  sold := rfl
  voters _ := ⟨Nat.le_refl 0, .inl rfl⟩
  received _ _ := rfl

variable {voting : Voting}

theorem place_lt {candidate : Bytes32} (h : candidate ∈ voting.candidateList.1) :
    voting.place candidate < voting.candidateList.1.length :=
  List.idxOf_lt_length_of_mem h

theorem toNat_ofNat_place {candidate : Bytes32} (h : candidate ∈ voting.candidateList.1) :
    (BitVec.ofNat 256 (voting.place candidate)).toNat = voting.place candidate :=
  Nat.mod_eq_of_lt (Nat.lt_trans (place_lt h) voting.candidateList.2)

theorem ofNat_place_ne {candidate : Bytes32} (h : candidate ∈ voting.candidateList.1) :
    BitVec.ofNat 256 (voting.place candidate) ≠ -1 := by
  intro heq
  have hvalue := congrArg BitVec.toNat heq
  have hlt := place_lt h
  have hlength := voting.candidateList.2
  rw [toNat_ofNat_place h] at hvalue
  have hlast : (-1 : Uint).toNat = 2 ^ 256 - 1 := by decide
  omega

theorem Kept.tokenNum_add_le (h : voting.Kept) (account : Address) :
    (voting.voterInfo.get account).tokenNum.toNat + voting.tokenBalance.toNat < 2 ^ 256 := by
  have hle := Lib.Mapping.le_total (fun _ voter => voter.tokenNum.toNat) voting.voterInfo
    account rfl
  have hsold := h.sold
  have hword := voting.totalTokens.isLt
  omega

theorem Kept.tokenBalance_le (h : voting.Kept) :
    voting.tokenBalance ≤ voting.totalTokens := by
  have hsold := h.sold
  rw [BitVec.le_def]
  omega

theorem Kept.used_lt (h : voting.Kept) (account : Address) :
    sumOf (voting.voterInfo.get account).tokensVoteForCandidates < 2 ^ 256 :=
  Nat.lt_of_le_of_lt (h.voters account).used (BitVec.isLt _)

theorem Kept.toNat_ofNat_used (h : voting.Kept) (account : Address) :
    (BitVec.ofNat 256
      (sumOf (voting.voterInfo.get account).tokensVoteForCandidates)).toNat =
      sumOf (voting.voterInfo.get account).tokensVoteForCandidates :=
  Nat.mod_eq_of_lt (h.used_lt account)

theorem Kept.used_le (h : voting.Kept) (account : Address) :
    BitVec.ofNat 256 (sumOf (voting.voterInfo.get account).tokensVoteForCandidates) ≤
      (voting.voterInfo.get account).tokenNum := by
  rw [BitVec.le_def, h.toNat_ofNat_used]
  exact (h.voters account).used

theorem Kept.length_tokensOf (h : voting.Kept) (account : Address) :
    (voting.tokensOf account).length = voting.candidateList.1.length := by
  unfold tokensOf
  dsimp only
  split
  · exact List.length_replicate
  · rename_i hne
    exact (h.voters account).length.resolve_left hne

theorem sumOf_tokensOf (account : Address) : sumOf (voting.tokensOf account) =
    sumOf (voting.voterInfo.get account).tokensVoteForCandidates := by
  unfold tokensOf
  dsimp only
  split
  · rename_i hzero
    rw [sumOf_replicate, List.eq_nil_of_length_eq_zero hzero, sumOf_nil]
  · rfl

theorem getD_tokensOf (account : Address) (n : Nat) : (voting.tokensOf account).getD n 0 =
    (voting.voterInfo.get account).tokensVoteForCandidates.getD n 0 := by
  unfold tokensOf
  dsimp only
  split
  · rename_i hzero
    rw [List.eq_nil_of_length_eq_zero hzero, List.getD_nil, List.getD_eq_getElem?_getD,
      List.getElem?_replicate]
    split <;> rfl
  · rfl

/-! `buy`. -/

def tokensToBuy (voting : Voting) (msg : Message) : Uint :=
  msg.value / voting.tokenPrice

def bought (voting : Voting) (msg : Message) : Voting :=
  { voting with
    voterInfo := voting.voterInfo.set msg.sender
      { voting.voterInfo.get msg.sender with
        voterAddress := msg.sender
        tokenNum := (voting.voterInfo.get msg.sender).tokenNum + voting.tokensToBuy msg }
    tokenBalance := voting.tokenBalance - voting.tokensToBuy msg
    balance := voting.balance + msg.value.toNat }

theorem buy_eq {arith : Arithmetic} (hexact : arith.Exact) (hkept : voting.Kept)
    (msg : Message) :
    voting.buy arith msg =
      if voting.tokenPrice ≠ 0 ∧ voting.tokensToBuy msg ≤ voting.tokenBalance then
        .ok (voting.bought msg)
      else .error "" := by
  unfold buy
  rw [require_bind]
  by_cases hprice : voting.tokenPrice ≠ 0
  · rw [if_pos hprice, require_bind]
    by_cases hle : msg.value / voting.tokenPrice ≤ voting.tokenBalance
    · have hboth : voting.tokenPrice ≠ 0 ∧
          voting.tokensToBuy msg ≤ voting.tokenBalance := ⟨hprice, hle⟩
      have hsum := hkept.tokenNum_add_le msg.sender
      have hbalance : (msg.value / voting.tokenPrice).toNat ≤ voting.tokenBalance.toNat := hle
      have hadd : (voting.voterInfo.get msg.sender).tokenNum.toNat +
          (msg.value / voting.tokenPrice).toNat < 2 ^ 256 := by omega
      rw [if_pos hle, if_pos hboth]
      dsimp only
      rw [hexact.add hadd, ok_bind, hexact.sub hle, ok_bind]
      rfl
    · rw [if_neg hle]
      exact (if_neg fun h => hle h.2).symm
  · rw [if_neg hprice]
    exact (if_neg fun h => hprice h.1).symm

theorem Kept.bought (hkept : voting.Kept) {msg : Message}
    (hle : voting.tokensToBuy msg ≤ voting.tokenBalance) : (voting.bought msg).Kept := by
  have hbalance : (voting.tokensToBuy msg).toNat ≤ voting.tokenBalance.toNat := hle
  have hsum := hkept.tokenNum_add_le msg.sender
  have htokens := toNat_add (a := (voting.voterInfo.get msg.sender).tokenNum)
    (b := voting.tokensToBuy msg) (by omega)
  have hrest := toNat_sub hle
  constructor
  · have htotal := Lib.Mapping.total_set (fun _ (voter : Voter) => voter.tokenNum.toNat)
      voting.voterInfo msg.sender { voting.voterInfo.get msg.sender with
        voterAddress := msg.sender
        tokenNum := (voting.voterInfo.get msg.sender).tokenNum + voting.tokensToBuy msg } rfl
    have hsold := hkept.sold
    simp only [Voting.bought] at htotal ⊢
    omega
  · have hvoter := hkept.voters msg.sender
    refine Lib.Mapping.forall_get_set hkept.voters ⟨?_, hvoter.length⟩
    have hused := hvoter.used
    dsimp only
    omega
  · intro candidate hcandidate
    have htotal := Lib.Mapping.total_set
      (fun _ (voter : Voter) =>
        (voter.tokensVoteForCandidates.getD (voting.place candidate) 0).toNat)
      voting.voterInfo msg.sender { voting.voterInfo.get msg.sender with
        voterAddress := msg.sender
        tokenNum := (voting.voterInfo.get msg.sender).tokenNum + voting.tokensToBuy msg } rfl
    exact (hkept.received candidate hcandidate).trans (Nat.add_right_cancel htotal).symm

/-! `voteForCandidate`. -/

def votedTokens (voting : Voting) (account : Address) (candidate : Bytes32)
    (voteTokens : Uint) : List Uint :=
  (voting.tokensOf account).set (voting.place candidate)
    ((voting.tokensOf account).getD (voting.place candidate) 0 + voteTokens)

def votedVoter (voting : Voting) (account : Address) (candidate : Bytes32)
    (voteTokens : Uint) : Voter :=
  { voting.voterInfo.get account with
    tokensVoteForCandidates := voting.votedTokens account candidate voteTokens }

def voted (voting : Voting) (account : Address) (candidate : Bytes32) (voteTokens : Uint) :
    Voting :=
  { voting with
    votesReceived := voting.votesReceived.set candidate
      (voting.votesReceived.get candidate + voteTokens)
    voterInfo := voting.voterInfo.set account
      (voting.votedVoter account candidate voteTokens) }

/-- The guards of a vote. -/
structure MayVote (voting : Voting) (msg : Message) (candidate : Bytes32)
    (voteTokens : Uint) : Prop where
  value_eq : msg.value = 0
  listed : candidate ∈ voting.candidateList.1
  available : sumOf (voting.voterInfo.get msg.sender).tokensVoteForCandidates +
    voteTokens.toNat ≤ (voting.voterInfo.get msg.sender).tokenNum.toNat

section MayVote

variable {msg : Message} {candidate : Bytes32} {voteTokens : Uint}

/-- Nothing wraps in the array of the voter. -/
theorem MayVote.toNat_given (h : voting.MayVote msg candidate voteTokens) (n : Nat) :
    ((voting.tokensOf msg.sender).getD n 0).toNat + voteTokens.toNat < 2 ^ 256 := by
  have hle := getD_le_sumOf (voting.tokensOf msg.sender) n
  rw [sumOf_tokensOf] at hle
  have havailable := h.available
  have hword := (voting.voterInfo.get msg.sender).tokenNum.isLt
  omega

theorem MayVote.place_lt (h : voting.MayVote msg candidate voteTokens)
    (hkept : voting.Kept) :
    voting.place candidate < (voting.tokensOf msg.sender).length := by
  rw [hkept.length_tokensOf]
  exact Voting.place_lt h.listed

theorem MayVote.sumOf_votedTokens (h : voting.MayVote msg candidate voteTokens)
    (hkept : voting.Kept) :
    sumOf (voting.votedTokens msg.sender candidate voteTokens) =
      sumOf (voting.voterInfo.get msg.sender).tokensVoteForCandidates + voteTokens.toNat := by
  have hset := sumOf_set (h.place_lt hkept)
    ((voting.tokensOf msg.sender).getD (voting.place candidate) 0 + voteTokens)
  rw [toNat_add (h.toNat_given _), sumOf_tokensOf] at hset
  unfold votedTokens
  omega

theorem MayVote.getD_votedTokens (h : voting.MayVote msg candidate voteTokens)
    (hkept : voting.Kept) (n : Nat) :
    ((voting.votedTokens msg.sender candidate voteTokens).getD n 0).toNat =
      ((voting.voterInfo.get msg.sender).tokensVoteForCandidates.getD n 0).toNat +
        if n = voting.place candidate then voteTokens.toNat else 0 := by
  rw [← getD_tokensOf]
  by_cases hn : n = voting.place candidate
  · subst hn
    have hset : voting.place candidate <
        (voting.votedTokens msg.sender candidate voteTokens).length := by
      rw [votedTokens, List.length_set]
      exact h.place_lt hkept
    rw [if_pos rfl, ← toNat_add (h.toNat_given _), List.getD_eq_getElem _ _ hset]
    exact congrArg BitVec.toNat (List.getElem_set_self hset)
  · rw [if_neg hn, Nat.add_zero, votedTokens, List.getD_eq_getElem?_getD,
      List.getElem?_set_ne (Ne.symm hn), List.getD_eq_getElem?_getD]

theorem MayVote.voterKept (h : voting.MayVote msg candidate voteTokens)
    (hkept : voting.Kept) (account : Address) :
    VoterKept voting.candidateList.1.length
      ((voting.voted msg.sender candidate voteTokens).voterInfo.get account) := by
  refine Lib.Mapping.forall_get_set hkept.voters ⟨?_, .inr ?_⟩ account
  · change sumOf (voting.votedTokens msg.sender candidate voteTokens) ≤ _
    rw [h.sumOf_votedTokens hkept]
    exact h.available
  · change (voting.votedTokens msg.sender candidate voteTokens).length = _
    rw [votedTokens, List.length_set]
    exact hkept.length_tokensOf msg.sender

theorem MayVote.total_place (h : voting.MayVote msg candidate voteTokens)
    (hkept : voting.Kept) (n : Nat) :
    (voting.voted msg.sender candidate voteTokens).voterInfo.total
        (fun _ voter => (voter.tokensVoteForCandidates.getD n 0).toNat) =
      voting.voterInfo.total
        (fun _ voter => (voter.tokensVoteForCandidates.getD n 0).toNat) +
      if n = voting.place candidate then voteTokens.toNat else 0 := by
  have htotal := Lib.Mapping.total_set
    (fun _ (voter : Voter) => (voter.tokensVoteForCandidates.getD n 0).toNat)
    voting.voterInfo msg.sender (voting.votedVoter msg.sender candidate voteTokens) rfl
  change (voting.voted msg.sender candidate voteTokens).voterInfo.total _ + _ =
    _ + ((voting.votedTokens msg.sender candidate voteTokens).getD n 0).toNat at htotal
  rw [h.getD_votedTokens hkept] at htotal
  omega

theorem MayVote.total_tokenNum :
    (voting.voted msg.sender candidate voteTokens).voterInfo.total
        (fun _ voter => voter.tokenNum.toNat) =
      voting.voterInfo.total (fun _ voter => voter.tokenNum.toNat) :=
  Nat.add_right_cancel <| Lib.Mapping.total_set
    (fun _ (voter : Voter) => voter.tokenNum.toNat) voting.voterInfo msg.sender
    (voting.votedVoter msg.sender candidate voteTokens) rfl

/-- A candidate has at most the tokens that are sold. -/
theorem MayVote.toNat_received (h : voting.MayVote msg candidate voteTokens)
    (hkept : voting.Kept) :
    (voting.votesReceived.get candidate).toNat + voteTokens.toNat < 2 ^ 256 := by
  have hle := Lib.Mapping.total_le_total
    (fun _ voter => (voter.tokensVoteForCandidates.getD (voting.place candidate) 0).toNat)
    (fun _ voter => voter.tokenNum.toNat)
    (voting.voted msg.sender candidate voteTokens).voterInfo
    fun account => Nat.le_trans (getD_le_sumOf _ _) (h.voterKept hkept account).used
  rw [h.total_place hkept, if_pos rfl, total_tokenNum, ← hkept.received _ h.listed] at hle
  have hsold := hkept.sold
  have hword := voting.totalTokens.isLt
  omega

theorem Kept.voted (hkept : voting.Kept) (h : voting.MayVote msg candidate voteTokens) :
    (voting.voted msg.sender candidate voteTokens).Kept := by
  refine ⟨?_, h.voterKept hkept, ?_⟩
  · rw [MayVote.total_tokenNum]
    exact hkept.sold
  · intro other hother
    change ((voting.votesReceived.set candidate _).get other).toNat = Lib.Mapping.total
      (fun _ (voter : Voter) =>
        (voter.tokensVoteForCandidates.getD (voting.place other) 0).toNat) _
    rw [h.total_place hkept, ← hkept.received other hother]
    by_cases heq : other = candidate
    · subst heq
      rw [if_pos rfl, Lib.Mapping.get_set_self, toNat_add (h.toNat_received hkept)]
    · have hplace : voting.place other ≠ voting.place candidate :=
        fun hsame => heq ((List.idxOf_inj hother).mp hsame)
      rw [if_neg hplace, Lib.Mapping.get_set_of_ne _ _ heq, Nat.add_zero]

end MayVote

section Exact

variable {arith : Arithmetic} (hexact : arith.Exact)
include hexact

theorem indexOfCandidate_of_mem {candidate : Bytes32}
    (h : candidate ∈ voting.candidateList.1) :
    voting.indexOfCandidate arith candidate =
      .ok (BitVec.ofNat 256 (voting.place candidate)) := by
  have heq := @indexFrom_eq arith hexact candidate voting.candidateList.1 0
    (by simpa using voting.candidateList.2)
  rw [if_pos h] at heq
  simpa [indexOfCandidate, place] using heq

theorem indexOfCandidate_of_not_mem {candidate : Bytes32}
    (h : candidate ∉ voting.candidateList.1) :
    voting.indexOfCandidate arith candidate = .ok (-1) := by
  have heq := @indexFrom_eq arith hexact candidate voting.candidateList.1 0
    (by simpa using voting.candidateList.2)
  rwa [if_neg h] at heq

theorem createTokens_eq (account : Address) :
    voting.createTokens arith (voting.voterInfo.get account).tokensVoteForCandidates =
      .ok (voting.tokensOf account) := by
  unfold createTokens tokensOf
  dsimp only
  split
  · rename_i hzero
    rw [List.eq_nil_of_length_eq_zero hzero]
    exact pushFrom_eq hexact [] (by simpa using voting.candidateList.2)
  · rfl

theorem totalUsedTokens_tokensOf (hkept : voting.Kept) (account : Address) :
    totalUsedTokens arith (voting.tokensOf account) =
      .ok (BitVec.ofNat 256
        (sumOf (voting.voterInfo.get account).tokensVoteForCandidates)) := by
  rw [totalUsedTokens_eq hexact, sumOf_tokensOf]
  · rw [hkept.length_tokensOf]
    exact voting.candidateList.2
  · rw [sumOf_tokensOf]
    exact hkept.used_lt account

theorem Kept.totalUsedTokens_eq (hkept : voting.Kept) (account : Address) :
    totalUsedTokens arith (voting.voterInfo.get account).tokensVoteForCandidates =
      .ok (BitVec.ofNat 256
        (sumOf (voting.voterInfo.get account).tokensVoteForCandidates)) := by
  refine Voting.totalUsedTokens_eq hexact ?_ (hkept.used_lt account)
  have hlength := (hkept.voters account).length
  have hword := voting.candidateList.2
  omega

theorem availableTokens_eq (hkept : voting.Kept) (account : Address) :
    ∃ availableTokens : Uint,
      arith.sub (voting.voterInfo.get account).tokenNum (BitVec.ofNat 256
          (sumOf (voting.voterInfo.get account).tokensVoteForCandidates)) =
        .ok availableTokens ∧
      sumOf (voting.voterInfo.get account).tokensVoteForCandidates +
          availableTokens.toNat =
        (voting.voterInfo.get account).tokenNum.toNat := by
  have hle := hkept.used_le account
  have hused := (hkept.voters account).used
  refine ⟨_, hexact.sub hle, ?_⟩
  rw [toNat_sub hle, hkept.toNat_ofNat_used]
  omega

/-- A vote is counted if it may be cast, and fails otherwise. -/
theorem voteForCandidate_eq (hkept : voting.Kept) (msg : Message) (candidate : Bytes32)
    (voteTokens : Uint) :
    (voting.MayVote msg candidate voteTokens ∧
      voting.voteForCandidate arith msg candidate voteTokens =
        .ok (voting.voted msg.sender candidate voteTokens)) ∨
    (¬ voting.MayVote msg candidate voteTokens ∧
      voting.voteForCandidate arith msg candidate voteTokens = .error "") := by
  unfold voteForCandidate
  rw [require_bind]
  by_cases hvalue : msg.value = 0
  · by_cases hlisted : candidate ∈ voting.candidateList.1
    · obtain ⟨availableTokens, hsub, havailable⟩ :=
        availableTokens_eq hexact hkept msg.sender
      rw [if_pos hvalue, indexOfCandidate_of_mem hexact hlisted, ok_bind, require_bind,
        if_pos (ofNat_place_ne hlisted)]
      dsimp only
      rw [createTokens_eq hexact, ok_bind, totalUsedTokens_tokensOf hexact hkept, ok_bind, hsub,
        ok_bind, require_bind]
      by_cases henough : voteTokens ≤ availableTokens
      · have hmay : voting.MayVote msg candidate voteTokens := by
          refine ⟨hvalue, hlisted, ?_⟩
          have hle : voteTokens.toNat ≤ availableTokens.toNat := henough
          omega
        refine .inl ⟨hmay, ?_⟩
        rw [if_pos henough, hexact.add (hmay.toNat_received hkept), ok_bind, require_bind,
          toNat_ofNat_place hlisted, if_pos (hmay.place_lt hkept),
          hexact.add (hmay.toNat_given _), ok_bind]
        rfl
      · refine .inr ⟨fun hmay => henough ?_, if_neg henough⟩
        have hle := hmay.available
        rw [BitVec.le_def]
        omega
    · refine .inr ⟨fun hmay => hlisted hmay.listed, ?_⟩
      rw [if_pos hvalue, indexOfCandidate_of_not_mem hexact hlisted, ok_bind, require_bind,
        if_neg fun hne => hne rfl]
  · exact .inr ⟨fun hmay => hvalue hmay.value_eq, if_neg hvalue⟩

/-- No call of a kept contract tells one exact arithmetic from another. -/
theorem call_eq_wrapping (hkept : voting.Kept) (msg : Message) (vote : Vote) :
    voting.call arith msg vote = voting.call .wrapping msg vote := by
  cases vote with
  | buy => exact (buy_eq hexact hkept msg).trans (buy_eq wrapping_exact hkept msg).symm
  | voteForCandidate candidate voteTokens =>
      obtain ⟨hmay, heq⟩ | ⟨hmay, heq⟩ :=
        voteForCandidate_eq hexact hkept msg candidate voteTokens
      · obtain ⟨_, hsame⟩ | ⟨hnot, _⟩ :=
          voteForCandidate_eq wrapping_exact hkept msg candidate voteTokens
        · exact heq.trans hsame.symm
        · exact absurd hmay hnot
      · obtain ⟨hmay', _⟩ | ⟨_, hsame⟩ :=
          voteForCandidate_eq wrapping_exact hkept msg candidate voteTokens
        · exact absurd hmay' hmay
        · exact heq.trans hsame.symm
  | transfer => rfl

end Exact

theorem Kept.call (hkept : voting.Kept) {msg : Message} {vote : Vote} {voting' : Voting}
    (h : voting.call .wrapping msg vote = .ok voting') : voting'.Kept := by
  cases vote with
  | buy =>
      rw [Voting.call, buy_eq wrapping_exact hkept] at h
      split at h
      · rename_i hbuy
        cases h
        exact hkept.bought hbuy.2
      · cases h
  | voteForCandidate candidate voteTokens =>
      rw [Voting.call] at h
      obtain ⟨hmay, heq⟩ | ⟨_, heq⟩ :=
        voteForCandidate_eq wrapping_exact hkept msg candidate voteTokens
      · rw [heq] at h
        cases h
        exact hkept.voted hmay
      · rw [heq] at h
        cases h
  | transfer =>
      obtain ⟨_, h⟩ := require_bind_eq_ok.mp h
      obtain ⟨_, h⟩ := require_bind_eq_ok.mp h
      cases h
      exact ⟨hkept.sold, hkept.voters, hkept.received⟩

theorem Kept.step (hkept : voting.Kept) (message : Message × Vote) :
    (voting.step message).Kept := by
  unfold Voting.step
  split
  · rename_i hcall
    exact hkept.call hcall
  · exact hkept

theorem Kept.steps (hkept : voting.Kept) (messages : List (Message × Vote)) :
    (messages.foldl Voting.step voting).Kept := by
  induction messages generalizing voting with
  | nil => exact hkept
  | cons message rest ih => exact ih (hkept.step message)

/-- Tokens are sold or left, a voter spends no more than bought, and a candidate has what
the voters gave. Nothing wraps in any call after any calls. -/
theorem tokens_conserved (totalSupply price : Uint) (names : CandidateList)
    (messages : List (Message × Vote)) :
    let voting := messages.foldl step (create totalSupply price names)
    voting.tokenBalance.toNat +
        voting.voterInfo.total (fun _ voter => voter.tokenNum.toNat) =
      voting.totalTokens.toNat ∧
    (∀ account, ∃ usedTokens : Uint,
      totalUsedTokens .wrapping (voting.voterInfo.get account).tokensVoteForCandidates =
        .ok usedTokens ∧
      usedTokens ≤ (voting.voterInfo.get account).tokenNum) ∧
    (∀ candidate ∈ voting.candidateList.1, ∃ index : Uint,
      voting.indexOfCandidate .wrapping candidate = .ok index ∧
      (voting.votesReceived.get candidate).toNat = voting.voterInfo.total
        fun _ voter => (voter.tokensVoteForCandidates.getD index.toNat 0).toNat) ∧
    (∀ msg vote, voting.call .checked msg vote = voting.call .wrapping msg vote) ∧
    (∀ account, totalUsedTokens .checked
        (voting.voterInfo.get account).tokensVoteForCandidates =
      totalUsedTokens .wrapping (voting.voterInfo.get account).tokensVoteForCandidates) ∧
    voting.tokenSold .checked = voting.tokenSold .wrapping := by
  intro voting
  have hkept : voting.Kept := (create_kept totalSupply price names).steps messages
  refine ⟨hkept.sold, fun account => ?_, fun candidate hlisted => ?_, ?_, ?_, ?_⟩
  · exact ⟨_, hkept.totalUsedTokens_eq wrapping_exact account, hkept.used_le account⟩
  · refine ⟨_, indexOfCandidate_of_mem wrapping_exact hlisted, ?_⟩
    rw [toNat_ofNat_place hlisted]
    exact hkept.received candidate hlisted
  · exact call_eq_wrapping checked_exact hkept
  · intro account
    rw [hkept.totalUsedTokens_eq checked_exact, hkept.totalUsedTokens_eq wrapping_exact]
  · exact checked_exact.sub hkept.tokenBalance_le

end Voting

end BlockchainTutorial.Auction
