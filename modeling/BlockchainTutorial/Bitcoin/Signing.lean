import BlockchainTutorial.Bitcoin.Authorization
import BlockchainTutorial.Bitcoin.Send
import BlockchainTutorial.Bitcoin.Unspent

namespace BlockchainTutorial.Bitcoin

/-! What `Sign` makes of a transaction. -/

namespace Transaction

variable {ecdsaSign : Nat → String → Bytes} {prevTXs : Bytes → Option Transaction}

/-- The output that an input spends, where there is one. -/
def prevOut (prevTXs : Bytes → Option Transaction) (vin : TXInput) : TXOutput :=
  (outputAt (prevTX prevTXs vin.txid).vout vin.vout).getD ⟨0, []⟩

/-- An input with the signature for what is signed at its place. -/
def signedInput (ecdsaSign : Nat → String → Bytes) (prevTXs : Bytes → Option Transaction)
    (tx : Transaction) (inID : Nat) (vin : TXInput) : TXInput :=
  { vin with signature := ecdsaSign inID (tx.signedData inID (prevOut prevTXs vin)) }

def signed (ecdsaSign : Nat → String → Bytes) (prevTXs : Bytes → Option Transaction)
    (tx : Transaction) : Transaction :=
  { tx with vin := tx.vin.mapIdx (tx.signedInput ecdsaSign prevTXs) }

theorem signed_get {tx : Transaction} {i : Nat} {vin' : TXInput}
    (h : (tx.signed ecdsaSign prevTXs).vin[i]? = some vin') : ∃ vin, tx.vin[i]? = some vin ∧
      vin' = tx.signedInput ecdsaSign prevTXs i vin := by
  rw [signed, List.getElem?_mapIdx, Option.map_eq_some_iff] at h
  obtain ⟨vin, hvin, rfl⟩ := h
  exact ⟨vin, hvin, rfl⟩

/-- Signatures change nothing that does not read them. -/
theorem signed_map {β : Type} {f : TXInput → β}
    (hf : ∀ (vin : TXInput) (signature : Bytes), f { vin with signature } = f vin)
    (tx : Transaction) : (tx.signed ecdsaSign prevTXs).vin.map f = tx.vin.map f := by
  refine List.ext_getElem? fun i => ?_
  rw [signed, List.getElem?_map, List.getElem?_mapIdx, List.getElem?_map]
  cases tx.vin[i]? with
  | none => rfl
  | some vin => exact congrArg some (hf vin _)

theorem isCoinbase_signed (tx : Transaction) :
    (tx.signed ecdsaSign prevTXs).isCoinbase = tx.isCoinbase :=
  isCoinbase_of_outpoints (signed_map (fun _ _ => rfl) tx)

/-- Signatures are not part of what is signed. -/
theorem signedData_signed (tx : Transaction) (i : Nat) (out : TXOutput) :
    (tx.signed ecdsaSign prevTXs).signedData i out = tx.signedData i out := by
  have hcopy : (tx.signed ecdsaSign prevTXs).trimmedCopy = tx.trimmedCopy := by
    rw [trimmedCopy, signed_map (fun _ _ => rfl) tx]
    rfl
  rw [signedData, hcopy]
  rfl

theorem setSignature_append (tx : Transaction) (front back : List TXInput) (vin : TXInput)
    (signature : Bytes) :
    ({ tx with vin := front ++ vin :: back } : Transaction).setSignature front.length
        signature =
      { tx with vin := (front ++ [{ vin with signature }]) ++ back } := by
  unfold setSignature
  congr 1
  rw [List.modify_eq_take_cons_drop (by simp), List.append_assoc]
  simp

theorem signInputs_eq (tx : Transaction) {front back : List TXInput}
    (hback : ∀ vin ∈ back, (outputAt (prevTX prevTXs vin.txid).vout vin.vout).isSome) :
    signInputs ecdsaSign prevTXs tx.trimmedCopy front.length
        (back.map fun vin => ⟨vin.txid, vin.vout, [], []⟩)
        { tx with vin := front ++ back } =
      some { tx with
        vin := front ++ back.mapIdx fun i =>
          tx.signedInput ecdsaSign prevTXs (front.length + i) } := by
  induction back generalizing front with
  | nil => rfl
  | cons vin back ih =>
      obtain ⟨out, hout⟩ := Option.isSome_iff_exists.mp (hback vin List.mem_cons_self)
      have hprevOut : prevOut prevTXs vin = out := by
        rw [prevOut, hout]
        rfl
      have hrest := @ih (front ++ [tx.signedInput ecdsaSign prevTXs front.length vin])
        fun other hother => hback other (List.mem_cons_of_mem _ hother)
      rw [List.length_append, List.length_singleton] at hrest
      rw [List.map_cons, signInputs]
      dsimp only
      rw [hout]
      dsimp only
      rw [setPubKey_nil, setSignature_append]
      have hinput : (⟨vin.txid, vin.vout, ecdsaSign front.length
          (tx.trimmedCopy.setPubKey front.length out.pubKeyHash).sprintf, vin.pubKey⟩ :
            TXInput) = tx.signedInput ecdsaSign prevTXs front.length vin := by
        rw [signedInput, hprevOut]
        rfl
      rw [hinput, hrest, List.mapIdx_cons, List.append_assoc]
      simp only [Nat.add_assoc, Nat.add_comm 1]
      rfl

/-- Where every input names an output, `Sign` signs them all. -/
theorem sign_eq {tx : Transaction} (hcoinbase : tx.isCoinbase = false)
    (hprev : ∀ vin ∈ tx.vin, (prevTX prevTXs vin.txid).id ≠ [] ∧
      (outputAt (prevTX prevTXs vin.txid).vout vin.vout).isSome) :
    tx.sign ecdsaSign prevTXs = some (tx.signed ecdsaSign prevTXs) := by
  have hpresent : ¬ (tx.vin.any fun vin => (prevTX prevTXs vin.txid).id = []) = true := by
    intro hany
    obtain ⟨vin, hvin, hnone⟩ := List.any_eq_true.mp hany
    exact (hprev vin hvin).1 (of_decide_eq_true hnone)
  have hinputs := @signInputs_eq ecdsaSign prevTXs tx [] tx.vin
    fun vin hvin => (hprev vin hvin).2
  rw [sign, hcoinbase, if_neg Bool.false_ne_true, if_neg hpresent]
  refine hinputs.trans ?_
  simp only [List.length_nil, Nat.zero_add, List.nil_append]
  rfl

end Transaction

theorem signTransaction_eq {chain : Chain} {tx : Transaction}
    {ecdsaSign : Nat → String → Bytes} (hcoinbase : tx.isCoinbase = false)
    (hprev : ∀ vin ∈ tx.vin, ∃ prev, findTransaction chain vin.txid = some prev ∧
      prev.id ≠ [] ∧ (outputAt prev.vout vin.vout).isSome) :
    signTransaction chain tx ecdsaSign = some (tx.signed ecdsaSign (prevTXsOf chain tx)) := by
  have hfound : ∀ vin ∈ tx.vin, (findTransaction chain vin.txid).isSome := by
    intro vin hvin
    obtain ⟨prev, hsome, _⟩ := hprev vin hvin
    exact Option.isSome_of_eq_some hsome
  rw [signTransaction, if_neg (none_missing_iff.mpr hfound)]
  change tx.sign ecdsaSign (prevTXsOf chain tx) = _
  refine Transaction.sign_eq hcoinbase fun vin hvin => ?_
  obtain ⟨prev, hsome, hid, hout⟩ := hprev vin hvin
  rw [prevTX_prevTXsOf hvin hsome]
  exact ⟨hid, hout⟩

end BlockchainTutorial.Bitcoin
