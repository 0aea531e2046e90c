import BlockchainTutorial.Bitcoin.Peer

namespace BlockchainTutorial.Bitcoin

/-! The blocks that inv messages list, while a server handles inv and block messages of
any peers in any order. -/

/-- A server, and the getdata messages it has sent that no block has answered yet. -/
structure Download where
  peer : Peer
  requested : List (Address × Bytes)

/-- A message that is handled, and whether its sender takes the connection for the
answer. -/
inductive DownloadAction where
  | handleInv (addrFrom : Address) (items : List Bytes) (available : Bool)
  | handleBlock (addrFrom : Address) (block : Block) (fuel : Nat) (available : Bool)

instance : Inhabited DownloadAction := ⟨.handleInv "" [] false⟩

def DownloadAction.listed : DownloadAction → List Bytes
  | .handleInv _ items _ => items
  | .handleBlock .. => []

def Packet.request? (packet : Packet) : Option (Address × Bytes) :=
  match packet.message with
  | .getdata id => some (packet.addr, id)
  | _ => none

namespace Download

/-- A block answers one getdata for it that was sent to its sender. -/
def step (decode : Bytes → Option Block) (download : Download) :
    DownloadAction → Option Download
  | .handleInv addrFrom items available =>
      (download.peer.handleInv available addrFrom items).map fun (peer, sent) =>
        ⟨peer, download.requested ++ sent.filterMap Packet.request?⟩
  | .handleBlock addrFrom block fuel available =>
      (download.peer.handleBlock decode fuel available addrFrom block).map fun (peer, sent) =>
        ⟨peer, download.requested.erase (addrFrom, block.hash) ++
          sent.filterMap Packet.request?⟩

def Requested (download : Download) (hash : Bytes) : Prop :=
  ∃ request ∈ download.requested, request.2 = hash

instance (download : Download) (hash : Bytes) : Decidable (download.Requested hash) :=
  inferInstanceAs (Decidable (∃ request ∈ download.requested, request.2 = hash))

def Stored (download : Download) (hash : Bytes) : Prop :=
  download.peer.store.contains hash = true

instance (download : Download) (hash : Bytes) : Decidable (download.Stored hash) :=
  inferInstanceAs (Decidable (_ = true))

def InHand (download : Download) (hash : Bytes) : Prop :=
  download.Stored hash ∨ hash ∈ download.peer.blocksInTransit ∨ download.Requested hash

instance (download : Download) (hash : Bytes) : Decidable (download.InHand hash) :=
  inferInstanceAs (Decidable (_ ∨ _ ∨ _))

/-- An inv lists again what is still in the list of its forerunner, and a block that is
asked for of a node that is not available is not needed or comes otherwise. -/
def Keeps (download : Download) : DownloadAction → Prop
  | .handleInv _ items available =>
      (available = true ∨
        ∀ hash ∈ items.head?, download.Stored hash ∨ download.Requested hash) ∧
      ∀ hash ∈ download.peer.blocksInTransit,
        hash ∈ items ∨ download.Stored hash ∨ download.Requested hash
  | .handleBlock _ block _ available =>
      available = true ∨ ∀ hash ∈ download.peer.blocksInTransit.head?,
        hash = block.hash ∨ hash ∈ download.peer.blocksInTransit.tail ∨
          download.Stored hash ∨ download.Requested hash

instance (download : Download) : (action : DownloadAction) → Decidable (download.Keeps action)
  | .handleInv .. => inferInstanceAs (Decidable (_ ∧ _))
  | .handleBlock .. => inferInstanceAs (Decidable (_ ∨ _))

variable {decode : Bytes → Option Block} {download download' : Download}

theorem requested_append {peer : Peer} {requested new : List (Address × Bytes)} {hash : Bytes} :
    Requested ⟨peer, requested ++ new⟩ hash ↔
      Requested ⟨peer, requested⟩ hash ∨ Requested ⟨peer, new⟩ hash := by
  simp only [Requested, List.mem_append, or_and_right, exists_or]

theorem requested_answer {available : Bool} {server peer : Peer} {addr : Address}
    {id hash : Bytes} : Requested ⟨server,
        (Peer.answer available peer addr (.getdata id)).filterMap Packet.request?⟩ hash ↔
      available = true ∧ hash = id := by
  cases available with
  | false => simp [Peer.answer, Requested]
  | true => simp [Peer.answer, Requested, Packet.request?, eq_comm]

/-- What is asked for after a block came in. -/
theorem requested_erase (peer peer' : Peer) {requested : List (Address × Bytes)}
    {addrFrom : Address} {id hash : Bytes} (hne : hash ≠ id) :
    Requested ⟨peer', requested.erase (addrFrom, id)⟩ hash ↔
      Requested ⟨peer, requested⟩ hash := by
  constructor
  · rintro ⟨request, hmem, rfl⟩
    exact ⟨request, List.mem_of_mem_erase hmem, rfl⟩
  · rintro ⟨request, hmem, rfl⟩
    refine ⟨request, (List.mem_erase_of_ne ?_).mpr hmem, rfl⟩
    rintro rfl
    exact hne rfl

/-- What a handled inv does to what is in hand. -/
theorem handleInv_cases {addrFrom : Address} {items : List Bytes} {available : Bool}
    (h : download.step decode (.handleInv addrFrom items available) = some download') :
    ∃ blockHash rest, items = blockHash :: rest ∧ ∀ hash,
      (download'.Stored hash ↔ download.Stored hash) ∧
      (hash ∈ download'.peer.blocksInTransit ↔ hash ∈ items ∧ hash ≠ blockHash) ∧
      (download'.Requested hash ↔
        download.Requested hash ∨ (available = true ∧ hash = blockHash)) := by
  obtain ⟨⟨peer, sent⟩, hhandle, rfl⟩ := Option.map_eq_some_iff.mp h
  obtain ⟨blockHash, rest, knownNodes, hitems, rfl, rfl⟩ := Peer.handleInv_eq_some hhandle
  refine ⟨blockHash, rest, hitems, fun hash => ⟨Iff.rfl, ?_, ?_⟩⟩
  · simp
  · rw [requested_append, requested_answer]
    exact Iff.rfl

/-- What a handled block does to what is in hand. -/
theorem handleBlock_cases {addrFrom : Address} {block : Block} {fuel : Nat}
    {available : Bool}
    (h : download.step decode (.handleBlock addrFrom block fuel available) = some download') :
    download'.peer.blocksInTransit = download.peer.blocksInTransit.tail ∧ ∀ hash,
      (download'.Stored hash ↔ download.Stored hash ∨ hash = block.hash) ∧
      (hash ≠ block.hash → (download'.Requested hash ↔ download.Requested hash ∨
        (available = true ∧ hash ∈ download.peer.blocksInTransit.head?))) := by
  obtain ⟨⟨peer, sent⟩, hhandle, rfl⟩ := Option.map_eq_some_iff.mp h
  obtain ⟨store, hadd, hsent⟩ := Peer.handleBlock_eq_some hhandle
  have hstored : ∀ hash, store.contains hash = true ↔
      download.peer.store.contains hash = true ∨ hash = block.hash := by
    intro hash
    rw [BlockStore.addBlock_contains hadd, Bool.or_eq_true, decide_eq_true_eq]
  rcases hsent with ⟨blockHash, rest, knownNodes, htransit, rfl, rfl⟩ |
    ⟨htransit, chainstate, _, rfl, rfl⟩
  · refine ⟨by rw [htransit]; rfl, fun hash => ⟨hstored hash, fun hne => ?_⟩⟩
    rw [requested_append, requested_answer, htransit, requested_erase download.peer _ hne]
    simp [eq_comm]
  · refine ⟨by rw [htransit]; rfl, fun hash => ⟨hstored hash, fun hne => ?_⟩⟩
    simp only [List.filterMap_nil, List.append_nil]
    rw [htransit, requested_erase download.peer _ hne]
    simp

/-- The inv keeps what is in the list, and what it lists. -/
theorem keeps_handleInv_iff {addrFrom : Address} {items : List Bytes} {available : Bool}
    (h : download.step decode (.handleInv addrFrom items available) = some download') :
    download.Keeps (.handleInv addrFrom items available) ↔
      ∀ hash, hash ∈ download.peer.blocksInTransit ∨ hash ∈ items →
        download'.InHand hash := by
  obtain ⟨blockHash, rest, rfl, hcases⟩ := handleInv_cases h
  constructor
  · rintro ⟨hfirst, hold⟩ hash hhash
    obtain ⟨hstored, htransit, hrequested⟩ := hcases hash
    rw [InHand, hstored, htransit, hrequested]
    have hlisted : hash ∈ blockHash :: rest ∨ download.Stored hash ∨
        download.Requested hash :=
      hhash.elim (hold hash) .inl
    rcases hlisted with hitem | hstored | hrequested
    · by_cases heq : hash = blockHash
      · rcases hfirst with havailable | hfirst
        · exact .inr (.inr (.inr ⟨havailable, heq⟩))
        · rcases hfirst hash (by rw [heq]; rfl) with hstored | hrequested
          · exact .inl hstored
          · exact .inr (.inr (.inl hrequested))
      · exact .inr (.inl ⟨hitem, heq⟩)
    · exact .inl hstored
    · exact .inr (.inr (.inl hrequested))
  · intro hkept
    have hread : ∀ hash, hash ∈ download.peer.blocksInTransit ∨
        hash ∈ blockHash :: rest → download.Stored hash ∨
          (hash ∈ blockHash :: rest ∧ hash ≠ blockHash) ∨ download.Requested hash ∨
            (available = true ∧ hash = blockHash) := by
      intro hash hhash
      obtain ⟨hstored, htransit, hrequested⟩ := hcases hash
      have hinHand := hkept hash hhash
      rwa [InHand, hstored, htransit, hrequested] at hinHand
    refine ⟨?_, fun hash hhash => ?_⟩
    · cases available with
      | true => exact .inl rfl
      | false =>
          refine .inr fun hash hhash => ?_
          obtain rfl : blockHash = hash := Option.some.inj hhash
          rcases hread blockHash (.inr List.mem_cons_self) with
            hstored | ⟨_, hne⟩ | hrequested | ⟨hfalse, _⟩
          · exact .inl hstored
          · exact absurd rfl hne
          · exact .inr hrequested
          · cases hfalse
    · rcases hread hash (.inl hhash) with hstored | ⟨hitem, _⟩ | hrequested | ⟨_, rfl⟩
      · exact .inr (.inl hstored)
      · exact .inl hitem
      · exact .inr (.inr hrequested)
      · exact .inl List.mem_cons_self

/-- The block keeps what is in the list. -/
theorem keeps_handleBlock_iff {addrFrom : Address} {block : Block} {fuel : Nat}
    {available : Bool}
    (h : download.step decode (.handleBlock addrFrom block fuel available) = some download') :
    download.Keeps (.handleBlock addrFrom block fuel available) ↔
      ∀ hash ∈ download.peer.blocksInTransit, download'.InHand hash := by
  obtain ⟨htransit, hcases⟩ := handleBlock_cases h
  constructor
  · intro hfirst hash hhash
    obtain ⟨hstored, hrequested⟩ := hcases hash
    by_cases heq : hash = block.hash
    · exact .inl (hstored.mpr (.inr heq))
    · rw [InHand, hstored, htransit, hrequested heq]
      cases hlist : download.peer.blocksInTransit with
      | nil =>
          rw [hlist] at hhash
          cases hhash
      | cons blockHash rest =>
          rw [hlist] at hhash
          rcases List.mem_cons.mp hhash with rfl | hrest
          · rcases hfirst with havailable | hfirst
            · exact .inr (.inr (.inr ⟨havailable, rfl⟩))
            · rcases hfirst hash (by rw [hlist]; rfl) with
                hsame | htail | hold | hrequested
              · exact absurd hsame heq
              · rw [hlist] at htail
                exact .inr (.inl htail)
              · exact .inl (.inl hold)
              · exact .inr (.inr (.inl hrequested))
          · exact .inr (.inl hrest)
  · intro hkept
    cases available with
    | true => exact .inl rfl
    | false =>
        refine .inr fun hash hhash => ?_
        obtain ⟨hstored, hrequested⟩ := hcases hash
        have hinHand := hkept hash (List.mem_of_mem_head? hhash)
        by_cases heq : hash = block.hash
        · exact .inl heq
        · rw [InHand, hstored, htransit, hrequested heq] at hinHand
          rcases hinHand with (hold | hsame) | htail | hrequested | ⟨hfalse, _⟩
          · exact .inr (.inr (.inl hold))
          · exact absurd hsame heq
          · exact .inr (.inl htail)
          · exact .inr (.inr (.inr hrequested))
          · cases hfalse

/-- The step keeps what is in the list, and what the message lists. -/
theorem keeps_iff {action : DownloadAction} (h : download.step decode action = some download') :
    download.Keeps action ↔
      ∀ hash, hash ∈ download.peer.blocksInTransit ∨ hash ∈ action.listed →
        download'.InHand hash := by
  cases action with
  | handleInv addrFrom items available => exact keeps_handleInv_iff h
  | handleBlock addrFrom block fuel available =>
      rw [keeps_handleBlock_iff h]
      simp [DownloadAction.listed]

theorem inHand_stays {action : DownloadAction} (h : download.step decode action = some download')
    {hash : Bytes} (hhash : download.Stored hash ∨ download.Requested hash) :
    download'.InHand hash := by
  cases action with
  | handleInv addrFrom items available =>
      obtain ⟨blockHash, rest, _, hcases⟩ := handleInv_cases h
      obtain ⟨hstored, _, hrequested⟩ := hcases hash
      rcases hhash with hold | hold
      · exact .inl (hstored.mpr hold)
      · exact .inr (.inr (hrequested.mpr (.inl hold)))
  | handleBlock addrFrom block fuel available =>
      obtain ⟨_, hcases⟩ := handleBlock_cases h
      obtain ⟨hstored, hrequested⟩ := hcases hash
      by_cases heq : hash = block.hash
      · exact .inl (hstored.mpr (.inr heq))
      · rcases hhash with hold | hold
        · exact .inl (hstored.mpr (.inl hold))
        · exact .inr (.inr ((hrequested heq).mpr (.inl hold)))

/-- Only what an inv lists comes into the list. -/
theorem blocksInTransit_subset {action : DownloadAction}
    (h : download.step decode action = some download') {hash : Bytes}
    (hhash : hash ∈ download'.peer.blocksInTransit) :
    hash ∈ download.peer.blocksInTransit ∨ hash ∈ action.listed := by
  cases action with
  | handleInv addrFrom items available =>
      obtain ⟨blockHash, rest, _, hcases⟩ := handleInv_cases h
      exact .inr ((hcases hash).2.1.mp hhash).1
  | handleBlock addrFrom block fuel available =>
      rw [(handleBlock_cases h).1] at hhash
      exact .inl (List.mem_of_mem_tail hhash)

end Download

abbrev DownloadRun (decode : Bytes → Option Block) (nodeAddress : Address)
    (store : BlockStore) (chainstate : Bucket) :=
  Lib.Run (⟨Peer.startServer nodeAddress store chainstate, []⟩ : Download)
    (Download.step decode)

/-- A hash that an inv listed stays in hand. -/
def NoneForgotten {decode : Bytes → Option Block} {nodeAddress : Address}
    {store : BlockStore} {chainstate : Bucket}
    (run : DownloadRun decode nodeAddress store chainstate) : Prop :=
  ∀ k, k ≤ run.length → ∀ hash,
    run.Before k (fun _ action => hash ∈ action.listed) → (run.state k).InHand hash

section Runs

variable {decode : Bytes → Option Block} {nodeAddress : Address} {store : BlockStore}
  {chainstate : Bucket} (run : DownloadRun decode nodeAddress store chainstate)

theorem listed_of_inTransit : ∀ k, k ≤ run.length →
    ∀ hash ∈ (run.state k).peer.blocksInTransit,
      run.Before k fun _ action => hash ∈ action.listed := by
  refine run.induct ?_ ?_
  · intro hash hhash
    rw [run.starts] at hhash
    cases hhash
  · intro k hk ih hash hhash
    rcases Download.blocksInTransit_subset (run.steps k hk) hhash with hold | hnew
    · exact (ih hash hold).mono (Nat.le_succ k)
    · exact .now hk hnew

/-- No block is forgotten exactly when an inv lists again what is still in the list, and
the nodes that are asked for blocks that are still needed are available. -/
theorem none_forgotten_iff : NoneForgotten run ↔ run.AllSteps Download.Keeps := by
  constructor
  · intro hkept k hk
    rw [Download.keeps_iff (run.steps k hk)]
    rintro hash (hold | hnew)
    · exact hkept (k + 1) hk hash
        ((listed_of_inTransit run k (Nat.le_of_lt hk) hash hold).mono (Nat.le_succ k))
    · exact hkept (k + 1) hk hash (.now hk hnew)
  · intro hkeeps
    refine run.induct ?_ ?_
    · rintro hash ⟨j, hj, _⟩
      cases hj
    · rintro k hk ih hash ⟨j, hj, hlength, hlisted⟩
      have hstep := (Download.keeps_iff (run.steps k hk)).mp (hkeeps k hk) hash
      rcases Nat.lt_succ_iff_lt_or_eq.mp hj with hbefore | rfl
      · rcases ih hash ⟨j, hbefore, hlength, hlisted⟩ with hstored | htransit | hrequested
        · exact Download.inHand_stays (run.steps k hk) (.inl hstored)
        · exact hstep (.inl htransit)
        · exact Download.inHand_stays (run.steps k hk) (.inr hrequested)
      · exact hstep (.inr hlisted)

end Runs

section TwoPeers

/-! A second inv comes in while the blocks of the first one are fetched. -/

def twoInvs : List DownloadAction :=
  [.handleInv "localhost:3000" [[2], [1]] true, .handleInv "localhost:3001" [[3]] true]

theorem twoInvs_exec :
    (Lib.exec (Download.step fun _ => none)
      ⟨Peer.startServer "localhost:3002" newStore ∅, []⟩ twoInvs).isSome := by
  decide +kernel

theorem block_forgotten : ¬ ∀ (decode : Bytes → Option Block) (nodeAddress : Address)
    (store : BlockStore) (chainstate : Bucket)
    (run : DownloadRun decode nodeAddress store chainstate), NoneForgotten run := by
  intro hall
  have hinHand := hall (fun _ => none) "localhost:3002" newStore ∅
    (.ofActions twoInvs twoInvs_exec) 2 (Nat.le_refl 2) [1]
    ⟨0, by decide, by decide, by decide⟩
  exact absurd hinHand (by decide +kernel)

end TwoPeers

end BlockchainTutorial.Bitcoin
