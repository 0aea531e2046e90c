import BlockchainTutorial.Bitcoin.Encoding
import BlockchainTutorial.Bitcoin.FullNode

namespace BlockchainTutorial.Bitcoin

/-! Where the transactions in the mempools come from. -/

/-- A transaction in the request has the property. -/
def Request.Holds (codecs : Codecs) (P : Transaction → Prop) : Request → Prop
  | .tx payload => ∃ tx, codecs.transaction.decode payload.transaction = some tx ∧ P tx
  | _ => True

/-- The ID of the transaction that is asked for. -/
def Request.txWanted : Request → Option Bytes
  | .getdata payload => if payload.type = "tx" then some payload.id else none
  | _ => none

/-- The bytes are read as a request with the property. -/
def Carries (codecs : Codecs) (P : Transaction → Prop) (data : Bytes) : Prop :=
  ∃ request, Request.read codecs data = some (some request) ∧ request.Holds codecs P

/-- The mempool has transactions with the property, under their IDs. -/
def FullNode.Pools (P : Transaction → Prop) (node : FullNode) : Prop :=
  ∀ id tx, node.mempool.lookup id = some tx → tx.id = id ∧ P tx

structure Handling.Keeps (codecs : Codecs) (P : Transaction → Prop) (handling : Handling) :
    Prop where
  pools : handling.node.Pools P
  carries : ∀ sent ∈ handling.sent, Carries codecs P sent.2

def Handled.Keeps (codecs : Codecs) (P : Transaction → Prop) : Handled → Prop
  | .returned node sent => node.Pools P ∧ ∀ message ∈ sent, Carries codecs P message.2
  | .panicked sent => ∀ message ∈ sent, Carries codecs P message.2

section Keeps

variable {codecs : Codecs} {P : Transaction → Prop} {dial : Nat → Bool}
  {handling handling' : Handling}

theorem Handled.keeps_of {result : Option Handling}
    (h : ∀ handling, result = some handling → handling.Keeps codecs P) :
    (Handled.of result).Keeps codecs P := by
  cases result with
  | none => exact fun sent hsent => nomatch hsent
  | some handling => exact ⟨(h handling rfl).pools, (h handling rfl).carries⟩

namespace Handling.Keeps

theorem sendData (h : handling.Keeps codecs P) {data : Bytes} (hdata : Carries codecs P data)
    (addr : Address) : (handling.sendData dial addr data).Keeps codecs P := by
  unfold Handling.sendData
  split
  · refine ⟨h.pools, fun sent hsent => ?_⟩
    rcases List.mem_append.mp hsent with hsent | hsent
    · exact h.carries sent hsent
    · obtain rfl := List.mem_singleton.mp hsent
      exact hdata
  · exact ⟨h.pools, h.carries⟩

theorem send (h : handling.Keeps codecs P) {request : Request} {addr : Address}
    (hsend : handling.send codecs dial addr request = some handling')
    (hrequest : request.Holds codecs P) : handling'.Keeps codecs P := by
  obtain ⟨data, hdata, rfl⟩ := Option.map_eq_some_iff.mp hsend
  exact h.sendData ⟨request, Request.read_bytes hdata, hrequest⟩ addr

theorem sendTx (h : handling.Keeps codecs P) {tnx : Transaction} (htnx : P tnx)
    {addr : Address} (hsend : handling.sendTx codecs dial addr tnx = some handling') :
    handling'.Keeps codecs P :=
  h.send hsend ⟨tnx, codecs.transaction.decode_encode tnx, htnx⟩

theorem foldlM {α : Type} {step : Handling → α → Option Handling} {items : List α}
    (h : handling.Keeps codecs P) (hfold : items.foldlM step handling = some handling')
    (hstep : ∀ handling handling' a, handling.Keeps codecs P →
      step handling a = some handling' → handling'.Keeps codecs P) :
    handling'.Keeps codecs P := by
  induction items generalizing handling with
  | nil =>
      cases hfold
      exact h
  | cons a items ih =>
      rw [List.foldlM_cons] at hfold
      obtain ⟨next, hnext, hfold⟩ := Option.bind_eq_some_iff.mp hfold
      exact ih (hstep _ _ _ h hnext) hfold

theorem announce (h : handling.Keeps codecs P) {kind : String} {items : List Bytes}
    {skipped : List Address}
    (hsend : handling.announce codecs dial kind items skipped = some handling') :
    handling'.Keeps codecs P :=
  h.foldlM hsend fun _ _ _ hkeeps hstep => hkeeps.send hstep trivial

theorem handleAddr (h : handling.Keeps codecs P) {payload : Wire.Addr}
    (hhandle : handling.handleAddr codecs dial payload = some handling') :
    handling'.Keeps codecs P := by
  have hknown : ({ handling with node := { handling.node with
      knownNodes := handling.node.knownNodes ++ payload.addrList } } : Handling).Keeps codecs P :=
    ⟨h.pools, h.carries⟩
  exact hknown.foldlM hhandle fun _ _ _ hkeeps hstep => hkeeps.send hstep trivial

theorem fetchNext (h : handling.Keeps codecs P) {fuel : Nat} {addrFrom : Address}
    {blocksInTransit : List Bytes}
    (hfetch : handling.fetchNext codecs fuel dial addrFrom blocksInTransit = some handling') :
    handling'.Keeps codecs P := by
  cases blocksInTransit with
  | nil =>
      obtain ⟨chainstate, _, hfetch⟩ := Option.bind_eq_some_iff.mp hfetch
      cases hfetch
      exact ⟨h.pools, h.carries⟩
  | cons blockHash rest =>
      obtain ⟨next, hsend, hfetch⟩ := Option.bind_eq_some_iff.mp hfetch
      have hnext : next.Keeps codecs P := h.send hsend trivial
      cases hfetch
      exact ⟨hnext.pools, hnext.carries⟩

theorem handleBlock (h : handling.Keeps codecs P) {fuel : Nat} {payload : Wire.Block}
    (hhandle : handling.handleBlock codecs fuel dial payload = some handling') :
    handling'.Keeps codecs P := by
  obtain ⟨block, _, hhandle⟩ := Option.bind_eq_some_iff.mp hhandle
  obtain ⟨store, _, hhandle⟩ := Option.bind_eq_some_iff.mp hhandle
  have hstored : ({ handling with node := { handling.node with store } } : Handling).Keeps
      codecs P := ⟨h.pools, h.carries⟩
  exact hstored.fetchNext hhandle

theorem handleInv (h : handling.Keeps codecs P) {payload : Wire.Inv}
    (hhandle : handling.handleInv codecs dial payload = some handling') :
    handling'.Keeps codecs P := by
  unfold Handling.handleInv at hhandle
  split at hhandle
  · unfold Handling.handleInvBlock at hhandle
    cases hitems : payload.items with
    | nil => rw [hitems] at hhandle; cases hhandle
    | cons blockHash rest =>
        rw [hitems] at hhandle
        obtain ⟨next, hsend, hhandle⟩ := Option.bind_eq_some_iff.mp hhandle
        have hnext : next.Keeps codecs P := h.send hsend trivial
        cases hhandle
        exact ⟨hnext.pools, hnext.carries⟩
  · split at hhandle
    · unfold Handling.handleInvTx at hhandle
      cases hitems : payload.items with
      | nil => rw [hitems] at hhandle; cases hhandle
      | cons txID rest =>
          rw [hitems] at hhandle
          dsimp only at hhandle
          split at hhandle
          · exact h.send hhandle trivial
          · cases hhandle
            exact h
    · cases hhandle
      exact h

theorem handleGetBlocks (h : handling.Keeps codecs P) {fuel : Nat} {payload : Wire.GetBlocks}
    (hhandle : handling.handleGetBlocks codecs fuel dial payload = some handling') :
    handling'.Keeps codecs P := by
  obtain ⟨blocks, _, hsend⟩ := Option.bind_eq_some_iff.mp hhandle
  exact h.send hsend trivial

/-- The answer to a request for a transaction has one of the mempool, if it is there. -/
theorem handleGetData (h : handling.Keeps codecs P) {payload : Wire.GetData}
    (hmissing : payload.type = "tx" → handling.node.mempool.lookup payload.id = none →
      P emptyTransaction)
    (hhandle : handling.handleGetData codecs dial payload = some handling') :
    handling'.Keeps codecs P := by
  unfold Handling.handleGetData at hhandle
  split at hhandle
  · obtain ⟨found, _, hhandle⟩ := Option.bind_eq_some_iff.mp hhandle
    cases found with
    | none =>
        cases hhandle
        exact h
    | some block => exact h.send hhandle trivial
  · split at hhandle
    · rename_i htype
      refine h.sendTx ?_ hhandle
      cases hlookup : handling.node.mempool.lookup payload.id with
      | none => exact hmissing htype hlookup
      | some tx => exact (h.pools _ _ hlookup).2
    · cases hhandle
      exact h

theorem compareHeights (h : handling.Keeps codecs P) {payload : Wire.Verzion}
    {myBestHeight : Int}
    (hcompare : handling.compareHeights codecs dial payload myBestHeight = some handling') :
    handling'.Keeps codecs P := by
  unfold Handling.compareHeights at hcompare
  split at hcompare
  · exact h.send hcompare trivial
  · split at hcompare
    · obtain ⟨bestHeight, _, hsend⟩ := Option.bind_eq_some_iff.mp hcompare
      exact h.send hsend trivial
    · cases hcompare
      exact h

theorem meet (h : handling.Keeps codecs P) (addrFrom : Address) :
    (handling.meet addrFrom).Keeps codecs P := by
  unfold Handling.meet
  split
  · exact h
  · exact ⟨h.pools, h.carries⟩

theorem handleVersion (h : handling.Keeps codecs P) {payload : Wire.Verzion}
    (hhandle : handling.handleVersion codecs dial payload = some handling') :
    handling'.Keeps codecs P := by
  obtain ⟨myBestHeight, _, hhandle⟩ := Option.bind_eq_some_iff.mp hhandle
  obtain ⟨next, hnext, hhandle⟩ := Option.bind_eq_some_iff.mp hhandle
  cases hhandle
  exact (h.compareHeights hnext).meet payload.addrFrom

theorem receiveTx (h : handling.Keeps codecs P) {tx : Transaction} (htx : P tx) :
    (handling.receiveTx tx).Keeps codecs P := by
  refine ⟨fun id found hlookup => ?_, h.carries⟩
  change (handling.node.mempool.insert tx.id tx).lookup id = some found at hlookup
  by_cases hid : id = tx.id
  · subst hid
    rw [AList.lookup_insert] at hlookup
    cases hlookup
    exact ⟨rfl, htx⟩
  · rw [AList.lookup_insert_ne hid] at hlookup
    exact h.pools id found hlookup

theorem lookup_of_erased (txs : List Transaction) {mempool : AList fun _ : Bytes => Transaction}
    {id : Bytes} {found : Transaction}
    (h : (txs.foldl (fun mempool tx => mempool.erase tx.id) mempool).lookup id = some found) :
    mempool.lookup id = some found := by
  induction txs generalizing mempool with
  | nil => exact h
  | cons tx txs ih =>
      have herased := ih h
      by_cases hid : id = tx.id
      · subst hid
        rw [AList.lookup_erase] at herased
        cases herased
      · rwa [AList.lookup_erase_ne hid] at herased

theorem mined (h : handling.Keeps codecs P) (store : BlockStore) (chainstate : Bucket)
    (txs : List Transaction) : (handling.mined store chainstate txs).Keeps codecs P :=
  ⟨fun id tx hlookup => h.pools id tx (lookup_of_erased txs hlookup), h.carries⟩

section Mining

variable {crypto : Crypto} {fuel : Nat} {miningAddress : Bytes}

theorem mine (h : handling.Keeps codecs P) {turn : MiningTurn} {txs : List Transaction}
    (hmine : handling.mine codecs crypto fuel dial miningAddress turn txs = some handling') :
    handling'.Keeps codecs P := by
  obtain ⟨store, _, hmine⟩ := Option.bind_eq_some_iff.mp hmine
  obtain ⟨chainstate, _, hmine⟩ := Option.bind_eq_some_iff.mp hmine
  exact (h.mined store chainstate _).announce hmine

theorem mineTransactions (turns : List MiningTurn) (h : handling.Keeps codecs P)
    {handled : Handled}
    (hmine : Handling.mineTransactions codecs crypto fuel dial miningAddress turns handling =
      some handled) : handled.Keeps codecs P := by
  induction turns generalizing handling with
  | nil => cases hmine
  | cons turn turns ih =>
      unfold Handling.mineTransactions at hmine
      split at hmine
      · cases hmine
      · cases hverified : verified codecs crypto fuel handling.node.store
            (turn.order.filterMap handling.node.mempool.lookup) with
        | none =>
            rw [hverified] at hmine
            cases hmine
            exact h.carries
        | some valid =>
            rw [hverified] at hmine
            cases valid with
            | nil =>
                cases hmine
                exact ⟨h.pools, h.carries⟩
            | cons tx txs =>
                dsimp only at hmine
                cases hturn : handling.mine codecs crypto fuel dial miningAddress turn
                    (tx :: txs) with
                | none =>
                    rw [hturn] at hmine
                    cases hmine
                    exact h.carries
                | some next =>
                    rw [hturn] at hmine
                    have hnext := h.mine hturn
                    dsimp only at hmine
                    split at hmine
                    · exact ih hnext hmine
                    · cases hmine
                      exact ⟨hnext.pools, hnext.carries⟩

theorem handleTx (h : handling.Keeps codecs P) {turns : List MiningTurn} {payload : Wire.Tx}
    (hpayload : (Request.tx payload).Holds codecs P) {handled : Handled}
    (hhandle : handling.handleTx codecs crypto fuel dial turns payload = some handled) :
    handled.Keeps codecs P := by
  obtain ⟨tx, hdecode, htx⟩ := hpayload
  have hreceived := h.receiveTx htx
  unfold Handling.handleTx at hhandle
  rw [hdecode] at hhandle
  cases hknown : handling.node.knownNodes with
  | nil =>
      rw [hknown] at hhandle
      cases hhandle
      exact h.carries
  | cons central rest =>
      rw [hknown] at hhandle
      dsimp only at hhandle
      split at hhandle
      · cases hhandle
        exact Handled.keeps_of fun _ hsend => hreceived.announce hsend
      · cases haddress : (handling.receiveTx tx).node.miningAddress with
        | none =>
            rw [haddress] at hhandle
            cases hhandle
            exact ⟨hreceived.pools, hreceived.carries⟩
        | some miningAddress =>
            rw [haddress] at hhandle
            dsimp only at hhandle
            split at hhandle
            · exact hreceived.mineTransactions turns hhandle
            · cases hhandle
              exact ⟨hreceived.pools, hreceived.carries⟩

theorem handle (h : handling.Keeps codecs P) {turns : List MiningTurn} {request : Request}
    (hrequest : request.Holds codecs P)
    (hmissing : ∀ payload, request = .getdata payload → payload.type = "tx" →
      handling.node.mempool.lookup payload.id = none → P emptyTransaction) {handled : Handled}
    (hhandle : handling.handle codecs crypto fuel dial turns request = some handled) :
    handled.Keeps codecs P := by
  cases request with
  | addr payload => cases hhandle; exact Handled.keeps_of fun _ hresult => h.handleAddr hresult
  | block payload =>
      cases hhandle
      exact Handled.keeps_of fun _ hresult => h.handleBlock hresult
  | getblocks payload =>
      cases hhandle
      exact Handled.keeps_of fun _ hresult => h.handleGetBlocks hresult
  | getdata payload =>
      cases hhandle
      exact Handled.keeps_of fun _ hresult => h.handleGetData (hmissing payload rfl) hresult
  | inv payload => cases hhandle; exact Handled.keeps_of fun _ hresult => h.handleInv hresult
  | tx payload => exact h.handleTx hrequest hhandle
  | version payload =>
      cases hhandle
      exact Handled.keeps_of fun _ hresult => h.handleVersion hresult

end Mining

end Handling.Keeps

end Keeps

section Weaken

variable {codecs : Codecs} {P Q : Transaction → Prop}

theorem Carries.weaken {data : Bytes} (h : Carries codecs P data) (hPQ : ∀ tx, P tx → Q tx) :
    Carries codecs Q data := by
  obtain ⟨request, hread, hholds⟩ := h
  refine ⟨request, hread, ?_⟩
  cases request with
  | tx payload =>
      obtain ⟨tx, hdecode, htx⟩ := hholds
      exact ⟨tx, hdecode, hPQ tx htx⟩
  | _ => trivial

theorem FullNode.Pools.weaken {node : FullNode} (h : node.Pools P) (hPQ : ∀ tx, P tx → Q tx) :
    node.Pools Q :=
  fun id tx hlookup => ⟨(h id tx hlookup).1, hPQ tx (h id tx hlookup).2⟩

end Weaken

namespace Network

variable {codecs : Codecs} {crypto : Crypto} {fuel : Nat} {other : Transaction → Prop}
  {network network' : Network}

/-- The transaction was submitted, or is one of the others. -/
def Known (other : Transaction → Prop) (network : Network) (tx : Transaction) : Prop :=
  tx ∈ network.submitted ∨ other tx

structure Traced (codecs : Codecs) (other : Transaction → Prop) (network : Network) :
    Prop where
  pools : ∀ addr node, network.nodes addr = some node → node.Pools (network.Known other)
  carries : ∀ sent ∈ network.flying, Carries codecs (network.Known other) sent.2

/-- A node that is asked for a transaction has it in its mempool. -/
def Answers (codecs : Codecs) (network : Network) : NetworkAction → Prop
  | .deliver n _ _ => ∀ sent ∈ network.flying[n]?, ∀ node ∈ network.nodes sent.1,
      ∀ request ∈ (Request.read codecs sent.2).join, ∀ id ∈ request.txWanted,
        (node.mempool.lookup id).isSome
  | _ => True

instance (action : NetworkAction) : Decidable (network.Answers codecs action) :=
  match action with
  | .deliver n _ _ => inferInstanceAs (Decidable (∀ sent ∈ network.flying[n]?, _))
  | .start .. | .lose _ | .submit _ => inferInstanceAs (Decidable True)

theorem Traced.conclude (h : network.Traced codecs other) (address : Address)
    {handled : Handled} (hkeeps : handled.Keeps codecs (network.Known other)) :
    (network.conclude address handled).Traced codecs other := by
  have hcarries : ∀ sent : List Outgoing,
      (∀ message ∈ sent, Carries codecs (network.Known other) message.2) →
        ∀ message ∈ network.flying ++ sent, Carries codecs (network.Known other) message.2 :=
    fun sent hsent => List.forall_mem_append.mpr ⟨h.carries, hsent⟩
  cases handled with
  | returned node sent =>
      refine ⟨fun addr other hnode => ?_, hcarries sent hkeeps.2⟩
      by_cases haddr : addr = address
      · subst haddr
        change Function.update network.nodes addr (some node) addr = some other at hnode
        rw [Function.update_self] at hnode
        cases hnode
        exact hkeeps.1
      · change Function.update network.nodes address (some node) addr = some other at hnode
        rw [Function.update_of_ne haddr] at hnode
        exact h.pools addr other hnode
  | panicked sent =>
      refine ⟨fun addr other hnode => ?_, hcarries sent hkeeps⟩
      by_cases haddr : addr = address
      · subst haddr
        change Function.update network.nodes addr none addr = some other at hnode
        rw [Function.update_self] at hnode
        cases hnode
      · change Function.update network.nodes address none addr = some other at hnode
        rw [Function.update_of_ne haddr] at hnode
        exact h.pools addr other hnode

theorem Traced.erase (h : network.Traced codecs other) (n : Nat) :
    ({ network with flying := network.flying.eraseIdx n } : Network).Traced codecs other :=
  ⟨h.pools, fun sent hsent => h.carries sent (List.mem_of_mem_eraseIdx hsent)⟩

theorem keeps_startServer {P : Transaction → Prop} (dial : Nat → Bool) (nodeAddress : Address)
    (miningAddress : Option Bytes) (store : BlockStore) (chainstate : Bucket) :
    (FullNode.startServer codecs dial nodeAddress miningAddress store chainstate).Keeps codecs
      P := by
  have hempty : ∀ node : FullNode, node.mempool = ∅ → node.Pools P := by
    intro node hmempool id tx hlookup
    rw [hmempool] at hlookup
    cases hlookup
  unfold FullNode.startServer
  dsimp only
  split
  · exact ⟨hempty _ rfl, List.forall_mem_nil _⟩
  · refine Handled.keeps_of fun handling hsend => ?_
    obtain ⟨bestHeight, _, hsend⟩ := Option.bind_eq_some_iff.mp hsend
    exact Handling.Keeps.send ⟨hempty _ rfl, List.forall_mem_nil _⟩ hsend trivial

theorem keeps_handleConnection {P : Transaction → Prop} {node : FullNode} (hpools : node.Pools P)
    {data : Bytes} (hdata : Carries codecs P data)
    (hmissing : ∀ payload, Request.read codecs data = some (some (.getdata payload)) →
      payload.type = "tx" → node.mempool.lookup payload.id = none → P emptyTransaction)
    {dial : Nat → Bool} {turns : List MiningTurn} {handled : Handled}
    (h : node.handleConnection codecs crypto fuel dial turns data = some handled) :
    handled.Keeps codecs P := by
  obtain ⟨request, hread, hholds⟩ := hdata
  unfold FullNode.handleConnection at h
  rw [hread] at h
  have hkeeps : Handling.Keeps codecs P ⟨node, [], 0⟩ := ⟨hpools, List.forall_mem_nil _⟩
  refine hkeeps.handle hholds ?_ h
  rintro payload rfl
  exact hmissing payload hread

theorem Traced.step (h : network.Traced codecs other) {action : NetworkAction}
    (hanswers : network.Answers codecs action ∨ other emptyTransaction)
    (hstep : network.step codecs crypto fuel action = some network') :
    network'.Traced codecs other := by
  cases action with
  | start nodeAddress miningAddress store chainstate dial =>
      simp only [Network.step] at hstep
      split at hstep
      · cases hstep
      · cases hstep
        exact h.conclude _ (keeps_startServer _ _ _ _ _)
  | deliver n dial turns =>
      obtain ⟨sent, hsent, hstep⟩ := Option.bind_eq_some_iff.mp hstep
      obtain ⟨node, hnode, hstep⟩ := Option.bind_eq_some_iff.mp hstep
      obtain ⟨handled, hhandle, hstep⟩ := Option.bind_eq_some_iff.mp hstep
      cases hstep
      refine (h.erase n).conclude sent.1 ?_
      refine keeps_handleConnection (h.pools _ node hnode)
        (h.carries sent (List.mem_of_getElem? hsent)) ?_ hhandle
      intro payload hread htype hnone
      rcases hanswers with hanswers | hempty
      · have hsome := hanswers sent hsent node hnode (.getdata payload) (by rw [hread]; rfl)
          payload.id (if_pos htype)
        rw [hnone] at hsome
        cases hsome
      · exact .inr hempty
  | lose n =>
      cases hstep
      exact h.erase n
  | submit tx =>
      obtain ⟨data, hdata, rfl⟩ := Option.map_eq_some_iff.mp hstep
      have hgrow : ∀ earlier, network.Known other earlier → Known other
          { network with
            flying := network.flying ++ [("localhost:3000", data)]
            submitted := network.submitted ++ [tx] } earlier :=
        fun earlier hknown => hknown.imp (List.mem_append_left _) id
      refine ⟨fun addr node hnode => (h.pools addr node hnode).weaken hgrow, ?_⟩
      intro sent hsent
      rcases List.mem_append.mp hsent with hsent | hsent
      · exact (h.carries sent hsent).weaken hgrow
      · obtain rfl := List.mem_singleton.mp hsent
        exact ⟨_, Request.read_bytes hdata, tx, codecs.transaction.decode_encode tx,
          .inl (List.mem_append_right _ (List.mem_singleton_self tx))⟩

theorem traced_run (other : Transaction → Prop) (run : NetworkRun codecs crypto fuel)
    (hanswers : ∀ k, k < run.length →
      (run.state k).Answers codecs (run.act k) ∨ other emptyTransaction) :
    ∀ k, k ≤ run.length → (run.state k).Traced codecs other := by
  refine run.induct (P := fun k => (run.state k).Traced codecs other) ?_ ?_
  · rw [run.starts]
    exact ⟨(fun _ _ hnode => nomatch hnode), List.forall_mem_nil _⟩
  · intro k hk h
    exact h.step (hanswers k hk) (run.steps k hk)

end Network

/-- Every request on its way is read by the node that gets it. Every transaction in a mempool
is there under its ID, and was submitted, or is the empty one that a node sends when it is
asked for a transaction that it does not have. -/
theorem gossip_traced {codecs : Codecs} {crypto : Crypto} {fuel : Nat}
    (run : NetworkRun codecs crypto fuel) :
    (∀ sent ∈ (run.state run.length).flying, ∃ request,
        Request.read codecs sent.2 = some (some request)) ∧
      (∀ addr node id tx, (run.state run.length).nodes addr = some node →
        node.mempool.lookup id = some tx → tx.id = id ∧
          (tx ∈ (run.state run.length).submitted ∨ tx = emptyTransaction)) ∧
      (run.AllSteps (Network.Answers codecs) →
        ∀ addr node id tx, (run.state run.length).nodes addr = some node →
          node.mempool.lookup id = some tx → tx ∈ (run.state run.length).submitted) := by
  have htraced := Network.traced_run (· = emptyTransaction) run
    (fun _ _ => .inr rfl) run.length (Nat.le_refl _)
  refine ⟨fun sent hsent => ?_, fun addr node id tx hnode => htraced.pools addr node hnode id tx,
    fun hanswers addr node id tx hnode hlookup => ?_⟩
  · obtain ⟨request, hread, _⟩ := htraced.carries sent hsent
    exact ⟨request, hread⟩
  · have hexact := Network.traced_run (fun _ => False) run
      (fun k hk => .inl (hanswers k hk)) run.length (Nat.le_refl _)
    exact (hexact.pools addr node hnode id tx hlookup).2.resolve_right not_false

/-! A transaction that is announced by one server, and asked for by another. -/

def submittedTX : Transaction := ⟨[9], [⟨[1], 0, [4], [7]⟩], [⟨10, [8]⟩]⟩

def startNode (nodeAddress : Address) : NetworkAction :=
  .start nodeAddress none newStore
    ((newStore.reindex encodings.storedBlock.decode 1).getD ∅) fun _ => true

def nextRequest : NetworkAction :=
  .deliver 0 (fun _ => true) []

def relayed : List NetworkAction :=
  [startNode "localhost:3000", startNode "localhost:3001", nextRequest, .submit submittedTX,
    nextRequest, nextRequest, nextRequest, nextRequest]

def relayedRun : NetworkRun encodings sumCrypto 5 :=
  Lib.Run.ofActions relayed (by decide +kernel)

theorem gossip_traced_relayed : ∃ node,
    (relayedRun.state 8).nodes "localhost:3001" = some node ∧
      node.mempool.lookup [9] = some submittedTX ∧
      submittedTX ∈ (relayedRun.state 8).submitted := by
  have hlookup : ((relayedRun.state 8).nodes "localhost:3001").bind
      (fun node => node.mempool.lookup [9]) = some submittedTX := by
    decide +kernel
  have hanswers : relayedRun.AllSteps (Network.Answers encodings) := by
    decide +kernel
  have htraced := (gossip_traced relayedRun).2.2 hanswers
  rw [show relayedRun.length = 8 from rfl] at htraced
  obtain ⟨node, hnode, hlookup⟩ := Option.bind_eq_some_iff.mp hlookup
  exact ⟨node, hnode, hlookup, htraced "localhost:3001" node [9] submittedTX hnode hlookup⟩

end BlockchainTutorial.Bitcoin
