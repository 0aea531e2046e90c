import BlockchainTutorial.Lib.Simulation
import BlockchainTutorial.Raft.Routes
import BlockchainTutorial.Raft.Stored

namespace BlockchainTutorial.Raft

open Labrpc

variable {n : Nat} {C D Endname : Type}

/-! A cluster in which nobody calls `StartSnapshot`, as under `config.go`. -/

structure Bare (c : Cluster n C D) : Prop where
  servers : ∀ i, (c.rafts i).persister.snapshot = none
  installs : ∀ call ∈ c.installSnapshots, call.args.data = none

theorem bare_init : Bare (Cluster.init n C D) :=
  ⟨fun _ => rfl, List.forall_mem_nil _⟩

theorem Stores.snapshot_eq {old rf : Raft n C D} (h : Stores old rf) :
    rf.persister.snapshot = old.persister.snapshot := by
  rcases h with h | h <;> rw [h]

theorem CoreStep.bare {c : Cluster n C D} {a : Action n C D} {i : Fin n} {rf : Raft n C D}
    (h : CoreStep c a i rf) (hbare : Bare c) (hact : noStartSnapshot a = true) :
    rf.persister.snapshot = none := by
  cases h with
  | kept _ _ _ _ hstores => exact hstores.snapshot_eq.trans (hbare.servers i)
  | committed commit chan loop hform =>
      rw [hform]
      exact hbare.servers i
  | applied done chan hform =>
      rw [hform]
      exact hbare.servers i
  | started command last _ _ hform =>
      rw [hform]
      exact hbare.servers i
  | snapshotted snapshot index base last entry log hstart =>
      rw [hstart] at hact
      cases hact
  | appended k call _ _ _ hcore => exact hcore.snapshot_eq.trans (hbare.servers i)
  | installed k call _ hcall _ _ hform =>
      rw [hform]
      exact hbare.installs call (List.mem_of_getElem? hcall)

theorem Bare.step {c c' : Cluster n C D} {a : Action n C D} (hbare : Bare c)
    (hact : noStartSnapshot a = true) (hstep : c.step a = some c') : Bare c' := by
  refine ⟨fun i => ?_, fun call hcall => ?_⟩
  · refine Cluster.servers_step (P := fun rf => rf.persister.snapshot = none) hstep
      hbare.servers (fun rf h => by rwa [make_persister]) (fun i rf eff hlocal => ?_) i
    exact (CoreStep.of_local hlocal).bare hbare hact
  · rcases installSnapshots_step hstep hcall with ⟨call', hcall', hargs⟩ | ⟨base, _, hargs⟩
    · rw [← hargs]
      exact hbare.installs call' hcall'
    · rw [hargs]
      exact hbare.servers call.caller

/-! The servers on the network against the servers of a cluster. What an instance
that was crashed still does is out of sight there. -/

namespace Harness

/-- The request of a call that `rpc` stands for. `wrapArgs` and `wrapReply` name the
method that is called. -/
structure Serves {Args Reply : Type} (s : Harness n C D Endname) (epoch : Fin n → Nat)
    (wrapArgs : Args → CallArgs n C D) (wrapReply : Reply → CallReply)
    (req : Request n C D Endname) (rpc : Rpc n Args Reply) : Prop where
  caller : ∃ peers, s.Place req.caller rpc.caller peers
  server : rpc.server = req.server
  args : req.msg.args = wrapArgs rpc.args
  epoch_le : rpc.epoch ≤ epoch rpc.caller
  current : rpc.epoch = epoch rpc.caller ↔ s.Current rpc.caller req.caller
  waiting : req.msg.dispatch.reply = none → rpc.reply = none
  handled : ∀ k reply, req.msg.dispatch.server = some k →
    req.msg.dispatch.reply = some reply → s.Current req.server k →
    rpc.reply.map wrapReply = some reply
  answered : ∀ reply, req.msg.answer = some reply → rpc.reply.map wrapReply = some reply
  returned : s.Current rpc.caller req.caller → rpc.returned = req.finished

/-- A request that goes nowhere: the client ends of an instance that is down are off. -/
structure Stranded (s : Harness n C D Endname) (req : Request n C D Endname) : Prop where
  caller : ∀ i, ¬ s.Current i req.caller
  dispatch : req.msg.dispatch = .absent
  process : req.msg.process = .received ∨ req.msg.process = .failing ∨
    req.msg.process = .replied none

/-- A request for another method, or one that goes nowhere. -/
def Unseen {Args : Type} (s : Harness n C D Endname) (wrapArgs : Args → CallArgs n C D)
    (req : Request n C D Endname) : Prop :=
  (∀ args, req.msg.args ≠ wrapArgs args) ∨ s.Stranded req

/-- The calls of one method in a cluster follow the requests for it. -/
def Follows {Args Reply : Type} (s : Harness n C D Endname) (epoch : Fin n → Nat)
    (wrapArgs : Args → CallArgs n C D) (wrapReply : Reply → CallReply)
    (rpcs : List (Rpc n Args Reply)) : Prop :=
  Lib.Tracks (s.Serves epoch wrapArgs wrapReply) (s.Unseen wrapArgs) s.requests rpcs

/-- The harness shows what the cluster does: each server that is up is the cluster's,
one that is down would be, each call that can matter is there, and all that the
cluster delivers is delivered. -/
structure Shown (s : Harness n C D Endname) (c : Cluster n C D) : Prop where
  up : ∀ i k, s.Current i k → s.raftOf k = some (c.rafts i)
  down : ∀ i persister, s.saved i = .own persister →
    persister.snapshot = none ∧ c.rafts i = make persister
  requestVotes : s.Follows c.epoch .requestVote .requestVote c.requestVotes
  appendEntries : s.Follows c.epoch .appendEntries .appendEntries c.appendEntries
  installSnapshots : s.Follows c.epoch .installSnapshot .installSnapshot c.installSnapshots
  delivered : c.delivered.Sublist s.delivered

theorem shown_init : Shown (Harness.init n C D Endname) (Cluster.init n C D) where
  up i k h := by simp [Current, init] at h
  down i persister h := by
    obtain rfl := SavedPersister.own.inj h
    exact ⟨rfl, rfl⟩
  requestVotes := .nil
  appendEntries := .nil
  installSnapshots := .nil
  delivered := .slnil

section Follows

variable {Args Reply : Type} {s s' : Harness n C D Endname} {epoch epoch' : Fin n → Nat}
  {wrapArgs : Args → CallArgs n C D} {wrapReply : Reply → CallReply}
  {rpcs : List (Rpc n Args Reply)}

/-- What the test does to the calls: a server that it crashes enters a new epoch. -/
theorem Serves.crashes {req : Request n C D Endname} {rpc : Rpc n Args Reply}
    (h : s.Serves epoch wrapArgs wrapReply req rpc) (hsound : s.Sound req)
    (hplace : ∀ k i peers, s.Place k i peers → s'.Place k i peers)
    (hepoch : ∀ i, epoch i ≤ epoch' i)
    (hcurrent : ∀ i k, k < s.instances.length →
      (s'.Current i k ↔ s.Current i k ∧ epoch' i = epoch i)) :
    s'.Serves epoch' wrapArgs wrapReply req rpc := by
  obtain ⟨peers, hcaller⟩ := h.caller
  have hback : ∀ i k peers, s.Place k i peers → ∀ j, s'.Current j k → s.Current j k :=
    fun i k peers hk j hj => ((hcurrent j k hk.lt).mp hj).1
  refine ⟨⟨peers, hplace _ _ _ hcaller⟩, h.server, h.args,
    Nat.le_trans h.epoch_le (hepoch _), ?_, h.waiting, ?_, h.answered, ?_⟩
  · rw [hcurrent _ _ hcaller.lt, ← h.current]
    have hle := h.epoch_le
    have hle' := hepoch rpc.caller
    omega
  · intro k reply hserver hreply hk
    obtain ⟨peers', hserving⟩ := hsound.target hserver
    exact h.handled k reply hserver hreply (hback _ k _ hserving _ hk)
  · exact fun hk => h.returned (hback _ _ _ hcaller _ hk)

theorem Stranded.crashes {req : Request n C D Endname} (h : s.Stranded req)
    (hsound : s.Sound req)
    (hcurrent : ∀ i k, k < s.instances.length → s'.Current i k → s.Current i k) :
    s'.Stranded req := by
  obtain ⟨j, peers, hcaller, _⟩ := hsound.caller
  exact ⟨fun i hi => h.caller i (hcurrent i _ hcaller.lt hi), h.dispatch, h.process⟩

theorem Follows.crashes (h : s.Follows epoch wrapArgs wrapReply rpcs)
    (hsound : ∀ req ∈ s.requests, s.Sound req) (hrequests : s'.requests = s.requests)
    (hplace : ∀ k i peers, s.Place k i peers → s'.Place k i peers)
    (hepoch : ∀ i, epoch i ≤ epoch' i)
    (hcurrent : ∀ i k, k < s.instances.length →
      (s'.Current i k ↔ s.Current i k ∧ epoch' i = epoch i)) :
    s'.Follows epoch' wrapArgs wrapReply rpcs := by
  unfold Follows
  rw [hrequests]
  refine Lib.Tracks.imp h
    (fun req hreq rpc hserves => hserves.crashes (hsound req hreq) hplace hepoch hcurrent) ?_
  rintro req hreq (hother | hstranded)
  · exact .inl hother
  · exact .inr (hstranded.crashes (hsound req hreq)
      fun i k hk hnow => ((hcurrent i k hk).mp hnow).1)

/-- The servers move, and nobody starts or crashes. -/
theorem Serves.congr {req : Request n C D Endname} {rpc : Rpc n Args Reply}
    (h : s.Serves epoch wrapArgs wrapReply req rpc)
    (hplace : ∀ k i peers, s'.Place k i peers ↔ s.Place k i peers)
    (hsaved : s'.saved = s.saved) : s'.Serves epoch wrapArgs wrapReply req rpc := by
  have hcurrent : ∀ i k, s'.Current i k ↔ s.Current i k := fun i k => by
    rw [Current, Current, hsaved]
  refine ⟨?_, h.server, h.args, h.epoch_le, ?_, h.waiting, ?_, h.answered, ?_⟩
  · simpa only [hplace] using h.caller
  · simpa only [hcurrent] using h.current
  · simpa only [hcurrent] using h.handled
  · simpa only [hcurrent] using h.returned

theorem Unseen.congr {req : Request n C D Endname} (h : s.Unseen wrapArgs req)
    (hsaved : s'.saved = s.saved) : s'.Unseen wrapArgs req := by
  rcases h with hother | hstranded
  · exact .inl hother
  · refine .inr ⟨fun i hi => hstranded.caller i ?_, hstranded.dispatch, hstranded.process⟩
    rwa [Current, ← hsaved]

theorem Serves.moves {req : Request n C D Endname} {rpc : Rpc n Args Reply}
    (hwired : Wired s) (hsound : s.Sound req) (h : s.Serves epoch wrapArgs wrapReply req rpc)
    {msg : ReqMsg Endname (Fin n) Nat (CallArgs n C D) CallReply}
    (hmoves : req.msg.Moves s.net msg) :
    s.Serves epoch wrapArgs wrapReply { req with msg } rpc := by
  have hone := hsound.routed.oneServer
  have hsame : ∀ process : ProcessReq (Fin n) Nat CallReply,
      (∀ reply, ReqMsg.answer { req.msg with process } = some reply →
        rpc.reply.map wrapReply = some reply) →
      s.Serves epoch wrapArgs wrapReply { req with msg := { req.msg with process } } rpc :=
    fun process hanswer => ⟨h.caller, h.server, h.args, h.epoch_le, h.current, h.waiting,
      h.handled, hanswer, h.returned⟩
  cases hmoves with
  | found hprocess => exact hsame _ fun _ hanswer => by cases hanswer
  | execute hprocess =>
      simp only [ReqMsg.OneServer, hprocess] at hone
      have hnone := h.waiting (by rw [hone.1]; rfl)
      exact ⟨h.caller, h.server, h.args, h.epoch_le, h.current, fun _ => hnone,
        (fun _ _ _ hreply => by cases hreply), (fun _ hanswer => by cases hanswer), h.returned⟩
  | @receive servername server source reliable reply hprocess hdispatch =>
      refine ⟨h.caller, h.server, h.args, h.epoch_le, h.current, (fun hreply => by cases hreply),
        fun k reply' hserver hreply => ?_, (fun _ hanswer => by cases hanswer), h.returned⟩
      exact h.handled k reply' (hdispatch ▸ hserver) (hdispatch ▸ hreply)
  | @alive servername server reliable reply hprocess hserver =>
      -- the server is still registered, so it has not been crashed since it replied
      simp only [ReqMsg.OneServer, hprocess] at hone
      obtain ⟨hdispatch, rfl, _⟩ := hone
      refine hsame _ fun reply' hanswer => ?_
      obtain rfl := Option.some.inj hanswer
      exact h.handled server reply (by rw [hdispatch]; rfl) (by rw [hdispatch]; rfl)
        (hwired.registered _ server hserver)
  | @reply reliable reply hprocess =>
      refine hsame _ fun reply' hanswer => ?_
      obtain rfl := Option.some.inj hanswer
      exact h.answered reply (by rw [ReqMsg.answer, hprocess])
  | fail => exact hsame _ fun _ hanswer => by cases hanswer
  | failed => exact hsame _ fun _ hanswer => by cases hanswer
  | again => exact h

theorem Stranded.moves {req : Request n C D Endname} (hwired : Wired s)
    (hsound : s.Sound req) (h : s.Stranded req)
    {msg : ReqMsg Endname (Fin n) Nat (CallArgs n C D) CallReply}
    (hmoves : req.msg.Moves s.net msg) : s.Stranded { req with msg } := by
  have hprocess := h.process
  cases hmoves with
  | found _ henabled =>
      obtain ⟨i, peers, hcaller, hendname⟩ := hsound.caller
      rw [hendname, hwired.off _ i peers _ hcaller (h.caller i)] at henabled
      cases henabled
  | execute hfound => simp [hfound] at hprocess
  | receive hwaiting => simp [hwaiting] at hprocess
  | alive hhandled => simp [hhandled] at hprocess
  | reply halive => simp [halive] at hprocess
  | fail => exact ⟨h.caller, h.dispatch, .inr (.inl rfl)⟩
  | failed => exact ⟨h.caller, h.dispatch, .inr (.inr rfl)⟩
  | again => exact h

/-- One request changes, and its call does not notice. -/
theorem Follows.setRequest (h : s.Follows epoch wrapArgs wrapReply rpcs) {k : Nat}
    {req req' : Request n C D Endname} (hreq : s.requests[k]? = some req)
    (hserves : ∀ rpc, s.Serves epoch wrapArgs wrapReply req rpc →
      s.Serves epoch wrapArgs wrapReply req' rpc)
    (hunseen : s.Unseen wrapArgs req → s.Unseen wrapArgs req') :
    (s.setRequest k req').Follows epoch wrapArgs wrapReply rpcs := by
  have hset : Lib.Tracks _ _ (s.requests.set k req') rpcs :=
    Lib.Tracks.set_of_imp h hreq hserves hunseen
  exact hset.imp (fun _ _ _ h => h.congr (fun _ _ _ => Iff.rfl) rfl) fun _ _ h => h.congr rfl

theorem Follows.processReq (h : s.Follows epoch wrapArgs wrapReply rpcs) (hwired : Wired s)
    (hsound : ∀ req ∈ s.requests, s.Sound req) {k : Nat} {req : Request n C D Endname}
    (hreq : s.requests[k]? = some req)
    {msg : ReqMsg Endname (Fin n) Nat (CallArgs n C D) CallReply}
    (hmoves : req.msg.Moves s.net msg) :
    (s.setRequest k { req with msg }).Follows epoch wrapArgs wrapReply rpcs := by
  have hsound' := hsound req (List.mem_of_getElem? hreq)
  refine h.setRequest hreq (fun rpc hserves => hserves.moves hwired hsound' hmoves) ?_
  rintro (hother | hstranded)
  · refine .inl fun args hargs => hother args ?_
    rw [← hargs]
    cases hmoves <;> rfl
  · exact .inr (hstranded.moves hwired hsound' hmoves)

/-- The dispatching goroutine moves on, and no reply comes of it for the cluster. -/
theorem Follows.dispatched (h : s.Follows epoch wrapArgs wrapReply rpcs) {k server : Nat}
    {req : Request n C D Endname} (hreq : s.requests[k]? = some req)
    {dispatch : Dispatch Nat CallReply} (hserver : req.msg.dispatch.server = some server)
    (hserver' : dispatch.server = some server)
    (hreply : req.msg.dispatch.reply = none)
    (hreply' : dispatch.reply = none ∨ ¬ s.Current req.server server) :
    (s.setRequest k (req.dispatched dispatch)).Follows epoch wrapArgs wrapReply rpcs := by
  refine h.setRequest hreq (fun rpc hserves => ?_) ?_
  · refine ⟨hserves.caller, hserves.server, hserves.args, hserves.epoch_le, hserves.current,
      fun _ => hserves.waiting hreply, fun l reply hl hsome hcurrent => ?_, hserves.answered,
      hserves.returned⟩
    obtain rfl : server = l := Option.some.inj (hserver'.symm.trans hl)
    rcases hreply' with hnone | hdown
    · cases hnone.symm.trans hsome
    · exact absurd hcurrent hdown
  · rintro (hother | hstranded)
    · exact .inl hother
    · rw [hstranded.dispatch] at hserver
      cases hserver

/-- A request for another method. -/
theorem Follows.other (h : s.Follows epoch wrapArgs wrapReply rpcs) {k : Nat}
    {req req' : Request n C D Endname} (hreq : s.requests[k]? = some req)
    (hother : ∀ args, req.msg.args ≠ wrapArgs args) (hargs : req'.msg.args = req.msg.args) :
    (s.setRequest k req').Follows epoch wrapArgs wrapReply rpcs :=
  h.setRequest hreq (fun rpc hserves => absurd hserves.args (hother rpc.args))
    fun _ => .inl fun args => hargs ▸ hother args

/-- The handler runs on a server that is up: its call is answered in the cluster. -/
theorem Follows.handled (h : s.Follows epoch wrapArgs wrapReply rpcs)
    (hinj : Function.Injective wrapArgs) {k server : Nat} {req : Request n C D Endname}
    (hreq : s.requests[k]? = some req) (hdispatch : req.msg.dispatch = .counted server)
    {args : Args} (hargs : req.msg.args = wrapArgs args) (reply : Reply) :
    ∃ (j : Nat) (rpc : Rpc n Args Reply), rpcs[j]? = some rpc ∧ rpc.server = req.server ∧
      rpc.args = args ∧ rpc.reply = none ∧
      (s.setRequest k (req.dispatched (.sending server (wrapReply reply)))).Follows epoch
        wrapArgs wrapReply (rpcs.set j { rpc with reply := some reply }) := by
  rcases Lib.Tracks.get h hreq with ⟨hother | hstranded, _⟩ | ⟨j, rpc, hrpc, hserves, hset⟩
  · exact absurd hargs (hother args)
  · cases hstranded.dispatch.symm.trans hdispatch
  · refine ⟨j, rpc, hrpc, hserves.server, hinj (hserves.args.symm.trans hargs),
      hserves.waiting (by rw [hdispatch]; rfl), ?_⟩
    refine Lib.Tracks.imp (hset _ _ ?_) (fun _ _ _ h => h.congr (fun _ _ _ => Iff.rfl) rfl)
      fun _ _ h => h.congr rfl
    refine ⟨hserves.caller, hserves.server, hserves.args, hserves.epoch_le, hserves.current,
      fun hnone => ?_, fun l reply' _ hreply _ => ?_, fun reply' hanswer => ?_,
      hserves.returned⟩
    · cases hnone
    · obtain rfl := Option.some.inj hreply
      rfl
    · have hold := hserves.answered reply' hanswer
      rw [hserves.waiting (by rw [hdispatch]; rfl)] at hold
      cases hold

/-- `Call` has returned to a server that is up: the cluster handles the reply. -/
theorem Follows.finished (h : s.Follows epoch wrapArgs wrapReply rpcs)
    (hinj : Function.Injective wrapArgs) {k : Nat} {req : Request n C D Endname} {i : Fin n}
    (hreq : s.requests[k]? = some req) (hplace : ∃ peers, s.Place req.caller i peers)
    (hcurrent : s.Current i req.caller) {args : Args} (hargs : req.msg.args = wrapArgs args)
    {answer : CallReply} (hreturned : req.msg.returned = some (some answer))
    (hfinished : req.finished = false) :
    ∃ (j : Nat) (rpc : Rpc n Args Reply) (reply : Reply), rpcs[j]? = some rpc ∧
      rpc.caller = i ∧ rpc.server = req.server ∧ rpc.args = args ∧ rpc.returned = false ∧
      rpc.epoch = epoch i ∧ rpc.reply = some reply ∧ answer = wrapReply reply ∧
      (s.setRequest k { req with finished := true }).Follows epoch wrapArgs wrapReply
        (rpcs.set j { rpc with returned := true }) := by
  have hprocess : req.msg.process = .replied (some answer) := by
    unfold ReqMsg.returned at hreturned
    split at hreturned
    · next hprocess =>
        rw [hprocess]
        exact congrArg _ (Option.some.inj hreturned)
    · cases hreturned
  rcases Lib.Tracks.get h hreq with ⟨hother | hstranded, _⟩ | ⟨j, rpc, hrpc, hserves, hset⟩
  · exact absurd hargs (hother args)
  · exact absurd hcurrent (hstranded.caller i)
  · obtain ⟨peers, hplace⟩ := hplace
    obtain ⟨peers', hcaller⟩ := hserves.caller
    obtain ⟨rfl, _⟩ := hplace.unique hcaller
    obtain ⟨reply, hreply, rfl⟩ := Option.map_eq_some_iff.mp
      (hserves.answered answer (by rw [ReqMsg.answer, hprocess]))
    refine ⟨j, rpc, reply, hrpc, rfl, hserves.server, hinj (hserves.args.symm.trans hargs),
      (hserves.returned hcurrent).trans hfinished, hserves.current.mpr hcurrent, hreply, rfl, ?_⟩
    refine Lib.Tracks.imp (hset _ _ ?_) (fun _ _ _ h => h.congr (fun _ _ _ => Iff.rfl) rfl)
      fun _ _ h => h.congr rfl
    exact ⟨hserves.caller, hserves.server, hserves.args, hserves.epoch_le, hserves.current,
      hserves.waiting, hserves.handled, hserves.answered, fun _ => rfl⟩

/-- What becomes of the reply at a server that is down does not matter. -/
theorem Follows.finished_down (h : s.Follows epoch wrapArgs wrapReply rpcs) {k : Nat}
    {req : Request n C D Endname} (hreq : s.requests[k]? = some req)
    (hdown : ∀ i, ¬ s.Current i req.caller) :
    (s.setRequest k { req with finished := true }).Follows epoch wrapArgs wrapReply rpcs := by
  refine h.setRequest hreq (fun rpc hserves => ?_) ?_
  · exact ⟨hserves.caller, hserves.server, hserves.args, hserves.epoch_le, hserves.current,
      hserves.waiting, hserves.handled, hserves.answered,
      fun hcurrent => absurd hcurrent (hdown _)⟩
  · rintro (hother | hstranded)
    · exact .inl hother
    · exact .inr ⟨hstranded.caller, hstranded.dispatch, hstranded.process⟩

theorem Follows.moveInstance (h : s.Follows epoch wrapArgs wrapReply rpcs) {k : Nat}
    {inst : Instance n C D Endname} {rf : Raft n C D} {eff : Effects n C D}
    (hmove : s.moveInstance k inst rf eff = some s') (hinst : s.instances[k]? = some inst)
    {more : List (Rpc n Args Reply)}
    (hmore : Lib.Tracks (s.Serves epoch wrapArgs wrapReply) (s.Unseen wrapArgs)
      (eff.calls.map (inst.request k)) more) :
    s'.Follows epoch wrapArgs wrapReply (rpcs ++ more) := by
  have hplace := moveInstance_place hmove hinst
  obtain ⟨_, _, rfl⟩ := moveInstance_eq_some hmove
  exact (Lib.Tracks.append h hmore).imp (fun _ _ _ h => h.congr hplace rfl)
    fun _ _ h => h.congr rfl

/-- The calls that an instance makes once it is down. -/
theorem tracks_down {k : Nat} {inst : Instance n C D Endname} {eff : Effects n C D}
    (hdown : ∀ i, ¬ s.Current i k) :
    Lib.Tracks (s.Serves epoch wrapArgs wrapReply) (s.Unseen wrapArgs)
      (eff.calls.map (inst.request k)) [] := by
  refine .all_unseen fun req hreq => ?_
  obtain ⟨call, _, rfl⟩ := List.mem_map.mp hreq
  exact .inr ⟨hdown, rfl, .inl rfl⟩

theorem tracks_calls {k : Nat} {inst : Instance n C D Endname}
    (hinst : s.instances[k]? = some inst) (hcurrent : s.Current inst.me k)
    (sent : List (Fin n × Args)) :
    Lib.Tracks (s.Serves epoch wrapArgs wrapReply) (s.Unseen wrapArgs)
      ((sent.map (Prod.map id wrapArgs)).map (inst.request k))
      (sent.map fun call => ⟨inst.me, epoch inst.me, call.1, call.2, none, false⟩) := by
  rw [List.map_map]
  refine .map_map fun call _ => ?_
  exact ⟨⟨inst.peers, inst, hinst, rfl, rfl⟩, rfl, rfl, Nat.le_refl _, ⟨fun _ => hcurrent,
    fun _ => rfl⟩, fun _ => rfl, (fun _ _ hserver => nomatch hserver),
    (fun _ hanswer => nomatch hanswer), fun _ => rfl⟩

theorem unseen_other {Args' : Type} {k : Nat} {inst : Instance n C D Endname}
    {wrapArgs' : Args' → CallArgs n C D}
    (hother : ∀ args' args, wrapArgs' args' ≠ wrapArgs args) (sent : List (Fin n × Args')) :
    ∀ req ∈ (sent.map (Prod.map id wrapArgs')).map (inst.request k), s.Unseen wrapArgs req := by
  intro req hreq
  obtain ⟨_, hmem, rfl⟩ := List.mem_map.mp hreq
  obtain ⟨call, _, rfl⟩ := List.mem_map.mp hmem
  exact .inl fun args => hother call.2 args

end Follows

end Harness

/-! The steps that the cluster takes with the harness. -/

def LocalStep.action (i : Fin n) : LocalStep C → Action n C D
  | .start command => .start i command
  | .loop choice => .loop i choice
  | .boatcastRequestVote job => .boatcastRequestVote i job
  | .applyCommitted => .applyCommitted i
  | .applySnapshot => .applySnapshot i

theorem LocalStep.step_action (c : Cluster n C D) (i : Fin n) (local_ : LocalStep C) :
    c.step (local_.action i) =
      (local_.take i (c.rafts i)).bind fun out => c.move i out.1 out.2 := by
  cases local_ <;> rfl

theorem LocalStep.noStartSnapshot_action (i : Fin n) (local_ : LocalStep C) :
    noStartSnapshot (local_.action i : Action n C D) = true := by
  cases local_ <;> rfl

theorem Cluster.move_eq {c : Cluster n C D} {i : Fin n} {rf : Raft n C D} {eff : Effects n C D}
    (hchans : rf.withinChans = true) (hgo : eff.panicked = false) :
    c.move i rf eff = some { c with
      rafts := Function.update c.rafts i rf
      requestVotes := c.requestVotes ++ c.calls i eff.requestVotes
      appendEntries := c.appendEntries ++ c.calls i eff.appendEntries
      installSnapshots := c.installSnapshots ++ c.calls i eff.installSnapshots
      delivered := c.delivered ++ eff.applied.map (i, ·) } := by
  rw [move, if_pos hchans, moved, if_neg (by rw [hgo]; exact Bool.false_ne_true)]

namespace Harness

variable {s s' : Harness n C D Endname} {c : Cluster n C D}

theorem Wired.current_me (hwired : Wired s) {i : Fin n} {k : Nat}
    {inst : Instance n C D Endname} (hinst : s.instances[k]? = some inst)
    (hcurrent : s.Current i k) : i = inst.me := by
  obtain ⟨peers, hplace, _⟩ := hwired.current i k hcurrent
  exact (hplace.unique ⟨inst, hinst, rfl, rfl⟩).1

theorem raftOf_of_instances {k : Nat} {inst : Instance n C D Endname}
    (hinst : s.instances[k]? = some inst) : s.raftOf k = some inst.raft := by
  rw [raftOf, hinst]
  rfl

theorem raftOf_moveInstance {k : Nat} {inst : Instance n C D Endname} {rf : Raft n C D}
    {eff : Effects n C D} (hmove : s.moveInstance k inst rf eff = some s')
    (hinst : s.instances[k]? = some inst) (l : Nat) :
    s'.raftOf l = if k = l then some rf else s.raftOf l := by
  obtain ⟨_, _, rfl⟩ := moveInstance_eq_some hmove
  have hk := (List.getElem?_eq_some_iff.mp hinst).1
  rw [raftOf, raftOf, List.getElem?_set]
  by_cases hl : k = l
  · simp [hl ▸ hk, hl]
  · rw [if_neg hl, if_neg hl]

theorem raftOf_count {k count : Nat} {inst : Instance n C D Endname}
    (hset : s'.instances = s.instances.set k { inst with count })
    (hinst : s.instances[k]? = some inst) (l : Nat) : s'.raftOf l = s.raftOf l := by
  have hk := (List.getElem?_eq_some_iff.mp hinst).1
  rw [raftOf, hset, List.getElem?_set]
  by_cases hl : k = l
  · subst hl
    rw [if_pos rfl, if_pos hk]
    exact (raftOf_of_instances hinst).symm
  · rw [if_neg hl]
    rfl

/-! Two methods never have the same call. -/

theorem requestVote_ne_appendEntries (args : RequestVoteArgs n) (args' : AppendEntriesArgs n C) :
    (.requestVote args : CallArgs n C D) ≠ .appendEntries args' := nofun

theorem requestVote_ne_installSnapshot (args : RequestVoteArgs n)
    (args' : InstallSnapshotArgs n D) :
    (.requestVote args : CallArgs n C D) ≠ .installSnapshot args' := nofun

theorem appendEntries_ne_installSnapshot (args : AppendEntriesArgs n C)
    (args' : InstallSnapshotArgs n D) :
    (.appendEntries args : CallArgs n C D) ≠ .installSnapshot args' := nofun

section Calls

variable {k : Nat} {inst : Instance n C D Endname}

theorem tracks_requestVotes (hinst : s.instances[k]? = some inst)
    (hcurrent : s.Current inst.me k) (eff : Effects n C D) :
    Lib.Tracks (s.Serves c.epoch .requestVote .requestVote) (s.Unseen .requestVote)
      (eff.calls.map (inst.request k)) (c.calls inst.me eff.requestVotes) := by
  rw [Effects.calls, List.map_append, List.map_append]
  refine .append_unseen (.append_unseen (tracks_calls hinst hcurrent eff.requestVotes) ?_) ?_
  · exact unseen_other (fun a b => (requestVote_ne_appendEntries b a).symm) eff.appendEntries
  · exact unseen_other (fun a b => (requestVote_ne_installSnapshot b a).symm)
      eff.installSnapshots

theorem tracks_appendEntries (hinst : s.instances[k]? = some inst)
    (hcurrent : s.Current inst.me k) (eff : Effects n C D) :
    Lib.Tracks (s.Serves c.epoch .appendEntries .appendEntries) (s.Unseen .appendEntries)
      (eff.calls.map (inst.request k)) (c.calls inst.me eff.appendEntries) := by
  rw [Effects.calls, List.map_append, List.map_append]
  refine .append_unseen (.unseen_append ?_ (tracks_calls hinst hcurrent eff.appendEntries)) ?_
  · exact unseen_other requestVote_ne_appendEntries eff.requestVotes
  · exact unseen_other (fun a b => (appendEntries_ne_installSnapshot b a).symm)
      eff.installSnapshots

theorem tracks_installSnapshots (hinst : s.instances[k]? = some inst)
    (hcurrent : s.Current inst.me k) (eff : Effects n C D) :
    Lib.Tracks (s.Serves c.epoch .installSnapshot .installSnapshot) (s.Unseen .installSnapshot)
      (eff.calls.map (inst.request k)) (c.calls inst.me eff.installSnapshots) := by
  rw [Effects.calls, List.map_append, List.map_append]
  rw [List.append_assoc]
  refine .unseen_append ?_ (.unseen_append ?_ (tracks_calls hinst hcurrent eff.installSnapshots))
  · exact unseen_other requestVote_ne_installSnapshot eff.requestVotes
  · exact unseen_other appendEntries_ne_installSnapshot eff.appendEntries

end Calls

/-- An instance that is down moves, and the cluster does not. -/
theorem Shown.move_down (h : Shown s c) {k : Nat} {inst : Instance n C D Endname}
    {rf : Raft n C D} {eff : Effects n C D} (hmove : s.moveInstance k inst rf eff = some s')
    (hinst : s.instances[k]? = some inst) (hdown : ∀ i, ¬ s.Current i k) : Shown s' c := by
  have hraftOf := raftOf_moveInstance hmove hinst
  have hrequestVotes := h.requestVotes.moveInstance hmove hinst (tracks_down hdown)
  have happendEntries := h.appendEntries.moveInstance hmove hinst (tracks_down hdown)
  have hinstallSnapshots := h.installSnapshots.moveInstance hmove hinst (tracks_down hdown)
  rw [List.append_nil] at hrequestVotes happendEntries hinstallSnapshots
  obtain ⟨_, _, rfl⟩ := moveInstance_eq_some hmove
  refine ⟨fun i l hl => ?_, h.down, hrequestVotes, happendEntries, hinstallSnapshots,
    h.delivered.trans (List.sublist_append_left _ _)⟩
  have hne : k ≠ l := fun heq => hdown i (heq ▸ hl)
  rw [hraftOf l, if_neg hne]
  exact h.up i l hl

/-- A server that is up moves, with its calls, and so does the cluster's. -/
theorem Shown.move_up (hwired : Wired s) (h : Shown s c) {k : Nat}
    {inst : Instance n C D Endname} {rf : Raft n C D} {eff : Effects n C D}
    (hmove : s.moveInstance k inst rf eff = some s') (hinst : s.instances[k]? = some inst)
    (hcurrent : s.Current inst.me k) :
    ∃ c', c.move inst.me rf eff = some c' ∧ Shown s' c' := by
  have hraftOf := raftOf_moveInstance hmove hinst
  have hrequestVotes := h.requestVotes.moveInstance hmove hinst
    (tracks_requestVotes hinst hcurrent eff)
  have happendEntries := h.appendEntries.moveInstance hmove hinst
    (tracks_appendEntries hinst hcurrent eff)
  have hinstallSnapshots := h.installSnapshots.moveInstance hmove hinst
    (tracks_installSnapshots hinst hcurrent eff)
  obtain ⟨hchans, hgo, rfl⟩ := moveInstance_eq_some hmove
  refine ⟨_, Cluster.move_eq hchans hgo, fun i l hl => ?_, fun i persister hsaved => ?_,
    hrequestVotes, happendEntries, hinstallSnapshots, h.delivered.append (.refl _)⟩
  · rw [hraftOf l]
    by_cases heq : k = l
    · subst heq
      obtain rfl := hwired.current_me hinst hl
      dsimp only
      rw [if_pos rfl, Function.update_self]
    · have hne : i ≠ inst.me := by
        rintro rfl
        exact heq (SavedPersister.shared.inj (hcurrent.symm.trans hl))
      dsimp only
      rw [if_neg heq, Function.update_of_ne hne]
      exact h.up i l hl
  · have hne : i ≠ inst.me := by
      rintro rfl
      cases hcurrent.symm.trans hsaved
    dsimp only
    rw [Function.update_of_ne hne]
    exact h.down i persister hsaved

theorem Wired.setRequest (hwired : Wired s) (k : Nat) (req : Request n C D Endname) :
    Wired (s.setRequest k req) :=
  hwired.of_same rfl rfl rfl rfl (fun _ _ _ => Iff.rfl) rfl rfl rfl rfl rfl

theorem raft_of_current (h : Shown s c) {i : Fin n} {k : Nat} {inst : Instance n C D Endname}
    (hcurrent : s.Current i k) (hinst : s.instances[k]? = some inst) :
    c.rafts i = inst.raft :=
  Option.some.inj ((h.up i k hcurrent).symm.trans (raftOf_of_instances hinst))

section SetRequest

/-! One request changes, and the calls of its method with it. -/

variable {k : Nat} {req req' : Request n C D Endname}

theorem Shown.set_requestVote (h : Shown s c)
    {requestVotes : List (Rpc n (RequestVoteArgs n) RequestVoteReply)}
    (hfollows : (s.setRequest k req').Follows c.epoch .requestVote .requestVote requestVotes)
    (hreq : s.requests[k]? = some req) (hsame : req'.msg.args = req.msg.args)
    {args : RequestVoteArgs n} (hargs : req.msg.args = .requestVote args) :
    Shown (s.setRequest k req') { c with requestVotes } := by
  refine ⟨h.up, h.down, hfollows, h.appendEntries.other hreq (fun args' => ?_) hsame,
    h.installSnapshots.other hreq (fun args' => ?_) hsame, h.delivered⟩
  · rw [hargs]
    exact requestVote_ne_appendEntries args args'
  · rw [hargs]
    exact requestVote_ne_installSnapshot args args'

theorem Shown.set_appendEntries (h : Shown s c)
    {appendEntries : List (Rpc n (AppendEntriesArgs n C) AppendEntriesReply)}
    (hfollows : (s.setRequest k req').Follows c.epoch .appendEntries .appendEntries
      appendEntries)
    (hreq : s.requests[k]? = some req) (hsame : req'.msg.args = req.msg.args)
    {args : AppendEntriesArgs n C} (hargs : req.msg.args = .appendEntries args) :
    Shown (s.setRequest k req') { c with appendEntries } := by
  refine ⟨h.up, h.down, h.requestVotes.other hreq (fun args' => ?_) hsame, hfollows,
    h.installSnapshots.other hreq (fun args' => ?_) hsame, h.delivered⟩
  · rw [hargs]
    exact (requestVote_ne_appendEntries args' args).symm
  · rw [hargs]
    exact appendEntries_ne_installSnapshot args args'

theorem Shown.set_installSnapshot (h : Shown s c)
    {installSnapshots : List (Rpc n (InstallSnapshotArgs n D) InstallSnapshotReply)}
    (hfollows : (s.setRequest k req').Follows c.epoch .installSnapshot .installSnapshot
      installSnapshots)
    (hreq : s.requests[k]? = some req) (hsame : req'.msg.args = req.msg.args)
    {args : InstallSnapshotArgs n D} (hargs : req.msg.args = .installSnapshot args) :
    Shown (s.setRequest k req') { c with installSnapshots } := by
  refine ⟨h.up, h.down, h.requestVotes.other hreq (fun args' => ?_) hsame,
    h.appendEntries.other hreq (fun args' => ?_) hsame, hfollows, h.delivered⟩
  · rw [hargs]
    exact (requestVote_ne_installSnapshot args' args).symm
  · rw [hargs]
    exact (appendEntries_ne_installSnapshot args' args).symm

end SetRequest

/-- A handler that runs on a server that is up is a step of the cluster. -/
theorem Shown.handle_up (hwired : Wired s) (h : Shown s c) {k server : Nat}
    {req : Request n C D Endname} {inst : Instance n C D Endname} {rf : Raft n C D}
    {reply : CallReply} {applied : List (ApplyMsg C D)} (hreq : s.requests[k]? = some req)
    (hdispatch : req.msg.dispatch = .counted server) (hinst : s.instances[server]? = some inst)
    (hme : inst.me = req.server) (hcurrent : s.Current inst.me server)
    (hservice : serviceDispatch inst.raft req.msg.args = some (rf, reply, applied))
    (hmove : (s.setRequest k (req.dispatched (.sending server reply))).moveInstance server inst rf
      { applied } = some s') :
    ∃ a c', noStartSnapshot a = true ∧ c.step a = some c' ∧ Shown s' c' := by
  have hraft := raft_of_current h hcurrent hinst
  cases hargs : req.msg.args with
  | requestVote args =>
      rw [hargs, serviceDispatch] at hservice
      obtain ⟨reply, hreply, heq⟩ := Option.map_eq_some_iff.mp hservice
      cases heq
      obtain ⟨j, rpc, hrpc, hserver, rfl, hnone, hfollows⟩ := h.requestVotes.handled
        (fun a b hab => CallArgs.requestVote.inj hab) hreq hdispatch hargs reply
      have hshown := h.set_requestVote hfollows hreq rfl hargs
      obtain ⟨c', hstep, hshown'⟩ := hshown.move_up (hwired.setRequest k _) hmove hinst hcurrent
      refine ⟨.requestVote j, c', rfl, ?_, hshown'⟩
      rw [← hstep]
      simp [Cluster.step, Cluster.stepRequestVote, hrpc, hnone, hserver, ← hme, hraft, hreply]
  | appendEntries args =>
      rw [hargs, serviceDispatch] at hservice
      obtain ⟨reply, hreply, heq⟩ := Option.map_eq_some_iff.mp hservice
      cases heq
      obtain ⟨j, rpc, hrpc, hserver, rfl, hnone, hfollows⟩ := h.appendEntries.handled
        (fun a b hab => CallArgs.appendEntries.inj hab) hreq hdispatch hargs reply
      have hshown := h.set_appendEntries hfollows hreq rfl hargs
      obtain ⟨c', hstep, hshown'⟩ := hshown.move_up (hwired.setRequest k _) hmove hinst hcurrent
      refine ⟨.appendEntries j, c', rfl, ?_, hshown'⟩
      rw [← hstep]
      simp [Cluster.step, Cluster.stepAppendEntries, hrpc, hnone, hserver, ← hme, hraft, hreply]
  | installSnapshot args =>
      rw [hargs, serviceDispatch, Option.some.injEq] at hservice
      cases hservice
      obtain ⟨j, rpc, hrpc, hserver, rfl, hnone, hfollows⟩ := h.installSnapshots.handled
        (fun a b hab => CallArgs.installSnapshot.inj hab) hreq hdispatch hargs
        (inst.raft.installSnapshot args).2.1
      have hshown := h.set_installSnapshot hfollows hreq rfl hargs
      obtain ⟨c', hstep, hshown'⟩ := hshown.move_up (hwired.setRequest k _) hmove hinst hcurrent
      refine ⟨.installSnapshot j, c', rfl, ?_, hshown'⟩
      rw [← hstep]
      simp [Cluster.step, Cluster.stepInstallSnapshot, hrpc, hnone, hserver, ← hme, hraft]

/-- What a server that is up does with a reply is a step of the cluster. -/
theorem Shown.finish_up (hwired : Wired s) (h : Shown s c) {k : Nat}
    {req : Request n C D Endname} {inst : Instance n C D Endname} {rf : Raft n C D}
    {answer : CallReply} (hreq : s.requests[k]? = some req)
    (hreturned : req.msg.returned = some (some answer)) (hfinished : req.finished = false)
    (hinst : s.instances[req.caller]? = some inst) (hcurrent : s.Current inst.me req.caller)
    (hafter : afterCall inst.raft req.server req.msg.args answer = some rf)
    (hmove : (s.setRequest k { req with finished := true }).moveInstance req.caller inst rf {} =
      some s') :
    ∃ a c', noStartSnapshot a = true ∧ c.step a = some c' ∧ Shown s' c' := by
  have hraft := raft_of_current h hcurrent hinst
  have hplace : ∃ peers, s.Place req.caller inst.me peers := ⟨inst.peers, inst, hinst, rfl, rfl⟩
  cases hargs : req.msg.args with
  | requestVote args =>
      obtain ⟨j, rpc, reply, hrpc, hcaller, hserver, rfl, hback, hepoch, hreply, rfl, hfollows⟩ :=
        h.requestVotes.finished (fun a b hab => CallArgs.requestVote.inj hab) hreq hplace hcurrent
          hargs hreturned hfinished
      rw [hargs, afterCall, Option.some.injEq] at hafter
      have hshown := h.set_requestVote hfollows hreq rfl hargs
      obtain ⟨c', hstep, hshown'⟩ := hshown.move_up (hwired.setRequest k _) hmove hinst hcurrent
      refine ⟨.sendRequestVote j, c', rfl, ?_, hshown'⟩
      rw [← hstep]
      simp [Cluster.step, Cluster.stepSendRequestVote, Cluster.pendingReply, hrpc, hback, hcaller,
        hepoch, hreply, hraft, hafter]
  | appendEntries args =>
      obtain ⟨j, rpc, reply, hrpc, hcaller, hserver, rfl, hback, hepoch, hreply, rfl, hfollows⟩ :=
        h.appendEntries.finished (fun a b hab => CallArgs.appendEntries.inj hab) hreq hplace
          hcurrent hargs hreturned hfinished
      rw [hargs, afterCall, Option.some.injEq] at hafter
      have hshown := h.set_appendEntries hfollows hreq rfl hargs
      obtain ⟨c', hstep, hshown'⟩ := hshown.move_up (hwired.setRequest k _) hmove hinst hcurrent
      refine ⟨.sendAppendEntries j, c', rfl, ?_, hshown'⟩
      rw [← hstep]
      simp [Cluster.step, Cluster.stepSendAppendEntries, Cluster.pendingReply, hrpc, hback,
        hcaller, hserver, hepoch, hreply, hraft, hafter]
  | installSnapshot args =>
      obtain ⟨j, rpc, reply, hrpc, hcaller, hserver, rfl, hback, hepoch, hreply, rfl, hfollows⟩ :=
        h.installSnapshots.finished (fun a b hab => CallArgs.installSnapshot.inj hab) hreq hplace
          hcurrent hargs hreturned hfinished
      rw [hargs, afterCall, Option.some.injEq] at hafter
      have hshown := h.set_installSnapshot hfollows hreq rfl hargs
      obtain ⟨c', hstep, hshown'⟩ := hshown.move_up (hwired.setRequest k _) hmove hinst hcurrent
      refine ⟨.sendInstallSnapshot j, c', rfl, ?_, hshown'⟩
      rw [← hstep]
      simp [Cluster.step, Cluster.stepSendInstallSnapshot, Cluster.pendingReply, hrpc, hback,
        hcaller, hserver, hepoch, hreply, hraft, hafter]

/-- A step that no server and no call takes part in. -/
theorem Shown.congr (h : Shown s c)
    (hplace : ∀ k i peers, s'.Place k i peers ↔ s.Place k i peers)
    (hraft : ∀ k, s'.raftOf k = s.raftOf k) (hrequests : s'.requests = s.requests)
    (hsaved : s'.saved = s.saved) (hdelivered : s'.delivered = s.delivered) : Shown s' c := by
  have hfollows : ∀ {Args Reply : Type} {wrapArgs : Args → CallArgs n C D}
      {wrapReply : Reply → CallReply} {rpcs : List (Rpc n Args Reply)},
      s.Follows c.epoch wrapArgs wrapReply rpcs → s'.Follows c.epoch wrapArgs wrapReply rpcs := by
    intro Args Reply wrapArgs wrapReply rpcs hold
    unfold Follows
    rw [hrequests]
    exact Lib.Tracks.imp hold (fun _ _ _ h => h.congr hplace hsaved) fun _ _ h => h.congr hsaved
  refine ⟨fun i k hk => ?_, fun i persister hi => h.down i persister (hsaved ▸ hi),
    hfollows h.requestVotes, hfollows h.appendEntries, hfollows h.installSnapshots,
    hdelivered ▸ h.delivered⟩
  rw [hraft]
  exact h.up i k (by rwa [Current, ← hsaved])

theorem Shown.of_same (h : Shown s c) (hinstances : s'.instances = s.instances)
    (hrequests : s'.requests = s.requests) (hsaved : s'.saved = s.saved)
    (hdelivered : s'.delivered = s.delivered) : Shown s' c := by
  refine h.congr (fun k i peers => ?_) (fun k => ?_) hrequests hsaved hdelivered
  · rw [Place, Place, hinstances]
  · rw [raftOf, raftOf, hinstances]

/-- A request is counted at its server, and no server has moved. -/
theorem Shown.count (h : Shown s c) {k server : Nat} {req : Request n C D Endname}
    {inst : Instance n C D Endname} (hreq : s.requests[k]? = some req)
    (hdispatch : req.msg.dispatch = .started server) (hinst : s.instances[server]? = some inst) :
    Shown { s.setRequest k (req.dispatched (.counted server)) with
      instances := s.instances.set server { inst with count := inst.count + 1 } } c := by
  have hset : ∀ {Args Reply : Type} {wrapArgs : Args → CallArgs n C D}
      {wrapReply : Reply → CallReply} {rpcs : List (Rpc n Args Reply)},
      s.Follows c.epoch wrapArgs wrapReply rpcs →
      (s.setRequest k (req.dispatched (.counted server))).Follows c.epoch wrapArgs wrapReply
        rpcs := fun hfollows =>
    hfollows.dispatched hreq (by rw [hdispatch]; rfl) rfl (by rw [hdispatch]; rfl) (.inl rfl)
  have hshown : Shown (s.setRequest k (req.dispatched (.counted server))) c :=
    ⟨h.up, h.down, hset h.requestVotes, hset h.appendEntries, hset h.installSnapshots,
      h.delivered⟩
  refine hshown.congr (fun l i peers => ?_) (fun l => ?_) rfl rfl rfl
  · exact place_set { inst with count := inst.count + 1 } hinst rfl rfl rfl l i peers
  · exact raftOf_count rfl hinst l

/-- `crash1` copies the persister of a server that was up: the cluster restarts it. -/
theorem Shown.crash (h : Shown s c) (hbare : Bare c)
    (hsound : ∀ req ∈ s.requests, s.Sound req) {i : Fin n} {k : Nat}
    (hcurrent : s.Current i k) {persister : Persister n C D}
    (hpersister : s.persisterOf i = some persister)
    (hsaved : s'.saved = Function.update s.saved i (.own ⟨persister.raftstate, none⟩))
    (hinstances : s'.instances = s.instances) (hrequests : s'.requests = s.requests)
    (hdelivered : s'.delivered = s.delivered) : Shown s' (c.restart i) := by
  have hplace : ∀ k i peers, s.Place k i peers → s'.Place k i peers := fun k i peers => by
    rw [Place, Place, hinstances]
    exact id
  have hstored : (⟨persister.raftstate, none⟩ : Persister n C D) = (c.rafts i).persister := by
    have hread : s.persisterOf i = some (c.rafts i).persister := by
      have hshared : s.saved i = .shared k := hcurrent
      rw [persisterOf, hshared]
      exact congrArg (Option.map _) (h.up i k hcurrent)
    obtain rfl := Option.some.inj (hpersister.symm.trans hread)
    rw [← hbare.servers i]
  have hcurrent' : ∀ j l, s'.Current j l ↔ j ≠ i ∧ s.Current j l := by
    intro j l
    rw [Current, hsaved]
    by_cases hj : j = i
    · simp [hj]
    · simp [Current, hj]
  have hepoch : ∀ j, c.epoch j ≤ (c.restart i).epoch j := by
    intro j
    by_cases hj : j = i
    · simp [Cluster.restart, hj]
    · simp [Cluster.restart, hj]
  have hnew : ∀ j l, l < s.instances.length →
      (s'.Current j l ↔ s.Current j l ∧ (c.restart i).epoch j = c.epoch j) := by
    intro j l _
    rw [hcurrent']
    by_cases hj : j = i
    · simp [Cluster.restart, hj]
    · simp [Cluster.restart, hj]
  refine ⟨fun j l hl => ?_, fun j p hp => ?_,
    h.requestVotes.crashes hsound hrequests hplace hepoch hnew,
    h.appendEntries.crashes hsound hrequests hplace hepoch hnew,
    h.installSnapshots.crashes hsound hrequests hplace hepoch hnew, hdelivered ▸ h.delivered⟩
  · obtain ⟨hj, hold⟩ := (hcurrent' j l).mp hl
    rw [raftOf, hinstances, Cluster.restart]
    dsimp only
    rw [Function.update_of_ne hj]
    exact h.up j l hold
  · rw [hsaved] at hp
    rw [Cluster.restart]
    dsimp only
    by_cases hj : j = i
    · subst hj
      rw [Function.update_self, hstored] at hp
      obtain rfl := SavedPersister.own.inj hp
      exact ⟨hbare.servers j, Function.update_self ..⟩
    · rw [Function.update_of_ne hj] at hp
      rw [Function.update_of_ne hj]
      exact h.down j p hp

/-- `start1` makes a server that was down: the cluster has restarted it before. -/
theorem Shown.making (h : Shown s c) (hsound : ∀ req ∈ s.requests, s.Sound req) {i : Fin n}
    {persister : Persister n C D} (hdown : s.saved i = .own persister)
    {inst : Instance n C D Endname} (hraft : inst.raft = make persister)
    (hsaved : s'.saved = Function.update s.saved i (.shared s.instances.length))
    (hinstances : s'.instances = s.instances ++ [inst]) (hrequests : s'.requests = s.requests)
    (hdelivered : s'.delivered = s.delivered) : Shown s' c := by
  have hcurrent' : ∀ j l, s'.Current j l ↔
      j = i ∧ l = s.instances.length ∨ j ≠ i ∧ s.Current j l := by
    intro j l
    rw [Current, hsaved]
    by_cases hj : j = i
    · subst hj
      simp [eq_comm]
    · simp [Current, hj]
  have hnew : ∀ j l, l < s.instances.length →
      (s'.Current j l ↔ s.Current j l ∧ c.epoch j = c.epoch j) := by
    intro j l hl
    rw [hcurrent']
    constructor
    · rintro (⟨_, rfl⟩ | ⟨_, hold⟩)
      · omega
      · exact ⟨hold, rfl⟩
    · rintro ⟨hold, _⟩
      refine .inr ⟨?_, hold⟩
      rintro rfl
      cases hdown.symm.trans hold
  have hplace : ∀ k i peers, s.Place k i peers → s'.Place k i peers :=
    fun k i peers hk => hk.append hinstances
  have hepoch : ∀ j, c.epoch j ≤ c.epoch j := fun j => Nat.le_refl _
  refine ⟨fun j l hl => ?_, fun j p hp => ?_,
    h.requestVotes.crashes hsound hrequests hplace hepoch hnew,
    h.appendEntries.crashes hsound hrequests hplace hepoch hnew,
    h.installSnapshots.crashes hsound hrequests hplace hepoch hnew, hdelivered ▸ h.delivered⟩
  · rcases (hcurrent' j l).mp hl with ⟨rfl, rfl⟩ | ⟨_, hold⟩
    · rw [raftOf, hinstances, List.getElem?_concat_length, (h.down j persister hdown).2, ← hraft]
      rfl
    · have hup := h.up j l hold
      obtain ⟨inst', hinst', hraft'⟩ := Option.map_eq_some_iff.mp hup
      rw [raftOf, hinstances,
        List.getElem?_append_left (List.getElem?_eq_some_iff.mp hinst').1, hinst', ← hraft']
      rfl
  · refine h.down j p ?_
    rw [hsaved] at hp
    by_cases hj : j = i
    · rw [hj, Function.update_self] at hp
      cases hp
    · rwa [Function.update_of_ne hj] at hp

/-- What the steps of the harness keep beside the cluster they show. -/
structure Simulates (s : Harness n C D Endname) (c : Cluster n C D) : Prop where
  wired : Wired s
  sound : ∀ req ∈ s.requests, s.Sound req
  bare : Bare c
  shown : Shown s c

theorem simulates_init : Simulates (Harness.init n C D Endname) (Cluster.init n C D) :=
  ⟨wired_init, List.forall_mem_nil _, bare_init, shown_init⟩

/-- The harness goes on from `s` as the cluster may go on from `c`. -/
def GoesOn (s' : Harness n C D Endname) (c : Cluster n C D) : Prop :=
  Shown s' c ∨ ∃ a c', noStartSnapshot a = true ∧ c.step a = some c' ∧ Shown s' c'

/-- Instance `k` moves: the cluster moves with it, or it is down. -/
theorem down_or_current (hwired : Wired s) {k : Nat} {inst : Instance n C D Endname}
    (hinst : s.instances[k]? = some inst) :
    (∀ i, ¬ s.Current i k) ∨ s.Current inst.me k := by
  by_cases hcurrent : s.Current inst.me k
  · exact .inr hcurrent
  · exact .inl fun i hi => hcurrent (hwired.current_me hinst hi ▸ hi)

variable [DecidableEq Endname]

theorem Simulates.stepTester (h : Simulates s c) (hstep : s.stepTester = some s') :
    GoesOn s' c := by
  have hunderway := h.wired.underway
  cases htester : s.tester with
  | idle => simp [Harness.stepTester, htester] at hstep
  | enabling pending =>
      cases pending <;> simp only [Harness.stepTester, htester, Option.some.injEq] at hstep <;>
        subst hstep <;> exact .inl (h.shown.of_same rfl rfl rfl rfl)
  | crashing i pending names =>
      cases pending <;> simp only [Harness.stepTester, htester, Option.some.injEq] at hstep <;>
        subst hstep <;> exact .inl (h.shown.of_same rfl rfl rfl rfl)
  | copying i names =>
      simp only [Harness.stepTester, htester] at hstep
      obtain ⟨persister, hpersister, rfl⟩ := Option.map_eq_some_iff.mp hstep
      cases hsaved : s.saved i with
      | shared k =>
          exact .inr ⟨.restart i, _, rfl, rfl,
            h.shown.crash h.bare h.sound hsaved hpersister rfl rfl rfl rfl⟩
      | own p =>
          -- a server that is down is crashed again
          rw [persisterOf, hsaved, Option.some.injEq] at hpersister
          subst hpersister
          refine .inl (h.shown.of_same rfl rfl ?_ rfl)
          have hsame : (⟨p.raftstate, none⟩ : Persister n C D) = p := by
            rw [← (h.shown.down i p hsaved).1]
          dsimp only
          rw [hsame, ← hsaved]
          exact Function.update_eq_self i s.saved
  | makingEnds i names =>
      simp only [Harness.stepTester, htester] at hstep
      obtain ⟨net, _, rfl⟩ := Option.map_eq_some_iff.mp hstep
      exact .inl (h.shown.of_same rfl rfl rfl rfl)
  | making i names =>
      simp only [Underway, htester] at hunderway
      obtain ⟨_, ⟨p, hsaved⟩, _⟩ := hunderway
      simp only [Harness.stepTester, htester] at hstep
      obtain ⟨persister, hpersister, rfl⟩ := Option.map_eq_some_iff.mp hstep
      rw [persisterOf, hsaved, Option.some.injEq] at hpersister
      subst hpersister
      exact .inl (h.shown.making h.sound hsaved rfl rfl rfl rfl rfl)
  | adding i k =>
      simp only [Harness.stepTester, htester, Option.some.injEq] at hstep
      subst hstep
      exact .inl (h.shown.of_same rfl rfl rfl rfl)

theorem Simulates.goesOn (h : Simulates s c) {a : HarnessAction n C Endname}
    (hstep : s.step a = some s') : GoesOn s' c := by
  have hwired := h.wired
  cases a with
  | setunreliable unrel =>
      obtain rfl := Option.some.inj hstep
      exact .inl (h.shown.of_same rfl rfl rfl rfl)
  | config call =>
      cases htester : s.tester <;> simp only [step, htester, reduceCtorEq] at hstep
      obtain ⟨connected, tester, rfl⟩ := stepConfig_eq_some hstep
      exact .inl (h.shown.of_same rfl rfl rfl rfl)
  | tester => exact h.stepTester hstep
  | server k local_ =>
      obtain ⟨inst, rf, eff, hinst, htake, hmove⟩ := stepServer_eq_some hstep
      rcases down_or_current hwired hinst with hdown | hcurrent
      · exact .inl (h.shown.move_down hmove hinst hdown)
      · obtain ⟨c', hmove', hshown⟩ := h.shown.move_up hwired hmove hinst hcurrent
        refine .inr ⟨local_.action inst.me, c', local_.noStartSnapshot_action _, ?_, hshown⟩
        rw [LocalStep.step_action, raft_of_current h.shown hcurrent hinst, htake]
        exact hmove'
  | processReq k choice =>
      obtain ⟨req, msg, hreq, hmsg, rfl⟩ := stepProcessReq_eq_some hstep
      have hmoves := ReqMsg.step_moves hmsg
      have hshown := h.shown
      exact .inl ⟨hshown.up, hshown.down,
        hshown.requestVotes.processReq hwired h.sound hreq hmoves,
        hshown.appendEntries.processReq hwired h.sound hreq hmoves,
        hshown.installSnapshots.processReq hwired h.sound hreq hmoves, hshown.delivered⟩
  | count k =>
      obtain ⟨req, server, inst, hreq, hdispatch, hinst, rfl⟩ := stepCount_eq_some hstep
      exact .inl (h.shown.count hreq hdispatch hinst)
  | handle k =>
      obtain ⟨req, server, inst, rf, reply, applied, hreq, hdispatch, hinst, hservice, hmove⟩ :=
        stepHandle_eq_some hstep
      have hserver : req.msg.dispatch.server = some server := by rw [hdispatch]; rfl
      obtain ⟨peers, hplace⟩ := (h.sound req (List.mem_of_getElem? hreq)).target hserver
      have hme : inst.me = req.server :=
        (Place.unique ⟨inst, hinst, rfl, rfl⟩ hplace).1
      rcases down_or_current hwired hinst with hdown | hcurrent
      · have hset : ∀ {Args Reply : Type} {wrapArgs : Args → CallArgs n C D}
            {wrapReply : Reply → CallReply} {rpcs : List (Rpc n Args Reply)},
            s.Follows c.epoch wrapArgs wrapReply rpcs →
            (s.setRequest k (req.dispatched (.sending server reply))).Follows c.epoch wrapArgs
              wrapReply rpcs := fun hfollows =>
          hfollows.dispatched hreq hserver rfl (by rw [hdispatch]; rfl) (.inr (hdown _))
        have hshown : Shown (s.setRequest k (req.dispatched (.sending server reply))) c :=
          ⟨h.shown.up, h.shown.down, hset h.shown.requestVotes, hset h.shown.appendEntries,
            hset h.shown.installSnapshots, h.shown.delivered⟩
        exact .inl (hshown.move_down hmove hinst hdown)
      · exact .inr (h.shown.handle_up hwired hreq hdispatch hinst hme hcurrent hservice hmove)
  | finish k =>
      obtain ⟨req, inst, answer, rf, hreq, hreturned, hfinished, hinst, hafter, hmove⟩ :=
        stepFinish_eq_some hstep
      rcases down_or_current hwired hinst with hdown | hcurrent
      · have hshown : Shown (s.setRequest k { req with finished := true }) c :=
          ⟨h.shown.up, h.shown.down, h.shown.requestVotes.finished_down hreq hdown,
            h.shown.appendEntries.finished_down hreq hdown,
            h.shown.installSnapshots.finished_down hreq hdown, h.shown.delivered⟩
        exact .inl (hshown.move_down hmove hinst hdown)
      · exact .inr (h.shown.finish_up hwired hreq hreturned hfinished hinst hcurrent hafter hmove)

theorem Simulates.step (h : Simulates s c) {a : HarnessAction n C Endname}
    (hstep : s.step a = some s') :
    Simulates s' c ∨
      ∃ b c', noStartSnapshot b = true ∧ c.step b = some c' ∧ Simulates s' c' := by
  have hwired := h.wired.step hstep
  have hsound := sound_step h.wired h.sound hstep
  rcases h.goesOn hstep with hshown | ⟨b, c', hb, hmove, hshown⟩
  · exact .inl ⟨hwired, hsound, h.bare, hshown⟩
  · exact .inr ⟨b, c', hb, hmove, hwired, hsound, h.bare.step hb hmove, hshown⟩

end Harness

theorem simulates_run [DecidableEq Endname] (run : HarnessRun n C D Endname) :
    ∃ (cluster : ClusterRun n C D) (shown : Nat → Nat),
      cluster.AllSteps (fun _ a => noStartSnapshot a = true) ∧
        Lib.Shows Harness.Simulates run cluster run.length shown :=
  run.simulate Harness.simulates_init fun k hk _ hsim => hsim.step (run.steps k hk)

/-- Whatever the network drops, delays and overtakes, whatever the test connects,
crashes and starts, and whatever goroutines of crashed servers still do, a run of the
harness shows a run of the cluster. -/
theorem harness_refines_cluster [DecidableEq Endname] (run : HarnessRun n C D Endname) :
    ∃ (cluster : ClusterRun n C D) (shown : Nat → Nat),
      cluster.AllSteps (fun _ a => noStartSnapshot a = true) ∧
        Lib.Shows Harness.Shown run cluster run.length shown := by
  obtain ⟨cluster, shown, hok, hshows⟩ := simulates_run run
  exact ⟨cluster, shown, hok, hshows.imp fun _ _ hsim => hsim.shown⟩

end BlockchainTutorial.Raft
