import Mathlib.Logic.Function.Basic

namespace BlockchainTutorial.Labrpc

/-! The network of `labrpc.go`. Its locked bodies are functions on its maps, and
`ProcessReq` is cut where its goroutine may be overtaken by others. Time does not
appear: a delay is any number of steps of the rest. -/

/-- `Endname` and `Servername` are the keys of the maps, `Server` is a pointer to a
server. `nil` is `none`, also for a key that is absent. -/
structure Network (Endname Servername Server : Type) where
  reliable : Bool
  ends : Endname → Bool
  enabled : Endname → Bool
  servers : Servername → Option Server
  connections : Endname → Option Servername

/-- Where the goroutine of `ProcessReq` stands. -/
inductive ProcessReq (Servername Server Reply : Type) where
  | received
  | found (servername : Servername) (server : Server) (reliable : Bool)
  | waiting (servername : Servername) (server : Server) (reliable : Bool)
  | handled (servername : Servername) (server : Server) (reliable : Bool) (reply : Reply)
  | alive (reliable : Bool) (reply : Reply)
  | failing
  | replied (reply : Option Reply)

/-- Where the goroutine that `ProcessReq` starts for `server.dispatch` stands. Its
send on `ech` waits until `ProcessReq` receives, which may be never. -/
inductive Dispatch (Server Reply : Type) where
  | absent
  | started (server : Server)
  | counted (server : Server)
  | sending (server : Server) (reply : Reply)
  | sent (server : Server) (reply : Reply)

/-- The server that the goroutine was started for. -/
def Dispatch.server {Server Reply : Type} : Dispatch Server Reply → Option Server
  | .absent => none
  | .started server | .counted server | .sending server _ | .sent server _ => some server

/-- What the handler replied, once it has run. -/
def Dispatch.reply {Server Reply : Type} : Dispatch Server Reply → Option Reply
  | .absent | .started _ | .counted _ => none
  | .sending _ reply | .sent _ reply => some reply

structure ReqMsg (Endname Servername Server Args Reply : Type) where
  endname : Endname
  args : Args
  process : ProcessReq Servername Server Reply
  dispatch : Dispatch Server Reply

/-- Which way `ProcessReq` goes on, where time or `rand` decides. -/
inductive Choice where
  | readEndnameInfo
  | dropRequest
  | execute
  | receive
  | timeout
  | isServerDead
  | dropReply
  | reply
  deriving DecidableEq, Repr

variable {Endname Servername Server Args Reply : Type}

namespace Network

def makeNetwork : Network Endname Servername Server where
  reliable := true
  ends := fun _ => false
  enabled := fun _ => false
  servers := fun _ => none
  connections := fun _ => none

def setReliable (rn : Network Endname Servername Server) (yes : Bool) :
    Network Endname Servername Server :=
  { rn with reliable := yes }

/-- The server that a request from `endname` goes to. -/
def readEndnameInfo (rn : Network Endname Servername Server) (endname : Endname) :
    Bool × Option Servername × Option Server × Bool :=
  let servername := rn.connections endname
  (rn.enabled endname, servername, servername.bind rn.servers, rn.reliable)

def isServerDead [DecidableEq Server] (rn : Network Endname Servername Server)
    (endname : Endname) (servername : Servername) (server : Server) : Bool :=
  rn.enabled endname == false || rn.servers servername != some server

theorem readEndnameInfo_found {rn : Network Endname Servername Server} {endname : Endname}
    {servername : Servername} {server : Server} {reliable : Bool}
    (h : rn.readEndnameInfo endname = (true, some servername, some server, reliable)) :
    rn.enabled endname = true ∧ rn.connections endname = some servername ∧
      rn.servers servername = some server ∧ reliable = rn.reliable := by
  simp only [Network.readEndnameInfo, Prod.mk.injEq] at h
  obtain ⟨henabled, hname, hserver, hreliable⟩ := h
  rw [hname, Option.bind_some] at hserver
  exact ⟨henabled, hname, hserver, hreliable.symm⟩

variable [DecidableEq Endname] [DecidableEq Servername]

/-- Nothing where the code calls `log.Fatalf`. -/
def makeEnd (rn : Network Endname Servername Server) (endname : Endname) :
    Option (Network Endname Servername Server) :=
  if rn.ends endname then none
  else some { rn with
    ends := Function.update rn.ends endname true
    enabled := Function.update rn.enabled endname false
    connections := Function.update rn.connections endname none }

def addServer (rn : Network Endname Servername Server) (servername : Servername)
    (rs : Server) : Network Endname Servername Server :=
  { rn with servers := Function.update rn.servers servername (some rs) }

def deleteServer (rn : Network Endname Servername Server) (servername : Servername) :
    Network Endname Servername Server :=
  { rn with servers := Function.update rn.servers servername none }

def connect (rn : Network Endname Servername Server) (endname : Endname)
    (servername : Servername) : Network Endname Servername Server :=
  { rn with connections := Function.update rn.connections endname (some servername) }

def enable (rn : Network Endname Servername Server) (endname : Endname) (enabled : Bool) :
    Network Endname Servername Server :=
  { rn with enabled := Function.update rn.enabled endname enabled }

end Network

namespace ReqMsg

/-- What `Call` puts on `endCh`. -/
def call (endname : Endname) (args : Args) : ReqMsg Endname Servername Server Args Reply where
  endname
  args
  process := .received
  dispatch := .absent

/-- What `Call` returns, once it does. -/
def returned (req : ReqMsg Endname Servername Server Args Reply) : Option (Option Reply) :=
  match req.process with
  | .replied reply => some reply
  | _ => none

/-- What `Call` will return as a reply, unless it is lost on the way back. -/
def answer (req : ReqMsg Endname Servername Server Args Reply) : Option Reply :=
  match req.process with
  | .alive _ reply => some reply
  | .replied reply => reply
  | _ => none

theorem answer_of_returned {req : ReqMsg Endname Servername Server Args Reply} {reply : Reply}
    (h : req.returned = some (some reply)) : req.answer = some reply := by
  rw [answer]
  cases hprocess : req.process <;> rw [returned, hprocess] at h
  case replied => exact Option.some.inj h
  all_goals cases h

/-- All that a step of `ProcessReq` can do. -/
inductive Moves (rn : Network Endname Servername Server)
    (req : ReqMsg Endname Servername Server Args Reply) :
    ReqMsg Endname Servername Server Args Reply → Prop
  | found {servername : Servername} {server : Server} (hprocess : req.process = .received)
      (henabled : rn.enabled req.endname = true)
      (hname : rn.connections req.endname = some servername)
      (hserver : rn.servers servername = some server) :
      Moves rn req { req with process := .found servername server rn.reliable }
  | execute {servername : Servername} {server : Server} {reliable : Bool}
      (hprocess : req.process = .found servername server reliable) :
      Moves rn req { req with
        process := .waiting servername server reliable
        dispatch := .started server }
  | receive {servername : Servername} {server source : Server} {reliable : Bool} {reply : Reply}
      (hprocess : req.process = .waiting servername server reliable)
      (hdispatch : req.dispatch = .sending source reply) :
      Moves rn req { req with
        process := .handled servername server reliable reply
        dispatch := .sent source reply }
  | alive {servername : Servername} {server : Server} {reliable : Bool} {reply : Reply}
      (hprocess : req.process = .handled servername server reliable reply)
      (hserver : rn.servers servername = some server) :
      Moves rn req { req with process := .alive reliable reply }
  | reply {reliable : Bool} {reply : Reply} (hprocess : req.process = .alive reliable reply) :
      Moves rn req { req with process := .replied (some reply) }
  | fail (hreturned : req.returned = none) : Moves rn req { req with process := .failing }
  | failed (hprocess : req.process = .failing) :
      Moves rn req { req with process := .replied none }
  | again (hreturned : req.returned = none) : Moves rn req req

/-- Both goroutines of a request speak of one server. -/
def OneServer (ok : Servername → Server → Prop)
    (req : ReqMsg Endname Servername Server Args Reply) : Prop :=
  match req.process with
  | .received => req.dispatch = .absent
  | .found servername server _ => req.dispatch = .absent ∧ ok servername server
  | .waiting servername server _ =>
      req.dispatch.server = some server ∧ ok servername server
  | .handled servername server _ reply =>
      req.dispatch = .sent server reply ∧ ok servername server
  | .alive _ _ | .failing | .replied _ => True

/-- A request goes where `ok` allows it to go. -/
structure Routed (ok : Servername → Server → Prop)
    (req : ReqMsg Endname Servername Server Args Reply) : Prop where
  oneServer : req.OneServer ok
  target : ∀ server, req.dispatch.server = some server → ∃ servername, ok servername server

theorem Routed.imp {req : ReqMsg Endname Servername Server Args Reply}
    {ok ok' : Servername → Server → Prop} (h : req.Routed ok)
    (himp : ∀ servername server, ok servername server → ok' servername server) :
    req.Routed ok' := by
  refine ⟨?_, fun server hserver => (h.target server hserver).imp fun name => himp name server⟩
  have hone := h.oneServer
  cases hprocess : req.process with
  | received => simpa only [OneServer, hprocess] using hone
  | found =>
      simp only [OneServer, hprocess] at hone ⊢
      exact ⟨hone.1, himp _ _ hone.2⟩
  | waiting =>
      simp only [OneServer, hprocess] at hone ⊢
      exact ⟨hone.1, himp _ _ hone.2⟩
  | handled =>
      simp only [OneServer, hprocess] at hone ⊢
      exact ⟨hone.1, himp _ _ hone.2⟩
  | alive => simp only [OneServer, hprocess]
  | failing => simp only [OneServer, hprocess]
  | replied => simp only [OneServer, hprocess]

theorem Moves.routed {rn : Network Endname Servername Server}
    {req req' : ReqMsg Endname Servername Server Args Reply}
    {ok : Servername → Server → Prop} (h : req.Moves rn req') (hold : req.Routed ok)
    (hfound : ∀ servername server, rn.connections req.endname = some servername →
      rn.servers servername = some server → ok servername server) : req'.Routed ok := by
  obtain ⟨hone, htarget⟩ := hold
  cases h with
  | found hprocess _ hname hserver =>
      simp only [OneServer, hprocess] at hone
      exact ⟨⟨hone, hfound _ _ hname hserver⟩, htarget⟩
  | execute hprocess =>
      simp only [OneServer, hprocess] at hone
      refine ⟨⟨rfl, hone.2⟩, fun server hserver => ?_⟩
      obtain rfl := Option.some.inj hserver
      exact ⟨_, hone.2⟩
  | receive hprocess hdispatch =>
      simp only [OneServer, hprocess, hdispatch, Dispatch.server, Option.some.injEq] at hone
      obtain ⟨rfl, hok⟩ := hone
      exact ⟨⟨rfl, hok⟩, fun server hserver => htarget server (hdispatch ▸ hserver)⟩
  | alive => exact ⟨trivial, htarget⟩
  | reply => exact ⟨trivial, htarget⟩
  | fail => exact ⟨trivial, htarget⟩
  | failed => exact ⟨trivial, htarget⟩
  | again => exact ⟨hone, htarget⟩

/-- The dispatching goroutine moves on by itself. -/
theorem Routed.dispatched {req : ReqMsg Endname Servername Server Args Reply}
    {ok : Servername → Server → Prop} (h : req.Routed ok) {server : Server}
    {dispatch : Dispatch Server Reply} (hserver : req.dispatch.server = some server)
    (hsent : ∀ reply, req.dispatch ≠ .sent server reply)
    (hserver' : dispatch.server = some server) :
    ({ req with dispatch } : ReqMsg Endname Servername Server Args Reply).Routed ok := by
  obtain ⟨hone, htarget⟩ := h
  refine ⟨?_, fun server' heq => htarget server' (hserver.trans (hserver'.symm.trans heq))⟩
  cases hprocess : req.process with
  | received =>
      simp only [OneServer, hprocess] at hone
      rw [hone] at hserver
      cases hserver
  | found servername server' reliable =>
      simp only [OneServer, hprocess] at hone
      rw [hone.1] at hserver
      cases hserver
  | waiting servername server' reliable =>
      simp only [OneServer, hprocess, hserver, Option.some.injEq] at hone ⊢
      exact ⟨hserver'.trans (congrArg some hone.1), hone.2⟩
  | handled servername server' reliable reply =>
      simp only [OneServer, hprocess] at hone
      rw [hone.1, Dispatch.server, Option.some.injEq] at hserver
      subst hserver
      exact absurd hone.1 (hsent reply)
  | alive => trivial
  | failing => trivial
  | replied => trivial

variable [DecidableEq Server]

/-- One step of `ProcessReq`. Once `serverDead` has ended the wait, the second
look at the server cannot save the call, so there is none here. -/
def step (rn : Network Endname Servername Server)
    (req : ReqMsg Endname Servername Server Args Reply) :
    Choice → Option (ReqMsg Endname Servername Server Args Reply)
  | .readEndnameInfo =>
      match req.process with
      | .received =>
          match rn.readEndnameInfo req.endname with
          | (true, some servername, some server, reliable) =>
              some { req with process := .found servername server reliable }
          | _ => some { req with process := .failing }
      | _ => none
  | .dropRequest =>
      match req.process with
      | .found _ _ false => some { req with process := .failing }
      | _ => none
  | .execute =>
      match req.process with
      | .found servername server reliable =>
          some { req with
            process := .waiting servername server reliable
            dispatch := .started server }
      | _ => none
  | .receive =>
      match req.process, req.dispatch with
      | .waiting servername server reliable, .sending source reply =>
          some { req with
            process := .handled servername server reliable reply
            dispatch := .sent source reply }
      | _, _ => none
  | .timeout =>
      match req.process with
      | .waiting servername server _ =>
          if rn.isServerDead req.endname servername server then
            some { req with process := .failing }
          else some req
      | _ => none
  | .isServerDead =>
      match req.process with
      | .handled servername server reliable reply =>
          if rn.isServerDead req.endname servername server then
            some { req with process := .failing }
          else some { req with process := .alive reliable reply }
      | _ => none
  | .dropReply =>
      match req.process with
      | .alive false _ => some { req with process := .failing }
      | _ => none
  | .reply =>
      match req.process with
      | .alive _ reply => some { req with process := .replied (some reply) }
      | .failing => some { req with process := .replied none }
      | _ => none

theorem servers_of_isServerDead {rn : Network Endname Servername Server} {endname : Endname}
    {servername : Servername} {server : Server}
    (h : ¬ rn.isServerDead endname servername server = true) :
    rn.servers servername = some server := by
  simp only [Network.isServerDead, Bool.or_eq_true, not_or, bne_iff_ne, ne_eq,
    Decidable.not_not] at h
  exact h.2

/-- A reply goes on only when its server was not found dead. -/
theorem step_alive {rn : Network Endname Servername Server}
    {req : ReqMsg Endname Servername Server Args Reply} {choice : Choice}
    {servername : Servername} {server : Server} {reliable : Bool} {reply : Reply}
    (hprocess : req.process = .handled servername server reliable reply)
    (h : req.step rn choice = some { req with process := .alive reliable reply }) :
    choice = .isServerDead ∧ rn.isServerDead req.endname servername server = false := by
  cases choice <;> simp only [step, hprocess, reduceCtorEq] at h
  refine ⟨rfl, ?_⟩
  cases hdead : rn.isServerDead req.endname servername server with
  | false => rfl
  | true =>
      rw [hdead, if_pos rfl, Option.some.injEq, ReqMsg.mk.injEq] at h
      cases h.2.2.1

theorem step_moves {rn : Network Endname Servername Server}
    {req req' : ReqMsg Endname Servername Server Args Reply} {choice : Choice}
    (h : req.step rn choice = some req') : Moves rn req req' := by
  cases hprocess : req.process with
  | received =>
      cases choice <;> simp only [step, hprocess, reduceCtorEq] at h
      split at h
      · next hinfo =>
          obtain ⟨henabled, hname, hserver, rfl⟩ := Network.readEndnameInfo_found hinfo
          obtain rfl := Option.some.inj h
          exact .found hprocess henabled hname hserver
      · obtain rfl := Option.some.inj h
        exact .fail (by rw [returned, hprocess])
  | found servername server reliable =>
      cases choice <;> simp only [step, hprocess, reduceCtorEq] at h
      · cases reliable <;> simp only [reduceCtorEq, Option.some.injEq] at h
        obtain rfl := h
        exact .fail (by rw [returned, hprocess])
      · obtain rfl := Option.some.inj h
        exact .execute hprocess
  | waiting servername server reliable =>
      cases choice <;> simp only [step, hprocess, reduceCtorEq] at h
      · cases hdispatch : req.dispatch <;> simp only [hdispatch, reduceCtorEq] at h
        obtain rfl := Option.some.inj h
        exact .receive hprocess hdispatch
      · by_cases hdead : rn.isServerDead req.endname servername server
        · rw [if_pos hdead] at h
          obtain rfl := Option.some.inj h
          exact .fail (by rw [returned, hprocess])
        · rw [if_neg hdead] at h
          obtain rfl := Option.some.inj h
          exact .again (by rw [returned, hprocess])
  | handled servername server reliable reply =>
      cases choice <;> simp only [step, hprocess, reduceCtorEq] at h
      by_cases hdead : rn.isServerDead req.endname servername server
      · rw [if_pos hdead] at h
        obtain rfl := Option.some.inj h
        exact .fail (by rw [returned, hprocess])
      · rw [if_neg hdead] at h
        obtain rfl := Option.some.inj h
        exact .alive hprocess (servers_of_isServerDead hdead)
  | alive reliable reply =>
      cases choice <;> simp only [step, hprocess, reduceCtorEq] at h
      · cases reliable <;> simp only [reduceCtorEq, Option.some.injEq] at h
        obtain rfl := h
        exact .fail (by rw [returned, hprocess])
      · obtain rfl := Option.some.inj h
        exact .reply hprocess
  | failing =>
      cases choice <;> simp only [step, hprocess, reduceCtorEq] at h
      obtain rfl := Option.some.inj h
      exact .failed hprocess
  | replied reply =>
      cases choice <;> simp only [step, hprocess, reduceCtorEq] at h

end ReqMsg

end BlockchainTutorial.Labrpc
