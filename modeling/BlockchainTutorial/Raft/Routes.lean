import BlockchainTutorial.Raft.Wiring

namespace BlockchainTutorial.Raft

open Labrpc

variable {n : Nat} {C D Endname : Type}

/-! Where the requests of the harness are. -/

namespace Harness

/-- What a request for server number `i` may reach. -/
def Serving (s : Harness n C D Endname) (i servername : Fin n) (k : Nat) : Prop :=
  servername = i ∧ ∃ peers, s.Place k i peers

structure Sound (s : Harness n C D Endname) (req : Request n C D Endname) : Prop where
  caller : ∃ i peers, s.Place req.caller i peers ∧ req.msg.endname = peers req.server
  routed : req.msg.Routed (s.Serving req.server)

theorem Sound.mono {s s' : Harness n C D Endname} {req : Request n C D Endname}
    (h : s.Sound req) (hplace : ∀ k i peers, s.Place k i peers → s'.Place k i peers) :
    s'.Sound req := by
  obtain ⟨i, peers, hcaller, hendname⟩ := h.caller
  refine ⟨⟨i, peers, hplace _ _ _ hcaller, hendname⟩, h.routed.imp ?_⟩
  rintro servername k ⟨hname, peers', hserver⟩
  exact ⟨hname, peers', hplace _ _ _ hserver⟩

theorem sound_request {s : Harness n C D Endname} {k : Nat} {inst : Instance n C D Endname}
    (hinst : s.instances[k]? = some inst) (call : Fin n × CallArgs n C D) :
    s.Sound (inst.request k call) :=
  ⟨⟨inst.me, inst.peers, ⟨inst, hinst, rfl, rfl⟩, rfl⟩, rfl, fun _ h => by cases h⟩

theorem Sound.moves {s : Harness n C D Endname} (hwired : Wired s)
    {req : Request n C D Endname} (h : s.Sound req)
    {msg : ReqMsg Endname (Fin n) Nat (CallArgs n C D) CallReply}
    (hmoves : req.msg.Moves s.net msg) : s.Sound { req with msg } := by
  obtain ⟨i, peers, hcaller, hendname⟩ := h.caller
  refine ⟨⟨i, peers, hcaller, ?_⟩, hmoves.routed h.routed ?_⟩
  · rw [← hendname]
    cases hmoves <;> rfl
  · intro servername k hname hserver
    rw [hendname, (hwired.known req.caller i peers req.server hcaller).2] at hname
    obtain rfl := Option.some.inj hname
    obtain ⟨peers', hplace, _⟩ := hwired.current _ k (hwired.registered _ k hserver)
    exact ⟨rfl, peers', hplace⟩

theorem Sound.target {s : Harness n C D Endname} {req : Request n C D Endname}
    (h : s.Sound req) {k : Nat} (hserver : req.msg.dispatch.server = some k) :
    ∃ peers, s.Place k req.server peers := by
  obtain ⟨_, _, hplace⟩ := h.routed.target k hserver
  exact hplace

theorem Sound.dispatched {s : Harness n C D Endname} {req : Request n C D Endname}
    (h : s.Sound req) {k : Nat} {dispatch : Dispatch Nat CallReply}
    (hserver : req.msg.dispatch.server = some k)
    (hsent : ∀ reply, req.msg.dispatch ≠ .sent k reply)
    (hserver' : dispatch.server = some k) : s.Sound (req.dispatched dispatch) :=
  ⟨h.caller, h.routed.dispatched hserver hsent hserver'⟩

/-- The requests after server instance `k` has moved. -/
theorem sound_moveInstance {s s' : Harness n C D Endname} {k : Nat}
    {inst : Instance n C D Endname} {rf : Raft n C D} {eff : Effects n C D}
    (hmove : s.moveInstance k inst rf eff = some s') (hinst : s.instances[k]? = some inst)
    (h : ∀ req ∈ s.requests, s.Sound req) : ∀ req ∈ s'.requests, s'.Sound req := by
  have hplace := moveInstance_place hmove hinst
  obtain ⟨_, _, rfl⟩ := moveInstance_eq_some hmove
  intro req hreq
  rcases List.mem_append.mp hreq with hold | hnew
  · exact (h req hold).mono fun l i peers => (hplace l i peers).mpr
  · obtain ⟨call, _, rfl⟩ := List.mem_map.mp hnew
    exact (sound_request hinst call).mono fun l i peers => (hplace l i peers).mpr

theorem sound_setRequest {s : Harness n C D Endname} {k : Nat} {req : Request n C D Endname}
    (h : ∀ req ∈ s.requests, s.Sound req) (hreq : s.Sound req) :
    ∀ req' ∈ (s.setRequest k req).requests, (s.setRequest k req).Sound req' := by
  intro req' hmem
  rcases List.mem_or_eq_of_mem_set hmem with hold | rfl
  · exact (h req' hold).mono fun _ _ _ => id
  · exact hreq.mono fun _ _ _ => id

/-- A function of `config.go` only adds instances. -/
theorem stepTester_place {s s' : Harness n C D Endname} [DecidableEq Endname]
    (hstep : s.stepTester = some s') :
    s'.requests = s.requests ∧ s'.delivered = s.delivered ∧
      ∀ k i peers, s.Place k i peers → s'.Place k i peers := by
  cases htester : s.tester with
  | idle => simp [stepTester, htester] at hstep
  | enabling pending =>
      cases pending <;> simp only [stepTester, htester, Option.some.injEq] at hstep <;>
        subst hstep <;> exact ⟨rfl, rfl, fun _ _ _ => id⟩
  | crashing i pending names =>
      cases pending <;> simp only [stepTester, htester, Option.some.injEq] at hstep <;>
        subst hstep <;> exact ⟨rfl, rfl, fun _ _ _ => id⟩
  | copying i names =>
      simp only [stepTester, htester] at hstep
      obtain ⟨persister, _, rfl⟩ := Option.map_eq_some_iff.mp hstep
      exact ⟨rfl, rfl, fun _ _ _ => id⟩
  | makingEnds i names =>
      simp only [stepTester, htester] at hstep
      obtain ⟨net, _, rfl⟩ := Option.map_eq_some_iff.mp hstep
      exact ⟨rfl, rfl, fun _ _ _ => id⟩
  | making i names =>
      simp only [stepTester, htester] at hstep
      obtain ⟨persister, _, rfl⟩ := Option.map_eq_some_iff.mp hstep
      exact ⟨rfl, rfl, fun _ _ _ hplace => hplace.append rfl⟩
  | adding i k =>
      simp only [stepTester, htester, Option.some.injEq] at hstep
      subst hstep
      exact ⟨rfl, rfl, fun _ _ _ => id⟩

/-- A call of a function of `config.go` changes the bookkeeping of the test. -/
theorem stepConfig_eq_some {s s' : Harness n C D Endname} {call : ConfigCall n Endname}
    (hstep : s.stepConfig call = some s') :
    ∃ connected tester, s' = { s with connected, tester } := by
  cases call with
  | connect i =>
      simp only [stepConfig] at hstep
      split at hstep
      · exact ⟨_, _, (Option.some.inj hstep).symm⟩
      · cases hstep
  | disconnect i => exact ⟨_, _, (Option.some.inj hstep).symm⟩
  | crash1 i => exact ⟨_, _, (Option.some.inj hstep).symm⟩
  | start1 i names => exact ⟨_, _, (Option.some.inj hstep).symm⟩

theorem sound_step [DecidableEq Endname] {s s' : Harness n C D Endname} (hwired : Wired s)
    (h : ∀ req ∈ s.requests, s.Sound req) {a : HarnessAction n C Endname}
    (hstep : s.step a = some s') : ∀ req ∈ s'.requests, s'.Sound req := by
  cases a with
  | setunreliable unrel =>
      obtain rfl := Option.some.inj hstep
      exact fun req hreq => (h req hreq).mono fun _ _ _ => id
  | config call =>
      cases htester : s.tester <;> simp only [step, htester, reduceCtorEq] at hstep
      obtain ⟨connected, tester, rfl⟩ := stepConfig_eq_some hstep
      exact fun req hreq => (h req hreq).mono fun _ _ _ => id
  | tester =>
      obtain ⟨hrequests, _, hplace⟩ := stepTester_place hstep
      rw [hrequests]
      exact fun req hreq => (h req hreq).mono hplace
  | server k local_ =>
      obtain ⟨inst, rf, eff, hinst, _, hmove⟩ := stepServer_eq_some hstep
      exact sound_moveInstance hmove hinst h
  | processReq k choice =>
      obtain ⟨req, msg, hreq, hmsg, rfl⟩ := stepProcessReq_eq_some hstep
      exact sound_setRequest h
        ((h req (List.mem_of_getElem? hreq)).moves hwired (ReqMsg.step_moves hmsg))
  | count k =>
      obtain ⟨req, server, inst, hreq, hdispatch, hinst, rfl⟩ := stepCount_eq_some hstep
      have hsound : s.Sound (req.dispatched (.counted server)) :=
        (h req (List.mem_of_getElem? hreq)).dispatched (by rw [hdispatch]; rfl)
          (fun reply hsent => by cases hdispatch.symm.trans hsent) rfl
      intro req' hreq'
      refine (sound_setRequest h hsound req' hreq').mono fun l i peers hplace => ?_
      exact (place_set { inst with count := inst.count + 1 } hinst rfl rfl rfl l i peers).mpr hplace
  | handle k =>
      obtain ⟨req, server, inst, rf, reply, applied, hreq, hdispatch, hinst, _, hmove⟩ :=
        stepHandle_eq_some hstep
      have hsound : s.Sound (req.dispatched (.sending server reply)) :=
        (h req (List.mem_of_getElem? hreq)).dispatched (by rw [hdispatch]; rfl)
          (fun reply hsent => by cases hdispatch.symm.trans hsent) rfl
      have hset := sound_setRequest (k := k) h hsound
      exact sound_moveInstance hmove hinst hset
  | finish k =>
      obtain ⟨req, inst, reply, rf, hreq, _, _, hinst, _, hmove⟩ := stepFinish_eq_some hstep
      have hold := h req (List.mem_of_getElem? hreq)
      have hfinished : s.Sound { req with finished := true } := ⟨hold.caller, hold.routed⟩
      have hset := sound_setRequest (k := k) h hfinished
      exact sound_moveInstance hmove hinst hset

end Harness

end BlockchainTutorial.Raft
