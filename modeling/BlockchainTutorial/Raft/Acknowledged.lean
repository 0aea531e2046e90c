import BlockchainTutorial.Raft.LogMatching
import BlockchainTutorial.Raft.Refinement

namespace BlockchainTutorial.Raft

open Labrpc

variable {n : Nat} {C D Endname : Type}

/-! What a server may rely on when `Call` has returned true. -/

theorem getElem?_set_cases {α : Type} {l : List α} {j k : Nat} {x y : α}
    (h : (l.set j x)[k]? = some y) : k = j ∧ y = x ∨ k ≠ j ∧ l[k]? = some y := by
  rw [List.getElem?_set] at h
  by_cases hj : j = k
  · subst hj
    by_cases hlt : j < l.length
    · rw [if_pos rfl, if_pos hlt, Option.some.injEq] at h
      exact .inl ⟨rfl, h.symm⟩
    · simp [hlt] at h
  · rw [if_neg hj] at h
    exact .inr ⟨fun heq => hj heq.symm, h⟩

theorem getElem?_append_cases {α : Type} {l new : List α} {k : Nat} {y : α}
    (h : (l ++ new)[k]? = some y) : l[k]? = some y ∨ l.length ≤ k ∧ y ∈ new := by
  by_cases hk : k < l.length
  · rw [List.getElem?_append_left hk] at h
    exact .inl h
  · rw [List.getElem?_append_right (Nat.le_of_not_lt hk)] at h
    exact .inr ⟨Nat.le_of_not_lt hk, List.mem_of_getElem? h⟩

namespace Harness

/-- All that a step can do to request number `k`. -/
inductive RequestStep (s : Harness n C D Endname) (a : HarnessAction n C Endname) (k : Nat)
    (req : Request n C D Endname) : Request n C D Endname → Prop
  | same (hact : a ≠ .handle k) : RequestStep s a k req req
  | moved {msg : ReqMsg Endname (Fin n) Nat (CallArgs n C D) CallReply} {choice : Choice}
      (hact : a = .processReq k choice) (hmsg : req.msg.step s.net choice = some msg) :
      RequestStep s a k req { req with msg }
  | counted {server : Nat} (hact : a ≠ .handle k)
      (hdispatch : req.msg.dispatch = .started server) :
      RequestStep s a k req (req.dispatched (.counted server))
  | handled {server : Nat} {inst : Instance n C D Endname} {rf : Raft n C D}
      {reply : CallReply} {applied : List (ApplyMsg C D)} (hact : a = .handle k)
      (hdispatch : req.msg.dispatch = .counted server)
      (hinst : s.instances[server]? = some inst)
      (hservice : serviceDispatch inst.raft req.msg.args = some (rf, reply, applied)) :
      RequestStep s a k req (req.dispatched (.sending server reply))
  | finished (hact : a ≠ .handle k) : RequestStep s a k req { req with finished := true }

/-- A request after a step was there before it, or has just been sent. -/
theorem requests_step [DecidableEq Endname] {s s' : Harness n C D Endname}
    {a : HarnessAction n C Endname} (hstep : s.step a = some s') {k : Nat}
    {req' : Request n C D Endname} (h : s'.requests[k]? = some req') :
    (∃ req, s.requests[k]? = some req ∧ RequestStep s a k req req') ∨
      s.requests.length ≤ k ∧ req'.msg.dispatch = .absent ∧
        req'.msg.process = .received := by
  have hnew : ∀ {inst : Instance n C D Endname} {server : Nat}
      {calls : List (Fin n × CallArgs n C D)}, req' ∈ calls.map (inst.request server) →
      req'.msg.dispatch = .absent ∧ req'.msg.process = .received := by
    intro inst server calls hmem
    obtain ⟨call, _, rfl⟩ := List.mem_map.mp hmem
    exact ⟨rfl, rfl⟩
  cases a with
  | setunreliable unrel =>
      obtain rfl := Option.some.inj hstep
      exact .inl ⟨req', h, .same (fun heq => by cases heq)⟩
  | config call =>
      cases htester : s.tester <;> simp only [step, htester, reduceCtorEq] at hstep
      obtain ⟨connected, tester, rfl⟩ := stepConfig_eq_some hstep
      exact .inl ⟨req', h, .same (fun heq => by cases heq)⟩
  | tester =>
      rw [(stepTester_place hstep).1] at h
      exact .inl ⟨req', h, .same (fun heq => by cases heq)⟩
  | server server local_ =>
      obtain ⟨inst, rf, eff, _, _, hmove⟩ := stepServer_eq_some hstep
      obtain ⟨_, _, rfl⟩ := moveInstance_eq_some hmove
      rcases getElem?_append_cases h with hold | ⟨hlong, hmem⟩
      · exact .inl ⟨req', hold, .same (fun heq => by cases heq)⟩
      · exact .inr ⟨hlong, hnew hmem⟩
  | processReq j choice =>
      obtain ⟨req, msg, hreq, hmsg, rfl⟩ := stepProcessReq_eq_some hstep
      rcases getElem?_set_cases h with ⟨rfl, rfl⟩ | ⟨_, hold⟩
      · exact .inl ⟨req, hreq, .moved rfl hmsg⟩
      · exact .inl ⟨req', hold, .same (fun heq => by cases heq)⟩
  | count j =>
      obtain ⟨req, server, inst, hreq, hdispatch, hinst, rfl⟩ := stepCount_eq_some hstep
      rcases getElem?_set_cases h with ⟨rfl, rfl⟩ | ⟨_, hold⟩
      · exact .inl ⟨req, hreq, .counted (fun heq => by cases heq) hdispatch⟩
      · exact .inl ⟨req', hold, .same (fun heq => by cases heq)⟩
  | handle j =>
      obtain ⟨req, server, inst, rf, reply, applied, hreq, hdispatch, hinst, hservice, hmove⟩ :=
        stepHandle_eq_some hstep
      obtain ⟨_, _, rfl⟩ := moveInstance_eq_some hmove
      rcases getElem?_append_cases h with hset | ⟨hlong, hmem⟩
      · rcases getElem?_set_cases hset with ⟨rfl, rfl⟩ | ⟨hk, hold⟩
        · exact .inl ⟨req, hreq, .handled rfl hdispatch hinst hservice⟩
        · exact .inl ⟨req', hold, .same fun heq => hk (HarnessAction.handle.inj heq).symm⟩
      · exact .inr ⟨by simpa [setRequest] using hlong, hnew hmem⟩
  | finish j =>
      obtain ⟨req, inst, answer, rf, hreq, _, _, _, _, hmove⟩ := stepFinish_eq_some hstep
      obtain ⟨_, _, rfl⟩ := moveInstance_eq_some hmove
      rcases getElem?_append_cases h with hset | ⟨hlong, hmem⟩
      · rcases getElem?_set_cases hset with ⟨rfl, rfl⟩ | ⟨_, hold⟩
        · exact .inl ⟨req, hreq, .finished (fun heq => by cases heq)⟩
        · exact .inl ⟨req', hold, .same (fun heq => by cases heq)⟩
      · exact .inr ⟨by simpa [setRequest] using hlong, hnew hmem⟩

/-- Only the functions of `config.go` make instances and crash them. -/
theorem step_frame [DecidableEq Endname] {s s' : Harness n C D Endname}
    {a : HarnessAction n C Endname} (hstep : s.step a = some s') :
    s.stepTester = some s' ∨ s'.saved = s.saved ∧
      s'.instances.length = s.instances.length ∧ s.requests.length ≤ s'.requests.length := by
  cases a with
  | setunreliable unrel =>
      obtain rfl := Option.some.inj hstep
      exact .inr ⟨rfl, rfl, Nat.le_refl _⟩
  | config call =>
      cases htester : s.tester <;> simp only [step, htester, reduceCtorEq] at hstep
      obtain ⟨connected, tester, rfl⟩ := stepConfig_eq_some hstep
      exact .inr ⟨rfl, rfl, Nat.le_refl _⟩
  | tester => exact .inl hstep
  | server server local_ =>
      obtain ⟨inst, rf, eff, _, _, hmove⟩ := stepServer_eq_some hstep
      obtain ⟨_, _, rfl⟩ := moveInstance_eq_some hmove
      exact .inr ⟨rfl, by simp, by simp⟩
  | processReq j choice =>
      obtain ⟨req, msg, _, _, rfl⟩ := stepProcessReq_eq_some hstep
      exact .inr ⟨rfl, rfl, by simp [setRequest]⟩
  | count j =>
      obtain ⟨req, server, inst, _, _, _, rfl⟩ := stepCount_eq_some hstep
      exact .inr ⟨rfl, by simp, by simp [setRequest]⟩
  | handle j =>
      obtain ⟨req, server, inst, rf, reply, applied, _, _, _, _, hmove⟩ :=
        stepHandle_eq_some hstep
      obtain ⟨_, _, rfl⟩ := moveInstance_eq_some hmove
      exact .inr ⟨rfl, by simp [setRequest], by simp [setRequest]⟩
  | finish j =>
      obtain ⟨req, inst, answer, rf, _, _, _, _, _, hmove⟩ := stepFinish_eq_some hstep
      obtain ⟨_, _, rfl⟩ := moveInstance_eq_some hmove
      exact .inr ⟨rfl, by simp [setRequest], by simp [setRequest]⟩

theorem requests_length_step [DecidableEq Endname] {s s' : Harness n C D Endname}
    {a : HarnessAction n C Endname} (hstep : s.step a = some s') :
    s.requests.length ≤ s'.requests.length := by
  rcases step_frame hstep with htester | ⟨_, _, hlength⟩
  · rw [(stepTester_place htester).1]
  · exact hlength

/-- Instances are numbered as they are made, and one that was crashed stays so. -/
theorem current_step [DecidableEq Endname] {s s' : Harness n C D Endname}
    {a : HarnessAction n C Endname} (hstep : s.step a = some s') :
    s.instances.length ≤ s'.instances.length ∧
      ∀ i k, k < s.instances.length → s'.Current i k → s.Current i k := by
  have hsame : ∀ {s'' : Harness n C D Endname}, s''.instances.length = s.instances.length →
      s''.saved = s.saved → s.instances.length ≤ s''.instances.length ∧
        ∀ i k, k < s.instances.length → s''.Current i k → s.Current i k := by
    intro s'' hlength hsaved
    refine ⟨hlength.ge, fun i k _ hk => ?_⟩
    rwa [Current, ← hsaved]
  rcases step_frame hstep with hstep | ⟨hsaved, hlength, _⟩
  · cases htester : s.tester with
    | idle => simp [stepTester, htester] at hstep
    | enabling pending =>
        cases pending <;> simp only [stepTester, htester, Option.some.injEq] at hstep <;>
          subst hstep <;> exact hsame rfl rfl
    | crashing i pending names =>
        cases pending <;> simp only [stepTester, htester, Option.some.injEq] at hstep <;>
          subst hstep <;> exact hsame rfl rfl
    | copying i names =>
        simp only [stepTester, htester] at hstep
        obtain ⟨persister, _, rfl⟩ := Option.map_eq_some_iff.mp hstep
        refine ⟨Nat.le_refl _, fun j k _ hk => ?_⟩
        by_cases hj : j = i
        · simp [Current, hj] at hk
        · simpa [Current, hj] using hk
    | makingEnds i names =>
        simp only [stepTester, htester] at hstep
        obtain ⟨net, _, rfl⟩ := Option.map_eq_some_iff.mp hstep
        exact hsame rfl rfl
    | making i names =>
        simp only [stepTester, htester] at hstep
        obtain ⟨persister, _, rfl⟩ := Option.map_eq_some_iff.mp hstep
        refine ⟨by simp, fun j k hlt hk => ?_⟩
        by_cases hj : j = i
        · simp only [Current, hj, Function.update_self, SavedPersister.shared.injEq] at hk
          omega
        · simpa [Current, hj] using hk
    | adding i k =>
        simp only [stepTester, htester, Option.some.injEq] at hstep
        subst hstep
        exact hsame rfl rfl
  · exact hsame hlength hsaved

end Harness

/-! A run of the harness. -/

section Run

variable [DecidableEq Endname] (run : HarnessRun n C D Endname)

/-- In step `m` the handler of request `k` runs at instance `server`, and replies. -/
def HandledAt (k m server : Nat) (args : CallArgs n C D) (reply : CallReply) : Prop :=
  run.act m = .handle k ∧ ∃ inst rf applied,
    (run.state m).instances[server]? = some inst ∧
      serviceDispatch inst.raft args = some (rf, reply, applied)

/-- In step `u` the goroutine of request `k` has the reply of instance `server`, does not
find the server dead, and lets the reply go. -/
def LetGoAt (k u server : Nat) (reply : CallReply) : Prop :=
  run.act u = .processReq k .isServerDead ∧ ∃ req servername reliable,
    (run.state u).requests[k]? = some req ∧
      req.msg.process = .handled servername server reliable reply ∧
      (run.state u).net.isServerDead req.msg.endname servername server = false

theorem wired_run : ∀ k, k ≤ run.length →
    Harness.Wired (run.state k) ∧ ∀ req ∈ (run.state k).requests, (run.state k).Sound req := by
  refine run.invariant
    (P := fun s => Harness.Wired s ∧ ∀ req ∈ s.requests, s.Sound req)
    ⟨Harness.wired_init, List.forall_mem_nil _⟩ ?_
  rintro s a s' ⟨hwired, hsound⟩ hstep
  exact ⟨hwired.step hstep, Harness.sound_step hwired hsound hstep⟩

theorem current_between {m u k : Nat} {i : Fin n} (hu : u ≤ run.length)
    (hk : k < (run.state m).instances.length) (hcurrent : (run.state u).Current i k) :
    ∀ j, m ≤ j → j ≤ u → (run.state j).Current i k := by
  have hlong : ∀ j, m ≤ j → j ≤ run.length → k < (run.state j).instances.length := by
    refine run.induct_from (P := fun j => k < (run.state j).instances.length) hk ?_
    intro j _ hj ih
    exact Nat.lt_of_lt_of_le ih (Harness.current_step (run.steps j hj)).1
  intro j hmj hju
  induction u, hju using Nat.le_induction with
  | base => exact hcurrent
  | succ u hju ih =>
      refine ih (Nat.le_of_succ_le hu) ?_
      exact (Harness.current_step (run.steps u hu)).2 i k (hlong u (by omega) (by omega)) hcurrent

/-- What has become of request number `k` by step `t`. -/
structure Tracked (t k : Nat) (req : Request n C D Endname) : Prop where
  unhandled : req.msg.dispatch.reply = none → ∀ m, m < t → run.act m ≠ .handle k
  handled : ∀ server reply, req.msg.dispatch.server = some server →
    req.msg.dispatch.reply = some reply →
    ∃ m, m < t ∧ HandledAt run k m server req.msg.args reply ∧
      ∀ j, j < t → run.act j = .handle k → j = m
  answered : ∀ reply, req.msg.answer = some reply →
    ∃ server u, req.msg.dispatch = .sent server reply ∧ u < t ∧
      LetGoAt run k u server reply ∧ (∀ j, j < t → run.act j = .handle k → j < u) ∧
      (run.state u).Current req.server server

variable {run}

/-- A step in which the handler of the request does not run. -/
theorem Tracked.next {t k : Nat} {req req' : Request n C D Endname} (h : Tracked run t k req)
    (hnot : run.act t ≠ .handle k) (hargs : req'.msg.args = req.msg.args)
    (hserver : req'.server = req.server)
    (hreply : req'.msg.dispatch.reply = req.msg.dispatch.reply)
    (hdispatch : req.msg.dispatch.reply ≠ none →
      req'.msg.dispatch.server = req.msg.dispatch.server)
    (hanswer : ∀ reply, req'.msg.answer = some reply →
      req.msg.answer = some reply ∧ req'.msg.dispatch = req.msg.dispatch ∨
        ∃ server, req'.msg.dispatch = .sent server reply ∧ LetGoAt run k t server reply ∧
          (run.state t).Current req.server server) : Tracked run (t + 1) k req' := by
  have hbefore : ∀ j, j < t + 1 → run.act j = .handle k → j < t := by
    intro j hj hact
    rcases Nat.lt_succ_iff_lt_or_eq.mp hj with hlt | rfl
    · exact hlt
    · exact absurd hact hnot
  refine ⟨fun hnone m hm hact => ?_, fun server reply hs hr => ?_, fun reply ha => ?_⟩
  · exact h.unhandled (hreply ▸ hnone) m (hbefore m hm hact) hact
  · rw [hreply] at hr
    rw [hdispatch (by rw [hr]; exact Option.some_ne_none _)] at hs
    obtain ⟨m, hm, hhandled, hunique⟩ := h.handled server reply hs hr
    exact ⟨m, Nat.lt_succ_of_lt hm, hargs ▸ hhandled,
      fun j hj hact => hunique j (hbefore j hj hact) hact⟩
  · rcases hanswer reply ha with ⟨hold, hsame⟩ | ⟨server, hsent, hletgo, hcurrent⟩
    · obtain ⟨server, u, hsent, hu, hletgo, hlater, hcurrent⟩ := h.answered reply hold
      exact ⟨server, u, hsame.trans hsent, Nat.lt_succ_of_lt hu, hletgo,
        fun j hj hact => hlater j (hbefore j hj hact) hact, hserver ▸ hcurrent⟩
    · exact ⟨server, t, hsent, Nat.lt_succ_self t, hletgo, hbefore, hserver ▸ hcurrent⟩

theorem Tracked.moved {t k : Nat} {req : Request n C D Endname} (h : Tracked run t k req)
    (hreq : (run.state t).requests[k]? = some req)
    (hwired : Harness.Wired (run.state t)) (hsound : (run.state t).Sound req) {choice : Choice}
    (hact : run.act t = .processReq k choice)
    {msg : ReqMsg Endname (Fin n) Nat (CallArgs n C D) CallReply}
    (hmsg : req.msg.step (run.state t).net choice = some msg) :
    Tracked run (t + 1) k { req with msg } := by
  have hone := hsound.routed.oneServer
  have hnot : run.act t ≠ .handle k := by
    rw [hact]
    exact nofun
  cases ReqMsg.step_moves hmsg with
  | found hprocess =>
      exact h.next hnot rfl rfl rfl (fun _ => rfl) (fun _ hanswer => by cases hanswer)
  | execute hprocess =>
      simp only [ReqMsg.OneServer, hprocess] at hone
      have hnone : req.msg.dispatch.reply = none := by
        rw [hone.1]
        rfl
      exact h.next hnot rfl rfl hnone.symm (fun hsome => absurd hnone hsome)
        (fun _ hanswer => by cases hanswer)
  | receive hprocess hdispatch =>
      exact h.next hnot rfl rfl (by rw [hdispatch]; rfl) (fun _ => by rw [hdispatch]; rfl)
        (fun _ hanswer => by cases hanswer)
  | @alive servername server reliable reply hprocess hserver =>
      simp only [ReqMsg.OneServer, hprocess] at hone
      obtain ⟨hdispatch, rfl, _⟩ := hone
      refine h.next hnot rfl rfl rfl (fun _ => rfl) fun reply' hanswer =>
        .inr ⟨server, ?_, ?_, hwired.registered _ server hserver⟩
      · obtain rfl := Option.some.inj hanswer
        exact hdispatch
      · obtain rfl := Option.some.inj hanswer
        obtain ⟨rfl, halive⟩ := ReqMsg.step_alive hprocess hmsg
        exact ⟨hact, req, _, reliable, hreq, hprocess, halive⟩
  | @reply reliable reply hprocess =>
      refine h.next hnot rfl rfl rfl (fun _ => rfl) fun reply' hanswer => .inl ⟨?_, rfl⟩
      rw [ReqMsg.answer, hprocess]
      exact hanswer
  | fail => exact h.next hnot rfl rfl rfl (fun _ => rfl) (fun _ hanswer => by cases hanswer)
  | failed => exact h.next hnot rfl rfl rfl (fun _ => rfl) (fun _ hanswer => by cases hanswer)
  | again => exact h.next hnot rfl rfl rfl (fun _ => rfl) fun _ hanswer => .inl ⟨hanswer, rfl⟩

theorem Tracked.step {t k : Nat} (ht : t < run.length) {req req' : Request n C D Endname}
    (h : Tracked run t k req) (hreq : (run.state t).requests[k]? = some req)
    (hstep : Harness.RequestStep (run.state t) (run.act t) k req req') :
    Tracked run (t + 1) k req' := by
  obtain ⟨hwired, hsound⟩ := wired_run run t ht.le
  cases hstep with
  | same hnot => exact h.next hnot rfl rfl rfl (fun _ => rfl) fun _ ha => .inl ⟨ha, rfl⟩
  | moved hact hmsg =>
      exact h.moved hreq hwired (hsound req (List.mem_of_getElem? hreq)) hact hmsg
  | counted hnot hdispatch =>
      refine h.next hnot rfl rfl (by rw [hdispatch]; rfl) (fun _ => by rw [hdispatch]; rfl)
        fun reply hanswer => ?_
      obtain ⟨server, _, hsent, _⟩ := h.answered reply hanswer
      cases hdispatch.symm.trans hsent
  | @handled server inst rf reply applied hact hdispatch hinst hservice =>
      have hnone := h.unhandled (by rw [hdispatch]; rfl)
      refine ⟨nofun, fun server' reply' hserver hreply => ?_, fun reply' hanswer => ?_⟩
      · obtain rfl := Option.some.inj hserver
        obtain rfl := Option.some.inj hreply
        refine ⟨t, Nat.lt_succ_self t, ⟨hact, inst, rf, applied, hinst, hservice⟩, ?_⟩
        intro j hj hj'
        rcases Nat.lt_succ_iff_lt_or_eq.mp hj with hlt | rfl
        · exact absurd hj' (hnone j hlt)
        · rfl
      · obtain ⟨server', _, hsent, _⟩ := h.answered reply' hanswer
        cases hdispatch.symm.trans hsent
  | finished hnot => exact h.next hnot rfl rfl rfl (fun _ => rfl) fun _ ha => .inl ⟨ha, rfl⟩

theorem tracked_new {t k : Nat} {req : Request n C D Endname}
    (hnone : ∀ m, m < t → run.act m ≠ .handle k) (hdispatch : req.msg.dispatch = .absent)
    (hprocess : req.msg.process = .received) : Tracked run t k req := by
  refine ⟨fun _ => hnone, fun server reply hserver => ?_, fun reply hanswer => ?_⟩
  · rw [hdispatch] at hserver
    cases hserver
  · rw [ReqMsg.answer, hprocess] at hanswer
    cases hanswer

theorem Tracked.once {t k m m' : Nat} {req : Request n C D Endname} (h : Tracked run t k req)
    (hm : m < t) (hm' : m' < t) (hact : run.act m = .handle k) (hact' : run.act m' = .handle k) :
    m = m' := by
  have hunique : ∀ server reply, req.msg.dispatch.server = some server →
      req.msg.dispatch.reply = some reply → m = m' := by
    intro server reply hserver hreply
    obtain ⟨u, _, _, hu⟩ := h.handled server reply hserver hreply
    exact (hu m hm hact).trans (hu m' hm' hact').symm
  cases hdispatch : req.msg.dispatch with
  | absent => exact absurd hact (h.unhandled (by rw [hdispatch]; rfl) m hm)
  | started server => exact absurd hact (h.unhandled (by rw [hdispatch]; rfl) m hm)
  | counted server => exact absurd hact (h.unhandled (by rw [hdispatch]; rfl) m hm)
  | sending server reply =>
      exact hunique server reply (by rw [hdispatch]; rfl) (by rw [hdispatch]; rfl)
  | sent server reply =>
      exact hunique server reply (by rw [hdispatch]; rfl) (by rw [hdispatch]; rfl)

variable (run)

theorem tracked_run : ∀ t, t ≤ run.length →
    (∀ j k, j < t → run.act j = .handle k → k < (run.state t).requests.length) ∧
      ∀ k req, (run.state t).requests[k]? = some req → Tracked run t k req := by
  refine run.induct ⟨fun j k hj => absurd hj (Nat.not_lt_zero j), fun k req hreq => ?_⟩ ?_
  · rw [run.starts] at hreq
    cases hreq
  · rintro t ht ⟨hlong, htracked⟩
    have hstep := run.steps t ht
    have hlong' : ∀ j k, j < t + 1 → run.act j = .handle k →
        k < (run.state t).requests.length := by
      intro j k hj hact
      rcases Nat.lt_succ_iff_lt_or_eq.mp hj with hlt | rfl
      · exact hlong j k hlt hact
      · rw [hact] at hstep
        obtain ⟨req, _, _, _, _, _, hreq, _⟩ := Harness.stepHandle_eq_some hstep
        exact (List.getElem?_eq_some_iff.mp hreq).1
    refine ⟨fun j k hj hact => Nat.lt_of_lt_of_le (hlong' j k hj hact)
      (Harness.requests_length_step hstep), fun k req' hreq' => ?_⟩
    rcases Harness.requests_step hstep hreq' with ⟨req, hreq, hchange⟩ | ⟨hnew, hdispatch, hproc⟩
    · exact (htracked k req hreq).step ht hreq hchange
    · exact tracked_new (fun m hm hact => absurd (hlong' m k hm hact) (Nat.not_lt_of_le hnew))
        hdispatch hproc

/-- No request is handled twice, at whatever instances. One whose `Call` returned true was
handled, at an instance of its server that was not crashed up to the step that let the
reply go. -/
theorem acknowledged_once :
    (∀ k m m', m < run.length → m' < run.length → run.act m = .handle k →
      run.act m' = .handle k → m = m') ∧
    ∀ t k req reply, t ≤ run.length → (run.state t).requests[k]? = some req →
      req.msg.returned = some (some reply) →
      ∃ m server u, m < u ∧ u < t ∧ HandledAt run k m server req.msg.args reply ∧
        LetGoAt run k u server reply ∧
        ∀ j, m ≤ j → j ≤ u → (run.state j).Current req.server server := by
  refine ⟨fun k m m' hm hm' hact hact' => ?_, fun t k req reply ht hreq hreturned => ?_⟩
  · obtain ⟨hlong, htracked⟩ := tracked_run run run.length le_rfl
    have hreq := List.getElem?_eq_getElem (hlong m k hm hact)
    exact (htracked k _ hreq).once hm hm' hact hact'
  · obtain ⟨_, htracked⟩ := tracked_run run t ht
    have htrack := htracked k req hreq
    obtain ⟨server, u, hsent, hu, hletgo, hlater, hcurrent⟩ :=
      htrack.answered reply (ReqMsg.answer_of_returned hreturned)
    obtain ⟨m, hm, hhandled, _⟩ :=
      htrack.handled server reply (by rw [hsent]; rfl) (by rw [hsent]; rfl)
    obtain ⟨hact, inst, rf, applied, hinst, hservice⟩ := hhandled
    have hmade : server < (run.state m).instances.length :=
      (List.getElem?_eq_some_iff.mp hinst).1
    exact ⟨m, server, u, hlater m hm hact, hu, ⟨hact, inst, rf, applied, hinst, hservice⟩,
      hletgo, current_between run (Nat.le_trans (Nat.le_of_lt hu) ht) hmade hcurrent⟩

end Run

/-! The example is a run of two servers. -/

instance : Inhabited (HarnessAction n C Endname) := ⟨.tester⟩

/-- The test calls a function of `config.go`, which takes `steps` steps. -/
def callConfig (call : ConfigCall 2 Nat) (steps : Nat) : List (HarnessAction 2 Nat Nat) :=
  .config call :: List.replicate steps .tester

/-- A request goes to its server, and the reply comes back. -/
def exchange (k : Nat) : List (HarnessAction 2 Nat Nat) :=
  [.processReq k .readEndnameInfo, .processReq k .execute, .count k, .handle k,
    .processReq k .receive, .processReq k .isServerDead, .processReq k .reply, .finish k]

def endname (i j : Fin 2) : Nat :=
  2 * i.val + j.val

/-- Both servers are started and connected, and server 0 asks for the vote of server 1. -/
def firstVote : List (HarnessAction 2 Nat Nat) :=
  callConfig (.start1 0 (endname 0)) 5 ++ callConfig (.start1 1 (endname 1)) 6 ++
    callConfig (.connect 0) 3 ++ callConfig (.connect 1) 5 ++
    [.loop .proceed, .loop .timeout, .loop .proceed, .loop .proceed, .boatcastRequestVote 0,
      .boatcastRequestVote 0, .boatcastRequestVote 0].map (.server 0) ++ exchange 0

/-- Server 0 leads and sends a command to server 1, which is crashed. -/
def savedCommand : List (HarnessAction 2 Nat Nat) :=
  firstVote ++ [.loop .chanLeader, .loop .proceed, .start 10, .loop .proceed,
    .loop .proceed].map (.server 0) ++ exchange 1 ++ callConfig (.crash1 1) 6

theorem savedCommand_exec : (Lib.exec Harness.step (Harness.init 2 Nat Unit Nat)
    savedCommand).isSome := by
  decide +kernel

def savedCommandRun : HarnessRun 2 Nat Unit Nat :=
  Lib.Run.ofActions savedCommand savedCommand_exec

/-- Server 1 has answered the request with the command before it is crashed. -/
theorem acknowledged_once_command : ∃ m server u reply, m < u ∧ u < 50 ∧
    LetGoAt savedCommandRun 1 u server reply ∧
    ∀ j, m ≤ j → j ≤ u → (savedCommandRun.state j).Current 1 server := by
  have hsome : ((savedCommandRun.state 50).requests[1]?.bind fun req =>
      if req.server = 1 then req.msg.returned.join else none).isSome := by
    decide +kernel
  obtain ⟨reply, hreply⟩ := Option.isSome_iff_exists.mp hsome
  obtain ⟨req, hreq, hreply⟩ := Option.bind_eq_some_iff.mp hreply
  by_cases hserver : req.server = 1
  · rw [if_pos hserver, Option.join_eq_some_iff] at hreply
    obtain ⟨m, server, u, hlt, hu, _, hletgo, hcurrent⟩ :=
      (acknowledged_once savedCommandRun).2 50 1 req reply (by decide) hreq hreply
    exact ⟨m, server, u, reply, hlt, hu, hletgo, by rwa [hserver] at hcurrent⟩
  · rw [if_neg hserver] at hreply
    cases hreply

end BlockchainTutorial.Raft
