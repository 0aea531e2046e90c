import BlockchainTutorial.Raft.Acknowledged

namespace BlockchainTutorial.Raft

open Labrpc

variable {n : Nat} {C D Endname : Type}

/-! What holds of the servers of a cluster holds of those on the network. -/

/-- The voter, the term and the candidate of a vote that the caller has been told of. -/
def Request.knownVote (req : Request n C D Endname) : Option (Fin n × Nat × Fin n) :=
  match req.msg.args, req.msg.returned with
  | .requestVote args, some (some (.requestVote reply)) =>
      if reply.voteGranted then some (req.server, args.term, args.candidateId) else none
  | _, _ => none

theorem Request.knownVote_eq_some {req : Request n C D Endname} {voter candidate : Fin n}
    {term : Nat} (h : req.knownVote = some (voter, term, candidate)) :
    ∃ args reply, req.msg.args = .requestVote args ∧
      req.msg.returned = some (some (.requestVote reply)) ∧ reply.voteGranted = true ∧
      voter = req.server ∧ term = args.term ∧ candidate = args.candidateId := by
  unfold knownVote at h
  split at h
  · next args reply hargs hreturned =>
      by_cases hgranted : reply.voteGranted = true
      · rw [if_pos hgranted, Option.some.injEq, Prod.mk.injEq, Prod.mk.injEq] at h
        exact ⟨args, reply, hargs, hreturned, hgranted, h.1.symm, h.2.1.symm, h.2.2.symm⟩
      · rw [if_neg hgranted] at h
        cases h
  · cases h

namespace Harness

/-- Some candidate, or an instance of it that was crashed, knows of the vote. -/
def VoteKnown (s : Harness n C D Endname) (voter : Fin n) (term : Nat) (candidate : Fin n) :
    Prop :=
  ∃ req ∈ s.requests, req.knownVote = some (voter, term, candidate)

instance (s : Harness n C D Endname) (voter : Fin n) (term : Nat) (candidate : Fin n) :
    Decidable (s.VoteKnown voter term candidate) :=
  inferInstanceAs (Decidable (∃ req ∈ s.requests, _ = _))

/-- The term in which server `i`, which is up, leads. -/
def leadsIn (s : Harness n C D Endname) (i : Fin n) : Option Nat :=
  match s.saved i with
  | .shared k =>
      (s.raftOf k).bind fun rf => if rf.state = .leader then some rf.currentTerm else none
  | .own _ => none

/-- The log of server `i`, or the one that it restarts from. -/
def logOf (s : Harness n C D Endname) (i : Fin n) : Option (List (LogEntry C)) :=
  match s.saved i with
  | .shared k => (s.raftOf k).map (·.log)
  | .own persister => some (storedLog persister)

variable {s : Harness n C D Endname} {c : Cluster n C D}

theorem Shown.leadsIn_of_leads (h : s.Shown c) {i : Fin n} {term : Nat}
    (hleads : Leads c i term) : s.leadsIn i = some term := by
  rw [leadsIn]
  cases hsaved : s.saved i with
  | shared k =>
      dsimp only
      rw [h.up i k hsaved, Option.bind_some, if_pos hleads.1, hleads.2]
  | own persister =>
      have hfollower := hleads.1
      rw [(h.down i persister hsaved).2, make_state] at hfollower
      cases hfollower

theorem Shown.logOf_eq (h : s.Shown c) (i : Fin n) : s.logOf i = some (c.rafts i).log := by
  rw [logOf]
  cases hsaved : s.saved i with
  | shared k =>
      dsimp only
      rw [h.up i k hsaved]
      rfl
  | own persister =>
      obtain ⟨hnone, hmake⟩ := h.down i persister hsaved
      dsimp only
      rw [hmake, make_log hnone]

end Harness

/-- Two logs that servers have had, at whatever times, match. -/
theorem logs_match {cluster : ClusterRun n C D}
    (hno : cluster.AllSteps fun _ a => noStartSnapshot a) (hunique : UniqueLeaders cluster)
    {j j' : Nat} (hj : j ≤ cluster.length) (hj' : j' ≤ cluster.length) (i i' : Fin n) :
    Matching ((cluster.state j).rafts i).log ((cluster.state j').rafts i').log := by
  intro e he e' he' hindex hterm x hx
  have hplain := ((plain_run cluster hno j hj).servers i).log
  have hplain' := ((plain_run cluster hno j' hj').servers i').log
  have htake : ((cluster.state j).rafts i).log.take (e.logIndex + 1) =
      ((cluster.state j').rafts i').log.take (e.logIndex + 1) := by
    rcases Nat.eq_zero_or_pos e.logIndex with hzero | hpos
    · rw [hzero, List.take_one, List.take_one, hplain.head, hplain'.head]
    · exact (sourced_run hno hunique j hj i).take_eq hno hunique hj hj'
        (sourced_run hno hunique j' hj' i') hpos (hplain.getElem?_of_mem he)
        (hindex ▸ hplain'.getElem?_of_mem he') hterm
  exact ⟨hplain.mem_of_take htake hx, hplain'.mem_of_take htake.symm hx⟩

variable [DecidableEq Endname] {run : HarnessRun n C D Endname} {cluster : ClusterRun n C D}
  {shown : Nat → Nat}

theorem cast_of_voteKnown (hshows : Lib.Shows Harness.Shown run cluster run.length shown)
    {k : Nat} (hk : k ≤ run.length) {voter candidate : Fin n} {term : Nat}
    (h : (run.state k).VoteKnown voter term candidate) :
    CastBefore cluster (shown k) voter term candidate := by
  obtain ⟨req, hreq, hknown⟩ := h
  obtain ⟨args, reply, hargs, hreturned, hgranted, rfl, rfl, rfl⟩ :=
    Request.knownVote_eq_some hknown
  obtain ⟨p, hp⟩ := List.mem_iff_getElem?.mp hreq
  have hanswer := ReqMsg.answer_of_returned hreturned
  rcases Lib.Tracks.get (hshows.related k hk).requestVotes hp with
    ⟨hother | hstranded, _⟩ | ⟨j, rpc, hrpc, hserves, _⟩
  · exact absurd hargs (hother args)
  · rcases hstranded.process with h | h | h <;> rw [ReqMsg.answer, h] at hanswer <;>
      cases hanswer
  · have hsame : args = rpc.args := CallArgs.requestVote.inj (hargs.symm.trans hserves.args)
    obtain ⟨reply', hreply, heq⟩ :=
      Option.map_eq_some_iff.mp (hserves.answered _ hanswer)
    obtain rfl := CallReply.requestVote.inj heq
    rw [hsame, ← hserves.server]
    exact granted_run cluster (shown k) (hshows.le_length hk) rpc (List.mem_of_getElem? hrpc)
      reply' hreply hgranted

/-- However often a server is crashed and started again, and whatever its instances
that were crashed still answer, no two candidates know of its vote in one term. -/
theorem known_votes_unique (run : HarnessRun n C D Endname) {k l : Nat} (hk : k ≤ run.length)
    (hl : l ≤ run.length) {voter candidate candidate' : Fin n} {term : Nat}
    (h : (run.state k).VoteKnown voter term candidate)
    (h' : (run.state l).VoteKnown voter term candidate') : candidate = candidate' := by
  obtain ⟨cluster, shown, _, hshows⟩ := simulates_run run
  have hshown := hshows.imp fun _ _ hsim => hsim.shown
  exact (cast_of_voteKnown hshown hk h).unique (cast_of_voteKnown hshown hl h')

theorem known_votes_unique_first :
    (savedCommandRun.state 38).VoteKnown 1 1 0 ∧ (savedCommandRun.state 52).VoteKnown 1 1 0 ∧
      (0 : Fin 2) = 0 := by
  have hknown : (savedCommandRun.state 38).VoteKnown 1 1 0 := by decide +kernel
  have hlater : (savedCommandRun.state 52).VoteKnown 1 1 0 := by decide +kernel
  exact ⟨hknown, hlater, known_votes_unique savedCommandRun (by decide) (by decide) hknown hlater⟩

/-- No two servers that are up lead in one term, at whatever times. -/
def Harness.UniqueLeaders (run : HarnessRun n C D Endname) : Prop :=
  ∀ k l, k ≤ run.length → l ≤ run.length → ∀ i j term,
    (run.state k).leadsIn i = some term → (run.state l).leadsIn j = some term → i = j

theorem Harness.UniqueLeaders.cluster_of_shows (hunique : Harness.UniqueLeaders run)
    (hshows : Lib.Shows Harness.Shown run cluster run.length shown) :
    Raft.UniqueLeaders cluster := by
  intro k l hk hl i j term hi hj
  obtain ⟨k', hk', rfl⟩ := hshows.onto k hk
  obtain ⟨l', hl', rfl⟩ := hshows.onto l hl
  exact hunique k' l' hk' hl' i j term ((hshows.related k' hk').leadsIn_of_leads hi)
    ((hshows.related l' hl').leadsIn_of_leads hj)

/-- Log matching on the network, for the logs of the servers that are up and those that
the others restart from, at whatever times. -/
theorem networked_logs_match (run : HarnessRun n C D Endname)
    (hunique : Harness.UniqueLeaders run) {k l : Nat} (hk : k ≤ run.length)
    (hl : l ≤ run.length) {i j : Fin n} {log log' : List (LogEntry C)}
    (h : (run.state k).logOf i = some log) (h' : (run.state l).logOf j = some log') :
    Matching log log' := by
  obtain ⟨cluster, shown, hno, hshows⟩ := simulates_run run
  have hshown := hshows.imp fun _ _ hsim => hsim.shown
  rw [(hshown.related k hk).logOf_eq, Option.some.injEq] at h
  rw [(hshown.related l hl).logOf_eq, Option.some.injEq] at h'
  subst h h'
  exact logs_match hno (hunique.cluster_of_shows hshown) (hshown.le_length hk)
    (hshown.le_length hl) i j

/-- Nobody but server 0 leads. -/
def ledByFirst (s : Harness 2 Nat Unit Nat) : Bool :=
  (s.leadsIn (Fin.last 1)).isNone

theorem savedCommand_ledByFirst : Lib.checkStates Harness.step ledByFirst
    (Harness.init 2 Nat Unit Nat) savedCommand = true := by decide +kernel

theorem networked_logs_match_saved :
    (savedCommandRun.state 58).rafts 1 = none ∧
      (savedCommandRun.state 58).logOf 1 = some [⟨0, 0, none⟩, ⟨1, 1, some 10⟩] ∧
      Matching (C := Nat) [⟨0, 0, none⟩, ⟨1, 1, some 10⟩] [⟨0, 0, none⟩, ⟨1, 1, some 10⟩] := by
  have hfirst : ∀ k i term, (savedCommandRun.state k).leadsIn i = some term → i = 0 := by
    intro k i term hleads
    have hcheck := Lib.Run.ofActions_check savedCommand_ledByFirst k
    rcases Fin.exists_fin_two.mp ⟨i, rfl⟩ with rfl | rfl
    · rfl
    · cases (Option.isNone_iff_eq_none.mp hcheck).symm.trans hleads
  have hunique : Harness.UniqueLeaders savedCommandRun := by
    intro k l _ _ i j term hi hj
    rw [hfirst k i term hi, hfirst l j term hj]
  have hleader : (savedCommandRun.state 58).logOf 0 = some [⟨0, 0, none⟩, ⟨1, 1, some 10⟩] := by
    decide +kernel
  have hsaved : (savedCommandRun.state 58).logOf 1 = some [⟨0, 0, none⟩, ⟨1, 1, some 10⟩] := by
    decide +kernel
  exact ⟨by decide +kernel, hsaved,
    networked_logs_match savedCommandRun hunique (by decide) (by decide) hleader hsaved⟩

end BlockchainTutorial.Raft
