import BlockchainTutorial.Lib.Quorum
import BlockchainTutorial.Raft.Calls
import BlockchainTutorial.Raft.Votes

namespace BlockchainTutorial.Raft

variable {n : Nat} {C D : Type}

/-! Elections. A candidate becomes leader in three steps that other messages can
come between: its last vote is counted, a token is queued on `chanLeader`, and
the state loop takes the token and then the lock. -/

/-- The vote that a step counts: caller, term, server. -/
def countedVote (s : Cluster n C D) : Action n C D → Option (Fin n × Nat × Fin n)
  | .sendRequestVote k =>
      match s.requestVotes[k]? with
      | none => none
      | some call =>
          match s.pendingReply call with
          | none => none
          | some reply =>
              if Counts (s.rafts call.caller) call.args reply then
                some (call.caller, (s.rafts call.caller).currentTerm, call.server)
              else none
  | _ => none

def LoopPoint.campaigning : LoopPoint → Bool
  | .waiting => true
  | .elected _ => true
  | _ => false

/-- The state loop is past reading `rf.state`, and did not read a leader. -/
def Poised (rf : Raft n C D) : Prop :=
  rf.loop ≠ .top → rf.loop ≠ .leader → rf.state ≠ .leader

inductive ElectionStep (s : Cluster n C D) (a : Action n C D) (i : Fin n)
    (rf : Raft n C D) : Prop
  | kept (hcounted : countedVote s a = none)
      (hterm : rf.currentTerm = (s.rafts i).currentTerm)
      (hvote : rf.votedFor = (s.rafts i).votedFor)
      (hvotes : rf.voteCount = (s.rafts i).voteCount)
      (hchan : rf.chanLeader = (s.rafts i).chanLeader)
      (hloop : rf.loop = (s.rafts i).loop ∨ rf.loop.campaigning = false ∧ Poised rf)
      (hstate : rf.state = .leader → (s.rafts i).state = .leader)
  | raised (hcounted : countedVote s a = none)
      (hterm : (s.rafts i).currentTerm < rf.currentTerm)
      (hvote : rf.votedFor = none)
      (hchan : rf.chanLeader = (s.rafts i).chanLeader)
      (hloop : rf.loop = (s.rafts i).loop)
      (hstate : rf.state ≠ .leader)
  | voted (call : Rpc n (RequestVoteArgs n) RequestVoteReply)
      (hcall : call ∈ s.requestVotes) (hserver : call.server = i)
      (hcounted : countedVote s a = none)
      (hvote : rf.votedFor = some call.args.candidateId)
      (hchan : rf.chanLeader = (s.rafts i).chanLeader)
      (hloop : rf.loop = (s.rafts i).loop)
      (hstate : rf.state ≠ .leader)
  | campaigned (hcounted : countedVote s a = none)
      (hloop : (s.rafts i).loop = .candidate)
      (hform : rf = (s.rafts i).campaign i)
  | counted (server : Fin n)
      (hcounted : countedVote s a = some (i, rf.currentTerm, server))
      (hterm : rf.currentTerm = (s.rafts i).currentTerm)
      (hvote : rf.votedFor = (s.rafts i).votedFor)
      (hvotes : rf.voteCount = (s.rafts i).voteCount + 1)
      (hchan : rf.chanLeader = (s.rafts i).chanLeader ∨
        rf.chanLeader = (s.rafts i).chanLeader ++ [rf.currentTerm] ∧
          n / 2 < rf.voteCount)
      (hloop : rf.loop = (s.rafts i).loop)
      (hstate : rf.state ≠ .leader)
  | token (term : Nat) (hcounted : countedVote s a = none)
      (hwaiting : (s.rafts i).loop = .waiting)
      (hchan : (s.rafts i).chanLeader = term :: rf.chanLeader)
      (hform : rf = { s.rafts i with chanLeader := rf.chanLeader, loop := .elected term })
  | led (term : Nat) (hact : a = .loop i .proceed)
      (hloop : (s.rafts i).loop = .elected term) (last : LogEntry C)
      (hlast : (s.rafts i).log.getLast? = some last)
      (hform : rf = { s.rafts i with
        state := .leader
        nextIndex := fun _ => last.logIndex + 1
        matchIndex := fun _ => 0
        loop := .top })

namespace ElectionStep

variable {s : Cluster n C D} {a : Action n C D} {i : Fin n}

theorem of_same {rf : Raft n C D} (hcounted : countedVote s a = none)
    (hterm : rf.currentTerm = (s.rafts i).currentTerm)
    (hvote : rf.votedFor = (s.rafts i).votedFor)
    (hvotes : rf.voteCount = (s.rafts i).voteCount)
    (hchan : rf.chanLeader = (s.rafts i).chanLeader)
    (hloop : rf.loop = (s.rafts i).loop)
    (hstate : rf.state = .leader → (s.rafts i).state = .leader) :
    ElectionStep s a i rf :=
  .kept hcounted hterm hvote hvotes hchan (.inl hloop) hstate

theorem of_observed {rf : Raft n C D} (term : Nat) (hcounted : countedVote s a = none)
    (hterm : rf.currentTerm = ((s.rafts i).observeTerm term).currentTerm)
    (hvote : rf.votedFor = ((s.rafts i).observeTerm term).votedFor)
    (hvotes : rf.voteCount = (s.rafts i).voteCount)
    (hchan : rf.chanLeader = (s.rafts i).chanLeader)
    (hloop : rf.loop = (s.rafts i).loop)
    (hstate : rf.state = ((s.rafts i).observeTerm term).state) :
    ElectionStep s a i rf := by
  by_cases hle : term ≤ (s.rafts i).currentTerm
  · rw [observeTerm_eq_self hle] at hterm hvote hstate
    exact of_same hcounted hterm hvote hvotes hchan hloop fun h => hstate ▸ h
  · have hlt : (s.rafts i).currentTerm < term := by omega
    rw [observeTerm_of_lt hlt] at hterm hvote hstate
    exact .raised hcounted (by rw [hterm]; exact hlt) hvote hchan hloop (by simp [hstate])

theorem of_loop {choice : LoopChoice} {rf : Raft n C D} {eff : Effects n C D}
    (hloop : LoopOutcome i (s.rafts i) choice rf eff) :
    ElectionStep s (.loop i choice) i rf := by
  cases hloop with
  | read point htop hleader hother hpoint =>
      refine .kept rfl rfl rfl rfl rfl (.inr ⟨?_, fun _ hne => hother hne⟩) id
      rcases hpoint with rfl | rfl | rfl <;> rfl
  | broadcast hloop =>
      obtain ⟨commit, chan, hform⟩ := boatcastAppendEntries_fst i (s.rafts i)
      rw [hform]
      exact .kept rfl rfl rfl rfl rfl (.inr ⟨rfl, by simp [Poised]⟩) id
  | campaign hloop => exact .campaigned rfl hloop rfl
  | lead term hloop =>
      rcases becomeLeader_cases (s.rafts i) with hlead | ⟨last, hlast, hlead⟩
      · rw [hlead]
        exact of_same rfl rfl rfl rfl rfl rfl id
      · rw [hlead]
        exact .led term rfl hloop last hlast rfl
  | followerBeat => exact .kept rfl rfl rfl rfl rfl (.inr ⟨rfl, by simp [Poised]⟩) id
  | candidateBeat =>
      exact .kept rfl rfl rfl rfl rfl (.inr ⟨rfl, by simp [Poised]⟩) (by simp)
  | voted => exact .kept rfl rfl rfl rfl rfl (.inr ⟨rfl, by simp [Poised]⟩) id
  | suspect =>
      exact .kept rfl rfl rfl rfl rfl (.inr ⟨rfl, by simp [Poised]⟩) (by simp)
  | retry => exact .kept rfl rfl rfl rfl rfl (.inr ⟨rfl, by simp [Poised]⟩) id
  | token term rest hwaiting hchan => exact .token term rfl hwaiting hchan rfl

theorem of_requestVote {k : Nat} {call : Rpc n (RequestVoteArgs n) RequestVoteReply}
    (hcall : s.requestVotes[k]? = some call) :
    ElectionStep s (.requestVote k) call.server
      ((s.rafts call.server).requestVote call.args).1 := by
  rcases requestVote_cases (s.rafts call.server) call.args with
    ⟨_, hout⟩ | ⟨_, reply, _, hout⟩ | ⟨_, last, _, _, _, hout⟩
  · rw [hout]
    exact of_same rfl rfl rfl rfl rfl rfl id
  · rw [hout]
    exact of_observed call.args.term rfl rfl rfl (by simp [persist]) (by simp [persist])
      (by simp) rfl
  · rw [hout]
    exact .voted call (List.mem_of_getElem? hcall) rfl rfl rfl (by simp [persist])
      (by simp) (by simp)

theorem countedVote_eq {k : Nat} {call : Rpc n (RequestVoteArgs n) RequestVoteReply}
    {reply : RequestVoteReply} (hcall : s.requestVotes[k]? = some call)
    (hpending : s.pendingReply call = some reply) :
    countedVote s (.sendRequestVote k) =
      if Counts (s.rafts call.caller) call.args reply then
        some (call.caller, (s.rafts call.caller).currentTerm, call.server)
      else none := by
  simp [countedVote, hcall, hpending]

theorem of_sendRequestVote {k : Nat}
    {call : Rpc n (RequestVoteArgs n) RequestVoteReply} {reply : RequestVoteReply}
    (hcall : s.requestVotes[k]? = some call)
    (hpending : s.pendingReply call = some reply) :
    ElectionStep s (.sendRequestVote k) call.caller
      ((s.rafts call.caller).sendRequestVote call.args reply) := by
  have houtcome := sendRequestVote_outcome (s.rafts call.caller) call.args reply
  have hcounted := countedVote_eq hcall hpending
  generalize (s.rafts call.caller).sendRequestVote call.args reply = rf at houtcome ⊢
  cases houtcome with
  | ignored hcounts =>
      rw [if_neg hcounts] at hcounted
      exact of_same hcounted rfl rfl rfl rfl rfl id
  | raised votes hterm =>
      have hcounts : ¬ Counts (s.rafts call.caller) call.args reply := by
        intro hcounts
        exact Nat.not_lt.mpr hcounts.2.2.2 hterm
      rw [if_neg hcounts] at hcounted
      rw [observeTerm_of_lt hterm]
      exact .raised hcounted hterm rfl rfl rfl (by simp)
  | counted hcounts hlow =>
      rw [if_pos hcounts] at hcounted
      exact .counted call.server hcounted rfl rfl rfl (.inl rfl) rfl (by simp [hcounts.1])
  | won hcounts hmajority =>
      rw [if_pos hcounts] at hcounted
      exact .counted call.server hcounted rfl rfl rfl (.inr ⟨rfl, hmajority⟩) rfl (by simp)

theorem of_appendEntries {k : Nat}
    {call : Rpc n (AppendEntriesArgs n C) AppendEntriesReply} :
    ElectionStep s (.appendEntries k) call.server
      ((s.rafts call.server).appendEntries call.args).1 := by
  have houtcome := appendEntries_outcome (s.rafts call.server) call.args
  generalize ((s.rafts call.server).appendEntries call.args).1 = rf at houtcome ⊢
  cases houtcome with
  | rejected =>
      exact of_observed call.args.term rfl rfl rfl (by simp [persist]) (by simp [persist])
        (by simp) rfl
  | below =>
      exact of_observed call.args.term rfl rfl rfl (by simp [persist]) (by simp [persist])
        (by simp) rfl
  | accepted =>
      exact of_observed call.args.term rfl rfl rfl (by simp [persist]) (by simp [persist])
        (by simp) rfl

theorem of_sendAppendEntries {k : Nat}
    {call : Rpc n (AppendEntriesArgs n C) AppendEntriesReply} {reply : AppendEntriesReply} :
    ElectionStep s (.sendAppendEntries k) call.caller
      ((s.rafts call.caller).sendAppendEntries call.server call.args reply) := by
  have houtcome :=
    sendAppendEntries_outcome (s.rafts call.caller) call.server call.args reply
  generalize (s.rafts call.caller).sendAppendEntries call.server call.args reply = rf
    at houtcome ⊢
  cases houtcome with
  | ignored => exact of_same rfl rfl rfl rfl rfl rfl id
  | raised hterm =>
      rw [observeTerm_of_lt hterm]
      exact .raised rfl hterm rfl rfl rfl (by simp)
  | matched => exact of_same rfl rfl rfl rfl rfl rfl id
  | rejected => exact of_same rfl rfl rfl rfl rfl rfl id

theorem of_local {rf : Raft n C D} {eff : Effects n C D}
    (hlocal : Local s a i rf eff) : ElectionStep s a i rf := by
  cases hlocal with
  | start i command =>
      rcases start_cases (s.rafts i) command with hout | ⟨last, _, _, hout⟩
      · rw [hout]
        exact of_same rfl rfl rfl rfl rfl rfl id
      · rw [hout]
        exact of_same rfl rfl rfl rfl rfl rfl id
  | startSnapshot i snapshot index =>
      rcases startSnapshot_fst (s.rafts i) snapshot index with hout | ⟨log, saved, hout⟩
      · rw [hout]
        exact of_same rfl rfl rfl rfl rfl rfl id
      · rw [hout]
        exact of_same rfl rfl rfl rfl rfl rfl id
  | loop i choice hstep => exact of_loop (loopStep_outcome hstep)
  | boatcastRequestVote i job hstep =>
      obtain ⟨jobs, rfl⟩ := boatcastRequestVote_fst hstep
      exact of_same rfl rfl rfl rfl rfl rfl id
  | applyCommitted i hstep =>
      obtain ⟨applied, chan, rfl⟩ := applyCommitted_fst hstep
      exact of_same rfl rfl rfl rfl rfl rfl id
  | applySnapshot i hstep =>
      obtain ⟨snapshots, rfl⟩ := applySnapshot_fst hstep
      exact of_same rfl rfl rfl rfl rfl rfl id
  | requestVote k hcall => exact of_requestVote hcall
  | sendRequestVote k hcall hreturned hepoch hreply =>
      exact of_sendRequestVote hcall (by simp [Cluster.pendingReply, hreturned, hepoch, hreply])
  | appendEntries k => exact of_appendEntries
  | sendAppendEntries k => exact of_sendAppendEntries
  | installSnapshot k =>
      rename_i call _ _
      rcases installSnapshot_fst (s.rafts call.server) call.args with
        hout | ⟨_, _, _, _, hout⟩
      · rw [hout]
        exact of_same rfl rfl rfl rfl rfl rfl id
      · rw [hout]
        exact of_same rfl rfl rfl rfl rfl rfl (by simp)
  | sendInstallSnapshot k =>
      rename_i call reply _ _ _ _
      rcases sendInstallSnapshot_cases (s.rafts call.caller) call.server call.args reply with
        ⟨hterm, hout⟩ | ⟨_, _, hout⟩
      · rw [hout, observeTerm_of_lt hterm]
        exact .raised rfl hterm rfl rfl rfl (by simp)
      · rw [hout]
        exact of_same rfl rfl rfl rfl rfl rfl id

/-- A server that leads after a step led before it, or has just been elected. -/
theorem leader_cases {rf : Raft n C D} (hstep : ElectionStep s a i rf)
    (hpoised : Poised (s.rafts i)) (hstate : rf.state = .leader) :
    rf.currentTerm = (s.rafts i).currentTerm ∧
      ((s.rafts i).state = .leader ∨ (s.rafts i).loop.campaigning = true) := by
  cases hstep with
  | kept _ hterm _ _ _ _ hold => exact ⟨hterm, .inl (hold hstate)⟩
  | raised _ _ _ _ _ hnot => exact absurd hstate hnot
  | voted _ _ _ _ _ _ _ hnot => exact absurd hstate hnot
  | campaigned _ hloop hform =>
      rw [hform] at hstate
      exact absurd hstate (hpoised (by simp [hloop]) (by simp [hloop]))
  | counted _ _ _ _ _ _ _ hnot => exact absurd hstate hnot
  | token _ _ hwaiting _ hform =>
      rw [hform]
      exact ⟨rfl, .inr (by rw [hwaiting]; rfl)⟩
  | led _ _ hloop _ _ hform =>
      rw [hform]
      exact ⟨rfl, .inr (by rw [hloop]; rfl)⟩

/-- A server that campaigns after a step did so before it, or starts a new term. -/
theorem campaigning_cases {rf : Raft n C D} (hstep : ElectionStep s a i rf)
    (hloop : rf.loop.campaigning = true) :
    (s.rafts i).loop.campaigning = true ∨
      rf.currentTerm = (s.rafts i).currentTerm + 1 := by
  cases hstep with
  | kept _ _ _ _ _ hkept =>
      rcases hkept with heq | ⟨hnot, _⟩
      · exact .inl (heq ▸ hloop)
      · rw [hnot] at hloop
        cases hloop
  | raised _ _ _ _ heq => exact .inl (heq ▸ hloop)
  | voted _ _ _ _ _ _ heq => exact .inl (heq ▸ hloop)
  | campaigned _ _ hform => exact .inr (by rw [hform]; rfl)
  | counted _ _ _ _ _ _ heq => exact .inl (heq ▸ hloop)
  | token _ _ hwaiting => exact .inl (by rw [hwaiting]; rfl)
  | led _ _ _ _ _ hform =>
      rw [hform] at hloop
      cases hloop

end ElectionStep

/-! Every vote that a server holds, and every vote that a candidate counts, was
cast earlier in the run. -/

structure Held (run : ClusterRun n C D) (k : Nat) (i : Fin n) (rf : Raft n C D) : Prop where
  votedFor : ∀ c, rf.votedFor = some c → CastBefore run k i rf.currentTerm c
  stored : ∀ c, storedVote rf.persister = some c →
    CastBefore run k i (storedTerm rf.persister) c

theorem Held.make {run : ClusterRun n C D} {k : Nat} {i : Fin n} {rf : Raft n C D}
    (h : Held run k i rf) : Held run k i (make rf.persister) :=
  ⟨by simpa using h.stored, by simpa using h.stored⟩

theorem Held.step {run : ClusterRun n C D} {k : Nat} (hk : k < run.length) {i : Fin n}
    {rf : Raft n C D} (h : Held run k i ((run.state k).rafts i))
    (hstep : BallotStep (run.state k) (run.act k) i rf) : Held run (k + 1) i rf := by
  have hold : ∀ {term c}, CastBefore run k i term c → CastBefore run (k + 1) i term c :=
    fun hcast => hcast.mono (by omega)
  have hvotedFor : ∀ c, rf.votedFor = some c → CastBefore run (k + 1) i rf.currentTerm c := by
    intro c hc
    cases hstep with
    | kept _ hterm hvote _ =>
        rw [hterm]
        exact hold (h.votedFor c (by rw [← hvote]; exact hc))
    | raised _ _ hvote _ =>
        rw [hvote] at hc
        cases hc
    | cast candidate hcast _ _ hvote _ =>
        rw [hvote] at hc
        obtain rfl := Option.some.inj hc
        exact Lib.Run.Before.now hk hcast
  refine ⟨hvotedFor, fun c hc => ?_⟩
  have hstored : Stored ((run.state k).rafts i) rf := by
    cases hstep with
    | kept _ _ _ hstored => exact hstored
    | raised _ _ _ hstored => exact hstored
    | cast _ _ _ _ _ hstored => exact .inr hstored
  rcases hstored.persister_eq with ⟨hterm, hvote⟩ | ⟨hterm, hvote⟩
  · rw [hterm]
    exact hold (h.stored c (by rw [← hvote]; exact hc))
  · rw [hterm]
    exact hvotedFor c (by rw [← hvote]; exact hc)

theorem held_run (run : ClusterRun n C D) : ∀ k, k ≤ run.length →
    ∀ i, Held run k i ((run.state k).rafts i) := by
  refine run.induct ?_ ?_
  · intro i
    rw [run.starts]
    exact ⟨by simp [Cluster.init, storedVote], by simp [Cluster.init, storedVote]⟩
  · intro k hk ih i
    have hmono : Held run (k + 1) i ((run.state k).rafts i) :=
      ⟨fun c hc => ((ih i).votedFor c hc).mono (by omega),
        fun c hc => ((ih i).stored c hc).mono (by omega)⟩
    rcases Cluster.step_server (run.steps k hk) i with
      heq | heq | ⟨rf, eff, hlocal, heq | heq⟩
    · rwa [heq]
    · rw [heq]
      exact hmono.make
    · rw [heq]
      exact (ih i).step hk (.of_local hlocal)
    · rw [heq]
      exact ((ih i).step hk (.of_local hlocal)).make

theorem castVote_of_granted {s : Cluster n C D} {k : Nat}
    {call : Rpc n (RequestVoteArgs n) RequestVoteReply} {reply : RequestVoteReply}
    (hcall : s.requestVotes[k]? = some call)
    (hreply : ((s.rafts call.server).requestVote call.args).2 = some reply)
    (hgranted : reply.voteGranted = true) :
    castVote s (.requestVote k) =
      some (call.server, call.args.term, call.args.candidateId) := by
  have hterm : reply.term = call.args.term := by
    rcases requestVote_cases (s.rafts call.server) call.args with
      ⟨_, hout⟩ | ⟨_, other, hother, hout⟩ | ⟨_, last, _, _, _, hout⟩
    · rw [hout] at hreply
      obtain rfl := Option.some.inj hreply
      cases hgranted
    · rw [hout] at hreply
      rw [hother reply hreply] at hgranted
      cases hgranted
    · rw [hout] at hreply
      obtain rfl := Option.some.inj hreply
      rfl
  simp [castVote, hcall, hreply, hgranted, hterm]

/-- A vote is for oneself at the start of a campaign, or for a request that is up to
date with one's own log. -/
theorem castVote_cases {s : Cluster n C D} {a : Action n C D} {v c : Fin n} {term : Nat}
    (hcast : castVote s a = some (v, term, c)) :
    (a = .loop v .proceed ∧ (s.rafts v).loop = .candidate ∧ v = c ∧
      term = (s.rafts v).currentTerm + 1) ∨
    ∃ k call, a = .requestVote k ∧ s.requestVotes[k]? = some call ∧ call.server = v ∧
      call.args.candidateId = c ∧ call.args.term = term ∧
      (s.rafts v).currentTerm ≤ term ∧
      ∃ last, (s.rafts v).log.getLast? = some last ∧ upToDate call.args last = true := by
  cases a with
  | loop i choice =>
      cases choice with
      | proceed =>
          simp only [castVote] at hcast
          split at hcast
          · next hloop =>
              obtain ⟨rfl, rfl, rfl⟩ : i = v ∧ (s.rafts i).currentTerm + 1 = term ∧ i = c := by
                simpa using hcast
              exact .inl ⟨rfl, hloop, rfl, rfl⟩
          · cases hcast
      | _ => cases hcast
  | requestVote k =>
      cases hcall : s.requestVotes[k]? with
      | none => simp [castVote, hcall] at hcast
      | some call =>
          rcases requestVote_cases (s.rafts call.server) call.args with
            ⟨_, hout⟩ | ⟨_, reply, hdenied, hout⟩ | ⟨hterm, last, hlast, hupToDate, _, hout⟩
          · simp [castVote, hcall, hout] at hcast
          · cases reply with
            | none => simp [castVote, hcall, hout] at hcast
            | some reply => simp [castVote, hcall, hout, hdenied reply rfl] at hcast
          · obtain ⟨rfl, rfl, rfl⟩ :
                call.server = v ∧ call.args.term = term ∧ call.args.candidateId = c := by
              simpa [castVote, hcall, hout] using hcast
            exact .inr ⟨k, call, rfl, hcall, rfl, rfl, rfl, hterm, last, hlast, hupToDate⟩
  | _ => cases hcast

theorem granted_run (run : ClusterRun n C D) : ∀ k, k ≤ run.length →
    ∀ call ∈ (run.state k).requestVotes, ∀ reply, call.reply = some reply →
      reply.voteGranted = true →
      CastBefore run k call.server call.args.term call.args.candidateId := by
  refine run.induct ?_ ?_
  · intro call hmem
    rw [run.starts] at hmem
    cases hmem
  · intro k hk ih call' hmem reply hreply hgranted
    rcases requestVotes_step (run.steps k hk) hmem with ⟨call, hcall, hchange⟩ | ⟨hnone, _⟩
    · cases hchange with
      | kept => exact (ih _ hcall reply hreply hgranted).mono (by omega)
      | delivered hdelivers =>
          obtain ⟨j, hact, hget⟩ := hdelivers
          refine Lib.Run.Before.now hk ?_
          have hcast := castVote_of_granted hget hreply hgranted
          rwa [hact]
      | returned => exact (ih _ hcall reply hreply hgranted).mono (by omega)
    · rw [hnone] at hreply
      cases hreply

theorem countedVote_cast (run : ClusterRun n C D) {k : Nat} (hk : k < run.length)
    {i v : Fin n} {term : Nat}
    (h : countedVote (run.state k) (run.act k) = some (i, term, v)) :
    v ≠ i ∧ term = ((run.state k).rafts i).currentTerm ∧ CastBefore run k v term i := by
  cases hact : run.act k with
  | sendRequestVote j =>
      simp only [hact, countedVote] at h
      split at h
      · cases h
      · next call hcall =>
          split at h
          · cases h
          · next reply hpending =>
              split at h
              · next hcounts =>
                  have hmem := List.mem_of_getElem? hcall
                  obtain ⟨hne, j', _, last, _, hargs⟩ :=
                    (requestVotes_run run k hk.le).2 call hmem
                  have hcast := granted_run run k hk.le call hmem reply
                    (Cluster.pendingReply_eq_some hpending).2.2 hcounts.2.2.1
                  obtain ⟨rfl, rfl, rfl⟩ : call.caller = i ∧
                      ((run.state k).rafts call.caller).currentTerm = term ∧
                      call.server = v := by simpa using h
                  have hcandidate : call.args.candidateId = call.caller := by rw [hargs]
                  rw [hcandidate, hcounts.2.1] at hcast
                  exact ⟨hne, rfl, hcast⟩
              · cases h
  | _ => simp [hact, countedVote] at h

/-! Fair elections. -/

/-- Each vote is counted for the caller's own candidacy, once. -/
def CountsOnce (run : ClusterRun n C D) : Prop :=
  ∀ k, k < run.length → ∀ vote ∈ countedVote (run.state k) (run.act k),
    ((run.state k).rafts vote.1).votedFor = some vote.1 ∧
      ∀ j, j < k → countedVote (run.state j) (run.act j) ≠ some vote

instance (run : ClusterRun n C D) : Decidable (CountsOnce run) :=
  inferInstanceAs (Decidable (∀ k, k < run.length →
    ∀ vote ∈ countedVote (run.state k) (run.act k), _ ∧ ∀ j, j < k → _ ≠ _))

/-- A token makes its server leader of the term in which it was queued. -/
def tokenFresh (s : Cluster n C D) : Action n C D → Bool
  | .loop i .proceed =>
      match (s.rafts i).loop with
      | .elected term => term == (s.rafts i).currentTerm
      | _ => true
  | _ => true

open Classical in
noncomputable def countedVoters (run : ClusterRun n C D) (k : Nat) (i : Fin n)
    (term : Nat) : Finset (Fin n) :=
  Finset.univ.filter fun v => run.Before k fun s a => countedVote s a = some (i, term, v)

theorem mem_countedVoters {run : ClusterRun n C D} {k : Nat} {i v : Fin n} {term : Nat} :
    v ∈ countedVoters run k i term ↔
      run.Before k fun s a => countedVote s a = some (i, term, v) := by
  simp [countedVoters]

theorem countedVoters_mono (run : ClusterRun n C D) (k : Nat) (i : Fin n) (term : Nat) :
    countedVoters run k i term ⊆ countedVoters run (k + 1) i term := by
  intro v hv
  rw [mem_countedVoters] at hv ⊢
  exact hv.mono (by omega)

theorem countedVoters_card {run : ClusterRun n C D} (hcount : CountsOnce run) {k : Nat}
    (hk : k < run.length) {i v : Fin n} {term : Nat}
    (h : countedVote (run.state k) (run.act k) = some (i, term, v)) :
    (countedVoters run k i term).card + 1 ≤ (countedVoters run (k + 1) i term).card := by
  have hnew : v ∉ countedVoters run k i term := by
    rw [mem_countedVoters]
    rintro ⟨j, hj, _, hcounted⟩
    exact (hcount k hk _ h).2 j hj hcounted
  rw [← Finset.card_insert_of_notMem hnew]
  apply Finset.card_le_card
  apply Finset.insert_subset _ (countedVoters_mono run k i term)
  rw [mem_countedVoters]
  exact Lib.Run.Before.now hk h

/-- A candidate's own vote and the votes it has counted make up `voteCount`. -/
def Tallied (run : ClusterRun n C D) (k : Nat) (i : Fin n) (rf : Raft n C D) : Prop :=
  rf.votedFor = some i → rf.voteCount ≤ 1 + (countedVoters run k i rf.currentTerm).card

theorem Tallied.step {run : ClusterRun n C D} (hcount : CountsOnce run) {k : Nat}
    (hk : k < run.length) {i : Fin n} {rf : Raft n C D}
    (h : Tallied run k i ((run.state k).rafts i))
    (hstep : ElectionStep (run.state k) (run.act k) i rf) : Tallied run (k + 1) i rf := by
  have hmono : ∀ term, (countedVoters run k i term).card ≤
      (countedVoters run (k + 1) i term).card :=
    fun term => Finset.card_le_card (countedVoters_mono run k i term)
  intro hvotedFor
  cases hstep with
  | kept _ hterm hvote hvotes =>
      have := h (by rw [← hvote]; exact hvotedFor)
      have := hmono ((run.state k).rafts i).currentTerm
      rw [hterm, hvotes]
      omega
  | raised _ _ hvote =>
      rw [hvote] at hvotedFor
      cases hvotedFor
  | voted call hcall hserver _ hvote =>
      -- a server never asks itself
      obtain ⟨hne, j, _, last, _, hargs⟩ := (requestVotes_run run k hk.le).2 call hcall
      rw [hvote, hargs] at hvotedFor
      exact absurd (hserver.trans (Option.some.inj hvotedFor).symm) hne
  | campaigned _ _ hform =>
      rw [hform]
      exact Nat.le_add_right 1 _
  | counted server hcounted hterm hvote hvotes =>
      have hold := h (by rw [← hvote]; exact hvotedFor)
      have hnew := countedVoters_card hcount hk hcounted
      rw [hterm] at hnew ⊢
      omega
  | token term _ _ _ hform =>
      rw [hform] at hvotedFor ⊢
      have := h hvotedFor
      have := hmono ((run.state k).rafts i).currentTerm
      dsimp only
      omega
  | led term _ _ last _ hform =>
      rw [hform] at hvotedFor ⊢
      have := h hvotedFor
      have := hmono ((run.state k).rafts i).currentTerm
      dsimp only
      omega

theorem tallied_run (run : ClusterRun n C D) (hcount : CountsOnce run) :
    ∀ k, k ≤ run.length → ∀ i, Tallied run k i ((run.state k).rafts i) := by
  refine run.induct ?_ ?_
  · intro i hvotedFor
    rw [run.starts] at hvotedFor
    simp [Cluster.init, storedVote] at hvotedFor
  · intro k hk ih i
    rcases Cluster.step_server (run.steps k hk) i with
      heq | heq | ⟨rf, eff, hlocal, heq | heq⟩
    · rw [heq]
      intro hvotedFor
      have := ih i hvotedFor
      have := Finset.card_le_card (countedVoters_mono run k i
        ((run.state k).rafts i).currentTerm)
      omega
    · rw [heq]
      exact fun _ => by simp
    · rw [heq]
      exact (ih i).step hcount hk (.of_local hlocal)
    · rw [heq]
      exact fun _ => by simp

theorem poised_run (run : ClusterRun n C D) : ∀ k, k ≤ run.length →
    ∀ i, Poised ((run.state k).rafts i) := by
  refine run.induct ?_ ?_
  · intro i
    rw [run.starts]
    exact fun _ _ => by simp [Cluster.init]
  · intro k hk ih i
    rcases Cluster.step_server (run.steps k hk) i with
      heq | heq | ⟨rf, eff, hlocal, heq | heq⟩
    · rw [heq]
      exact ih i
    · rw [heq]
      exact fun _ _ => by simp
    · rw [heq]
      cases ElectionStep.of_local hlocal with
      | kept _ _ _ _ _ hloop hstate =>
          rcases hloop with hloop | ⟨_, hpoised⟩
          · intro htop hleader hstate'
            rw [hloop] at htop hleader
            exact ih i htop hleader (hstate hstate')
          · exact hpoised
      | raised _ _ _ _ _ hstate => exact fun _ _ => hstate
      | voted _ _ _ _ _ _ _ hstate => exact fun _ _ => hstate
      | campaigned _ hloop hform =>
          rw [hform]
          exact fun _ _ => ih i (by simp [hloop]) (by simp [hloop])
      | counted _ _ _ _ _ _ _ hstate => exact fun _ _ => hstate
      | token _ _ hwaiting _ hform =>
          rw [hform]
          exact fun _ _ => ih i (by simp [hwaiting]) (by simp [hwaiting])
      | led _ _ _ _ _ hform =>
          rw [hform]
          exact fun htop => absurd rfl htop
    · rw [heq]
      exact fun _ _ => by simp

/-- A majority, not `i` alone, has voted for `i` in `term`. -/
def Elected (run : ClusterRun n C D) (k : Nat) (i : Fin n) (term : Nat) : Prop :=
  ∃ voters : Finset (Fin n), Lib.Majority voters ∧ (∃ v, v ≠ i ∧ v ∈ voters) ∧
    ∀ v ∈ voters, CastBefore run k v term i

theorem Elected.mono {run : ClusterRun n C D} {k l : Nat} {i : Fin n} {term : Nat}
    (h : Elected run k i term) (hle : k ≤ l) : Elected run l i term := by
  obtain ⟨voters, hmajority, hother, hcast⟩ := h
  exact ⟨voters, hmajority, hother, fun v hv => (hcast v hv).mono hle⟩

theorem Elected.unique {run : ClusterRun n C D} {k l : Nat} {i j : Fin n} {term : Nat}
    (h : Elected run k i term) (h' : Elected run l j term) : i = j := by
  obtain ⟨voters, hmajority, _, hcast⟩ := h
  obtain ⟨voters', hmajority', _, hcast'⟩ := h'
  obtain ⟨v, hv, hv'⟩ := hmajority.exists_common hmajority'
  exact (hcast v hv).unique (hcast' v hv')

/-- Whoever is on the way to lead, or leads, has the votes. -/
structure Mandate (run : ClusterRun n C D) (k : Nat) (i : Fin n) (rf : Raft n C D) :
    Prop where
  queued : ∀ term ∈ rf.chanLeader, Elected run k i term
  elected : ∀ term, rf.loop = .elected term → Elected run k i term
  leader : rf.state = .leader → Elected run k i rf.currentTerm

theorem Mandate.mono {run : ClusterRun n C D} {k l : Nat} {i : Fin n} {rf : Raft n C D}
    (h : Mandate run k i rf) (hle : k ≤ l) : Mandate run l i rf :=
  ⟨fun term hterm => (h.queued term hterm).mono hle,
    fun term hterm => (h.elected term hterm).mono hle,
    fun hstate => (h.leader hstate).mono hle⟩

theorem mandate_make (run : ClusterRun n C D) (k : Nat) (i : Fin n)
    (p : Persister n C D) : Mandate run k i (make p) :=
  ⟨by simp, by simp, by simp⟩

/-- The vote that makes `voteCount` a majority comes after enough others. -/
theorem elected_of_counted {run : ClusterRun n C D} (hcount : CountsOnce run) {k : Nat}
    (hk : k < run.length) {i v : Fin n} {term : Nat}
    (h : countedVote (run.state k) (run.act k) = some (i, term, v))
    (hmajority : n / 2 < ((run.state k).rafts i).voteCount + 1) :
    Elected run (k + 1) i term := by
  have hvotedFor := (hcount k hk _ h).1
  have hterm := (countedVote_cast run hk h).2.1
  have htally := tallied_run run hcount k hk.le i hvotedFor
  have hcard := countedVoters_card hcount hk h
  rw [← hterm] at htally
  have hself : i ∉ countedVoters run (k + 1) i term := by
    rw [mem_countedVoters]
    rintro ⟨j, _, hj, hcounted⟩
    exact (countedVote_cast run hj hcounted).1 rfl
  have hvoter : v ∈ countedVoters run (k + 1) i term := by
    rw [mem_countedVoters]
    exact Lib.Run.Before.now hk h
  refine ⟨insert i (countedVoters run (k + 1) i term), ?_,
    ⟨v, (countedVote_cast run hk h).1, Finset.mem_insert_of_mem hvoter⟩, ?_⟩
  · rw [Lib.Majority, Finset.card_insert_of_notMem hself, Fintype.card_fin]
    omega
  · intro w hw
    rcases Finset.mem_insert.mp hw with rfl | hw
    · have hheld := (held_run run k hk.le w).votedFor w hvotedFor
      rw [← hterm] at hheld
      exact hheld.mono (by omega)
    · obtain ⟨j, hjk, hj, hcounted⟩ := mem_countedVoters.mp hw
      exact (countedVote_cast run hj hcounted).2.2.mono (by omega)

theorem Mandate.step {run : ClusterRun n C D} (hcount : CountsOnce run)
    (htoken : run.AllSteps fun s a => tokenFresh s a) {k : Nat} (hk : k < run.length) {i : Fin n}
    {rf : Raft n C D} (h : Mandate run k i ((run.state k).rafts i))
    (hstep : ElectionStep (run.state k) (run.act k) i rf) : Mandate run (k + 1) i rf := by
  have h := h.mono (Nat.le_add_right k 1)
  cases hstep with
  | kept _ hterm _ _ hchan hloop hstate =>
      refine ⟨by rw [hchan]; exact h.queued, ?_,
        by rw [hterm]; exact fun hs => h.leader (hstate hs)⟩
      rcases hloop with hloop | ⟨hloop, _⟩
      · rw [hloop]
        exact h.elected
      · intro term hterm
        rw [hterm] at hloop
        cases hloop
  | raised _ _ _ hchan hloop hstate =>
      exact ⟨by rw [hchan]; exact h.queued, by rw [hloop]; exact h.elected,
        fun hs => absurd hs hstate⟩
  | voted _ _ _ _ _ hchan hloop hstate =>
      exact ⟨by rw [hchan]; exact h.queued, by rw [hloop]; exact h.elected,
        fun hs => absurd hs hstate⟩
  | campaigned _ hloop hform =>
      have hidle := poised_run run k hk.le i (by simp [hloop]) (by simp [hloop])
      rw [hform]
      exact ⟨h.queued, fun term hterm => (by cases hterm), fun hs => absurd hs hidle⟩
  | counted server hcounted hterm _ hvotes hchan hloop hstate =>
      refine ⟨?_, by rw [hloop]; exact h.elected, fun hs => absurd hs hstate⟩
      rcases hchan with hchan | ⟨hchan, hmajority⟩
      · rw [hchan]
        exact h.queued
      · rw [hchan]
        intro term hmem
        rcases List.mem_append.mp hmem with hmem | hmem
        · exact h.queued term hmem
        · obtain rfl := List.mem_singleton.mp hmem
          exact elected_of_counted hcount hk hcounted (by omega)
  | token term _ hwaiting hchan hform =>
      have hidle := poised_run run k hk.le i (by simp [hwaiting]) (by simp [hwaiting])
      have hqueued : ∀ t ∈ term :: rf.chanLeader, Elected run (k + 1) i t := by
        rw [← hchan]
        exact h.queued
      refine ⟨fun t ht => hqueued t (List.mem_cons_of_mem term ht), ?_, ?_⟩
      · rw [hform]
        rintro t ⟨⟩
        exact hqueued term List.mem_cons_self
      · rw [hform]
        exact fun hs => absurd hs hidle
  | led term hact hloop last _ hform =>
      rw [hform]
      refine ⟨h.queued, fun t ht => (by cases ht), fun _ => ?_⟩
      have hfresh := htoken k hk
      simp only [hact, tokenFresh, hloop, beq_iff_eq] at hfresh
      dsimp only
      rw [← hfresh]
      exact h.elected term hloop

theorem mandate_run (run : ClusterRun n C D) (hcount : CountsOnce run)
    (htoken : run.AllSteps fun s a => tokenFresh s a) : ∀ k, k ≤ run.length →
    ∀ i, Mandate run k i ((run.state k).rafts i) := by
  refine run.induct ?_ ?_
  · intro i
    rw [run.starts]
    exact mandate_make run 0 i ⟨none, none⟩
  · intro k hk ih i
    rcases Cluster.step_server (run.steps k hk) i with
      heq | heq | ⟨rf, eff, hlocal, heq | heq⟩
    · rw [heq]
      exact (ih i).mono (by omega)
    · rw [heq]
      exact mandate_make run (k + 1) i _
    · rw [heq]
      exact (ih i).step hcount htoken hk (.of_local hlocal)
    · rw [heq]
      exact mandate_make run (k + 1) i _

/-! Election safety. -/

def Leads (s : Cluster n C D) (i : Fin n) (term : Nat) : Prop :=
  (s.rafts i).state = .leader ∧ (s.rafts i).currentTerm = term

instance (s : Cluster n C D) (i : Fin n) (term : Nat) : Decidable (Leads s i term) :=
  inferInstanceAs (Decidable (_ ∧ _))

/-- No two servers lead in one term, at whatever times. -/
def UniqueLeaders (run : ClusterRun n C D) : Prop :=
  ∀ k l, k ≤ run.length → l ≤ run.length → ∀ i j term,
    Leads (run.state k) i term → Leads (run.state l) j term → i = j

theorem election_safety (run : ClusterRun n C D) (hcount : CountsOnce run)
    (htoken : run.AllSteps fun s a => tokenFresh s a) : UniqueLeaders run := by
  intro k l hk hl i j term hi hj
  have helected := (mandate_run run hcount htoken k hk i).leader hi.1
  have helected' := (mandate_run run hcount htoken l hl j).leader hj.1
  rw [hi.2] at helected
  rw [hj.2] at helected'
  exact helected.unique helected'

/-- From start to the requests: the first term of a server, and its goroutine
number `job`. -/
def standForElection (i : Fin 3) (job : Nat) : List (Action 3 Nat Unit) :=
  [.loop i .proceed, .loop i .timeout, .loop i .proceed, .loop i .proceed,
    .boatcastRequestVote i job, .boatcastRequestVote i job, .boatcastRequestVote i job,
    .boatcastRequestVote i job]

def firstElection : List (Action 3 Nat Unit) :=
  standForElection 0 0 ++
    [.requestVote 0, .sendRequestVote 0, .loop 0 .chanLeader, .loop 0 .proceed]

def firstElectionRun : ClusterRun 3 Nat Unit :=
  Lib.Run.ofActions firstElection (by decide +kernel)

theorem election_safety_first :
    Leads (firstElectionRun.state 12) 0 1 ∧ UniqueLeaders firstElectionRun := by
  have hcount : CountsOnce firstElectionRun := by decide +kernel
  have htoken : firstElectionRun.AllSteps fun s a => tokenFresh s a := by decide +kernel
  exact ⟨by decide +kernel, election_safety firstElectionRun hcount htoken⟩

/-- Server 0 wins term 1 but does not take its token. Server 2 wins term 2 with the
vote of server 0, which then takes the token. -/
def lateToken : List (Action 3 Nat Unit) :=
  standForElection 0 0 ++ [.requestVote 0, .sendRequestVote 0,
    .loop 2 .proceed, .loop 2 .timeout, .loop 2 .proceed, .loop 2 .proceed, .loop 2 .timeout,
    .loop 2 .proceed, .loop 2 .proceed, .boatcastRequestVote 2 0, .boatcastRequestVote 2 0,
    .boatcastRequestVote 2 0, .boatcastRequestVote 2 0, .requestVote 2, .sendRequestVote 2,
    .loop 2 .chanLeader, .loop 2 .proceed, .loop 0 .chanLeader, .loop 0 .proceed]

def lateTokenRun : ClusterRun 3 Nat Unit :=
  Lib.Run.ofActions lateToken (by decide +kernel)

theorem election_unsafe : ¬ ∀ run : ClusterRun 3 Nat Unit, UniqueLeaders run := by
  intro hunique
  have hzero : Leads (lateTokenRun.state 27) 0 2 := by decide +kernel
  have htwo : Leads (lateTokenRun.state 27) 2 2 := by decide +kernel
  have heq := hunique lateTokenRun 27 27 (by decide) (by decide) 0 2 2 hzero htwo
  exact absurd heq (by decide)

end BlockchainTutorial.Raft
