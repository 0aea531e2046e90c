import Mathlib.Algebra.Ring.Nat
import BlockchainTutorial.Raft.Handlers
import BlockchainTutorial.Raft.Steps

namespace BlockchainTutorial.Raft

variable {n : Nat} {C D : Type}

/-! Terms and votes over a whole run. -/

/-- The vote that the step from `s` by an action casts: voter, term, candidate.
A server votes by a granting reply, or for itself when it turns candidate. -/
def castVote (s : Cluster n C D) : Action n C D → Option (Fin n × Nat × Fin n)
  | .requestVote k =>
      match s.requestVotes[k]? with
      | none => none
      | some call =>
          match ((s.rafts call.server).requestVote call.args).2 with
          | none => none
          | some reply =>
              if reply.voteGranted then
                some (call.server, reply.term, call.args.candidateId)
              else none
  | .loop i .proceed =>
      if (s.rafts i).loop = .candidate then some (i, (s.rafts i).currentTerm + 1, i)
      else none
  | _ => none

/-- The persister is as before, or holds the server's present fields. -/
def Stored (old new : Raft n C D) : Prop :=
  new.persister.raftstate = old.persister.raftstate ∨
    new.persister.raftstate = some ⟨new.currentTerm, new.votedFor, new.log⟩

inductive BallotStep (s : Cluster n C D) (a : Action n C D) (i : Fin n)
    (rf : Raft n C D) : Prop
  | kept (hcast : castVote s a = none)
      (hterm : rf.currentTerm = (s.rafts i).currentTerm)
      (hvote : rf.votedFor = (s.rafts i).votedFor)
      (hstored : Stored (s.rafts i) rf)
  | raised (hcast : castVote s a = none)
      (hterm : (s.rafts i).currentTerm < rf.currentTerm)
      (hvote : rf.votedFor = none)
      (hstored : Stored (s.rafts i) rf)
  | cast (candidate : Fin n) (hcast : castVote s a = some (i, rf.currentTerm, candidate))
      (hterm : (s.rafts i).currentTerm ≤ rf.currentTerm)
      (hfree : (s.rafts i).currentTerm = rf.currentTerm →
        (s.rafts i).votedFor = none ∨ (s.rafts i).votedFor = some candidate)
      (hvote : rf.votedFor = some candidate)
      (hstored : rf.persister.raftstate = some ⟨rf.currentTerm, rf.votedFor, rf.log⟩)

namespace BallotStep

variable {s : Cluster n C D} {a : Action n C D} {i : Fin n}

theorem of_same {rf : Raft n C D} (hcast : castVote s a = none)
    (hterm : rf.currentTerm = (s.rafts i).currentTerm)
    (hvote : rf.votedFor = (s.rafts i).votedFor)
    (hpersister : rf.persister.raftstate = (s.rafts i).persister.raftstate) :
    BallotStep s a i rf :=
  .kept hcast hterm hvote (.inl hpersister)

theorem of_observed {rf : Raft n C D} (term : Nat) (hcast : castVote s a = none)
    (hterm : rf.currentTerm = ((s.rafts i).observeTerm term).currentTerm)
    (hvote : rf.votedFor = ((s.rafts i).observeTerm term).votedFor)
    (hstored : Stored (s.rafts i) rf) : BallotStep s a i rf := by
  by_cases hle : term ≤ (s.rafts i).currentTerm
  · rw [observeTerm_eq_self hle] at hterm hvote
    exact .kept hcast hterm hvote hstored
  · have hlt : (s.rafts i).currentTerm < term := by omega
    rw [observeTerm_of_lt hlt] at hterm hvote
    exact .raised hcast (by rw [hterm]; exact hlt) hvote hstored

theorem of_loop {choice : LoopChoice} {rf : Raft n C D} {eff : Effects n C D}
    (hloop : LoopOutcome i (s.rafts i) choice rf eff) :
    BallotStep s (.loop i choice) i rf := by
  cases hloop with
  | read point htop => exact of_same (by simp [castVote, htop]) rfl rfl rfl
  | broadcast hloop =>
      obtain ⟨commit, chan, hform⟩ := boatcastAppendEntries_fst i (s.rafts i)
      rw [hform]
      exact of_same (by simp [castVote, hloop]) rfl rfl rfl
  | campaign hloop =>
      refine .cast i (by simp [castVote, hloop, campaign]) ?_ ?_ rfl rfl
      · simp [campaign]
      · intro hterm
        simp [campaign] at hterm
  | lead term hloop =>
      have hcast : castVote s (.loop i .proceed) = none := by simp [castVote, hloop]
      rcases becomeLeader_cases (s.rafts i) with hlead | ⟨last, _, hlead⟩
      · rw [hlead]
        exact of_same hcast rfl rfl rfl
      · rw [hlead]
        exact of_same hcast rfl rfl rfl
  | followerBeat => exact of_same rfl rfl rfl rfl
  | candidateBeat => exact of_same rfl rfl rfl rfl
  | voted => exact of_same rfl rfl rfl rfl
  | suspect => exact of_same rfl rfl rfl rfl
  | retry => exact of_same rfl rfl rfl rfl
  | token => exact of_same rfl rfl rfl rfl

theorem of_requestVote {k : Nat} {call : Rpc n (RequestVoteArgs n) RequestVoteReply}
    (hcall : s.requestVotes[k]? = some call) :
    BallotStep s (.requestVote k) call.server
      ((s.rafts call.server).requestVote call.args).1 := by
  rcases requestVote_cases (s.rafts call.server) call.args with
    ⟨_, hout⟩ | ⟨hterm, reply, hreply, hout⟩ | ⟨hterm, last, _, _, hfree, hout⟩
  · rw [hout]
    exact .kept (by simp [castVote, hcall, hout]) rfl rfl (.inr rfl)
  · rw [hout]
    refine of_observed call.args.term ?_ rfl rfl (.inr rfl)
    cases reply with
    | none => simp [castVote, hcall, hout]
    | some reply => simp [castVote, hcall, hout, hreply reply rfl]
  · rw [hout]
    refine .cast call.args.candidateId ?_ ?_ ?_ rfl rfl
    · simp [castVote, hcall, hout, observeTerm_currentTerm hterm]
    · simpa [observeTerm_currentTerm hterm] using hterm
    · intro heq
      have hle : call.args.term ≤ (s.rafts call.server).currentTerm := by
        simp only [persist_currentTerm, observeTerm_currentTerm hterm] at heq
        exact heq.ge
      rwa [observeTerm_eq_self hle] at hfree

theorem of_appendEntries {k : Nat}
    {call : Rpc n (AppendEntriesArgs n C) AppendEntriesReply} :
    BallotStep s (.appendEntries k) call.server
      ((s.rafts call.server).appendEntries call.args).1 := by
  have houtcome := appendEntries_outcome (s.rafts call.server) call.args
  generalize ((s.rafts call.server).appendEntries call.args).1 = rf at houtcome ⊢
  cases houtcome with
  | rejected => exact of_observed call.args.term rfl rfl rfl (.inr rfl)
  | below => exact of_observed call.args.term rfl rfl rfl (.inr rfl)
  | accepted => exact of_observed call.args.term rfl rfl rfl (.inr rfl)

theorem of_sendRequestVote {k : Nat}
    {call : Rpc n (RequestVoteArgs n) RequestVoteReply} {reply : RequestVoteReply} :
    BallotStep s (.sendRequestVote k) call.caller
      ((s.rafts call.caller).sendRequestVote call.args reply) := by
  have houtcome := sendRequestVote_outcome (s.rafts call.caller) call.args reply
  generalize (s.rafts call.caller).sendRequestVote call.args reply = rf at houtcome ⊢
  cases houtcome with
  | ignored => exact of_same rfl rfl rfl rfl
  | raised => exact of_observed reply.term rfl rfl rfl (.inr rfl)
  | counted => exact of_same rfl rfl rfl rfl
  | won => exact of_same rfl rfl rfl rfl

theorem of_sendAppendEntries {k : Nat}
    {call : Rpc n (AppendEntriesArgs n C) AppendEntriesReply} {reply : AppendEntriesReply} :
    BallotStep s (.sendAppendEntries k) call.caller
      ((s.rafts call.caller).sendAppendEntries call.server call.args reply) := by
  have houtcome :=
    sendAppendEntries_outcome (s.rafts call.caller) call.server call.args reply
  generalize (s.rafts call.caller).sendAppendEntries call.server call.args reply = rf
    at houtcome ⊢
  cases houtcome with
  | ignored => exact of_same rfl rfl rfl rfl
  | raised => exact of_observed reply.term rfl rfl rfl (.inr rfl)
  | matched => exact of_same rfl rfl rfl rfl
  | rejected => exact of_same rfl rfl rfl rfl

theorem of_startSnapshot (snapshot : D) (index : Nat) :
    BallotStep s (.startSnapshot i snapshot index) i
      ((s.rafts i).startSnapshot snapshot index).1 := by
  unfold startSnapshot
  split
  · split
    · exact of_same rfl rfl rfl rfl
    · split
      · exact of_same rfl rfl rfl rfl
      · exact .kept rfl rfl rfl (.inr rfl)
  · exact of_same rfl rfl rfl rfl

theorem of_installSnapshot {k : Nat}
    {call : Rpc n (InstallSnapshotArgs n D) InstallSnapshotReply} :
    BallotStep s (.installSnapshot k) call.server
      ((s.rafts call.server).installSnapshot call.args).1 := by
  unfold installSnapshot
  split
  · exact of_same rfl rfl rfl rfl
  · exact .kept rfl rfl rfl (.inr rfl)

/-- `sendInstallSnapshot` adopts a newer term without persisting it. -/
theorem of_sendInstallSnapshot {k : Nat}
    {call : Rpc n (InstallSnapshotArgs n D) InstallSnapshotReply}
    {reply : InstallSnapshotReply} :
    BallotStep s (.sendInstallSnapshot k) call.caller
      ((s.rafts call.caller).sendInstallSnapshot call.server call.args reply) := by
  unfold sendInstallSnapshot
  split
  · exact of_observed reply.term rfl rfl rfl (.inl (by simp))
  · exact of_same rfl rfl rfl rfl

theorem of_local {rf : Raft n C D} {eff : Effects n C D}
    (hlocal : Local s a i rf eff) : BallotStep s a i rf := by
  cases hlocal with
  | start i command =>
      rcases start_cases (s.rafts i) command with hout | ⟨last, _, _, hout⟩
      · rw [hout]
        exact of_same rfl rfl rfl rfl
      · rw [hout]
        exact .kept rfl rfl rfl (.inr rfl)
  | startSnapshot i snapshot index => exact of_startSnapshot snapshot index
  | loop i choice hstep => exact of_loop (loopStep_outcome hstep)
  | boatcastRequestVote i job hstep =>
      obtain ⟨jobs, rfl⟩ := boatcastRequestVote_fst hstep
      exact of_same rfl rfl rfl rfl
  | applyCommitted i hstep =>
      obtain ⟨applied, chan, rfl⟩ := applyCommitted_fst hstep
      exact of_same rfl rfl rfl rfl
  | applySnapshot i hstep =>
      obtain ⟨snapshots, rfl⟩ := applySnapshot_fst hstep
      exact of_same rfl rfl rfl rfl
  | requestVote k hcall => exact of_requestVote hcall
  | sendRequestVote k => exact of_sendRequestVote
  | appendEntries k => exact of_appendEntries
  | sendAppendEntries k => exact of_sendAppendEntries
  | installSnapshot k => exact of_installSnapshot
  | sendInstallSnapshot k => exact of_sendInstallSnapshot

theorem term_le {rf : Raft n C D} (hstep : BallotStep s a i rf) :
    (s.rafts i).currentTerm ≤ rf.currentTerm := by
  cases hstep with
  | kept _ hterm => exact hterm.ge
  | raised _ hterm => exact hterm.le
  | cast _ _ hterm => exact hterm

end BallotStep

/-! What a persister says of the votes of its server. -/

def storedTerm (p : Persister n C D) : Nat :=
  (p.raftstate.map (·.currentTerm)).getD 0

def storedVote (p : Persister n C D) : Option (Fin n) :=
  p.raftstate.bind (·.votedFor)

@[simp] theorem make_currentTerm (p : Persister n C D) :
    (make p).currentTerm = storedTerm p := by
  obtain ⟨raftstate, snapshot⟩ := p
  cases raftstate <;> cases snapshot <;> rfl

@[simp] theorem make_votedFor (p : Persister n C D) :
    (make p).votedFor = storedVote p := by
  obtain ⟨raftstate, snapshot⟩ := p
  cases raftstate <;> cases snapshot <;> rfl

/-- The persister is not ahead of the server, and agrees with it on the vote of
the term they share. -/
structure Backed (rf : Raft n C D) : Prop where
  term_le : storedTerm rf.persister ≤ rf.currentTerm
  vote_eq : storedTerm rf.persister = rf.currentTerm →
    storedVote rf.persister = rf.votedFor

theorem backed_make (p : Persister n C D) : Backed (make p) :=
  ⟨by simp, by simp⟩

theorem Stored.persister_eq {old new : Raft n C D} (h : Stored old new) :
    (storedTerm new.persister = storedTerm old.persister ∧
        storedVote new.persister = storedVote old.persister) ∨
      storedTerm new.persister = new.currentTerm ∧
        storedVote new.persister = new.votedFor := by
  rcases h with h | h
  · exact .inl ⟨by simp [storedTerm, h], by simp [storedVote, h]⟩
  · exact .inr ⟨by simp [storedTerm, h], by simp [storedVote, h]⟩

theorem BallotStep.backed {s : Cluster n C D} {a : Action n C D} {i : Fin n}
    {rf : Raft n C D} (hstep : BallotStep s a i rf) (h : Backed (s.rafts i)) :
    Backed rf := by
  cases hstep with
  | kept _ hterm hvote hstored =>
      rcases hstored.persister_eq with ⟨hsterm, hsvote⟩ | ⟨hsterm, hsvote⟩
      · exact ⟨by rw [hsterm, hterm]; exact h.term_le,
          by rw [hsterm, hsvote, hterm, hvote]; exact h.vote_eq⟩
      · exact ⟨hsterm.le, fun _ => hsvote⟩
  | raised _ hterm _ hstored =>
      rcases hstored.persister_eq with ⟨hsterm, _⟩ | ⟨hsterm, hsvote⟩
      · have := h.term_le
        exact ⟨by omega, by omega⟩
      · exact ⟨hsterm.le, fun _ => hsvote⟩
  | cast _ _ _ _ _ hstored =>
      have hpersisted : Stored (s.rafts i) rf := .inr hstored
      rcases hpersisted.persister_eq with
        ⟨hsterm, hsvote⟩ | ⟨hsterm, hsvote⟩
      · exact ⟨by simp [storedTerm, hstored], by simp [storedVote, hstored]⟩
      · exact ⟨hsterm.le, fun _ => hsvote⟩

theorem backed_run (run : ClusterRun n C D) {k : Nat} (hk : k ≤ run.length) (i : Fin n) :
    Backed ((run.state k).rafts i) := by
  refine run.invariant (P := fun s => ∀ j, Backed (s.rafts j)) ?_ ?_ k hk i
  · exact fun j => backed_make ⟨none, none⟩
  · intro s a s' ih hstep
    refine Cluster.servers_step hstep ih (fun rf _ => backed_make rf.persister) ?_
    intro j rf eff hlocal
    exact (BallotStep.of_local hlocal).backed (ih j)

def Recorded (p : Persister n C D) (term : Nat) (candidate : Fin n) : Prop :=
  term ≤ storedTerm p ∧ (storedTerm p = term → storedVote p = some candidate)

theorem Recorded.votedFor {rf : Raft n C D} {term : Nat} {candidate : Fin n}
    (h : Recorded rf.persister term candidate) (hbacked : Backed rf) :
    term ≤ rf.currentTerm ∧ (rf.currentTerm = term → rf.votedFor = some candidate) := by
  have hle := hbacked.term_le
  refine ⟨Nat.le_trans h.1 hle, fun hterm => ?_⟩
  have hstored : storedTerm rf.persister = term := by have := h.1; omega
  rw [← hbacked.vote_eq (by omega), h.2 hstored]

theorem BallotStep.recorded {s : Cluster n C D} {a : Action n C D} {i : Fin n}
    {rf : Raft n C D} (hstep : BallotStep s a i rf) (hbacked : Backed (s.rafts i))
    {term : Nat} {candidate : Fin n}
    (h : Recorded (s.rafts i).persister term candidate) :
    Recorded rf.persister term candidate := by
  obtain ⟨hle, hvotedFor⟩ := h.votedFor hbacked
  cases hstep with
  | kept _ hterm hvote hstored =>
      rcases hstored.persister_eq with ⟨hsterm, hsvote⟩ | ⟨hsterm, hsvote⟩
      · rwa [Recorded, hsterm, hsvote]
      · rw [Recorded, hsterm, hsvote, hterm, hvote]
        exact ⟨hle, hvotedFor⟩
  | raised _ hterm _ hstored =>
      rcases hstored.persister_eq with ⟨hsterm, hsvote⟩ | ⟨hsterm, _⟩
      · rwa [Recorded, hsterm, hsvote]
      · rw [Recorded, hsterm]
        exact ⟨by omega, fun heq => by omega⟩
  | cast other _ hterm hfree hvote hstored =>
      have hsterm : storedTerm rf.persister = rf.currentTerm := by simp [storedTerm, hstored]
      have hsvote : storedVote rf.persister = some other := by
        simp [storedVote, hstored, hvote]
      rw [Recorded, hsterm, hsvote]
      refine ⟨by omega, fun heq => ?_⟩
      have hsame : (s.rafts i).currentTerm = term := by omega
      have hfor := hvotedFor hsame
      rcases hfree (by omega) with hnone | hother
      · rw [hfor] at hnone
        cases hnone
      · rw [← hother, hfor]

/-- A server casts no second vote that its persister does not know of already. -/
theorem BallotStep.cast_unique {s : Cluster n C D} {a : Action n C D} {i v : Fin n}
    {rf : Raft n C D} (hstep : BallotStep s a i rf) (hbacked : Backed (s.rafts i))
    {term : Nat} {candidate other : Fin n}
    (h : Recorded (s.rafts i).persister term candidate)
    (hcast : castVote s a = some (v, term, other)) : other = candidate := by
  obtain ⟨_, hvotedFor⟩ := h.votedFor hbacked
  cases hstep with
  | kept hnone => simp [hnone] at hcast
  | raised hnone => simp [hnone] at hcast
  | cast cand heq hterm hfree =>
      rw [heq] at hcast
      obtain ⟨_, rfl, rfl⟩ : i = v ∧ rf.currentTerm = term ∧ cand = other := by
        simpa using hcast
      have hle := (h.votedFor hbacked).1
      have hsame : (s.rafts i).currentTerm = rf.currentTerm := by omega
      have hfor := hvotedFor hsame
      rcases hfree hsame with hnone | hother
      · rw [hfor] at hnone
        cases hnone
      · rw [hfor] at hother
        exact (Option.some.inj hother).symm

theorem castVote_local {s s' : Cluster n C D} {a : Action n C D} {v c : Fin n}
    {term : Nat} (hstep : s.step a = some s')
    (hcast : castVote s a = some (v, term, c)) :
    ∃ rf eff, Local s a v rf eff ∧ s' = (s.touched a).moved v rf eff := by
  rcases Cluster.step_cases hstep with ⟨i, rfl, _⟩ | ⟨i, rf, eff, hlocal, hs'⟩
  · cases hcast
  · cases BallotStep.of_local hlocal with
    | kept hnone => simp [hnone] at hcast
    | raised hnone => simp [hnone] at hcast
    | cast cand heq =>
        rw [heq] at hcast
        obtain ⟨rfl, _⟩ : i = v ∧ _ := by simpa using hcast
        exact ⟨rf, eff, hlocal, hs'⟩

theorem recorded_of_cast {s s' : Cluster n C D} {a : Action n C D} {v c : Fin n}
    {term : Nat} (hstep : s.step a = some s')
    (hcast : castVote s a = some (v, term, c)) :
    Recorded (s'.rafts v).persister term c := by
  obtain ⟨rf, eff, hlocal, rfl⟩ := castVote_local hstep hcast
  have hpersister : (((s.touched a).moved v rf eff).rafts v).persister = rf.persister := by
    rw [Cluster.moved_rafts_self]
    split <;> simp
  rw [hpersister]
  cases BallotStep.of_local hlocal with
  | kept hnone => simp [hnone] at hcast
  | raised hnone => simp [hnone] at hcast
  | cast cand heq _ _ hvote hstored =>
      rw [heq] at hcast
      obtain ⟨_, rfl, rfl⟩ : v = v ∧ rf.currentTerm = term ∧ cand = c := by
        simpa using hcast
      exact ⟨by simp [storedTerm, hstored], fun _ => by simp [storedVote, hstored, hvote]⟩

theorem Recorded.step {s s' : Cluster n C D} {a : Action n C D} {v c : Fin n}
    {term : Nat} (hbacked : ∀ i, Backed (s.rafts i)) (hstep : s.step a = some s')
    (h : Recorded (s.rafts v).persister term c) :
    Recorded (s'.rafts v).persister term c := by
  rcases Cluster.step_server hstep v with heq | heq | ⟨rf, eff, hlocal, heq | heq⟩
  · rwa [heq]
  · rwa [heq, make_persister]
  · rw [heq]
    exact (BallotStep.of_local hlocal).recorded (hbacked v) h
  · rw [heq, make_persister]
    exact (BallotStep.of_local hlocal).recorded (hbacked v) h

theorem recorded_run (run : ClusterRun n C D) {first last : Nat} {v c : Fin n} {term : Nat}
    (hcast : castVote (run.state first) (run.act first) = some (v, term, c))
    (hlt : first < last) (hlast : last ≤ run.length) :
    Recorded ((run.state last).rafts v).persister term c := by
  have hfirst := recorded_of_cast (run.steps first (by omega)) hcast
  refine run.induct_from (P := fun k => Recorded ((run.state k).rafts v).persister term c)
    hfirst ?_ last hlt hlast
  intro k _ hk ih
  exact ih.step (backed_run run hk.le) (run.steps k hk)

/-- `voter` cast its vote of `term` for `candidate` before step `k`. -/
def CastBefore (run : ClusterRun n C D) (k : Nat) (voter : Fin n) (term : Nat)
    (candidate : Fin n) : Prop :=
  run.Before k fun s a => castVote s a = some (voter, term, candidate)

theorem CastBefore.unique {run : ClusterRun n C D} {k l : Nat} {voter c c' : Fin n}
    {term : Nat} (h : CastBefore run k voter term c) (h' : CastBefore run l voter term c') :
    c = c' := by
  obtain ⟨j, _, hj, hcast⟩ := h
  obtain ⟨j', _, hj', hcast'⟩ := h'
  have hrecorded : ∀ {j j' : Nat} {c c' : Fin n}, j < j' → j' < run.length →
      castVote (run.state j) (run.act j) = some (voter, term, c) →
      castVote (run.state j') (run.act j') = some (voter, term, c') → c' = c := by
    intro j j' c c' hlt hlength hc hc'
    obtain ⟨rf, eff, hlocal, _⟩ := castVote_local (run.steps j' hlength) hc'
    exact (BallotStep.of_local hlocal).cast_unique (backed_run run hlength.le voter)
      (recorded_run run hc hlt hlength.le) hc'
  rcases Nat.lt_trichotomy j j' with hlt | heq | hgt
  · exact (hrecorded hlt hj' hcast hcast').symm
  · subst heq
    rw [hcast] at hcast'
    simpa using hcast'
  · exact hrecorded hgt hj hcast' hcast

/-- No server votes for two candidates of one term. -/
theorem votes_once (run : ClusterRun n C D) {first second : Nat} {v c c' : Fin n}
    {term : Nat} (hfirst : first < run.length) (hsecond : second < run.length)
    (hcast : castVote (run.state first) (run.act first) = some (v, term, c))
    (hcast' : castVote (run.state second) (run.act second) = some (v, term, c')) :
    c = c' := by
  have hbefore : CastBefore run (first + 1) v term c := Lib.Run.Before.now hfirst hcast
  exact hbefore.unique (Lib.Run.Before.now hsecond hcast')

/-! The examples are runs of three servers. -/

scoped instance threeServers : NeZero 3 := ⟨by decide⟩

/-- Server 0 starts a second election before the goroutine of its first one has
read the term, so that both ask server 1 in term 2. -/
def askedTwice : List (Action 3 Nat Unit) :=
  [.loop 0 .proceed, .loop 0 .timeout, .loop 0 .proceed, .loop 0 .proceed,
    .loop 0 .timeout, .loop 0 .proceed, .loop 0 .proceed,
    .boatcastRequestVote 0 0, .boatcastRequestVote 0 0, .boatcastRequestVote 0 0,
    .boatcastRequestVote 0 1, .boatcastRequestVote 0 1, .boatcastRequestVote 0 1,
    .requestVote 0, .requestVote 1]

def askedTwiceRun : ClusterRun 3 Nat Unit :=
  Lib.Run.ofActions askedTwice (by decide +kernel)

theorem votes_once_asked_twice :
    castVote (askedTwiceRun.state 13) (askedTwiceRun.act 13) = some (1, 2, 0) ∧
      castVote (askedTwiceRun.state 14) (askedTwiceRun.act 14) = some (1, 2, 0) ∧
      (0 : Fin 3) = 0 := by
  have hfirst : castVote (askedTwiceRun.state 13) (askedTwiceRun.act 13) =
      some (1, 2, 0) := by decide +kernel
  have hsecond : castVote (askedTwiceRun.state 14) (askedTwiceRun.act 14) =
      some (1, 2, 0) := by decide +kernel
  exact ⟨hfirst, hsecond,
    votes_once askedTwiceRun (by decide) (by decide) hfirst hsecond⟩

end BlockchainTutorial.Raft
