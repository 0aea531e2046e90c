import BlockchainTutorial.Raft.Election

namespace BlockchainTutorial.Raft

variable {n : Nat} {C D : Type}

/-! Logs in runs without `StartSnapshot`. Nothing is ever cut off in front, so
that the entry of index `p` stands at position `p`, and what a server has
persisted is what it holds. -/

def noStartSnapshot : Action n C D → Bool
  | .startSnapshot _ _ _ => false
  | _ => true

theorem getElem?_mono {α : Type} {l l' : List α} (h : l <+: l') {p : Nat} {e : α}
    (he : l[p]? = some e) : l'[p]? = some e := by
  obtain ⟨rest, rfl⟩ := h
  obtain ⟨hlt, _⟩ := List.getElem?_eq_some_iff.mp he
  rwa [List.getElem?_append_left hlt]

theorem getElem?_unique {α : Type} {l l' : List α} (h : l <+: l' ∨ l' <+: l) {p : Nat}
    {e e' : α} (he : l[p]? = some e) (he' : l'[p]? = some e') : e = e' := by
  rcases h with h | h
  · exact Option.some.inj ((getElem?_mono h he).symm.trans he')
  · exact Option.some.inj (he.symm.trans (getElem?_mono h he'))

structure PlainLog (log : List (LogEntry C)) : Prop where
  head : log.head? = some ⟨0, 0, none⟩
  index : ∀ p (e : LogEntry C), log[p]? = some e → e.logIndex = p
  term_pos : ∀ p (e : LogEntry C), log[p]? = some e → 1 ≤ p → 1 ≤ e.logTerm

namespace PlainLog

variable {log : List (LogEntry C)}

theorem zero (h : PlainLog log) : log[0]? = some ⟨0, 0, none⟩ := by
  rw [← List.head?_eq_getElem?]
  exact h.head

theorem length_pos (h : PlainLog log) : 0 < log.length := by
  obtain ⟨hlt, _⟩ := List.getElem?_eq_some_iff.mp h.zero
  exact hlt

theorem last (h : PlainLog log) {last : LogEntry C} (hlast : log.getLast? = some last) :
    last.logIndex + 1 = log.length := by
  rw [List.getLast?_eq_getElem?] at hlast
  have := h.index _ _ hlast
  have := h.length_pos
  omega

theorem append (h : PlainLog log) {term : Nat} (hterm : 1 ≤ term) (command : C) :
    PlainLog (log ++ [⟨log.length, term, some command⟩]) := by
  have hpos := h.length_pos
  have hget : ∀ p (e : LogEntry C),
      (log ++ [⟨log.length, term, some command⟩])[p]? = some e →
      log[p]? = some e ∨ p = log.length ∧ e = ⟨log.length, term, some command⟩ := by
    intro p e he
    rcases Nat.lt_or_ge p log.length with hlt | hge
    · rw [List.getElem?_append_left hlt] at he
      exact .inl he
    · rw [List.getElem?_append_right hge] at he
      obtain ⟨hlt, heq⟩ := List.getElem?_eq_some_iff.mp he
      simp only [List.length_cons, List.length_nil] at hlt
      have hp : p = log.length := by omega
      subst hp
      exact .inr ⟨rfl, by simpa using heq.symm⟩
  refine ⟨?_, ?_, ?_⟩
  · rw [List.head?_append, h.head]
    rfl
  · intro p e he
    rcases hget p e he with he | ⟨hp, rfl⟩
    · exact h.index p e he
    · exact hp.symm
  · intro p e he hp
    rcases hget p e he with he | ⟨_, rfl⟩
    · exact h.term_pos p e he hp
    · exact hterm

end PlainLog

/-- The entries of a request continue its previous index. -/
def PlainArgs (args : AppendEntriesArgs n C) : Prop :=
  ∀ q e, args.entries[q]? = some e →
    e.logIndex = args.prevLogIndex + 1 + q ∧ 1 ≤ e.logTerm

theorem PlainLog.accept {log : List (LogEntry C)} (h : PlainLog log)
    {args : AppendEntriesArgs n C} (hargs : PlainArgs args)
    (hprev : args.prevLogIndex < log.length) :
    PlainLog (log.take (args.prevLogIndex + 1) ++ args.entries) := by
  have hlength : (log.take (args.prevLogIndex + 1)).length = args.prevLogIndex + 1 := by
    rw [List.length_take]
    omega
  have hget : ∀ p (e : LogEntry C),
      (log.take (args.prevLogIndex + 1) ++ args.entries)[p]? = some e →
      log[p]? = some e ∨ args.prevLogIndex + 1 ≤ p ∧
        args.entries[p - (args.prevLogIndex + 1)]? = some e := by
    intro p e he
    rcases Nat.lt_or_ge p (args.prevLogIndex + 1) with hlt | hge
    · rw [List.getElem?_append_left (by omega), List.getElem?_take_of_lt hlt] at he
      exact .inl he
    · rw [List.getElem?_append_right (by omega), hlength] at he
      exact .inr ⟨hge, he⟩
  refine ⟨?_, ?_, ?_⟩
  · rw [List.head?_append, List.head?_take, if_neg (by omega), h.head]
    rfl
  · intro p e he
    rcases hget p e he with he | ⟨hp, he⟩
    · exact h.index p e he
    · have := (hargs _ e he).1
      omega
  · intro p e he hp
    rcases hget p e he with he | ⟨_, he⟩
    · exact h.term_pos p e he hp
    · exact (hargs _ e he).2

theorem PlainLog.args {log : List (LogEntry C)} (h : PlainLog log)
    {args : AppendEntriesArgs n C}
    (hentries : args.entries = log.drop (args.prevLogIndex + 1)) : PlainArgs args := by
  intro q e he
  rw [hentries, List.getElem?_drop] at he
  exact ⟨h.index _ _ he, h.term_pos _ _ he (by omega)⟩

/-- The backward scan of a rejecting server stops at the dummy entry at last. -/
theorem conflictIndex_pos {log : List (LogEntry C)} (h : PlainLog log) {term : Nat}
    (hterm : 1 ≤ term) (count : Nat) (hcount : 1 ≤ count) (hlength : count ≤ log.length) :
    1 ≤ conflictIndex log 0 term count := by
  induction count with
  | zero => omega
  | succ count ih =>
      unfold conflictIndex
      obtain ⟨e, he⟩ : ∃ e, log[count]? = some e :=
        ⟨log[count], List.getElem?_eq_getElem (by omega)⟩
      simp only [he]
      split
      · omega
      · next hsame =>
          have hcount : count ≠ 0 := by
            rintro rfl
            rw [h.zero] at he
            obtain rfl := Option.some.inj he
            exact hsame (by simp only [ne_eq]; omega)
          exact ih (by omega) (by omega)

/-! What a step does to the log, the persister and `nextIndex`. -/

def storedLog (p : Persister n C D) : List (LogEntry C) :=
  (p.raftstate.map (·.log)).getD [⟨0, 0, none⟩]

theorem make_log {p : Persister n C D} (h : p.snapshot = none) :
    (make p).log = storedLog p := by
  obtain ⟨raftstate, snapshot⟩ := p
  obtain rfl : snapshot = none := h
  cases raftstate <;> rfl

structure Saved (rf : Raft n C D) : Prop where
  snapshot_eq : rf.persister.snapshot = none
  term_eq : storedTerm rf.persister = rf.currentTerm
  vote_eq : storedVote rf.persister = rf.votedFor
  log_eq : storedLog rf.persister = rf.log

theorem Saved.make {rf : Raft n C D} (h : Saved rf) : Saved (make rf.persister) :=
  ⟨by rw [make_persister]; exact h.snapshot_eq, by simp, by simp,
    by rw [make_log h.snapshot_eq, make_persister]⟩

theorem Saved.of_same {old rf : Raft n C D} (h : Saved old)
    (hpersister : rf.persister = old.persister)
    (hterm : rf.currentTerm = old.currentTerm) (hvote : rf.votedFor = old.votedFor)
    (hlog : rf.log = old.log) : Saved rf :=
  ⟨by rw [hpersister]; exact h.snapshot_eq, by rw [hpersister, hterm]; exact h.term_eq,
    by rw [hpersister, hvote]; exact h.vote_eq, by rw [hpersister, hlog]; exact h.log_eq⟩

theorem saved_persist {rf : Raft n C D} (h : rf.persister.snapshot = none) :
    Saved rf.persist :=
  ⟨h, rfl, rfl, rfl⟩

theorem Saved.loop {i : Fin n} {old rf : Raft n C D} {choice : LoopChoice}
    {eff : Effects n C D} (h : Saved old) (hloop : LoopOutcome i old choice rf eff) :
    Saved rf := by
  cases hloop with
  | broadcast hloop =>
      obtain ⟨commit, chan, hform⟩ := boatcastAppendEntries_fst i old
      rw [hform]
      exact h.of_same rfl rfl rfl rfl
  | campaign hloop => exact ⟨h.snapshot_eq, rfl, rfl, rfl⟩
  | lead term hloop =>
      rcases becomeLeader_cases old with hlead | ⟨last, _, hlead⟩
      · rw [hlead]
        exact h
      · rw [hlead]
        exact h.of_same rfl rfl rfl rfl
  | read => exact h.of_same rfl rfl rfl rfl
  | followerBeat => exact h.of_same rfl rfl rfl rfl
  | candidateBeat => exact h.of_same rfl rfl rfl rfl
  | voted => exact h.of_same rfl rfl rfl rfl
  | suspect => exact h.of_same rfl rfl rfl rfl
  | retry => exact h.of_same rfl rfl rfl rfl
  | token => exact h.of_same rfl rfl rfl rfl

structure NoSnapshots (s : Cluster n C D) (a : Action n C D) : Prop where
  action : noStartSnapshot a = true
  calls : s.installSnapshots = []

theorem Saved.step {s : Cluster n C D} {a : Action n C D} {i : Fin n} {rf : Raft n C D}
    {eff : Effects n C D} (hno : NoSnapshots s a) (h : Saved (s.rafts i))
    (hlocal : Local s a i rf eff) : Saved rf := by
  cases hlocal with
  | start i command =>
      rcases start_cases (s.rafts i) command with hout | ⟨last, _, _, hout⟩
      · rwa [hout]
      · rw [hout]
        exact saved_persist h.snapshot_eq
  | startSnapshot => cases hno.action
  | loop i choice hstep => exact h.loop (loopStep_outcome hstep)
  | boatcastRequestVote i job hstep =>
      obtain ⟨jobs, rfl⟩ := boatcastRequestVote_fst hstep
      exact h.of_same rfl rfl rfl rfl
  | applyCommitted i hstep =>
      obtain ⟨applied, chan, rfl⟩ := applyCommitted_fst hstep
      exact h.of_same rfl rfl rfl rfl
  | applySnapshot i hstep =>
      obtain ⟨snapshots, rfl⟩ := applySnapshot_fst hstep
      exact h.of_same rfl rfl rfl rfl
  | requestVote k =>
      rename_i call _ _
      rcases requestVote_cases (s.rafts call.server) call.args with
        ⟨_, hout⟩ | ⟨_, reply, _, hout⟩ | ⟨_, last, _, _, _, hout⟩
      · rw [hout]
        exact saved_persist h.snapshot_eq
      · rw [hout]
        exact saved_persist (by simpa using h.snapshot_eq)
      · rw [hout]
        exact saved_persist (by simpa using h.snapshot_eq)
  | sendRequestVote k =>
      rename_i call reply _ _ _ _
      have houtcome := sendRequestVote_outcome (s.rafts call.caller) call.args reply
      generalize (s.rafts call.caller).sendRequestVote call.args reply = rf at houtcome ⊢
      cases houtcome with
      | ignored => exact h
      | raised => exact saved_persist (by simpa using h.snapshot_eq)
      | counted => exact h.of_same rfl rfl rfl rfl
      | won => exact h.of_same rfl rfl rfl rfl
  | appendEntries k =>
      rename_i call _ _
      have houtcome := appendEntries_outcome (s.rafts call.server) call.args
      generalize ((s.rafts call.server).appendEntries call.args).1 = rf at houtcome ⊢
      cases houtcome with
      | rejected => exact saved_persist (by simpa using h.snapshot_eq)
      | below => exact saved_persist (by simpa using h.snapshot_eq)
      | accepted => exact saved_persist (by simpa using h.snapshot_eq)
  | sendAppendEntries k =>
      rename_i call reply _ _ _ _
      have houtcome :=
        sendAppendEntries_outcome (s.rafts call.caller) call.server call.args reply
      generalize (s.rafts call.caller).sendAppendEntries call.server call.args reply = rf
        at houtcome ⊢
      cases houtcome with
      | ignored => exact h
      | raised => exact saved_persist (by simpa using h.snapshot_eq)
      | matched => exact h.of_same rfl rfl rfl rfl
      | rejected => exact h.of_same rfl rfl rfl rfl
  | installSnapshot k hcall => simp [hno.calls] at hcall
  | sendInstallSnapshot k hcall => simp [hno.calls] at hcall

/-- A log stays, grows by one command at a leader, or takes what follows an
accepted previous entry from a request. -/
inductive LogStep (s : Cluster n C D) (a : Action n C D) (i : Fin n)
    (rf : Raft n C D) : Prop
  | kept (hlog : rf.log = (s.rafts i).log)
  | appended (command : C) (hact : a = .start i command)
      (hstate : (s.rafts i).state = .leader)
      (hstart : (s.rafts i).start command = (rf, {}))
      (hform : rf = { s.rafts i with log := (s.rafts i).log ++
        [LogEntry.mk (s.rafts i).log.length (s.rafts i).currentTerm (some command)] }.persist)
  | accepted (k : Nat) (call : Rpc n (AppendEntriesArgs n C) AppendEntriesReply)
      (hact : a = .appendEntries k) (hcall : s.appendEntries[k]? = some call)
      (hserver : call.server = i)
      (hterm : (s.rafts i).currentTerm ≤ call.args.term)
      (hnew : rf.currentTerm = call.args.term)
      (hprev : call.args.prevLogIndex < (s.rafts i).log.length)
      (hmatch : 1 ≤ call.args.prevLogIndex → ∃ prev,
        (s.rafts i).log[call.args.prevLogIndex]? = some prev ∧
          prev.logTerm = call.args.prevLogTerm)
      (hlog : rf.log =
        (s.rafts i).log.take (call.args.prevLogIndex + 1) ++ call.args.entries)

theorem LogStep.of_local {s : Cluster n C D} {a : Action n C D} {i : Fin n}
    {rf : Raft n C D} {eff : Effects n C D} (hno : NoSnapshots s a)
    (hplain : PlainLog (s.rafts i).log) (hlocal : Local s a i rf eff) :
    LogStep s a i rf := by
  cases hlocal with
  | start i command =>
      rcases start_cases (s.rafts i) command with hout | ⟨last, hstate, hlast, hout⟩
      · exact .kept (by rw [hout])
      · rw [hplain.last hlast] at hout
        exact .appended command rfl hstate (by rw [hout]) (by rw [hout])
  | startSnapshot => cases hno.action
  | loop i choice hstep =>
      refine .kept ?_
      cases loopStep_outcome hstep with
      | broadcast hloop =>
          obtain ⟨commit, chan, hform⟩ := boatcastAppendEntries_fst i (s.rafts i)
          rw [hform]
      | lead term hloop =>
          rcases becomeLeader_cases (s.rafts i) with hlead | ⟨last, _, hlead⟩
          · rw [hlead]
          · rw [hlead]
      | _ => rfl
  | boatcastRequestVote i job hstep =>
      obtain ⟨jobs, rfl⟩ := boatcastRequestVote_fst hstep
      exact .kept rfl
  | applyCommitted i hstep =>
      obtain ⟨applied, chan, rfl⟩ := applyCommitted_fst hstep
      exact .kept rfl
  | applySnapshot i hstep =>
      obtain ⟨snapshots, rfl⟩ := applySnapshot_fst hstep
      exact .kept rfl
  | requestVote k => exact .kept (requestVote_frame _ _).1
  | sendRequestVote k => exact .kept (sendRequestVote_frame _ _ _).1
  | appendEntries k hcall =>
      rename_i call _
      have houtcome := appendEntries_outcome (s.rafts call.server) call.args
      generalize ((s.rafts call.server).appendEntries call.args).1 = rf at houtcome ⊢
      cases houtcome with
      | rejected => exact .kept (by rw [persist_log, observeTerm_log])
      | below => exact .kept rfl
      | accepted beats commit chan base last reply hterm hbase hlast hbelow habove hprev =>
          rw [hplain.head] at hbase
          obtain rfl := Option.some.inj hbase
          refine .accepted k call rfl hcall rfl hterm ?_ ?_ hprev rfl
          · rw [persist_currentTerm]
            exact observeTerm_currentTerm hterm
          · have := hplain.last hlast
            omega
  | sendAppendEntries k => exact .kept (sendAppendEntries_frame _ _ _ _).1
  | installSnapshot k hcall => simp [hno.calls] at hcall
  | sendInstallSnapshot k hcall => simp [hno.calls] at hcall

theorem start_server {s s' : Cluster n C D} {i : Fin n} {command : C} {rf : Raft n C D}
    (hstep : s.step (.start i command) = some s')
    (hstart : (s.rafts i).start command = (rf, {})) : s'.rafts i = rf := by
  obtain rfl := Cluster.move_eq_some hstep
  rw [Cluster.moved_rafts_self, hstart]
  rfl

/-- What a step makes of `nextIndex` and `matchIndex` at a server that leads. -/
def LeaderStep (s : Cluster n C D) (i : Fin n) (rf : Raft n C D) : Prop :=
  rf.state = .leader →
    ((s.rafts i).state = .leader ∧ rf.nextIndex = (s.rafts i).nextIndex ∧
      rf.matchIndex = (s.rafts i).matchIndex) ∨
    ((∀ j, 1 ≤ rf.nextIndex j) ∧ ∀ j, rf.matchIndex j = 0) ∨
    ∃ call ∈ s.appendEntries, ∃ reply, call.reply = some reply ∧ call.caller = i ∧
      rf = (s.rafts i).sendAppendEntries call.server call.args reply

namespace LeaderStep

variable {s : Cluster n C D} {i : Fin n} {rf : Raft n C D}

theorem of_same (hstate : rf.state = .leader → (s.rafts i).state = .leader)
    (hnext : rf.nextIndex = (s.rafts i).nextIndex)
    (hmatched : rf.matchIndex = (s.rafts i).matchIndex) : LeaderStep s i rf :=
  fun h => .inl ⟨hstate h, hnext, hmatched⟩

theorem of_loop {choice : LoopChoice} {eff : Effects n C D}
    (hloop : LoopOutcome i (s.rafts i) choice rf eff) : LeaderStep s i rf := by
  cases hloop with
  | broadcast hloop =>
      obtain ⟨commit, chan, hform⟩ := boatcastAppendEntries_fst i (s.rafts i)
      rw [hform]
      exact of_same id rfl rfl
  | lead term hloop =>
      rcases becomeLeader_cases (s.rafts i) with hlead | ⟨last, _, hlead⟩
      · rw [hlead]
        exact of_same id rfl rfl
      · rw [hlead]
        exact fun _ => .inr (.inl ⟨fun _ => Nat.le_add_left 1 _, fun _ => rfl⟩)
  | read => exact of_same id rfl rfl
  | campaign => exact of_same id rfl rfl
  | followerBeat => exact of_same id rfl rfl
  | candidateBeat => exact of_same (by simp) rfl rfl
  | voted => exact of_same id rfl rfl
  | suspect => exact of_same (by simp) rfl rfl
  | retry => exact of_same id rfl rfl
  | token => exact of_same id rfl rfl

theorem of_local {a : Action n C D} {eff : Effects n C D} (hno : NoSnapshots s a)
    (hlocal : Local s a i rf eff) : LeaderStep s i rf := by
  cases hlocal with
  | start i command =>
      rcases start_cases (s.rafts i) command with hout | ⟨last, _, _, hout⟩
      · rw [hout]
        exact of_same id rfl rfl
      · rw [hout]
        exact of_same id rfl rfl
  | startSnapshot => cases hno.action
  | loop i choice hstep => exact of_loop (loopStep_outcome hstep)
  | boatcastRequestVote i job hstep =>
      obtain ⟨jobs, rfl⟩ := boatcastRequestVote_fst hstep
      exact of_same id rfl rfl
  | applyCommitted i hstep =>
      obtain ⟨applied, chan, rfl⟩ := applyCommitted_fst hstep
      exact of_same id rfl rfl
  | applySnapshot i hstep =>
      obtain ⟨snapshots, rfl⟩ := applySnapshot_fst hstep
      exact of_same id rfl rfl
  | requestVote k =>
      rename_i call _ _
      rcases requestVote_cases (s.rafts call.server) call.args with
        ⟨_, hout⟩ | ⟨_, reply, _, hout⟩ | ⟨_, last, _, _, _, hout⟩
      · rw [hout]
        exact of_same id rfl rfl
      · rw [hout]
        exact of_same (fun h => observeTerm_state _ _ h) (by simp [persist])
          (by simp [persist])
      · rw [hout]
        exact of_same (by simp) (by simp [persist]) (by simp [persist])
  | sendRequestVote k =>
      rename_i call reply _ _ _ _
      have houtcome := sendRequestVote_outcome (s.rafts call.caller) call.args reply
      generalize (s.rafts call.caller).sendRequestVote call.args reply = rf at houtcome ⊢
      cases houtcome with
      | ignored => exact of_same id rfl rfl
      | raised =>
          exact of_same (fun h => observeTerm_state _ _ h) (by simp [persist])
            (by simp [persist])
      | counted => exact of_same id rfl rfl
      | won => exact of_same (by simp) rfl rfl
  | appendEntries k =>
      rename_i call _ _
      have houtcome := appendEntries_outcome (s.rafts call.server) call.args
      generalize ((s.rafts call.server).appendEntries call.args).1 = rf at houtcome ⊢
      cases houtcome with
      | rejected =>
          exact of_same (fun h => observeTerm_state _ _ h) (by simp [persist])
            (by simp [persist])
      | below =>
          exact of_same (fun h => observeTerm_state _ _ h) (by simp [persist])
            (by simp [persist])
      | accepted =>
          exact of_same (fun h => observeTerm_state _ _ h) (by simp [persist])
            (by simp [persist])
  | sendAppendEntries k hcall _ _ hreply =>
      exact fun _ => .inr (.inr ⟨_, List.mem_of_getElem? hcall, _, hreply, rfl, rfl⟩)
  | installSnapshot k hcall => simp [hno.calls] at hcall
  | sendInstallSnapshot k hcall => simp [hno.calls] at hcall

end LeaderStep

/-! The shape of a cluster without snapshots. -/

structure PlainServer (rf : Raft n C D) : Prop where
  saved : Saved rf
  log : PlainLog rf.log
  next : rf.state = .leader → ∀ j, 1 ≤ rf.nextIndex j
  term_pos : rf.state = .leader ∨ rf.loop.campaigning = true → 1 ≤ rf.currentTerm

theorem PlainServer.make {rf : Raft n C D} (h : PlainServer rf) :
    PlainServer (make rf.persister) := by
  refine ⟨h.saved.make, ?_, by simp, by simp [LoopPoint.campaigning]⟩
  rw [make_log h.saved.snapshot_eq, h.saved.log_eq]
  exact h.log

structure PlainCall (call : Rpc n (AppendEntriesArgs n C) AppendEntriesReply) : Prop where
  args : PlainArgs call.args
  next : ∀ reply, call.reply = some reply → 1 ≤ reply.nextIndex

structure Plain (s : Cluster n C D) : Prop where
  calls : s.installSnapshots = []
  servers : ∀ i, PlainServer (s.rafts i)
  appendEntries : ∀ call ∈ s.appendEntries, PlainCall call

theorem plain_init : Plain (Cluster.init n C D) := by
  refine ⟨rfl, fun i => ⟨⟨rfl, rfl, rfl, rfl⟩, ?_, ?_, ?_⟩, fun call hmem => ?_⟩
  · refine ⟨rfl, ?_, ?_⟩
    · intro p e he
      cases p with
      | zero =>
          obtain rfl := Option.some.inj he
          rfl
      | succ p => cases he
    · intro p e he hp
      cases p with
      | zero => omega
      | succ p => cases he
  · intro hstate
    cases hstate
  · rintro (hstate | hloop)
    · cases hstate
    · cases hloop
  · cases hmem

theorem PlainServer.step {s : Cluster n C D} {a : Action n C D} {i : Fin n}
    {rf : Raft n C D} {eff : Effects n C D} (hplain : Plain s) (hno : NoSnapshots s a)
    (hpoised : Poised (s.rafts i)) (hlocal : Local s a i rf eff) : PlainServer rf := by
  have hold := hplain.servers i
  have hterm_pos : rf.state = .leader ∨ rf.loop.campaigning = true →
      1 ≤ rf.currentTerm := by
    have helection := ElectionStep.of_local hlocal
    have hle := (BallotStep.of_local hlocal).term_le
    rintro (hstate | hloop)
    · obtain ⟨hterm, hcases⟩ := helection.leader_cases hpoised hstate
      rw [hterm]
      exact hold.term_pos hcases
    · rcases helection.campaigning_cases hloop with hcampaigning | hterm
      · have := hold.term_pos (.inr hcampaigning)
        omega
      · omega
  refine ⟨hold.saved.step hno hlocal, ?_, ?_, hterm_pos⟩
  · cases LogStep.of_local hno hold.log hlocal with
    | kept hlog =>
        rw [hlog]
        exact hold.log
    | appended command _ hstate _ hform =>
        rw [hform]
        exact hold.log.append (hold.term_pos (.inl hstate)) command
    | accepted k call _ hcall _ _ _ hprev _ hlog =>
        rw [hlog]
        have hargs := (hplain.appendEntries call (List.mem_of_getElem? hcall)).args
        exact hold.log.accept hargs hprev
  · intro hstate j
    rcases LeaderStep.of_local hno hlocal hstate with
      ⟨hleader, hnext, _⟩ | ⟨hnext, _⟩ | ⟨call, hcall, reply, hreply, _, hform⟩
    · rw [hnext]
      exact hold.next hleader j
    · exact hnext j
    · have hpos := (hplain.appendEntries call hcall).next reply hreply
      have houtcome := sendAppendEntries_outcome (s.rafts i) call.server call.args reply
      rw [← hform] at houtcome
      cases houtcome with
      | ignored => exact hold.next hstate j
      | raised hterm =>
          rw [persist_state, observeTerm_of_lt hterm] at hstate
          cases hstate
      | matched last =>
          by_cases hj : j = call.server
          · simp [hj]
          · simpa [hj] using hold.next hstate j
      | rejected =>
          by_cases hj : j = call.server
          · simpa [hj] using hpos
          · simpa [hj] using hold.next hstate j

theorem Replicates.plain {me server : Fin n} {rf : Raft n C D}
    {args : AppendEntriesArgs n C} (h : Replicates me rf server args)
    (hlog : PlainLog rf.log) :
    (∃ prev, rf.log[args.prevLogIndex]? = some prev ∧ args.prevLogTerm = prev.logTerm) ∧
      args.entries = rf.log.drop (args.prevLogIndex + 1) := by
  obtain ⟨base, prev, hbase, _, hprev, hterm, hentries⟩ := h.slice
  rw [hlog.head] at hbase
  obtain rfl := Option.some.inj hbase
  exact ⟨⟨prev, hprev, hterm⟩, hentries⟩

/-- A reply of a server with a plain log asks for a positive index. -/
theorem appendEntries_nextIndex {rf : Raft n C D} {args : AppendEntriesArgs n C}
    (hlog : PlainLog rf.log) {reply : AppendEntriesReply}
    (hreply : (rf.appendEntries args).2 = some reply) : 1 ≤ reply.nextIndex := by
  have houtcome := appendEntries_outcome rf args
  rw [hreply] at houtcome
  generalize (rf.appendEntries args).1 = rf' at houtcome
  cases houtcome with
  | rejected _ _ hrejects =>
      obtain ⟨_, base, last, hbase, hlast, hnext | ⟨hlt, prev, hprev, hnext⟩⟩ :=
        hrejects reply rfl
      · omega
      · rw [hlog.head] at hbase
        obtain rfl := Option.some.inj hbase
        obtain ⟨hlength, _⟩ := List.getElem?_eq_some_iff.mp hprev
        rw [hnext]
        dsimp only at hlt hprev hlength ⊢
        exact conflictIndex_pos hlog (hlog.term_pos _ _ hprev (by omega)) _ (by omega)
          hlength.le
  | below _ _ _ base _ hbase hbelow =>
      rw [hlog.head] at hbase
      obtain rfl := Option.some.inj hbase
      cases hbelow
  | accepted _ _ _ _ _ _ _ _ _ _ _ _ _ hpos => exact hpos reply rfl

theorem Plain.appendEntries_step {s s' : Cluster n C D} {a : Action n C D}
    (hplain : Plain s) (hstep : s.step a = some s') :
    ∀ call ∈ s'.appendEntries, PlainCall call := by
  intro call' hmem
  rcases Raft.appendEntries_step hstep hmem with
    ⟨call, hcall, hchange⟩ | ⟨hnone, _, _, hreplicates⟩
  · have hold := hplain.appendEntries call hcall
    cases hchange with
    | kept => exact hold
    | delivered =>
        exact ⟨hold.args, fun reply hreply =>
          appendEntries_nextIndex (hplain.servers call.server).log hreply⟩
    | returned => exact ⟨hold.args, hold.next⟩
  · have hlog := (hplain.servers call'.caller).log
    obtain ⟨commit, chan, hform⟩ :=
      boatcastAppendEntries_fst call'.caller (s.rafts call'.caller)
    rw [hform] at hreplicates
    refine ⟨hlog.args (hreplicates.plain hlog).2, fun reply hreply => ?_⟩
    rw [hnone] at hreply
    cases hreply

theorem Plain.installSnapshots_step {s s' : Cluster n C D} {a : Action n C D}
    (hplain : Plain s) (hstep : s.step a = some s') : s'.installSnapshots = [] := by
  rcases Cluster.step_cases hstep with ⟨i, _, rfl⟩ | ⟨i, rf, eff, hlocal, rfl⟩
  · exact hplain.calls
  · rw [Cluster.moved_installSnapshots]
    have htouched : (s.touched a).installSnapshots = [] := by
      cases a <;> simp [Cluster.touched, hplain.calls]
    have hsent : eff.installSnapshots = [] := by
      refine List.eq_nil_iff_forall_not_mem.mpr ?_
      rintro ⟨server, args⟩ hmem
      obtain ⟨hstate, base, hbase, hnext⟩ := hlocal.sends.installSnapshots_of_mem hmem
      rw [(hplain.servers i).log.head] at hbase
      obtain rfl := Option.some.inj hbase
      have := (hplain.servers i).next hstate server
      dsimp only at hnext
      omega
    simp [htouched, hsent, Cluster.calls]

theorem plain_run (run : ClusterRun n C D)
    (hno : run.AllSteps fun _ a => noStartSnapshot a) :
    ∀ k, k ≤ run.length → Plain (run.state k) := by
  refine run.induct ?_ ?_
  · rw [run.starts]
    exact plain_init
  · intro k hk ih
    have hstep := run.steps k hk
    have hno : NoSnapshots (run.state k) (run.act k) := ⟨hno k hk, ih.calls⟩
    refine ⟨ih.installSnapshots_step hstep, ?_, ih.appendEntries_step hstep⟩
    refine Cluster.servers_step hstep ih.servers (fun rf h => h.make) ?_
    intro i rf eff hlocal
    exact .step ih hno (poised_run run k hk.le i) hlocal

end BlockchainTutorial.Raft
