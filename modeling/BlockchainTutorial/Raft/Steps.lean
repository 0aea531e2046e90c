import BlockchainTutorial.Raft.Cluster

namespace BlockchainTutorial.Raft

/-! What one step of a cluster can do. Every step but a restart moves one
server; `Local` says which, where to, and why. -/

variable {n : Nat} {C D : Type}

inductive Local (s : Cluster n C D) :
    Action n C D → Fin n → Raft n C D → Effects n C D → Prop
  | start (i : Fin n) (command : C) :
      Local s (.start i command) i ((s.rafts i).start command).1
        ((s.rafts i).start command).2
  | startSnapshot (i : Fin n) (snapshot : D) (index : Nat) :
      Local s (.startSnapshot i snapshot index) i
        ((s.rafts i).startSnapshot snapshot index).1
        ((s.rafts i).startSnapshot snapshot index).2
  | loop (i : Fin n) (choice : LoopChoice) {rf : Raft n C D} {eff : Effects n C D}
      (hstep : (s.rafts i).loopStep i choice = some (rf, eff)) :
      Local s (.loop i choice) i rf eff
  | boatcastRequestVote (i : Fin n) (job : Nat) {rf : Raft n C D} {eff : Effects n C D}
      (hstep : (s.rafts i).boatcastRequestVote i job = some (rf, eff)) :
      Local s (.boatcastRequestVote i job) i rf eff
  | applyCommitted (i : Fin n) {rf : Raft n C D} {eff : Effects n C D}
      (hstep : (s.rafts i).applyCommitted = some (rf, eff)) :
      Local s (.applyCommitted i) i rf eff
  | applySnapshot (i : Fin n) {rf : Raft n C D} {eff : Effects n C D}
      (hstep : (s.rafts i).applySnapshot = some (rf, eff)) :
      Local s (.applySnapshot i) i rf eff
  | requestVote (k : Nat) {call : Rpc n (RequestVoteArgs n) RequestVoteReply}
      (hcall : s.requestVotes[k]? = some call) (hreply : call.reply = none) :
      Local s (.requestVote k) call.server
        ((s.rafts call.server).requestVote call.args).1
        { panicked := ((s.rafts call.server).requestVote call.args).2.isNone }
  | sendRequestVote (k : Nat) {call : Rpc n (RequestVoteArgs n) RequestVoteReply}
      {reply : RequestVoteReply}
      (hcall : s.requestVotes[k]? = some call) (hreturned : call.returned = false)
      (hepoch : call.epoch = s.epoch call.caller) (hreply : call.reply = some reply) :
      Local s (.sendRequestVote k) call.caller
        ((s.rafts call.caller).sendRequestVote call.args reply) {}
  | appendEntries (k : Nat) {call : Rpc n (AppendEntriesArgs n C) AppendEntriesReply}
      (hcall : s.appendEntries[k]? = some call) (hreply : call.reply = none) :
      Local s (.appendEntries k) call.server
        ((s.rafts call.server).appendEntries call.args).1
        { panicked := ((s.rafts call.server).appendEntries call.args).2.isNone }
  | sendAppendEntries (k : Nat) {call : Rpc n (AppendEntriesArgs n C) AppendEntriesReply}
      {reply : AppendEntriesReply}
      (hcall : s.appendEntries[k]? = some call) (hreturned : call.returned = false)
      (hepoch : call.epoch = s.epoch call.caller) (hreply : call.reply = some reply) :
      Local s (.sendAppendEntries k) call.caller
        ((s.rafts call.caller).sendAppendEntries call.server call.args reply) {}
  | installSnapshot (k : Nat)
      {call : Rpc n (InstallSnapshotArgs n D) InstallSnapshotReply}
      (hcall : s.installSnapshots[k]? = some call) (hreply : call.reply = none) :
      Local s (.installSnapshot k) call.server
        ((s.rafts call.server).installSnapshot call.args).1
        { applied := ((s.rafts call.server).installSnapshot call.args).2.2 }
  | sendInstallSnapshot (k : Nat)
      {call : Rpc n (InstallSnapshotArgs n D) InstallSnapshotReply}
      {reply : InstallSnapshotReply}
      (hcall : s.installSnapshots[k]? = some call) (hreturned : call.returned = false)
      (hepoch : call.epoch = s.epoch call.caller) (hreply : call.reply = some reply) :
      Local s (.sendInstallSnapshot k) call.caller
        ((s.rafts call.caller).sendInstallSnapshot call.server call.args reply) {}

namespace Cluster

/-- The calls as an action leaves them before its server has moved: a delivered
request carries its reply, and a reply that came back is marked. -/
def touched (s : Cluster n C D) : Action n C D → Cluster n C D
  | .requestVote k =>
      { s with requestVotes := s.requestVotes.modify k fun call => { call with
          reply := ((s.rafts call.server).requestVote call.args).2 } }
  | .sendRequestVote k =>
      { s with requestVotes := s.requestVotes.modify k fun call =>
          { call with returned := true } }
  | .appendEntries k =>
      { s with appendEntries := s.appendEntries.modify k fun call => { call with
          reply := ((s.rafts call.server).appendEntries call.args).2 } }
  | .sendAppendEntries k =>
      { s with appendEntries := s.appendEntries.modify k fun call =>
          { call with returned := true } }
  | .installSnapshot k =>
      { s with installSnapshots := s.installSnapshots.modify k fun call => { call with
          reply := some ((s.rafts call.server).installSnapshot call.args).2.1 } }
  | .sendInstallSnapshot k =>
      { s with installSnapshots := s.installSnapshots.modify k fun call =>
          { call with returned := true } }
  | _ => s

@[simp] theorem touched_rafts (s : Cluster n C D) (a : Action n C D) :
    (s.touched a).rafts = s.rafts := by
  cases a <;> rfl

@[simp] theorem touched_epoch (s : Cluster n C D) (a : Action n C D) :
    (s.touched a).epoch = s.epoch := by
  cases a <;> rfl

@[simp] theorem touched_delivered (s : Cluster n C D) (a : Action n C D) :
    (s.touched a).delivered = s.delivered := by
  cases a <;> rfl

theorem modify_of_getElem? {α : Type} {l : List α} {k : Nat} {x : α}
    (h : l[k]? = some x) (f : α → α) : l.modify k f = l.set k (f x) := by
  apply List.ext_getElem?
  intro j
  rw [List.getElem?_modify, List.getElem?_set]
  obtain ⟨hk, rfl⟩ := List.getElem?_eq_some_iff.mp h
  by_cases hj : k = j
  · subst hj
    simp [hk]
  · simp [hj]

theorem move_eq_some {s s' : Cluster n C D} {i : Fin n} {rf : Raft n C D}
    {eff : Effects n C D} (h : s.move i rf eff = some s') : s' = s.moved i rf eff := by
  unfold move at h
  split at h
  · exact (Option.some.inj h).symm
  · cases h

theorem pendingReply_eq_some {Args Reply : Type} {s : Cluster n C D}
    {call : Rpc n Args Reply} {reply : Reply} (h : s.pendingReply call = some reply) :
    call.returned = false ∧ call.epoch = s.epoch call.caller ∧
      call.reply = some reply := by
  unfold pendingReply at h
  split at h
  · cases h
  · next hpending =>
      simp only [not_or, Bool.not_eq_true, ne_eq, Decidable.not_not] at hpending
      exact ⟨hpending.1, hpending.2, h⟩

theorem step_cases {s s' : Cluster n C D} {a : Action n C D}
    (h : s.step a = some s') :
    (∃ i, a = .restart i ∧ s' = s.restart i) ∨
      ∃ i rf eff, Local s a i rf eff ∧ s' = (s.touched a).moved i rf eff := by
  cases a with
  | restart i => exact .inl ⟨i, rfl, (Option.some.inj h).symm⟩
  | start i command => exact .inr ⟨i, _, _, .start i command, move_eq_some h⟩
  | startSnapshot i snapshot index =>
      exact .inr ⟨i, _, _, .startSnapshot i snapshot index, move_eq_some h⟩
  | loop i choice =>
      obtain ⟨out, hout, hmove⟩ := Option.bind_eq_some_iff.mp h
      exact .inr ⟨i, _, _, .loop i choice hout, move_eq_some hmove⟩
  | boatcastRequestVote i job =>
      obtain ⟨out, hout, hmove⟩ := Option.bind_eq_some_iff.mp h
      exact .inr ⟨i, _, _, .boatcastRequestVote i job hout, move_eq_some hmove⟩
  | applyCommitted i =>
      obtain ⟨out, hout, hmove⟩ := Option.bind_eq_some_iff.mp h
      exact .inr ⟨i, _, _, .applyCommitted i hout, move_eq_some hmove⟩
  | applySnapshot i =>
      obtain ⟨out, hout, hmove⟩ := Option.bind_eq_some_iff.mp h
      exact .inr ⟨i, _, _, .applySnapshot i hout, move_eq_some hmove⟩
  | requestVote k =>
      simp only [step, stepRequestVote] at h
      cases hcall : s.requestVotes[k]? with
      | none => simp [hcall] at h
      | some call =>
          simp only [hcall] at h
          split at h
          · cases h
          · next hreply =>
              refine .inr ⟨_, _, _, .requestVote k hcall (by simpa using hreply), ?_⟩
              simp only [touched, modify_of_getElem? hcall]
              exact move_eq_some h
  | sendRequestVote k =>
      simp only [step, stepSendRequestVote] at h
      cases hcall : s.requestVotes[k]? with
      | none => simp [hcall] at h
      | some call =>
          simp only [hcall] at h
          obtain ⟨reply, hreply, hmove⟩ := Option.bind_eq_some_iff.mp h
          obtain ⟨hreturned, hepoch, hreply⟩ := pendingReply_eq_some hreply
          refine .inr ⟨_, _, _, .sendRequestVote k hcall hreturned hepoch hreply, ?_⟩
          simp only [touched, modify_of_getElem? hcall]
          exact move_eq_some hmove
  | appendEntries k =>
      simp only [step, stepAppendEntries] at h
      cases hcall : s.appendEntries[k]? with
      | none => simp [hcall] at h
      | some call =>
          simp only [hcall] at h
          split at h
          · cases h
          · next hreply =>
              refine .inr ⟨_, _, _, .appendEntries k hcall (by simpa using hreply), ?_⟩
              simp only [touched, modify_of_getElem? hcall]
              exact move_eq_some h
  | sendAppendEntries k =>
      simp only [step, stepSendAppendEntries] at h
      cases hcall : s.appendEntries[k]? with
      | none => simp [hcall] at h
      | some call =>
          simp only [hcall] at h
          obtain ⟨reply, hreply, hmove⟩ := Option.bind_eq_some_iff.mp h
          obtain ⟨hreturned, hepoch, hreply⟩ := pendingReply_eq_some hreply
          refine .inr ⟨_, _, _, .sendAppendEntries k hcall hreturned hepoch hreply, ?_⟩
          simp only [touched, modify_of_getElem? hcall]
          exact move_eq_some hmove
  | installSnapshot k =>
      simp only [step, stepInstallSnapshot] at h
      cases hcall : s.installSnapshots[k]? with
      | none => simp [hcall] at h
      | some call =>
          simp only [hcall] at h
          split at h
          · cases h
          · next hreply =>
              refine .inr ⟨_, _, _, .installSnapshot k hcall (by simpa using hreply), ?_⟩
              simp only [touched, modify_of_getElem? hcall]
              exact move_eq_some h
  | sendInstallSnapshot k =>
      simp only [step, stepSendInstallSnapshot] at h
      cases hcall : s.installSnapshots[k]? with
      | none => simp [hcall] at h
      | some call =>
          simp only [hcall] at h
          obtain ⟨reply, hreply, hmove⟩ := Option.bind_eq_some_iff.mp h
          obtain ⟨hreturned, hepoch, hreply⟩ := pendingReply_eq_some hreply
          refine .inr ⟨_, _, _, .sendInstallSnapshot k hcall hreturned hepoch hreply, ?_⟩
          simp only [touched, modify_of_getElem? hcall]
          exact move_eq_some hmove

/-! A delivered request moves its server. -/

theorem step_requestVote_eq {s s' : Cluster n C D} {k : Nat}
    {call : Rpc n (RequestVoteArgs n) RequestVoteReply}
    (h : s.step (.requestVote k) = some s') (hcall : s.requestVotes[k]? = some call) :
    s' = (s.touched (.requestVote k)).moved call.server
      ((s.rafts call.server).requestVote call.args).1
      { panicked := ((s.rafts call.server).requestVote call.args).2.isNone } := by
  rcases step_cases h with ⟨i, hact, _⟩ | ⟨i, rf, eff, hlocal, rfl⟩
  · cases hact
  · cases hlocal with
    | requestVote _ hcall' =>
        obtain rfl := Option.some.inj (hcall.symm.trans hcall')
        rfl

theorem step_appendEntries_eq {s s' : Cluster n C D} {k : Nat}
    {call : Rpc n (AppendEntriesArgs n C) AppendEntriesReply}
    (h : s.step (.appendEntries k) = some s') (hcall : s.appendEntries[k]? = some call) :
    s' = (s.touched (.appendEntries k)).moved call.server
      ((s.rafts call.server).appendEntries call.args).1
      { panicked := ((s.rafts call.server).appendEntries call.args).2.isNone } := by
  rcases step_cases h with ⟨i, hact, _⟩ | ⟨i, rf, eff, hlocal, rfl⟩
  · cases hact
  · cases hlocal with
    | appendEntries _ hcall' =>
        obtain rfl := Option.some.inj (hcall.symm.trans hcall')
        rfl

theorem step_installSnapshot_eq {s s' : Cluster n C D} {k : Nat}
    {call : Rpc n (InstallSnapshotArgs n D) InstallSnapshotReply}
    (h : s.step (.installSnapshot k) = some s') (hcall : s.installSnapshots[k]? = some call) :
    s' = (s.touched (.installSnapshot k)).moved call.server
      ((s.rafts call.server).installSnapshot call.args).1
      { applied := ((s.rafts call.server).installSnapshot call.args).2.2 } := by
  rcases step_cases h with ⟨i, hact, _⟩ | ⟨i, rf, eff, hlocal, rfl⟩
  · cases hact
  · cases hlocal with
    | installSnapshot _ hcall' =>
        obtain rfl := Option.some.inj (hcall.symm.trans hcall')
        rfl

/-! What a move leaves alone. -/

theorem moved_rafts_of_ne (s : Cluster n C D) {i j : Fin n} (rf : Raft n C D)
    (eff : Effects n C D) (hne : j ≠ i) : (s.moved i rf eff).rafts j = s.rafts j := by
  simp only [moved, restart]
  split <;> simp [hne]

theorem moved_rafts_self (s : Cluster n C D) (i : Fin n) (rf : Raft n C D)
    (eff : Effects n C D) :
    (s.moved i rf eff).rafts i = if eff.panicked then make rf.persister else rf := by
  simp only [moved, restart]
  split <;> simp

@[simp] theorem moved_requestVotes (s : Cluster n C D) (i : Fin n) (rf : Raft n C D)
    (eff : Effects n C D) :
    (s.moved i rf eff).requestVotes = s.requestVotes ++ s.calls i eff.requestVotes := by
  simp only [moved, restart]
  split <;> rfl

@[simp] theorem moved_appendEntries (s : Cluster n C D) (i : Fin n) (rf : Raft n C D)
    (eff : Effects n C D) :
    (s.moved i rf eff).appendEntries = s.appendEntries ++ s.calls i eff.appendEntries := by
  simp only [moved, restart]
  split <;> rfl

@[simp] theorem moved_installSnapshots (s : Cluster n C D) (i : Fin n) (rf : Raft n C D)
    (eff : Effects n C D) :
    (s.moved i rf eff).installSnapshots =
      s.installSnapshots ++ s.calls i eff.installSnapshots := by
  simp only [moved, restart]
  split <;> rfl

@[simp] theorem moved_delivered (s : Cluster n C D) (i : Fin n) (rf : Raft n C D)
    (eff : Effects n C D) :
    (s.moved i rf eff).delivered = s.delivered ++ eff.applied.map (i, ·) := by
  simp only [moved, restart]
  split <;> rfl

theorem mem_calls {Args Reply : Type} {s : Cluster n C D} {i : Fin n}
    {sent : List (Fin n × Args)} {call : Rpc n Args Reply}
    (h : call ∈ s.calls i sent) :
    (call.server, call.args) ∈ sent ∧ call.caller = i ∧ call.epoch = s.epoch i ∧
      call.reply = none ∧ call.returned = false := by
  obtain ⟨⟨server, args⟩, hsent, rfl⟩ := List.mem_map.mp h
  exact ⟨hsent, rfl, rfl, rfl, rfl⟩

theorem step_server {s s' : Cluster n C D} {a : Action n C D}
    (h : s.step a = some s') (j : Fin n) :
    s'.rafts j = s.rafts j ∨ s'.rafts j = make (s.rafts j).persister ∨
      ∃ rf eff, Local s a j rf eff ∧
        (s'.rafts j = rf ∨ s'.rafts j = make rf.persister) := by
  rcases step_cases h with ⟨i, _, rfl⟩ | ⟨i, rf, eff, hlocal, rfl⟩
  · by_cases hj : j = i
    · subst hj
      exact .inr (.inl (by simp [restart]))
    · exact .inl (by simp [restart, hj])
  · by_cases hj : j = i
    · subst hj
      refine .inr (.inr ⟨rf, eff, hlocal, ?_⟩)
      rw [moved_rafts_self]
      split
      · exact .inr rfl
      · exact .inl rfl
    · exact .inl (by rw [moved_rafts_of_ne _ _ _ hj, touched_rafts])

/-- What a server keeps in its own steps, and when it starts again, holds of every server. -/
theorem servers_step {P : Raft n C D → Prop} {s s' : Cluster n C D} {a : Action n C D}
    (h : s.step a = some s') (hold : ∀ i, P (s.rafts i))
    (hmake : ∀ rf, P rf → P (make rf.persister))
    (hlocal : ∀ i rf eff, Local s a i rf eff → P rf) (i : Fin n) : P (s'.rafts i) := by
  rcases step_server h i with heq | heq | ⟨rf, eff, hstep, heq | heq⟩
  · rw [heq]
    exact hold i
  · rw [heq]
    exact hmake _ (hold i)
  · rw [heq]
    exact hlocal i rf eff hstep
  · rw [heq]
    exact hmake rf (hlocal i rf eff hstep)

end Cluster

end BlockchainTutorial.Raft
