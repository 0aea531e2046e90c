import BlockchainTutorial.Raft.IndexBounds

namespace BlockchainTutorial.Raft

/-! What a server delivers between two restarts, and in which order. -/

variable {n : Nat} {C D : Type}

/-- The indexes of the commands, in the order of the messages. -/
def commandsOf (applied : List (ApplyMsg C D)) : List Nat :=
  (applied.filter fun msg => !msg.useSnapshot).map (·.index)

/-- The indexes of the commands that server `i` delivered. -/
def commandIndexes (i : Fin n) (delivered : List (Fin n × ApplyMsg C D)) : List Nat :=
  commandsOf ((delivered.filter fun msg => msg.1 = i).map (·.2))

@[simp] theorem commandsOf_append (front back : List (ApplyMsg C D)) :
    commandsOf (front ++ back) = commandsOf front ++ commandsOf back := by
  simp [commandsOf]

@[simp] theorem commandIndexes_append (i : Fin n)
    (front back : List (Fin n × ApplyMsg C D)) :
    commandIndexes i (front ++ back) = commandIndexes i front ++ commandIndexes i back := by
  simp [commandIndexes]

theorem commandIndexes_self (i : Fin n) (applied : List (ApplyMsg C D)) :
    commandIndexes i (applied.map (i, ·)) = commandsOf applied := by
  simp [commandIndexes, List.filter_map, Function.comp_def]

theorem commandIndexes_of_ne {i j : Fin n} (hne : j ≠ i) (applied : List (ApplyMsg C D)) :
    commandIndexes i (applied.map (j, ·)) = [] := by
  simp [commandIndexes, List.filter_map, Function.comp_def, hne, commandsOf]

/-! What one server puts on `applyCh` in one step. -/

/-- The commands are those of the next indexes, up to `lastApplied`. -/
def DeliversNext (old rf : Raft n C D) (applied : List (ApplyMsg C D)) : Prop :=
  ∃ done, commandsOf applied = List.range' (old.lastApplied + 1) done ∧
    (done = 0 ∨ rf.lastApplied = old.lastApplied + done)

theorem deliversNext_nil (old rf : Raft n C D) {applied : List (ApplyMsg C D)}
    (h : commandsOf applied = []) : DeliversNext old rf applied :=
  ⟨0, h, .inl rfl⟩

theorem applyCommitted_delivers {rf rf' : Raft n C D} {eff : Effects n C D}
    (h : rf.applyCommitted = some (rf', eff)) : DeliversNext rf rf' eff.applied := by
  unfold applyCommitted at h
  split at h
  · cases h
  · obtain ⟨done, _, hfst, hindexes, hplain, _⟩ := applyFrom_spec
      { rf with chanCommit := rf.chanCommit - 1 } (rf.lastApplied + 1)
      (rf.commitIndex - rf.lastApplied) rfl
    rw [congrArg Prod.snd (Option.some.inj h)] at hindexes hplain
    rw [congrArg Prod.fst (Option.some.inj h)] at hfst
    refine ⟨done, ?_, .inr (congrArg Raft.lastApplied hfst)⟩
    have hall : eff.applied.filter (fun msg => !msg.useSnapshot) = eff.applied :=
      List.filter_eq_self.mpr fun msg hmsg => by rw [hplain msg hmsg]; rfl
    rw [commandsOf, hall, hindexes]

theorem Local.delivers {s : Cluster n C D} {a : Action n C D} {i : Fin n} {rf : Raft n C D}
    {eff : Effects n C D} (hlocal : Local s a i rf eff) :
    DeliversNext (s.rafts i) rf eff.applied := by
  cases hlocal with
  | start i command =>
      obtain ⟨panicked, heq⟩ := start_snd (s.rafts i) command
      exact deliversNext_nil _ _ (by rw [heq]; rfl)
  | startSnapshot i snapshot index =>
      obtain ⟨panicked, heq⟩ := startSnapshot_snd (s.rafts i) snapshot index
      exact deliversNext_nil _ _ (by rw [heq]; rfl)
  | loop i choice hstep =>
      rcases loopStep_snd hstep with ⟨_, _, rfl⟩ | ⟨panicked, rfl⟩
      · exact deliversNext_nil _ _ (by rw [(boatcastAppendEntries_snd i (s.rafts i)).2.1]; rfl)
      · exact deliversNext_nil _ _ rfl
  | boatcastRequestVote i job hstep =>
      obtain ⟨sent, panicked, rfl, _⟩ := boatcastRequestVote_snd hstep
      exact deliversNext_nil _ _ rfl
  | applyCommitted i hstep => exact applyCommitted_delivers hstep
  | applySnapshot i hstep =>
      unfold Raft.applySnapshot at hstep
      split at hstep
      · cases hstep
      · obtain rfl := congrArg Prod.snd (Option.some.inj hstep)
        exact deliversNext_nil _ _ rfl
  | installSnapshot k =>
      refine deliversNext_nil _ _ ?_
      unfold Raft.installSnapshot
      split <;> rfl
  | _ => exact deliversNext_nil _ _ rfl

/-! One step of a cluster, as seen by a server that does not start again. -/

namespace Cluster

theorem moved_epoch (s : Cluster n C D) (i : Fin n) (rf : Raft n C D) (eff : Effects n C D)
    (j : Fin n) : (s.moved i rf eff).epoch j =
      if eff.panicked ∧ j = i then s.epoch i + 1 else s.epoch j := by
  unfold moved restart
  by_cases hpanicked : eff.panicked = true
  · by_cases hj : j = i
    · subst hj
      simp [hpanicked]
    · simp [hpanicked, hj]
  · simp [hpanicked]

theorem restart_epoch (s : Cluster n C D) (i j : Fin n) :
    (s.restart i).epoch j = if j = i then s.epoch i + 1 else s.epoch j := by
  unfold restart
  by_cases hj : j = i
  · subst hj
    simp
  · simp [hj]

theorem epoch_le_step {s s' : Cluster n C D} {a : Action n C D} (h : s.step a = some s')
    (j : Fin n) : s.epoch j ≤ s'.epoch j := by
  rcases step_cases h with ⟨i, _, rfl⟩ | ⟨i, rf, eff, _, rfl⟩
  · rw [restart_epoch]
    split
    · rename_i hj
      exact hj ▸ Nat.le_succ _
    · exact Nat.le_refl _
  · rw [moved_epoch, touched_epoch]
    split
    · rename_i hj
      exact hj.2 ▸ Nat.le_succ _
    · exact Nat.le_refl _

/-- Another server has moved, or this one has, without a panic. -/
theorem step_running {s s' : Cluster n C D} {a : Action n C D} (h : s.step a = some s')
    {i : Fin n} (hepoch : s'.epoch i = s.epoch i) :
    (s'.rafts i = s.rafts i ∧
      ∃ new, s'.delivered = s.delivered ++ new ∧ commandIndexes i new = []) ∨
    ∃ rf eff, Local s a i rf eff ∧ s'.rafts i = rf ∧
      s'.delivered = s.delivered ++ eff.applied.map (i, ·) := by
  rcases step_cases h with ⟨j, _, rfl⟩ | ⟨j, rf, eff, hlocal, rfl⟩
  · by_cases hj : i = j
    · subst hj
      rw [restart_epoch, if_pos rfl] at hepoch
      omega
    · exact .inl ⟨by simp [restart, hj], [], by simp [restart], rfl⟩
  · rw [moved_delivered, touched_delivered]
    by_cases hj : i = j
    · subst hj
      rw [moved_epoch, touched_epoch] at hepoch
      have hpanicked : ¬ eff.panicked = true := by
        intro htrue
        rw [if_pos ⟨htrue, rfl⟩] at hepoch
        omega
      refine .inr ⟨rf, eff, hlocal, ?_, rfl⟩
      rw [moved_rafts_self, if_neg hpanicked]
    · refine .inl ⟨?_, _, rfl, commandIndexes_of_ne (Ne.symm hj) _⟩
      rw [moved_rafts_of_ne _ _ _ hj, touched_rafts]

end Cluster

/-! What a step must not do. -/

/-- Where the leader has committed more, the log that `AppendEntries` leaves does not end
below what the server has committed. -/
def KeepsCommit (rf : Raft n C D) (args : AppendEntriesArgs n C) : Prop :=
  rf.commitIndex < args.leaderCommit →
    (rf.accepts args = true →
      rf.commitIndex ≤ args.prevLogIndex + args.entries.length) ∧
    (rf.currentTerm ≤ args.term → args.prevLogIndex < rf.baseIndex →
      ∀ last ∈ rf.log.getLast?, rf.commitIndex ≤ last.logIndex)

instance (rf : Raft n C D) (args : AppendEntriesArgs n C) :
    Decidable (KeepsCommit rf args) :=
  inferInstanceAs (Decidable (_ → (_ → _) ∧ (_ → _ → ∀ last ∈ rf.log.getLast?, _)))

/-- A snapshot that is installed is not older than what is applied or committed. -/
def NotOlder (rf : Raft n C D) (args : InstallSnapshotArgs n D) : Prop :=
  rf.currentTerm ≤ args.term →
    rf.lastApplied ≤ args.lastIncludedIndex ∧ rf.commitIndex ≤ args.lastIncludedIndex

instance (rf : Raft n C D) (args : InstallSnapshotArgs n D) : Decidable (NotOlder rf args) :=
  inferInstanceAs (Decidable (_ → _))

def MovesForward (s : Cluster n C D) : Action n C D → Prop
  | .appendEntries k => ∀ call ∈ s.appendEntries[k]?,
      KeepsCommit (s.rafts call.server) call.args
  | .installSnapshot k => ∀ call ∈ s.installSnapshots[k]?,
      NotOlder (s.rafts call.server) call.args
  | _ => True

instance (s : Cluster n C D) : (a : Action n C D) → Decidable (MovesForward s a)
  | .appendEntries k => inferInstanceAs (Decidable (∀ call ∈ s.appendEntries[k]?, _))
  | .installSnapshot k => inferInstanceAs (Decidable (∀ call ∈ s.installSnapshots[k]?, _))
  | .start .. | .loop .. | .boatcastRequestVote .. | .applyCommitted .. | .applySnapshot ..
  | .requestVote .. | .sendRequestVote .. | .startSnapshot .. | .sendAppendEntries ..
  | .sendInstallSnapshot .. | .restart .. => inferInstanceAs (Decidable True)

/-- Neither index of a server falls. -/
def Forward (old rf : Raft n C D) : Prop :=
  old.lastApplied ≤ rf.lastApplied ∧ old.commitIndex ≤ rf.commitIndex

theorem Forward.refl (rf : Raft n C D) : Forward rf rf := ⟨Nat.le_refl _, Nat.le_refl _⟩

theorem Forward.trans {rf rf' rf'' : Raft n C D} (h : Forward rf rf')
    (h' : Forward rf' rf'') : Forward rf rf'' :=
  ⟨Nat.le_trans h.1 h'.1, Nat.le_trans h.2 h'.2⟩

theorem le_raisedCommit_iff {leaderCommit commit last : Nat} :
    commit ≤ raisedCommit leaderCommit commit last ↔ (commit < leaderCommit → commit ≤ last) := by
  unfold raisedCommit
  split <;> omega

/-- `AppendEntries` leaves `lastApplied`, and moves `commitIndex` on exactly when the
condition holds. -/
theorem forward_append_iff {rf rf' : Raft n C D} {args : AppendEntriesArgs n C}
    {reply : Option AppendEntriesReply} (hwhole : Whole rf) (hwhole' : Whole rf')
    (hcore : AppendCore rf args rf' reply) : Forward rf rf' ↔ KeepsCommit rf args := by
  cases haccepts : rf.accepts args with
  | true =>
      obtain ⟨haccepted, _⟩ := hcore.accepted_of haccepts hwhole hwhole'
      have hlow := haccepted.base_le
      rw [Forward, haccepted.applied_eq, haccepted.commit_eq, le_raisedCommit_iff]
      unfold KeepsCommit
      constructor
      · rintro ⟨_, hcommit⟩ hlt
        exact ⟨fun _ => hcommit hlt, fun _ hbelow => absurd hbelow (Nat.not_lt.mpr hlow)⟩
      · intro h
        exact ⟨Nat.le_refl _, fun hlt => (h hlt).1 haccepts⟩
  | false =>
      have hnot : ¬ rf.accepts args = true := by
        rw [haccepts]
        exact Bool.false_ne_true
      cases hcore with
      | accepted htrue => exact absurd htrue hnot
      | below _ base last hterm hbase hlast hbelow =>
          rw [hwhole.log.head] at hbase
          obtain rfl := Option.some.inj hbase
          rw [Forward, persist_lastApplied, persist_commitIndex]
          dsimp only
          rw [observeTerm_lastApplied, le_raisedCommit_iff]
          unfold KeepsCommit
          rw [hlast]
          constructor
          · rintro ⟨_, hcommit⟩ hlt
            refine ⟨fun htrue => absurd htrue hnot, fun _ _ last' hlast' => ?_⟩
            obtain rfl := Option.some.inj hlast'
            exact hcommit hlt
          · intro h
            exact ⟨Nat.le_refl _, fun hlt => (h hlt).2 hterm hbelow last rfl⟩
      | rejected _ hbelow =>
          rw [Forward, persist_lastApplied, persist_commitIndex]
          dsimp only
          rw [observeTerm_lastApplied, observeTerm_commitIndex]
          refine iff_of_true ⟨Nat.le_refl _, Nat.le_refl _⟩ fun _ =>
            ⟨fun htrue => absurd htrue hnot, fun hterm hlow last hlast => ?_⟩
          · have hlt := hbelow _ last hwhole.log.head hlast hterm hlow
            have hindex := hwhole.last hlast
            have hpos := hwhole.log.length_pos
            change _ < rf.baseIndex at hlow
            omega

/-- A call that would move `commitIndex` back is answered. -/
theorem AppendCore.isSome_of_back {rf rf' : Raft n C D} {args : AppendEntriesArgs n C}
    {reply : Option AppendEntriesReply} (hcore : AppendCore rf args rf' reply)
    (hback : ¬ Forward rf rf') : reply.isSome := by
  cases hcore with
  | rejected =>
      refine absurd ⟨?_, ?_⟩ hback
      · rw [persist_lastApplied]
        dsimp only
        rw [observeTerm_lastApplied]
      · rw [persist_commitIndex]
        dsimp only
        rw [observeTerm_commitIndex]
  | below => rfl
  | accepted => rfl

theorem Forward.core {s : Cluster n C D} {a : Action n C D} {i : Fin n} {rf : Raft n C D}
    (hwhole : WholeCluster s) (hmoves : MovesForward s a) (hstep : CoreStep s a i rf) :
    Forward (s.rafts i) rf := by
  have hnew := Whole.step hwhole hstep
  cases hstep with
  | kept _ happlied hcommit => exact ⟨Nat.le_of_eq happlied.symm, Nat.le_of_eq hcommit.symm⟩
  | committed commit chan loop hform hle =>
      rw [hform]
      exact ⟨Nat.le_refl _, hle⟩
  | applied done chan hform =>
      rw [hform]
      exact ⟨Nat.le_add_right _ _, Nat.le_refl _⟩
  | started command last _ _ hform =>
      rw [hform]
      exact ⟨Nat.le_refl _, Nat.le_refl _⟩
  | snapshotted snapshot index base last entry log _ _ _ _ _ _ _ hform =>
      rw [hform]
      exact ⟨Nat.le_refl _, Nat.le_refl _⟩
  | appended k call hact hcall hserver hcore =>
      subst hact hserver
      exact (forward_append_iff (hwhole.servers call.server) hnew hcore).mpr
        (hmoves call hcall)
  | installed k call hact hcall hserver hterm hform =>
      subst hact hserver
      obtain ⟨happlied, hcommit⟩ := hmoves call hcall hterm
      rw [hform]
      exact ⟨happlied, hcommit⟩

theorem forward_step {s s' : Cluster n C D} {a : Action n C D} (hwhole : WholeCluster s)
    (hmoves : MovesForward s a) (hstep : s.step a = some s') {i : Fin n}
    (hepoch : s'.epoch i = s.epoch i) : Forward (s.rafts i) (s'.rafts i) := by
  rcases Cluster.step_running hstep hepoch with ⟨hsame, _⟩ | ⟨rf, eff, hlocal, hrafts, _⟩
  · rw [hsame]
    exact .refl _
  · rw [hrafts]
    exact .core hwhole hmoves (.of_local hlocal)

/-! Runs. -/

/-- Between two restarts of a server its indexes do not fall, no index is delivered twice,
and no entry that it has applied gives way to an older snapshot. -/
structure ForwardOnly (run : ClusterRun n C D) : Prop where
  indexes : ∀ i j k, j ≤ k → k ≤ run.length →
    (run.state k).epoch i = (run.state j).epoch i →
    Forward ((run.state j).rafts i) ((run.state k).rafts i)
  once : ∀ i j k, j ≤ k → k ≤ run.length →
    (run.state k).epoch i = (run.state j).epoch i →
    ∀ new, (run.state k).delivered = (run.state j).delivered ++ new →
      (commandIndexes i new).Pairwise (· < ·)
  snapshots : ∀ k, k < run.length → ∀ l, run.act k = .installSnapshot l →
    ∀ call ∈ (run.state k).installSnapshots[l]?,
      ((run.state k).rafts call.server).currentTerm ≤ call.args.term →
      ((run.state k).rafts call.server).lastApplied ≤ call.args.lastIncludedIndex

theorem epoch_monotone (run : ClusterRun n C D) (i : Fin n) {j k : Nat} (hle : j ≤ k)
    (hk : k ≤ run.length) : (run.state j).epoch i ≤ (run.state k).epoch i :=
  run.monotone (m := fun s => s.epoch i)
    (fun l hl => Cluster.epoch_le_step (run.steps l hl) i) hle hk

section Runs

variable {run : ClusterRun n C D} (hmoves : run.AllSteps MovesForward) (i : Fin n)

include hmoves

theorem forward_run {j k : Nat} (hle : j ≤ k) (hk : k ≤ run.length)
    (hepoch : (run.state k).epoch i = (run.state j).epoch i) :
    Forward ((run.state j).rafts i) ((run.state k).rafts i) := by
  refine run.induct_from (P := fun k => (run.state k).epoch i = (run.state j).epoch i →
    Forward ((run.state j).rafts i) ((run.state k).rafts i)) (fun _ => .refl _) ?_ k hle hk
    hepoch
  intro k hle hk ih hepoch
  have hbefore := epoch_monotone run i hle (Nat.le_of_lt hk)
  have hstep := Cluster.epoch_le_step (run.steps k hk) i
  have hsame : (run.state (k + 1)).epoch i = (run.state k).epoch i := by omega
  exact (ih (by omega)).trans
    (forward_step (whole_run run k (Nat.le_of_lt hk)) (hmoves k hk) (run.steps k hk) hsame)

/-- What a server has delivered since step `j` goes up, from above what it had applied
there to at most what it has applied now. -/
theorem delivered_increasing {j k : Nat} (hle : j ≤ k) (hk : k ≤ run.length)
    (hepoch : (run.state k).epoch i = (run.state j).epoch i) :
    ∃ new, (run.state k).delivered = (run.state j).delivered ++ new ∧
      (commandIndexes i new).Pairwise (· < ·) ∧
      ∀ index ∈ commandIndexes i new, index ≤ ((run.state k).rafts i).lastApplied := by
  refine run.induct_from (P := fun k => (run.state k).epoch i = (run.state j).epoch i →
    ∃ new, (run.state k).delivered = (run.state j).delivered ++ new ∧
      (commandIndexes i new).Pairwise (· < ·) ∧
      ∀ index ∈ commandIndexes i new, index ≤ ((run.state k).rafts i).lastApplied)
    (fun _ => ⟨[], by simp, .nil, nofun⟩) ?_ k hle hk hepoch
  intro k hle hk ih hepoch
  have hbefore := epoch_monotone run i hle (Nat.le_of_lt hk)
  have hstep := Cluster.epoch_le_step (run.steps k hk) i
  have hsame : (run.state (k + 1)).epoch i = (run.state k).epoch i := by omega
  obtain ⟨front, hfront, hsorted, hbound⟩ := ih (by omega)
  have hforward := forward_step (whole_run run k (Nat.le_of_lt hk)) (hmoves k hk)
    (run.steps k hk) hsame
  rcases Cluster.step_running (run.steps k hk) hsame with
    ⟨_, back, hback, hnone⟩ | ⟨rf, eff, hlocal, hrafts, hback⟩
  · refine ⟨front ++ back, by rw [hback, hfront, List.append_assoc], ?_⟩
    rw [commandIndexes_append, hnone, List.append_nil]
    exact ⟨hsorted, fun index hindex => Nat.le_trans (hbound index hindex) hforward.1⟩
  · refine ⟨front ++ eff.applied.map (i, ·), by rw [hback, hfront, List.append_assoc], ?_⟩
    obtain ⟨done, hindexes, happlied⟩ := hlocal.delivers
    rw [commandIndexes_append, commandIndexes_self, hindexes]
    constructor
    · refine List.pairwise_append.mpr ⟨hsorted, List.pairwise_lt_range', ?_⟩
      intro old hold new hnew
      have hlow := hbound old hold
      have hhigh := (List.mem_range'_1.mp hnew).1
      omega
    · intro index hindex
      rcases List.mem_append.mp hindex with hold | hnew
      · exact Nat.le_trans (hbound index hold) hforward.1
      · have hrange := List.mem_range'_1.mp hnew
        rcases happlied with rfl | happlied
        · omega
        · rw [hrafts, happlied]
          omega

end Runs

theorem moved_back_of_append {s s' : Cluster n C D} {k : Nat}
    {call : Rpc n (AppendEntriesArgs n C) AppendEntriesReply} (hwhole : WholeCluster s)
    (hstep : s.step (.appendEntries k) = some s') (hcall : s.appendEntries[k]? = some call)
    (hback : ¬ KeepsCommit (s.rafts call.server) call.args) :
    s'.epoch call.server = s.epoch call.server ∧
      ¬ Forward (s.rafts call.server) (s'.rafts call.server) := by
  have hcore := appendEntries_core (s.rafts call.server) call.args
  have hnew := Whole.step (a := .appendEntries k) hwhole (.appended k call rfl hcall rfl hcore)
  have hiff := forward_append_iff (hwhole.servers call.server) hnew hcore
  have hnot := fun h => hback (hiff.mp h)
  obtain ⟨reply, hreply⟩ := Option.isSome_iff_exists.mp (hcore.isSome_of_back hnot)
  rw [appendEntries_server hstep hcall hreply]
  refine ⟨?_, hnot⟩
  rw [Cluster.step_appendEntries_eq hstep hcall, Cluster.moved_epoch, Cluster.touched_epoch,
    hreply]
  rfl

theorem moved_back_of_install {s s' : Cluster n C D} {k : Nat}
    {call : Rpc n (InstallSnapshotArgs n D) InstallSnapshotReply}
    (hstep : s.step (.installSnapshot k) = some s')
    (hcall : s.installSnapshots[k]? = some call)
    (hback : ¬ NotOlder (s.rafts call.server) call.args) :
    s'.epoch call.server = s.epoch call.server ∧
      ¬ Forward (s.rafts call.server) (s'.rafts call.server) := by
  rw [Cluster.step_installSnapshot_eq hstep hcall, Cluster.moved_epoch, Cluster.touched_epoch,
    Cluster.moved_rafts_self]
  refine ⟨rfl, fun hforward => hback fun hterm => ?_⟩
  rw [if_neg Bool.false_ne_true, Raft.installSnapshot,
    if_neg (Nat.not_lt.mpr hterm)] at hforward
  exact hforward

/-- The servers of a run apply forward only exactly when no `AppendEntries` leaves a log
that ends below `commitIndex` while it takes the leader's, and no snapshot is installed
that is older than what is applied or committed. -/
theorem forward_only_iff (run : ClusterRun n C D) :
    ForwardOnly run ↔ run.AllSteps MovesForward := by
  constructor
  · intro hforward k hk
    have hwhole := whole_run run k (Nat.le_of_lt hk)
    have hstep := run.steps k hk
    generalize run.act k = a at hstep
    cases a with
    | appendEntries l =>
        intro call hcall
        by_contra hback
        obtain ⟨hepoch, hnot⟩ := moved_back_of_append hwhole hstep hcall hback
        exact hnot (hforward.indexes _ k (k + 1) (Nat.le_succ k) hk hepoch)
    | installSnapshot l =>
        intro call hcall
        by_contra hback
        obtain ⟨hepoch, hnot⟩ := moved_back_of_install hstep hcall hback
        exact hnot (hforward.indexes _ k (k + 1) (Nat.le_succ k) hk hepoch)
    | _ => exact trivial
  · intro hmoves
    refine ⟨fun i j k hle hk hepoch => forward_run hmoves i hle hk hepoch, ?_, ?_⟩
    · intro i j k hle hk hepoch new hnew
      obtain ⟨new', hnew', hsorted, _⟩ := delivered_increasing hmoves i hle hk hepoch
      rw [hnew] at hnew'
      rw [List.append_cancel_left hnew']
      exact hsorted
    · intro k hk l hact call hcall hterm
      have hstep := hmoves k hk
      rw [hact] at hstep
      exact (hstep call hcall hterm).1

/-- Server 2 asks for entries that the leader has cut off, and is sent the snapshot up to
index 1 twice. It applies index 2 between the two. -/
def staleSnapshot : List (Action 3 Nat Unit) :=
  firstElection ++ [.start 0 10, .loop 0 .proceed, .loop 0 .proceed, .appendEntries 0,
    .sendAppendEntries 0, .loop 0 .proceed, .loop 0 .proceed, .applyCommitted 0,
    .startSnapshot 0 () 1, .loop 0 .proceed, .loop 0 .proceed, .loop 0 .proceed,
    .loop 0 .proceed, .installSnapshot 0, .sendInstallSnapshot 0, .start 0 20,
    .loop 0 .proceed, .loop 0 .proceed, .appendEntries 7, .sendAppendEntries 7,
    .loop 0 .proceed, .loop 0 .proceed, .appendEntries 9, .applyCommitted 2,
    .installSnapshot 1, .loop 0 .proceed, .loop 0 .proceed, .appendEntries 11,
    .applyCommitted 2]

theorem staleSnapshot_exec : (Lib.exec Cluster.step (Cluster.init 3 Nat Unit)
    staleSnapshot).isSome := by
  decide +kernel

def staleSnapshotRun : ClusterRun 3 Nat Unit :=
  Lib.Run.ofActions staleSnapshot staleSnapshot_exec

/-- Server 2 never starts again, and delivers index 2 twice. -/
theorem not_forward_only : ¬ ∀ run : ClusterRun 3 Nat Unit,
    run.AllSteps SnapshotsApplied → ForwardOnly run := by
  intro hall
  have hforward := hall staleSnapshotRun (by decide +kernel)
  have honce := hforward.once 2 0 staleSnapshotRun.length (Nat.zero_le _) (Nat.le_refl _)
    (by decide +kernel) _ (by rw [staleSnapshotRun.starts]; rfl)
  revert honce
  decide +kernel

end BlockchainTutorial.Raft
