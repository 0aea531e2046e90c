import BlockchainTutorial.Raft.Safety
import BlockchainTutorial.Raft.Stored

namespace BlockchainTutorial.Raft

/-! The indexes of a server, and the loops that read the log by them. -/

variable {n : Nat} {C D : Type}

/-- `log[0].LogIndex <= lastApplied <= commitIndex <= getLastIndex()`. -/
def Bounded (rf : Raft n C D) : Prop :=
  ∃ base last, rf.log.head? = some base ∧ rf.log.getLast? = some last ∧
    base.logIndex ≤ rf.lastApplied ∧ rf.lastApplied ≤ rf.commitIndex ∧
    rf.commitIndex ≤ last.logIndex

theorem Whole.bounded_iff {rf : Raft n C D} (h : Whole rf) :
    Bounded rf ↔ rf.baseIndex ≤ rf.lastApplied ∧ rf.lastApplied ≤ rf.commitIndex ∧
      rf.commitIndex < rf.baseIndex + rf.log.length := by
  obtain ⟨last, hlast⟩ := h.log.exists_last
  have hindex := h.last hlast
  constructor
  · rintro ⟨base, last', hbase, hlast', hlow, hmiddle, hhigh⟩
    rw [h.log.head] at hbase
    rw [hlast] at hlast'
    obtain rfl := Option.some.inj hbase
    obtain rfl := Option.some.inj hlast'
    exact ⟨hlow, hmiddle, by omega⟩
  · rintro ⟨hlow, hmiddle, hhigh⟩
    exact ⟨_, last, h.log.head, hlast, hlow, hmiddle, by omega⟩

theorem Whole.entryAt_isSome {rf : Raft n C D} (h : Whole rf) {j : Nat}
    (hlow : rf.baseIndex ≤ j) (hhigh : j < rf.baseIndex + rf.log.length) :
    (rf.entryAt j).isSome := by
  unfold entryAt
  rw [h.log.head]
  dsimp only
  have hnot : ¬ j < (snapshotBase rf.persister.snapshot : LogEntry C).logIndex :=
    Nat.not_lt.mpr hlow
  rw [if_neg hnot]
  exact Option.isSome_iff_exists.mpr
    ⟨_, List.getElem?_eq_getElem (show j - rf.baseIndex < rf.log.length by omega)⟩

/-! No loop reads outside of the log of a bounded server. -/

theorem applyCommitted_safe {rf rf' : Raft n C D} {eff : Effects n C D}
    (hwhole : Whole rf) (hbounded : Bounded rf)
    (h : rf.applyCommitted = some (rf', eff)) : eff.panicked = false := by
  obtain ⟨hlow, _, hhigh⟩ := hwhole.bounded_iff.mp hbounded
  unfold applyCommitted at h
  split at h
  · cases h
  · obtain ⟨_, _, _, _, _, hpanicked⟩ := applyFrom_spec
      { rf with chanCommit := rf.chanCommit - 1 } (rf.lastApplied + 1)
      (rf.commitIndex - rf.lastApplied) rfl
    rw [congrArg Prod.snd (Option.some.inj h)] at hpanicked
    refine Bool.eq_false_iff.mpr fun htrue => ?_
    obtain ⟨j, hj, hj', hnone⟩ := hpanicked htrue
    have hsome := hwhole.entryAt_isSome (j := j) (by omega) (by omega)
    change rf.entryAt j = none at hnone
    rw [hnone] at hsome
    cases hsome

theorem foldlM_isSome {α β : Type} {f : β → α → Option β} (h : ∀ b a, (f b a).isSome)
    (l : List α) (b : β) : (l.foldlM f b).isSome := by
  induction l generalizing b with
  | nil => rfl
  | cons a l ih =>
      obtain ⟨b', hb'⟩ := Option.isSome_iff_exists.mp (h b a)
      rw [List.foldlM_cons, hb']
      exact ih b'

theorem countReplicas_isSome {me : Fin n} {rf : Raft n C D} {i : Nat}
    (h : (rf.entryAt i).isSome) : (rf.countReplicas me i).isSome := by
  refine foldlM_isSome (fun num j => ?_) _ _
  split
  · rw [Option.isSome_map]
    exact h
  · rfl

theorem commitLoop_isSome {me : Fin n} {rf : Raft n C D} {i count commit : Nat}
    (h : ∀ j, i ≤ j → j < i + count → (rf.entryAt j).isSome) :
    (rf.commitLoop me i count commit).isSome := by
  induction count generalizing i commit with
  | zero => rfl
  | succ count ih =>
      have hcount : (rf.countReplicas me i).isSome :=
        countReplicas_isSome (h i (Nat.le_refl i) (by omega))
      obtain ⟨num, hnum⟩ := Option.isSome_iff_exists.mp hcount
      rw [commitLoop, hnum, Option.bind_some]
      exact ih fun j hlow hhigh => h j (by omega) (by omega)

/-- The bounds, and what they are for: neither the loop that applies nor the one that
commits reads outside of the log. -/
structure IndexSafe (me : Fin n) (rf : Raft n C D) : Prop where
  bounded : Bounded rf
  applies : ∀ rf' eff, rf.applyCommitted = some (rf', eff) → eff.panicked = false
  commits : ∀ last, rf.log.getLast? = some last →
    (rf.commitLoop me (rf.commitIndex + 1) (last.logIndex - rf.commitIndex)
      rf.commitIndex).isSome

theorem Whole.indexSafe {rf : Raft n C D} (h : Whole rf) (hbounded : Bounded rf)
    (me : Fin n) : IndexSafe me rf := by
  refine ⟨hbounded, fun _ _ => applyCommitted_safe h hbounded, ?_⟩
  intro last hlast
  obtain ⟨hlow, hmiddle, _⟩ := h.bounded_iff.mp hbounded
  have hindex := h.last hlast
  exact commitLoop_isSome fun j hj hj' => h.entryAt_isSome (by omega) (by omega)

/-! What the bounds need of a step. -/

/-- The service takes snapshots of what it was given. -/
def SnapshotsApplied (s : Cluster n C D) : Action n C D → Prop
  | .startSnapshot i _ index => index ≤ (s.rafts i).lastApplied
  | _ => True

instance (s : Cluster n C D) : (a : Action n C D) → Decidable (SnapshotsApplied s a)
  | .startSnapshot i _ index => inferInstanceAs (Decidable (index ≤ (s.rafts i).lastApplied))
  | .start .. | .loop .. | .boatcastRequestVote .. | .applyCommitted .. | .applySnapshot ..
  | .requestVote .. | .sendRequestVote .. | .appendEntries .. | .sendAppendEntries ..
  | .installSnapshot .. | .sendInstallSnapshot .. | .restart .. =>
      inferInstanceAs (Decidable True)

/-- Entries that are accepted do not end below what is committed, or they end below it
but not below what is applied, and the leader has committed more. -/
def ReachesCommitted (rf : Raft n C D) (args : AppendEntriesArgs n C) : Prop :=
  rf.accepts args = true →
    rf.commitIndex ≤ args.prevLogIndex + args.entries.length ∨
      (rf.commitIndex < args.leaderCommit ∧
        rf.lastApplied ≤ args.prevLogIndex + args.entries.length)

instance (rf : Raft n C D) (args : AppendEntriesArgs n C) :
    Decidable (ReachesCommitted rf args) :=
  inferInstanceAs (Decidable (_ → _))

def KeepsCommitted (s : Cluster n C D) : Action n C D → Prop
  | .appendEntries k => ∀ call ∈ s.appendEntries[k]?,
      ReachesCommitted (s.rafts call.server) call.args
  | _ => True

instance (s : Cluster n C D) : (a : Action n C D) → Decidable (KeepsCommitted s a)
  | .appendEntries k => inferInstanceAs (Decidable (∀ call ∈ s.appendEntries[k]?, _))
  | .start .. | .loop .. | .boatcastRequestVote .. | .applyCommitted .. | .applySnapshot ..
  | .requestVote .. | .sendRequestVote .. | .startSnapshot .. | .sendAppendEntries ..
  | .installSnapshot .. | .sendInstallSnapshot .. | .restart .. =>
      inferInstanceAs (Decidable True)

theorem Whole.bounded_make {rf : Raft n C D} (h : Whole rf) :
    Bounded (Raft.make rf.persister) := by
  obtain ⟨happlied, hcommit⟩ := make_indexes (C := C) rf.persister
  have hpos := h.log.length_pos
  refine h.make.bounded_iff.mpr ⟨?_, ?_, ?_⟩
  · rw [happlied, baseIndex, make_persister]
  · rw [happlied, hcommit]
  · rw [hcommit, h.make_log, baseIndex, make_persister]
    omega

/-- What `AppendEntries` makes of the bounds when it takes the entries. -/
theorem bounded_accepted_iff {rf rf' : Raft n C D} {args : AppendEntriesArgs n C}
    {reply : Option AppendEntriesReply} (hwhole : Whole rf) (hwhole' : Whole rf')
    (hbounded : Bounded rf) (haccepts : rf.accepts args = true)
    (hcore : AppendCore rf args rf' reply) :
    Bounded rf' ↔ ReachesCommitted rf args := by
  obtain ⟨hlow, hmiddle, hhigh⟩ := hwhole.bounded_iff.mp hbounded
  obtain ⟨haccepted, _⟩ := hcore.accepted_of haccepts hwhole hwhole'
  have hlength := haccepted.length_log
  have hbase := haccepted.base_eq
  rw [hwhole'.bounded_iff, haccepted.applied_eq, haccepted.commit_eq]
  unfold ReachesCommitted raisedCommit
  rw [forall_prop_of_true haccepts]
  split <;> omega

theorem Bounded.core {s : Cluster n C D} {a : Action n C D} {i : Fin n} {rf : Raft n C D}
    (hwhole : WholeCluster s) (hbounded : Bounded (s.rafts i))
    (hservice : SnapshotsApplied s a) (hkeeps : KeepsCommitted s a)
    (hstep : CoreStep s a i rf) : Bounded rf := by
  have hold := hwhole.servers i
  have hnew := Whole.step hwhole hstep
  obtain ⟨hlow, hmiddle, hhigh⟩ := hold.bounded_iff.mp hbounded
  cases hstep with
  | kept hlog happlied hcommit _ hstores =>
      obtain ⟨base, last, hbounds⟩ := hbounded
      exact ⟨base, last, by rwa [hlog, happlied, hcommit]⟩
  | committed commit chan loop hform hle hlast =>
      obtain ⟨base, last, hbase, hlast', hbounds⟩ := hbounded
      rw [hform]
      refine ⟨base, last, hbase, hlast', hbounds.1, Nat.le_trans hbounds.2.1 hle, ?_⟩
      rcases hlast with rfl | ⟨last'', hlast'', hcommit⟩
      · exact hbounds.2.2
      · rw [hlast'] at hlast''
        obtain rfl := Option.some.inj hlast''
        exact hcommit
  | applied done chan hform hdone =>
      obtain ⟨base, last, hbase, hlast, hbounds⟩ := hbounded
      rw [hform]
      refine ⟨base, last, hbase, hlast, Nat.le_trans hbounds.1 (Nat.le_add_right _ _), ?_,
        hbounds.2.2⟩
      dsimp only
      omega
  | started command last _ hlast hform =>
      refine hnew.bounded_iff.mpr ?_
      rw [hform]
      refine ⟨hlow, hmiddle, ?_⟩
      rw [persist_log, persist_commitIndex, List.length_append]
      exact Nat.lt_of_lt_of_le hhigh (Nat.add_le_add_left (Nat.le_add_right _ _) _)
  | snapshotted snapshot index base last entry log hact hbase hlast hlowIndex hhighIndex _
      hlog hform =>
      subst hact
      have hindex := hold.last hlast
      rw [hold.log.head] at hbase
      obtain rfl := Option.some.inj hbase
      change (s.rafts i).baseIndex < index at hlowIndex
      refine hnew.bounded_iff.mpr ?_
      rw [hform, hlog]
      refine ⟨hservice, hmiddle, ?_⟩
      change (s.rafts i).commitIndex < index +
        ((s.rafts i).log.drop (index + 1 - (s.rafts i).baseIndex)).length.succ
      rw [List.length_drop]
      omega
  | appended k call hact hcall hserver hcore =>
      subst hact hserver
      cases haccepts : (s.rafts call.server).accepts call.args with
      | true =>
          exact (bounded_accepted_iff hold hnew hbounded haccepts hcore).mpr
            (hkeeps call hcall)
      | false =>
          obtain ⟨base, last, hbase, hlast, hbounds⟩ := hbounded
          generalize ((s.rafts call.server).appendEntries call.args).2 = reply at hcore
          cases hcore with
          | rejected =>
              exact ⟨base, last, by simpa using hbase, by simpa using hlast,
                by simpa using hbounds⟩
          | below _ base' last' _ _ hlast' =>
              rw [hlast] at hlast'
              obtain rfl := Option.some.inj hlast'
              refine ⟨base, last, hbase, hlast, ?_⟩
              rw [persist_lastApplied, persist_commitIndex]
              dsimp only
              rw [observeTerm_lastApplied]
              unfold raisedCommit
              split <;> omega
          | accepted htrue =>
              rw [haccepts] at htrue
              cases htrue
  | installed k call _ hcall _ _ hform =>
      have hinstall := hwhole.installs call (List.mem_of_getElem? hcall)
      have hpos := hnew.log.length_pos
      refine hnew.bounded_iff.mpr ?_
      have hbase : rf.baseIndex = call.args.lastIncludedIndex := by
        rw [baseIndex, hform, persist_snapshot]
        dsimp only
        rw [hinstall]
      have happlied : rf.lastApplied = call.args.lastIncludedIndex := by
        rw [hform]
        rfl
      have hcommit : rf.commitIndex = call.args.lastIncludedIndex := by
        rw [hform]
        rfl
      omega

theorem bounded_step {s s' : Cluster n C D} {a : Action n C D} (hwhole : WholeCluster s)
    (hbounded : ∀ i, Bounded (s.rafts i)) (hservice : SnapshotsApplied s a)
    (hstep : s.step a = some s') : (∀ i, Bounded (s'.rafts i)) ↔ KeepsCommitted s a := by
  constructor
  · intro hafter
    cases a with
    | appendEntries k =>
        intro call hcall haccepts
        have hcore := appendEntries_core (s.rafts call.server) call.args
        have hwhole' := Whole.step (a := .appendEntries k) hwhole
          (.appended k call rfl hcall rfl hcore)
        obtain ⟨_, hreply⟩ :=
          hcore.accepted_of haccepts (hwhole.servers call.server) hwhole'
        obtain ⟨reply, hreply⟩ := Option.isSome_iff_exists.mp hreply
        have hserver := hafter call.server
        rw [appendEntries_server hstep hcall hreply] at hserver
        exact (bounded_accepted_iff (hwhole.servers call.server) hwhole'
          (hbounded call.server) haccepts hcore).mp hserver haccepts
    | _ => exact trivial
  · intro hkeeps i
    refine (Cluster.servers_step (P := fun rf => Whole rf ∧ Bounded rf) hstep
      (fun j => ⟨hwhole.servers j, hbounded j⟩)
      (fun rf h => ⟨h.1.make, h.1.bounded_make⟩) ?_ i).2
    intro j rf eff hlocal
    have hcore := CoreStep.of_local hlocal
    exact ⟨.step hwhole hcore, (hbounded j).core hwhole hservice hkeeps hcore⟩

/-- The indexes stay in order in a run, and the loops in the log, exactly when no entries
are accepted that end below what the server has committed. -/
theorem indexes_safe_iff (run : ClusterRun n C D)
    (hservice : run.AllSteps SnapshotsApplied) :
    (∀ k, k ≤ run.length → ∀ i, IndexSafe i ((run.state k).rafts i)) ↔
      run.AllSteps KeepsCommitted := by
  constructor
  · intro hsafe k hk
    exact (bounded_step (whole_run run k (Nat.le_of_lt hk))
      (fun i => (hsafe k (Nat.le_of_lt hk) i).bounded) (hservice k hk) (run.steps k hk)).mp
      fun i => (hsafe (k + 1) hk i).bounded
  · intro hkeeps
    have hbounded : ∀ k, k ≤ run.length → ∀ i, Bounded ((run.state k).rafts i) := by
      refine run.induct ?_ ?_
      · rw [run.starts]
        exact fun i => ⟨⟨0, 0, none⟩, ⟨0, 0, none⟩, rfl, rfl, Nat.le_refl 0, Nat.le_refl 0,
          Nat.le_refl 0⟩
      · intro k hk ih
        exact (bounded_step (whole_run run k (Nat.le_of_lt hk)) ih (hservice k hk)
          (run.steps k hk)).mpr (hkeeps k hk)
    intro k hk i
    exact ((whole_run run k hk).servers i).indexSafe (hbounded k hk i) i

theorem indexes_safe_first : IndexSafe 1 ((firstDeliveryRun.state 22).rafts 1) :=
  (indexes_safe_iff firstDeliveryRun (by decide +kernel)).mpr (by decide +kernel) 22
    (by decide) 1

/-- The leader sends one entry, then two, and commits both. Server 1 takes the second
request and hears that both are committed, and the first request comes late. -/
def cutCommitted : List (Action 3 Nat Unit) :=
  firstElection ++ [.start 0 10, .loop 0 .proceed, .loop 0 .proceed, .start 0 20,
    .loop 0 .proceed, .loop 0 .proceed, .appendEntries 2, .sendAppendEntries 2,
    .loop 0 .proceed, .loop 0 .proceed, .appendEntries 4, .appendEntries 0]

theorem cutCommitted_exec : (Lib.exec Cluster.step (Cluster.init 3 Nat Unit)
    cutCommitted).isSome := by
  decide +kernel

def cutCommittedRun : ClusterRun 3 Nat Unit := Lib.Run.ofActions cutCommitted cutCommitted_exec

/-- Server 1 has committed two entries and holds one, and its goroutine that applies
panics. -/
theorem indexes_unsafe : ¬ ∀ run : ClusterRun 3 Nat Unit, run.AllSteps SnapshotsApplied →
    ∀ k, k ≤ run.length → ∀ i, IndexSafe i ((run.state k).rafts i) := by
  intro hall
  have hsafe := hall cutCommittedRun (by decide +kernel) 24 (by decide) 1
  have hpanicked : ((cutCommittedRun.state 24).rafts 1).applyCommitted.map
      (fun out => out.2.panicked) = some true := by
    decide +kernel
  obtain ⟨⟨rf, eff⟩, hout, htrue⟩ := Option.map_eq_some_iff.mp hpanicked
  rw [hsafe.applies rf eff hout] at htrue
  cases htrue

end BlockchainTutorial.Raft
