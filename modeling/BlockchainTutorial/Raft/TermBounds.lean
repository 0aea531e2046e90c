import BlockchainTutorial.Raft.Safety
import BlockchainTutorial.Raft.Stored

namespace BlockchainTutorial.Raft

/-! The terms of a log, and the term of the server that holds it. -/

variable {n : Nat} {C D : Type}

def Ascending (log : List (LogEntry C)) : Prop :=
  log.Pairwise fun a b => a.logTerm ≤ b.logTerm

structure TermsBound (rf : Raft n C D) : Prop where
  ascending : Ascending rf.log
  last_le : ∀ last ∈ rf.log.getLast?, last.logTerm ≤ rf.currentTerm

/-! Ascending logs. -/

namespace Ascending

variable {log : List (LogEntry C)}

theorem get_le (h : Ascending log) {k l : Nat} {a b : LogEntry C} (hle : k ≤ l)
    (ha : log[k]? = some a) (hb : log[l]? = some b) : a.logTerm ≤ b.logTerm := by
  obtain ⟨hk, rfl⟩ := List.getElem?_eq_some_iff.mp ha
  obtain ⟨hl, rfl⟩ := List.getElem?_eq_some_iff.mp hb
  rcases Nat.eq_or_lt_of_le hle with rfl | hlt
  · exact Nat.le_refl _
  · exact List.pairwise_iff_getElem.mp h k l hk hl hlt

theorem drop (h : Ascending log) (count : Nat) : Ascending (log.drop count) :=
  List.Pairwise.drop h

theorem take (h : Ascending log) (count : Nat) : Ascending (log.take count) :=
  List.Pairwise.take h

theorem le_of_mem_drop (h : Ascending log) {k : Nat} {entry later : LogEntry C}
    (hentry : log[k]? = some entry) (hlater : later ∈ log.drop (k + 1)) :
    entry.logTerm ≤ later.logTerm := by
  obtain ⟨j, hj⟩ := List.mem_iff_getElem?.mp hlater
  rw [List.getElem?_drop] at hj
  exact h.get_le (by omega) hentry hj

theorem le_of_mem_take (h : Ascending log) {k : Nat} {entry earlier : LogEntry C}
    (hentry : log[k]? = some entry) (hearlier : earlier ∈ log.take (k + 1)) :
    earlier.logTerm ≤ entry.logTerm := by
  obtain ⟨j, hj⟩ := List.mem_iff_getElem?.mp hearlier
  have hlength := (List.getElem?_eq_some_iff.mp hj).1
  rw [List.length_take] at hlength
  exact h.get_le (by omega) (getElem?_mono (List.take_prefix _ log) hj) hentry

theorem append {back : List (LogEntry C)} (h : Ascending log) (hback : Ascending back)
    (hle : ∀ a ∈ log, ∀ b ∈ back, a.logTerm ≤ b.logTerm) : Ascending (log ++ back) :=
  List.pairwise_append.mpr ⟨h, hback, hle⟩

theorem cons {entry : LogEntry C} (h : Ascending log)
    (hle : ∀ b ∈ log, entry.logTerm ≤ b.logTerm) : Ascending (entry :: log) :=
  List.pairwise_cons.mpr ⟨hle, h⟩

/-- The log that is cut off in front of the entry at `k`. -/
theorem cut (h : Ascending log) {k : Nat} {entry : LogEntry C}
    (hentry : log[k]? = some entry) (index : Nat) :
    Ascending (⟨index, entry.logTerm, none⟩ :: log.drop (k + 1)) :=
  (h.drop _).cons fun later hlater =>
    show entry.logTerm ≤ later.logTerm from h.le_of_mem_drop hentry hlater

end Ascending

/-! What a server holds in terms of what it has stored. -/

structure TermOrder (rf : Raft n C D) : Prop where
  ascending : Ascending rf.log
  stored : ∀ entry ∈ rf.log, entry.logTerm ≤ storedTerm rf.persister
  term_le : storedTerm rf.persister ≤ rf.currentTerm

namespace TermOrder

variable {rf : Raft n C D}

theorem le_currentTerm (h : TermOrder rf) {entry : LogEntry C} (hentry : entry ∈ rf.log) :
    entry.logTerm ≤ rf.currentTerm :=
  Nat.le_trans (h.stored entry hentry) h.term_le

theorem termsBound (h : TermOrder rf) : TermsBound rf :=
  ⟨h.ascending, fun _ hlast => h.le_currentTerm (List.mem_of_getLast? hlast)⟩

/-- A server that has just stored what it holds. -/
theorem of_stored (hstored : storedTerm rf.persister = rf.currentTerm)
    (hascending : Ascending rf.log)
    (hle : ∀ entry ∈ rf.log, entry.logTerm ≤ rf.currentTerm) : TermOrder rf :=
  ⟨hascending, by rwa [hstored], Nat.le_of_eq hstored⟩

theorem make (h : TermOrder rf) (hwhole : Whole rf) : TermOrder (make rf.persister) := by
  refine ⟨?_, ?_, ?_⟩
  · rw [hwhole.make_log]
    exact h.ascending
  · rw [hwhole.make_log, make_persister]
    exact h.stored
  · rw [make_persister, make_currentTerm]

end TermOrder

theorem Stores.storedTerm_eq {old rf : Raft n C D} (h : Stores old rf) :
    storedTerm rf.persister = storedTerm old.persister ∨
      storedTerm rf.persister = rf.currentTerm := by
  rcases h with heq | heq
  · exact .inl (by rw [heq])
  · exact .inr (by rw [heq]; rfl)

structure OrderedCluster (s : Cluster n C D) : Prop where
  servers : ∀ i, TermOrder (s.rafts i)
  appends : ∀ call ∈ s.appendEntries, Ascending call.args.entries ∧
    ∀ entry ∈ call.args.entries,
      call.args.prevLogTerm ≤ entry.logTerm ∧ entry.logTerm ≤ call.args.term
  installs : ∀ call ∈ s.installSnapshots, call.args.lastIncludedTerm ≤ call.args.term

/-! What the terms need of a step. -/

/-- Entries that are taken right behind the base of the log, where `AppendEntries` looks
at no term, do not start with an older one than that of the base. -/
def FollowsBase (rf : Raft n C D) (args : AppendEntriesArgs n C) : Prop :=
  rf.accepts args = true → ∀ base ∈ rf.log.head?, args.prevLogIndex = base.logIndex →
    ∀ first ∈ args.entries.head?, base.logTerm ≤ first.logTerm

instance (rf : Raft n C D) (args : AppendEntriesArgs n C) :
    Decidable (FollowsBase rf args) :=
  inferInstanceAs (Decidable (_ → ∀ base ∈ rf.log.head?, _ →
    ∀ first ∈ args.entries.head?, _))

/-- No snapshot is installed from a newer term. -/
def KeepsTerms (s : Cluster n C D) : Action n C D → Prop
  | .appendEntries k => ∀ call ∈ s.appendEntries[k]?,
      FollowsBase (s.rafts call.server) call.args
  | .installSnapshot k => ∀ call ∈ s.installSnapshots[k]?,
      call.args.term ≤ (s.rafts call.server).currentTerm
  | _ => True

instance (s : Cluster n C D) : (a : Action n C D) → Decidable (KeepsTerms s a)
  | .appendEntries k => inferInstanceAs (Decidable (∀ call ∈ s.appendEntries[k]?, _))
  | .installSnapshot k => inferInstanceAs (Decidable (∀ call ∈ s.installSnapshots[k]?, _))
  | .start .. | .loop .. | .boatcastRequestVote .. | .applyCommitted .. | .applySnapshot ..
  | .requestVote .. | .sendRequestVote .. | .startSnapshot .. | .sendAppendEntries ..
  | .sendInstallSnapshot .. | .restart .. => inferInstanceAs (Decidable True)

/-- Taken entries follow the log that is kept of them, exactly when they follow its
base. -/
theorem ascending_accepted_iff {rf rf' : Raft n C D} {args : AppendEntriesArgs n C}
    (hwhole : Whole rf) (horder : TermOrder rf) (haccepts : rf.accepts args = true)
    (haccepted : Accepted rf args rf') (hentries : Ascending args.entries)
    (hprev : ∀ entry ∈ args.entries, args.prevLogTerm ≤ entry.logTerm) :
    Ascending rf'.log ↔ FollowsBase rf args := by
  have hlow := haccepted.base_le
  rw [haccepted.log_eq]
  constructor
  · intro hascending _ base hbase hat first hfirst
    rw [Option.mem_def, hwhole.log.head] at hbase
    obtain rfl := Option.some.inj hbase
    refine (List.pairwise_append.mp hascending).2.2 _ ?_ first (List.mem_of_head? hfirst)
    rw [hwhole.log.eq_cons, hat, baseIndex, Nat.add_sub_cancel_left]
    exact List.mem_cons_self
  · intro hfollows
    refine (horder.ascending.take _).append hentries fun a ha b hb => ?_
    rcases Nat.eq_or_lt_of_le hlow with hat | habove
    · rw [← hat, Nat.add_sub_cancel_left, hwhole.log.eq_cons] at ha
      obtain rfl := List.mem_singleton.mp ha
      cases hcons : args.entries with
      | nil =>
          rw [hcons] at hb
          cases hb
      | cons first rest =>
          have hfirst := hfollows haccepts _ hwhole.log.head hat.symm first (by rw [hcons]; rfl)
          rw [hcons] at hb hentries
          rcases List.mem_cons.mp hb with rfl | hrest
          · exact hfirst
          · exact Nat.le_trans hfirst ((List.pairwise_cons.mp hentries).1 b hrest)
    · obtain ⟨prev, hget, hterm⟩ := haccepted.prev habove
      rw [Nat.sub_add_comm hlow] at ha
      refine Nat.le_trans (horder.ascending.le_of_mem_take hget ha) ?_
      rw [hterm]
      exact hprev b hb

/-- What `AppendEntries` stores is at most as new as the request. -/
theorem accepted_terms_le {rf rf' : Raft n C D} {args : AppendEntriesArgs n C}
    (horder : TermOrder rf) (haccepted : Accepted rf args rf')
    (hle : ∀ entry ∈ args.entries, entry.logTerm ≤ args.term) :
    ∀ entry ∈ rf'.log, entry.logTerm ≤ rf'.currentTerm := by
  intro entry hentry
  rw [haccepted.term_eq]
  rw [haccepted.log_eq] at hentry
  rcases List.mem_append.mp hentry with hkept | hnew
  · exact Nat.le_trans (horder.le_currentTerm (List.mem_of_mem_take hkept)) haccepted.term_le
  · exact hle entry hnew

theorem TermOrder.observe {rf : Raft n C D} (h : TermOrder rf) (term : Nat) :
    ∀ entry ∈ rf.log, entry.logTerm ≤ (rf.observeTerm term).currentTerm :=
  fun _ hentry => Nat.le_trans (h.le_currentTerm hentry) (observeTerm_le rf term)

theorem TermOrder.append {s : Cluster n C D} {i : Fin n} {rf : Raft n C D}
    {args : AppendEntriesArgs n C} {reply : Option AppendEntriesReply}
    (hwhole : Whole (s.rafts i)) (hnew : Whole rf) (h : TermOrder (s.rafts i))
    (hentries : Ascending args.entries)
    (hterms : ∀ entry ∈ args.entries,
      args.prevLogTerm ≤ entry.logTerm ∧ entry.logTerm ≤ args.term)
    (hfollows : FollowsBase (s.rafts i) args)
    (hcore : AppendCore (s.rafts i) args rf reply) : TermOrder rf := by
  cases haccepts : (s.rafts i).accepts args with
  | true =>
      obtain ⟨haccepted, _⟩ := hcore.accepted_of haccepts hwhole hnew
      refine .of_stored (by cases hcore <;> rfl) ?_
        (accepted_terms_le h haccepted fun entry hentry => (hterms entry hentry).2)
      exact (ascending_accepted_iff hwhole h haccepts haccepted hentries fun entry hentry =>
        (hterms entry hentry).1).mpr hfollows
  | false =>
      cases hcore with
      | rejected =>
          refine .of_stored rfl ?_ ?_
          · rw [persist_log]
            dsimp only
            rw [observeTerm_log]
            exact h.ascending
          · rw [persist_log]
            dsimp only
            rw [observeTerm_log]
            exact h.observe args.term
      | below => exact .of_stored rfl h.ascending (h.observe args.term)
      | accepted htrue =>
          rw [haccepts] at htrue
          cases htrue

theorem TermOrder.core {s : Cluster n C D} {a : Action n C D} {i : Fin n}
    {rf : Raft n C D} (hwhole : WholeCluster s) (hordered : OrderedCluster s)
    (hkeeps : KeepsTerms s a) (hstep : CoreStep s a i rf) : TermOrder rf := by
  have hold := hordered.servers i
  have hnew := Whole.step hwhole hstep
  cases hstep with
  | kept hlog _ _ hterm hstores =>
      rcases hstores.storedTerm_eq with heq | heq
      · refine ⟨by rw [hlog]; exact hold.ascending, ?_, ?_⟩
        · rw [hlog, heq]
          exact hold.stored
        · rw [heq]
          exact Nat.le_trans hold.term_le hterm
      · refine .of_stored heq (by rw [hlog]; exact hold.ascending) fun entry hentry => ?_
        rw [hlog] at hentry
        exact Nat.le_trans (hold.le_currentTerm hentry) hterm
  | committed commit chan loop hform =>
      rw [hform]
      exact ⟨hold.ascending, hold.stored, hold.term_le⟩
  | applied done chan hform =>
      rw [hform]
      exact ⟨hold.ascending, hold.stored, hold.term_le⟩
  | started command last _ hlast hform =>
      rw [hform]
      refine .of_stored rfl (hold.ascending.append (List.pairwise_singleton _ _) ?_) ?_
      · intro a ha b hb
        obtain rfl := List.mem_singleton.mp hb
        exact hold.le_currentTerm ha
      · intro entry hentry
        rcases List.mem_append.mp hentry with hkept | hadded
        · exact hold.le_currentTerm hkept
        · obtain rfl := List.mem_singleton.mp hadded
          exact Nat.le_refl _
  | snapshotted snapshot index base last entry log _ hbase _ hlow _ hentry hlog hform =>
      rw [hform, hlog]
      refine .of_stored rfl ?_ ?_
      · dsimp only
        rw [Nat.sub_add_comm (Nat.le_of_lt hlow)]
        exact hold.ascending.cut hentry index
      · intro kept hkept
        rcases List.mem_cons.mp hkept with rfl | hkept
        · have hterm := hold.le_currentTerm (List.mem_of_getElem? hentry)
          exact hterm
        · exact hold.le_currentTerm (List.mem_of_mem_drop hkept)
  | appended k call hact hcall hserver hcore =>
      subst hact hserver
      obtain ⟨hentries, hterms⟩ := hordered.appends call (List.mem_of_getElem? hcall)
      exact .append (hwhole.servers call.server) hnew hold hentries hterms
        (hkeeps call hcall) hcore
  | installed k call hact hcall hserver _ hform =>
      subst hact hserver
      have hterm : call.args.lastIncludedTerm ≤ (s.rafts call.server).currentTerm :=
        Nat.le_trans (hordered.installs call (List.mem_of_getElem? hcall)) (hkeeps call hcall)
      have hcases := (hwhole.servers call.server).log.truncateLog_cases
        call.args.lastIncludedIndex call.args.lastIncludedTerm
      rw [hform]
      refine .of_stored rfl ?_ ?_
      · change Ascending (truncateLog _ _ _)
        rcases hcases with ⟨entry, hlow, hentry, hat, heq⟩ | ⟨_, heq⟩
        · rw [heq, ← hat, Nat.sub_add_comm hlow]
          exact hold.ascending.cut hentry _
        · rw [heq]
          exact List.pairwise_singleton _ _
      · intro kept hkept
        change kept ∈ truncateLog _ _ _ at hkept
        rcases hcases with ⟨_, _, _, _, heq⟩ | ⟨_, heq⟩
        · rw [heq] at hkept
          rcases List.mem_cons.mp hkept with rfl | hkept
          · exact hterm
          · exact hold.le_currentTerm (List.mem_of_mem_drop hkept)
        · rw [heq] at hkept
          obtain rfl := List.mem_singleton.mp hkept
          exact hterm

theorem orderedCluster_init : OrderedCluster (Cluster.init n C D) :=
  ⟨fun _ => .of_stored rfl (List.pairwise_singleton _ _) (by
    intro entry hentry
    obtain rfl := List.mem_singleton.mp hentry
    exact Nat.le_refl 0), nofun, nofun⟩

theorem OrderedCluster.step {s s' : Cluster n C D} {a : Action n C D}
    (hwhole : WholeCluster s) (hordered : OrderedCluster s) (hkeeps : KeepsTerms s a)
    (hstep : s.step a = some s') : OrderedCluster s' := by
  refine ⟨fun i => ?_, fun call' hmem => ?_, fun call' hmem => ?_⟩
  · -- A server that starts again reads back what it held, since that is what it has stored.
    refine (Cluster.servers_step (P := fun rf => Whole rf ∧ TermOrder rf) hstep
      (fun j => ⟨hwhole.servers j, hordered.servers j⟩)
      (fun rf h => ⟨h.1.make, h.2.make h.1⟩) ?_ i).2
    intro j rf eff hlocal
    have hcore := CoreStep.of_local hlocal
    exact ⟨.step hwhole hcore, .core hwhole hordered hkeeps hcore⟩
  · rcases appendEntries_step hstep hmem with ⟨call, hcall, hchange⟩ | ⟨_, _, _, hsent⟩
    · rw [hchange.args_eq]
      exact hordered.appends call hcall
    · obtain ⟨commit, chan, hform⟩ :=
        boatcastAppendEntries_fst call'.caller (s.rafts call'.caller)
      rw [hform] at hsent
      obtain ⟨base, prev, hbase, hnext, hprev, hterm, hentries⟩ := hsent.slice
      have horder := hordered.servers call'.caller
      have hindex := hsent.prevLogIndex_eq
      dsimp only at hbase hnext hprev hentries hindex
      rw [hentries, hterm, hsent.term_eq]
      refine ⟨horder.ascending.drop _, fun entry hentry => ⟨?_, ?_⟩⟩
      · rw [Nat.sub_add_comm (by omega)] at hentry
        exact horder.ascending.le_of_mem_drop hprev hentry
      · exact horder.le_currentTerm (List.mem_of_mem_drop hentry)
  · rcases installSnapshots_step hstep hmem with ⟨call, hcall, hargs⟩ | ⟨base, hbase, hargs⟩
    · rw [← hargs]
      exact hordered.installs call hcall
    · rw [hargs]
      exact (hordered.servers call'.caller).le_currentTerm (List.mem_of_head? hbase)

/-! Newer terms. -/

def AdoptsTerm (s s' : Cluster n C D) (server : Fin n) (term : Nat) : Prop :=
  (s.rafts server).currentTerm < term → (s'.rafts server).currentTerm = term

/-- The server of an RPC from a newer term is in that term once it has handled it. -/
def Adopts (s s' : Cluster n C D) : Action n C D → Prop
  | .requestVote k => ∀ call ∈ s.requestVotes[k]?, AdoptsTerm s s' call.server call.args.term
  | .appendEntries k => ∀ call ∈ s.appendEntries[k]?,
      AdoptsTerm s s' call.server call.args.term
  | .installSnapshot k => ∀ call ∈ s.installSnapshots[k]?,
      AdoptsTerm s s' call.server call.args.term
  | _ => True

theorem requestVote_adopts (rf : Raft n C D) {args : RequestVoteArgs n}
    (hlt : rf.currentTerm < args.term) : (rf.requestVote args).1.currentTerm = args.term ∧
      storedTerm (rf.requestVote args).1.persister = args.term := by
  have hterm := observeTerm_currentTerm (Nat.le_of_lt hlt)
  rcases requestVote_cases rf args with ⟨hold, _⟩ | ⟨_, _, _, hout⟩ | ⟨_, _, _, _, _, hout⟩
  · omega
  · rw [hout]
    exact ⟨hterm, hterm⟩
  · rw [hout]
    exact ⟨hterm, hterm⟩

theorem appendEntries_adopts (rf : Raft n C D) {args : AppendEntriesArgs n C}
    (hlt : rf.currentTerm < args.term) : (rf.appendEntries args).1.currentTerm = args.term ∧
      storedTerm (rf.appendEntries args).1.persister = args.term := by
  have hterm := observeTerm_currentTerm (Nat.le_of_lt hlt)
  have hcore := appendEntries_core rf args
  generalize (rf.appendEntries args).1 = rf', (rf.appendEntries args).2 = reply at hcore
  cases hcore <;> exact ⟨hterm, hterm⟩

theorem moved_adopts {s : Cluster n C D} {i : Fin n} {rf : Raft n C D}
    {eff : Effects n C D} {term : Nat} (h : rf.currentTerm = term ∧
      storedTerm rf.persister = term) : ((s.moved i rf eff).rafts i).currentTerm = term := by
  rw [Cluster.moved_rafts_self]
  split
  · rw [make_currentTerm]
    exact h.2
  · exact h.1

theorem installed_term {s s' : Cluster n C D} {k : Nat}
    {call : Rpc n (InstallSnapshotArgs n D) InstallSnapshotReply}
    (hstep : s.step (.installSnapshot k) = some s')
    (hcall : s.installSnapshots[k]? = some call) :
    (s'.rafts call.server).currentTerm = (s.rafts call.server).currentTerm := by
  rw [Cluster.step_installSnapshot_eq hstep hcall, Cluster.moved_rafts_self,
    if_neg Bool.false_ne_true, Raft.installSnapshot]
  split <;> rfl

theorem adopts_step {s s' : Cluster n C D} {a : Action n C D} (hkeeps : KeepsTerms s a)
    (hstep : s.step a = some s') : Adopts s s' a := by
  cases a with
  | requestVote k =>
      intro call hcall hlt
      rw [Cluster.step_requestVote_eq hstep hcall]
      exact moved_adopts (requestVote_adopts _ hlt)
  | appendEntries k =>
      intro call hcall hlt
      rw [Cluster.step_appendEntries_eq hstep hcall]
      exact moved_adopts (appendEntries_adopts _ hlt)
  | installSnapshot k =>
      intro call hcall hlt
      exact absurd (hkeeps call hcall) (Nat.not_le.mpr hlt)
  | _ => exact trivial

/-! Runs. -/

structure TermsBoundLogs (run : ClusterRun n C D) : Prop where
  bound : ∀ k, k ≤ run.length → ∀ i, TermsBound ((run.state k).rafts i)
  adopts : ∀ k, k < run.length → Adopts (run.state k) (run.state (k + 1)) (run.act k)

theorem orderedCluster_run {run : ClusterRun n C D} (hkeeps : run.AllSteps KeepsTerms) :
    ∀ k, k ≤ run.length → OrderedCluster (run.state k) := by
  refine run.induct ?_ ?_
  · rw [run.starts]
    exact orderedCluster_init
  · intro k hk ih
    exact .step (whole_run run k (Nat.le_of_lt hk)) ih (hkeeps k hk) (run.steps k hk)

/-- Entries that do not follow the base leave a log that does not ascend. -/
theorem followsBase_of_ascending {s s' : Cluster n C D} {k : Nat}
    {call : Rpc n (AppendEntriesArgs n C) AppendEntriesReply} (hwhole : WholeCluster s)
    (hordered : OrderedCluster s) (hstep : s.step (.appendEntries k) = some s')
    (hcall : s.appendEntries[k]? = some call)
    (hascending : Ascending (s'.rafts call.server).log) :
    FollowsBase (s.rafts call.server) call.args := by
  intro haccepts
  have hcore := appendEntries_core (s.rafts call.server) call.args
  have hnew := Whole.step (a := .appendEntries k) hwhole (.appended k call rfl hcall rfl hcore)
  obtain ⟨haccepted, hreply⟩ := hcore.accepted_of haccepts (hwhole.servers _) hnew
  obtain ⟨reply, hreply⟩ := Option.isSome_iff_exists.mp hreply
  obtain ⟨hentries, hterms⟩ := hordered.appends call (List.mem_of_getElem? hcall)
  rw [appendEntries_server hstep hcall hreply] at hascending
  exact (ascending_accepted_iff (hwhole.servers _) (hordered.servers _) haccepts haccepted
    hentries fun entry hentry => (hterms entry hentry).1).mp hascending haccepts

theorem keepsTerms_step {s s' : Cluster n C D} {a : Action n C D} (hwhole : WholeCluster s)
    (hordered : OrderedCluster s) (hstep : s.step a = some s')
    (hbound : ∀ i, TermsBound (s'.rafts i)) (hadopts : Adopts s s' a) : KeepsTerms s a := by
  cases a with
  | appendEntries k =>
      intro call hcall
      exact followsBase_of_ascending hwhole hordered hstep hcall
        (hbound call.server).ascending
  | installSnapshot k =>
      intro call hcall
      by_contra hlt
      have hterm := hadopts call hcall (Nat.lt_of_not_le hlt)
      rw [installed_term hstep hcall] at hterm
      omega
  | _ => exact trivial

/-- Terms bound the logs of a run exactly when no snapshot is installed from a newer term
and no entries are taken that are older than the base they follow. -/
theorem terms_bound_iff (run : ClusterRun n C D) :
    TermsBoundLogs run ↔ run.AllSteps KeepsTerms := by
  constructor
  · intro hbound
    have hboth : ∀ k, k ≤ run.length → OrderedCluster (run.state k) ∧
        ∀ j, j < k → KeepsTerms (run.state j) (run.act j) := by
      refine run.induct ?_ ?_
      · rw [run.starts]
        exact ⟨orderedCluster_init, nofun⟩
      · intro k hk ih
        have hwhole := whole_run run k (Nat.le_of_lt hk)
        have hkeeps := keepsTerms_step hwhole ih.1 (run.steps k hk) (hbound.bound (k + 1) hk)
          (hbound.adopts k hk)
        refine ⟨.step hwhole ih.1 hkeeps (run.steps k hk), fun j hj => ?_⟩
        rcases Nat.lt_succ_iff_lt_or_eq.mp hj with hlt | rfl
        · exact ih.2 j hlt
        · exact hkeeps
    intro k hk
    exact (hboth run.length (Nat.le_refl _)).2 k hk
  · intro hkeeps
    refine ⟨fun k hk i => ((orderedCluster_run hkeeps k hk).servers i).termsBound, fun k hk => ?_⟩
    exact adopts_step (hkeeps k hk) (run.steps k hk)

/-- The leader of term 1 applies index 1 and takes a snapshot, and sends it to server 2,
which is still in term 0. -/
def newerSnapshot : List (Action 3 Nat Unit) :=
  firstElection ++ [.start 0 10, .loop 0 .proceed, .loop 0 .proceed, .appendEntries 0,
    .sendAppendEntries 0, .loop 0 .proceed, .loop 0 .proceed, .applyCommitted 0,
    .startSnapshot 0 () 1, .loop 0 .proceed, .loop 0 .proceed, .installSnapshot 0]

theorem newerSnapshot_exec : (Lib.exec Cluster.step (Cluster.init 3 Nat Unit)
    newerSnapshot).isSome := by
  decide +kernel

def newerSnapshotRun : ClusterRun 3 Nat Unit :=
  Lib.Run.ofActions newerSnapshot newerSnapshot_exec

/-- Server 2 stays in term 0, with a log of term 1. -/
theorem not_terms_bound : ¬ ∀ run : ClusterRun 3 Nat Unit, TermsBoundLogs run := by
  intro hall
  have hlast := ((hall newerSnapshotRun).bound newerSnapshotRun.length (Nat.le_refl _) 2).last_le
  revert hlast
  decide +kernel

end BlockchainTutorial.Raft
