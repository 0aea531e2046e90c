import BlockchainTutorial.Raft.Completeness

namespace BlockchainTutorial.Raft

variable {n : Nat} {C D : Type}

/-! Replication. What a leader has in `matchIndex` its followers have held, so
that an index which the commit loop takes is held by a majority. -/

/-! The commit loop. -/

theorem countFold_spec (me : Fin n) (rf : Raft n C D) (i : Nat) (peers : List (Fin n))
    {start num : Nat}
    (h : peers.foldlM (fun num j =>
      if j ≠ me ∧ rf.matchIndex j ≥ i then
        (rf.entryAt i).map fun entry =>
          if entry.logTerm = rf.currentTerm then num + 1 else num
      else some num) start = some num) :
    num ≤ start + (peers.filter fun j => decide (j ≠ me ∧ rf.matchIndex j ≥ i)).length ∧
      (start < num → ∃ entry, rf.entryAt i = some entry ∧
        entry.logTerm = rf.currentTerm) := by
  induction peers generalizing start with
  | nil =>
      obtain rfl : start = num := by simpa using h
      exact ⟨Nat.le_refl _, fun hlt => absurd hlt (Nat.lt_irrefl _)⟩
  | cons j peers ih =>
      rw [List.foldlM_cons] at h
      obtain ⟨next, hnext, hrest⟩ := Option.bind_eq_some_iff.mp h
      obtain ⟨hle, hterm⟩ := ih hrest
      by_cases hj : j ≠ me ∧ rf.matchIndex j ≥ i
      · rw [if_pos hj] at hnext
        obtain ⟨entry, hentry, rfl⟩ := Option.map_eq_some_iff.mp hnext
        rw [List.filter_cons_of_pos (by simpa using hj), List.length_cons]
        by_cases hsame : entry.logTerm = rf.currentTerm
        · rw [if_pos hsame] at hle
          exact ⟨by omega, fun _ => ⟨entry, hentry, hsame⟩⟩
        · rw [if_neg hsame] at hle hterm
          exact ⟨by omega, hterm⟩
      · rw [if_neg hj] at hnext
        obtain rfl := Option.some.inj hnext
        rw [List.filter_cons_of_neg (by simpa using hj)]
        exact ⟨hle, hterm⟩

def matchedPeers (me : Fin n) (rf : Raft n C D) (i : Nat) : Finset (Fin n) :=
  Finset.univ.filter fun j => j ≠ me ∧ rf.matchIndex j ≥ i

theorem countReplicas_spec {me : Fin n} {rf : Raft n C D} {i num : Nat}
    (h : rf.countReplicas me i = some num) :
    num ≤ 1 + (matchedPeers me rf i).card ∧
      (1 < num → ∃ entry, rf.entryAt i = some entry ∧
        entry.logTerm = rf.currentTerm) := by
  obtain ⟨hle, hterm⟩ := countFold_spec me rf i (List.finRange n) h
  refine ⟨?_, hterm⟩
  have hcard : (matchedPeers me rf i).card =
      ((List.finRange n).filter fun j => decide (j ≠ me ∧ rf.matchIndex j ≥ i)).length := by
    rw [← List.toFinset_card_of_nodup ((List.nodup_finRange n).filter _)]
    congr 1
    ext j
    simp [matchedPeers]
  rwa [hcard]

/-- `boatcastAppendEntries` leaves `commitIndex`, or moves it on to an index that a
majority has matched. -/
theorem boatcastAppendEntries_commit (me : Fin n) (rf : Raft n C D) :
    (rf.boatcastAppendEntries me).1.commitIndex = rf.commitIndex ∨
    ∃ last num, rf.log.getLast? = some last ∧
      (rf.boatcastAppendEntries me).1.commitIndex ≤ last.logIndex ∧
      1 ≤ (rf.boatcastAppendEntries me).1.commitIndex ∧
      rf.countReplicas me (rf.boatcastAppendEntries me).1.commitIndex = some num ∧
      n < 2 * num := by
  unfold boatcastAppendEntries
  split
  · next base last hbase hlast =>
      split
      · exact .inl rfl
      · next N hN =>
          dsimp only
          split
          · rcases commitLoop_spec _ _ _ hN with heq | ⟨hlow, hhigh, num, hnum, hmajority⟩
            · exact .inl heq
            · exact .inr ⟨last, num, hlast, by dsimp only; omega, by dsimp only; omega,
                hnum, hmajority⟩
          · exact .inl rfl
  · exact .inl rfl

/-! Acknowledgements. -/

theorem appendEntries_server {s s' : Cluster n C D} {l : Nat}
    {call : Rpc n (AppendEntriesArgs n C) AppendEntriesReply} {reply : AppendEntriesReply}
    (hstep : s.step (.appendEntries l) = some s') (hcall : s.appendEntries[l]? = some call)
    (hreply : ((s.rafts call.server).appendEntries call.args).2 = some reply) :
    s'.rafts call.server = ((s.rafts call.server).appendEntries call.args).1 := by
  rw [Cluster.step_appendEntries_eq hstep hcall, Cluster.moved_rafts_self, hreply]
  rfl

section Replication

variable {run : ClusterRun n C D} (hno : run.AllSteps fun _ a => noStartSnapshot a)
  (hunique : UniqueLeaders run)

include hno hunique

/-- The server of a successful call has had the log that the call was cut from. -/
def Acknowledged (run : ClusterRun n C D) (k : Nat)
    (call : Rpc n (AppendEntriesArgs n C) AppendEntriesReply) : Prop :=
  ∃ j kv, j ≤ k ∧ Leads (run.state j) call.caller call.args.term ∧
    Describes ((run.state j).rafts call.caller).log call.args ∧ kv ≤ run.length ∧
    ((run.state kv).rafts call.server).currentTerm = call.args.term ∧
    ((run.state kv).rafts call.server).log = ((run.state j).rafts call.caller).log

theorem acknowledged_of_delivered {k l : Nat} (hk : k < run.length)
    {call : Rpc n (AppendEntriesArgs n C) AppendEntriesReply}
    (hact : run.act k = .appendEntries l)
    (hcall : (run.state k).appendEntries[l]? = some call) {reply : AppendEntriesReply}
    (hreply : (((run.state k).rafts call.server).appendEntries call.args).2 = some reply)
    (hsuccess : reply.success = true) : Acknowledged run (k + 1) call := by
  have hstep := run.steps k hk
  rw [hact] at hstep
  have hnext := appendEntries_server hstep hcall hreply
  have hplain := ((plain_run run hno k hk.le).servers call.server).log
  have houtcome := appendEntries_outcome ((run.state k).rafts call.server) call.args
  rw [hreply, ← hnext] at houtcome
  generalize hrf : (run.state (k + 1)).rafts call.server = rf at houtcome
  obtain ⟨_, j, hj, hleads, hdescribes⟩ :=
    appendEntries_sent run hno hk.le (List.mem_of_getElem? hcall)
  cases houtcome with
  | rejected _ _ hrejects =>
      rw [(hrejects reply rfl).1] at hsuccess
      cases hsuccess
  | below _ _ _ _ _ _ _ hfails =>
      rw [hfails reply rfl] at hsuccess
      cases hsuccess
  | accepted beats commit chan base last _ hterm hbase hlast _ habove hprev =>
      rw [hplain.head] at hbase
      obtain rfl := Option.some.inj hbase
      refine ⟨j, k + 1, by omega, hleads, hdescribes, hk, ?_, ?_⟩
      · rw [hrf]
        exact observeTerm_currentTerm hterm
      · rw [hrf]
        exact accepted_log hno hunique hk.le (by omega) (sourced_run hno hunique k hk.le _)
          (sourced_run hno hunique j (by omega) _) hdescribes hprev

theorem acknowledged_run : ∀ k, k ≤ run.length →
    ∀ call ∈ (run.state k).appendEntries, ∀ reply, call.reply = some reply →
      reply.success = true → Acknowledged run k call := by
  refine run.induct ?_ ?_
  · intro call hmem
    rw [run.starts] at hmem
    cases hmem
  · intro k hk ih call' hmem reply hreply hsuccess
    rcases appendEntries_step (run.steps k hk) hmem with ⟨call, hcall, hchange⟩ | ⟨hnone, _⟩
    · cases hchange with
      | kept =>
          obtain ⟨j, kv, hj, hrest⟩ := ih _ hcall reply hreply hsuccess
          exact ⟨j, kv, by omega, hrest⟩
      | delivered hdelivers =>
          obtain ⟨l, hact, hget⟩ := hdelivers
          have hdone :=
            acknowledged_of_delivered hno hunique hk hact hget hreply hsuccess
          exact hdone
      | returned =>
          obtain ⟨j, kv, hj, hrest⟩ := ih _ hcall reply hreply hsuccess
          exact ⟨j, kv, by omega, hrest⟩
    · rw [hnone] at hreply
      cases hreply

/-! `matchIndex`. -/

omit hno hunique in
theorem HeldIn.mono {term : Nat} {front front' : List (LogEntry C)} {v : Fin n}
    (h : HeldIn run term front v) (hfront : front' <+: front) :
    HeldIn run term front' v := by
  obtain ⟨k, hk, hterm, hheld⟩ := h
  exact ⟨k, hk, hterm, hfront.trans hheld⟩

def Matched (run : ClusterRun n C D) (rf : Raft n C D) : Prop :=
  rf.state = .leader → ∀ v, rf.matchIndex v = 0 ∨
    ∃ front, front.length = rf.matchIndex v + 1 ∧ front <+: rf.log ∧
      HeldIn run rf.currentTerm front v

omit hno hunique in
theorem Matched.grows {old rf : Raft n C D} (h : Matched run old)
    (hstate : old.state = .leader) (hterm : rf.currentTerm = old.currentTerm)
    (hlog : old.log <+: rf.log) (hmatched : rf.matchIndex = old.matchIndex) :
    Matched run rf := by
  intro _ v
  rcases h hstate v with hzero | ⟨front, hlength, hfront, hheld⟩
  · exact .inl (by rw [hmatched, hzero])
  · exact .inr ⟨front, by rw [hmatched, hlength], hfront.trans hlog, by rwa [hterm]⟩

theorem Matched.reply {k : Nat} (hk : k ≤ run.length) {i : Fin n}
    (h : Matched run ((run.state k).rafts i))
    {call : Rpc n (AppendEntriesArgs n C) AppendEntriesReply}
    (hcall : call ∈ (run.state k).appendEntries) (hcaller : call.caller = i)
    {reply : AppendEntriesReply} (hreply : call.reply = some reply)
    {rf : Raft n C D}
    (houtcome : AppendReplyOutcome ((run.state k).rafts i) call.server call.args reply rf) :
    Matched run rf := by
  cases houtcome with
  | ignored => exact h
  | raised hterm =>
      intro hstate
      rw [persist_state, observeTerm_of_lt hterm] at hstate
      cases hstate
  | rejected => exact h
  | matched last hstate hterm hsuccess hlast =>
      intro _ v
      by_cases hv : v = call.server
      · subst hv
        obtain ⟨j, kv, hj, hleads, ⟨_, hentries⟩, hkv, hvterm, hvlog⟩ :=
          acknowledged_run hno hunique k hk call hcall reply hreply hsuccess
        rw [hcaller] at hleads hentries hvlog
        have hgrows := leader_log_grows run hno hunique hj hk hleads ⟨hstate, hterm.symm⟩
        have hsent : ((run.state j).rafts i).log.getLast? = some last := by
          rw [hentries] at hlast
          have hne : ((run.state j).rafts i).log.drop (call.args.prevLogIndex + 1) ≠ [] := by
            intro hnil
            rw [hnil] at hlast
            cases hlast
          rw [List.getLast?_drop] at hlast
          split at hlast
          · cases hlast
          · exact hlast
        have hlength := ((plain_run run hno j (by omega)).servers i).log.last hsent
        refine .inr ⟨((run.state j).rafts i).log, ?_, hgrows, kv, hkv, ?_, ?_⟩
        · simp only [Function.update_self]
          omega
        · rw [hvterm, hterm]
        · rw [hvlog]
      · rcases h hstate v with hzero | hheld
        · exact .inl (by simp [hv, hzero])
        · exact .inr (by simpa [hv] using hheld)

theorem matched_run : ∀ k, k ≤ run.length →
    ∀ i, Matched run ((run.state k).rafts i) := by
  refine run.induct ?_ ?_
  · intro i hstate
    rw [run.starts] at hstate
    cases hstate
  · intro k hk ih i
    obtain ⟨rf, hrf, hnext⟩ := server_step run hno hk i
    have hplain := plain_run run hno k hk.le
    have hmatched : Matched run rf := by
      rcases hrf with rfl | ⟨eff, hlocal⟩
      · exact ih i
      · intro hstate
        rcases LeaderStep.of_local ⟨hno k hk, hplain.calls⟩ hlocal hstate with
          ⟨hleader, _, hsame⟩ | ⟨_, hzero⟩ | ⟨call, hcall, reply, hreply, hcaller, hform⟩
        · have hterm :=
            ((ElectionStep.of_local hlocal).leader_cases (poised_run run k hk.le i) hstate).1
          have hgrows := leader_logStep run hno hunique hk ⟨hleader, hterm.symm⟩ hlocal rfl
          exact (ih i).grows hleader hterm hgrows hsame hstate
        · exact fun v => .inl (hzero v)
        · have houtcome := sendAppendEntries_outcome ((run.state k).rafts i) call.server
            call.args reply
          rw [← hform] at houtcome
          exact (ih i).reply hno hunique hk.le hcall hcaller hreply houtcome hstate
    rcases hnext.cases with heq | heq
    · rwa [heq]
    · intro hstate
      rw [heq, make_state] at hstate
      cases hstate

/-- An index that the commit loop takes is held by a majority in the leader's term. -/
theorem committed_of_advance (hcount : CountsOnce run)
    (htoken : run.AllSteps fun s a => tokenFresh s a) {k : Nat} (hk : k ≤ run.length)
    {i : Fin n} (hstate : ((run.state k).rafts i).state = .leader) {N num : Nat}
    {last : LogEntry C} (hlast : ((run.state k).rafts i).log.getLast? = some last)
    (hN : N ≤ last.logIndex) (hpos : 1 ≤ N)
    (hnum : ((run.state k).rafts i).countReplicas i N = some num) (hmajority : n < 2 * num) :
    Committed run ((run.state k).rafts i).currentTerm
      (((run.state k).rafts i).log.take (N + 1)) := by
  have hplain := ((plain_run run hno k hk).servers i).log
  have hlength := hplain.last hlast
  obtain ⟨hle, hterm⟩ := countReplicas_spec hnum
  -- a leader has another server's vote, so the cluster has two servers
  obtain ⟨voters, _, ⟨v, hne, _⟩, _⟩ := (mandate_run run hcount htoken k hk i).leader hstate
  have htwo : 1 < num := by
    have hv := v.isLt
    have hi := i.isLt
    have : v.val ≠ i.val := fun heq => hne (Fin.ext heq)
    omega
  obtain ⟨entry, hentry, heterm⟩ := hterm htwo
  have hget : ((run.state k).rafts i).log[N]? = some entry := by
    simpa [entryAt, hplain.head] using hentry
  refine ⟨⟨⟨k, i, hk, ⟨hstate, rfl⟩, List.take_prefix _ _⟩, entry, ?_, heterm⟩,
    insert i (matchedPeers i ((run.state k).rafts i) N), ?_, ?_⟩
  · rw [List.getLast?_eq_getElem?, List.length_take, Nat.min_eq_left (by omega),
      List.getElem?_take_of_lt (by omega)]
    exact hget
  · have hself : i ∉ matchedPeers i ((run.state k).rafts i) N := by simp [matchedPeers]
    rw [Lib.Majority, Finset.card_insert_of_notMem hself, Fintype.card_fin]
    omega
  · intro w hw
    rcases Finset.mem_insert.mp hw with rfl | hw
    · exact ⟨k, hk, rfl, List.take_prefix _ _⟩
    · have hmatch : N ≤ ((run.state k).rafts i).matchIndex w := by
        simp only [matchedPeers, Finset.mem_filter] at hw
        exact hw.2.2
      rcases matched_run hno hunique k hk i hstate w with hzero | ⟨front, hfront, hlog, hheld⟩
      · omega
      · apply hheld.mono
        apply List.prefix_of_prefix_length_le (List.take_prefix _ _) hlog
        rw [List.length_take]
        omega

end Replication

end BlockchainTutorial.Raft
