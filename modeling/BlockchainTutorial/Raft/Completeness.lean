import BlockchainTutorial.Raft.LogMatching

namespace BlockchainTutorial.Raft

variable {n : Nat} {C D : Type}

/-! Leader completeness: what a majority has held in one term is in the log of the
leader of every later term. -/

/-! The two conditions on steps that it needs besides fair elections. Positions
are indexes here, as there are no snapshots. -/

def acceptsEntries (rf : Raft n C D) (args : AppendEntriesArgs n C) : Bool :=
  decide (rf.currentTerm ≤ args.term) &&
    (args.prevLogIndex == 0 ||
      rf.log[args.prevLogIndex]?.any fun prev => prev.logTerm == args.prevLogTerm)

def cutsConflicts (rf : Raft n C D) (args : AppendEntriesArgs n C) : Bool :=
  decide (rf.log.length ≤ args.prevLogIndex + 1 + args.entries.length) ||
    (args.entries.zip (rf.log.drop (args.prevLogIndex + 1))).any fun pair =>
      pair.1.logTerm != pair.2.logTerm

/-- `AppendEntries` cuts nothing off that agrees with the request. -/
def keepsAgreed (s : Cluster n C D) : Action n C D → Bool
  | .appendEntries k =>
      match s.appendEntries[k]? with
      | none => true
      | some call =>
          !acceptsEntries (s.rafts call.server) call.args ||
            cutsConflicts (s.rafts call.server) call.args
  | _ => true

/-- `boatcastAppendEntries` moves `commitIndex` only at a server that leads. -/
def commitsAsLeader (s : Cluster n C D) : Action n C D → Bool
  | .loop i .proceed =>
      (s.rafts i).loop != .leader || (s.rafts i).state == .leader ||
        ((s.rafts i).boatcastAppendEntries i).1.commitIndex == (s.rafts i).commitIndex
  | _ => true

/-- A shorter log that a server has accepted over its own was no prefix of it. -/
theorem not_prefix_of_cutsConflicts {rf : Raft n C D} {args : AppendEntriesArgs n C}
    (hcuts : cutsConflicts rf args = true)
    (hprev : args.prevLogIndex < rf.log.length)
    (hlength : args.prevLogIndex + 1 + args.entries.length < rf.log.length) :
    ¬ rf.log.take (args.prevLogIndex + 1) ++ args.entries <+: rf.log := by
  intro hfront
  have hentries : args.entries <+: rf.log.drop (args.prevLogIndex + 1) := by
    have hdrop := hfront.drop (args.prevLogIndex + 1)
    rwa [List.drop_left' (by rw [List.length_take]; omega)] at hdrop
  simp only [cutsConflicts, Bool.or_eq_true, decide_eq_true_eq, List.any_eq_true,
    bne_iff_ne] at hcuts
  rcases hcuts with hle | ⟨pair, hmem, hne⟩
  · omega
  · obtain ⟨q, hq⟩ := List.mem_iff_getElem?.mp hmem
    obtain ⟨hown, hother⟩ := List.getElem?_zip_eq_some.mp hq
    exact hne (by rw [getElem?_unique (.inl hentries) hown hother])

/-! Terms never decrease along a log, nor exceed that of its server. -/

structure Ordered (rf : Raft n C D) : Prop where
  sorted : rf.log.Pairwise fun e e' => e.logTerm ≤ e'.logTerm
  bounded : ∀ e ∈ rf.log, e.logTerm ≤ rf.currentTerm

theorem sorted_getElem? {log : List (LogEntry C)}
    (h : log.Pairwise fun e e' => e.logTerm ≤ e'.logTerm) {p q : Nat} {e e' : LogEntry C}
    (hpq : p ≤ q) (he : log[p]? = some e) (he' : log[q]? = some e') :
    e.logTerm ≤ e'.logTerm := by
  obtain ⟨hp, rfl⟩ := List.getElem?_eq_some_iff.mp he
  obtain ⟨hq, rfl⟩ := List.getElem?_eq_some_iff.mp he'
  rcases Nat.eq_or_lt_of_le hpq with heq | hlt
  · subst heq
    exact Nat.le_refl _
  · exact List.pairwise_iff_getElem.mp h p q hp hq hlt

section Completeness

variable {run : ClusterRun n C D} (hno : run.AllSteps fun _ a => noStartSnapshot a)
  (hunique : UniqueLeaders run)

include hno hunique

theorem log_step {k : Nat} (hk : k < run.length) {i : Fin n} {rf : Raft n C D}
    {eff : Effects n C D} (hlocal : Local (run.state k) (run.act k) i rf eff) :
    rf.log = ((run.state k).rafts i).log ∨
    (((run.state k).rafts i).state = .leader ∧
      rf.currentTerm = ((run.state k).rafts i).currentTerm ∧
      ∃ entry : LogEntry C, entry.logTerm = rf.currentTerm ∧
        rf.log = ((run.state k).rafts i).log ++ [entry]) ∨
    ∃ l call j, run.act k = .appendEntries l ∧
      (run.state k).appendEntries[l]? = some call ∧ call.server = i ∧ j < k ∧
      Leads (run.state j) call.caller call.args.term ∧
      rf.currentTerm = call.args.term ∧
      rf.log = ((run.state j).rafts call.caller).log ∧
      acceptsEntries ((run.state k).rafts i) call.args = true ∧
      call.args.prevLogIndex < ((run.state k).rafts i).log.length ∧
      rf.log = ((run.state k).rafts i).log.take (call.args.prevLogIndex + 1) ++
        call.args.entries := by
  have hplain := plain_run run hno k hk.le
  cases LogStep.of_local ⟨hno k hk, hplain.calls⟩ (hplain.servers i).log hlocal with
  | kept hlog => exact .inl hlog
  | appended command _ hstate _ hform =>
      rw [hform]
      exact .inr (.inl ⟨hstate, rfl, LogEntry.mk _ _ (some command), rfl, rfl⟩)
  | accepted l call hact hcall hserver hterm hnew hprev hmatch hlog =>
      obtain ⟨_, j, hj, hleads, hdescribes⟩ :=
        appendEntries_sent run hno hk.le (List.mem_of_getElem? hcall)
      have heq := accepted_log hno hunique hk.le (by omega) (sourced_run hno hunique k hk.le i)
        (sourced_run hno hunique j (by omega) call.caller) hdescribes hmatch
      refine .inr (.inr ⟨l, call, j, hact, hcall, hserver, hj, hleads, hnew,
        hlog.trans heq, ?_, hprev, hlog⟩)
      rcases Nat.eq_zero_or_pos call.args.prevLogIndex with hzero | hpos
      · simp [acceptsEntries, hterm, hzero]
      · obtain ⟨prev, hget, hsame⟩ := hmatch hpos
        simp [acceptsEntries, hterm, hget, hsame]

theorem ordered_run : ∀ k, k ≤ run.length →
    ∀ i, Ordered ((run.state k).rafts i) := by
  refine run.induct_strong ?_ ?_
  · intro i
    rw [run.starts]
    refine ⟨List.pairwise_singleton _ _, fun e he => ?_⟩
    obtain rfl := List.mem_singleton.mp he
    exact Nat.zero_le _
  · intro k hk ih i
    obtain ⟨rf, hrf, hnext⟩ := server_step run hno hk i
    have hold := ih k (Nat.le_refl k) i
    have hordered : Ordered rf := by
      rcases hrf with rfl | ⟨eff, hlocal⟩
      · exact hold
      · have hle := (BallotStep.of_local hlocal).term_le
        rcases log_step hno hunique hk hlocal with
          hlog | ⟨_, hterm, entry, hentry, hlog⟩ |
          ⟨_, call, j, _, _, _, hj, hleads, hnew, hlog, _⟩
        · exact ⟨hlog ▸ hold.sorted, fun e he => (hold.bounded e (hlog ▸ he)).trans hle⟩
        · refine ⟨?_, fun e he => ?_⟩
          · rw [hlog, List.pairwise_append]
            refine ⟨hold.sorted, List.pairwise_singleton _ _, fun e he e' he' => ?_⟩
            obtain rfl := List.mem_singleton.mp he'
            rw [hentry, hterm]
            exact hold.bounded e he
          · rw [hlog] at he
            rcases List.mem_append.mp he with he | he
            · exact (hold.bounded e he).trans hle
            · obtain rfl := List.mem_singleton.mp he
              exact hentry.le
        · have hsource := ih j (by omega) call.caller
          refine ⟨hlog ▸ hsource.sorted, fun e he => ?_⟩
          rw [hnew, ← hleads.2]
          exact hsource.bounded e (hlog ▸ he)
    exact ⟨hnext.log_eq ▸ hordered.sorted, by
      rw [hnext.log_eq, hnext.term_eq]
      exact hordered.bounded⟩

/-! The first moment at which a term has a leader. -/

omit hno hunique in
theorem exists_first_leads {k : Nat} {i : Fin n} {term : Nat}
    (hleads : Leads (run.state k) i term) :
    ∃ first, first ≤ k ∧ Leads (run.state first) i term ∧
      ∀ l, l < first → ¬ Leads (run.state l) i term := by
  classical
  have hexists : ∃ l, Leads (run.state l) i term := ⟨k, hleads⟩
  exact ⟨Nat.find hexists, Nat.find_min' hexists hleads, Nat.find_spec hexists,
    fun l hl => Nat.find_min hexists hl⟩

/-- Until a term has a leader no log changes at a server that is in that term. -/
theorem log_stable {first term : Nat}
    (hnone : ∀ l, l < first → ∀ i, ¬ Leads (run.state l) i term) {i : Fin n} {q : Nat}
    (hq : ((run.state q).rafts i).currentTerm = term) : ∀ k, q ≤ k → k ≤ run.length →
    k ≤ first → ((run.state k).rafts i).currentTerm = term →
      ((run.state k).rafts i).log = ((run.state q).rafts i).log := by
  refine run.induct_from (P := fun k => k ≤ first →
    ((run.state k).rafts i).currentTerm = term →
      ((run.state k).rafts i).log = ((run.state q).rafts i).log) (fun _ _ => rfl) ?_
  intro k hqk hk ih hkfirst hterm
  have hlow := currentTerm_mono run hno i hqk hk.le
  have hhigh := currentTerm_mono run hno i (show k ≤ k + 1 by omega) hk
  have hmid : ((run.state k).rafts i).currentTerm = term := by omega
  rw [← ih (by omega) hmid]
  obtain ⟨rf, hrf, hnext⟩ := server_step run hno hk i
  rw [hnext.log_eq]
  rcases hrf with rfl | ⟨eff, hlocal⟩
  · rfl
  · rcases log_step hno hunique hk hlocal with
      hlog | ⟨hstate, _⟩ | ⟨_, call, j, _, _, _, hj, hleads, hnew, _⟩
    · exact hlog
    · exact absurd ⟨hstate, hmid⟩ (hnone k (by omega) i)
    · rw [← hnew, ← hnext.term_eq, hterm] at hleads
      exact absurd hleads (hnone j (by omega) call.caller)

/-! Prefixes that a majority has held. -/

/-- A prefix that ends in an entry of its leader's term. -/
structure LedPrefix (run : ClusterRun n C D) (term : Nat) (front : List (LogEntry C)) :
    Prop where
  led : ∃ k i, k ≤ run.length ∧ Leads (run.state k) i term ∧
    front <+: ((run.state k).rafts i).log
  last : ∃ e, front.getLast? = some e ∧ e.logTerm = term

def HeldIn (run : ClusterRun n C D) (term : Nat) (front : List (LogEntry C)) (v : Fin n) :
    Prop :=
  ∃ k, k ≤ run.length ∧ ((run.state k).rafts v).currentTerm = term ∧
    front <+: ((run.state k).rafts v).log

structure Committed (run : ClusterRun n C D) (term : Nat) (front : List (LogEntry C)) :
    Prop extends LedPrefix run term front where
  held : ∃ members : Finset (Fin n), Lib.Majority members ∧
    ∀ v ∈ members, HeldIn run term front v

def InLeaders (run : ClusterRun n C D) (front : List (LogEntry C)) (term : Nat) : Prop :=
  ∀ k i, k ≤ run.length → Leads (run.state k) i term →
    front <+: ((run.state k).rafts i).log

omit hno in
theorem LedPrefix.comparable {term : Nat} {front : List (LogEntry C)}
    (hno : run.AllSteps fun _ a => noStartSnapshot a)
    (h : LedPrefix run term front) {k : Nat} (hk : k ≤ run.length) {i : Fin n}
    (hleads : Leads (run.state k) i term) :
    front <+: ((run.state k).rafts i).log ∨ ((run.state k).rafts i).log <+: front := by
  obtain ⟨k', i', hk', hleads', hfront⟩ := h.led
  rcases leader_logs_total run hno hunique hk hk' hleads hleads' with htotal | htotal
  · exact List.prefix_or_prefix_of_prefix hfront htotal
  · exact .inl (hfront.trans htotal)

omit hno hunique in
/-- An accepted request that leaves a prefix of a log leaves the whole log. -/
theorem log_of_shorter (hkeeps : run.AllSteps fun s a => keepsAgreed s a) {k l : Nat}
    (hk : k < run.length) (hact : run.act k = .appendEntries l)
    {call : Rpc n (AppendEntriesArgs n C) AppendEntriesReply}
    (hcall : (run.state k).appendEntries[l]? = some call) {v : Fin n}
    (hserver : call.server = v)
    (haccepts : acceptsEntries ((run.state k).rafts v) call.args = true)
    (hprev : call.args.prevLogIndex < ((run.state k).rafts v).log.length) {rf : Raft n C D}
    (hcut : rf.log = ((run.state k).rafts v).log.take (call.args.prevLogIndex + 1) ++
      call.args.entries)
    (hshort : rf.log <+: ((run.state k).rafts v).log) :
    rf.log = ((run.state k).rafts v).log := by
  have hcuts : cutsConflicts ((run.state k).rafts v) call.args = true := by
    have hkeep := hkeeps k hk
    simpa [hact, keepsAgreed, hcall, hserver, haccepts] using hkeep
  by_cases hlength : call.args.prevLogIndex + 1 + call.args.entries.length <
      ((run.state k).rafts v).log.length
  · rw [hcut] at hshort
    exact absurd hshort (not_prefix_of_cutsConflicts hcuts hprev hlength)
  · apply hshort.eq_of_length_le
    rw [hcut, List.length_append, List.length_take]
    omega

/-- A server keeps what it has held in a term until a later term has a leader
without it. -/
theorem retained (hkeeps : run.AllSteps fun s a => keepsAgreed s a) {term later : Nat}
    {front : List (LogEntry C)} (hled : LedPrefix run term front)
    (hbetween : ∀ t, term < t → t < later → InLeaders run front t) {first : Nat}
    (hnone : ∀ l, l < first → ∀ i, ¬ Leads (run.state l) i later) {v : Fin n} {q : Nat}
    (hq : ((run.state q).rafts v).currentTerm = term)
    (hheld : front <+: ((run.state q).rafts v).log) : ∀ k, q ≤ k → k ≤ run.length →
    k ≤ first → ((run.state k).rafts v).currentTerm ≤ later →
      front <+: ((run.state k).rafts v).log := by
  refine run.induct_from (P := fun k => k ≤ first →
    ((run.state k).rafts v).currentTerm ≤ later →
      front <+: ((run.state k).rafts v).log) (fun _ _ => hheld) ?_
  intro k hqk hk ih hkfirst hlater
  have hlow := currentTerm_mono run hno v hqk hk.le
  have hhigh := currentTerm_mono run hno v (show k ≤ k + 1 by omega) hk
  have hold := ih (by omega) (by omega)
  obtain ⟨rf, hrf, hnext⟩ := server_step run hno hk v
  rw [hnext.log_eq]
  rcases hrf with rfl | ⟨eff, hlocal⟩
  · exact hold
  · rcases log_step hno hunique hk hlocal with
      hlog | ⟨_, _, entry, _, hlog⟩ |
      ⟨l, call, j, hact, hcall, hserver, hj, hleads, hnew, hlog, haccepts, hprev, hcut⟩
    · rwa [hlog]
    · rw [hlog]
      exact hold.trans (List.prefix_append _ _)
    · rw [hnext.term_eq, hnew] at hlater hhigh
      have hne : call.args.term ≠ later := by
        intro heq
        rw [heq] at hleads
        exact hnone j (by omega) call.caller hleads
      rcases Nat.eq_or_lt_of_le (show term ≤ call.args.term by omega) with heq | hlt
      · rw [← heq] at hleads
        rcases hled.comparable hunique hno (by omega) hleads with hfront | hfront
        · rwa [hlog]
        · -- a late request of the leader, shorter than what the server holds
          have hshort : rf.log <+: ((run.state k).rafts v).log := by
            rw [hlog]
            exact hfront.trans hold
          have hsame :=
            log_of_shorter hkeeps hk hact hcall hserver haccepts hprev hcut hshort
          rwa [hsame]
      · rw [hlog]
        exact hbetween call.args.term hlt (by omega) j call.caller (by omega) hleads

theorem log_source {k : Nat} (hk : k ≤ run.length) {i : Fin n} {last : LogEntry C}
    (hlast : ((run.state k).rafts i).log.getLast? = some last) (hterm : 1 ≤ last.logTerm) :
    ∃ j i', j ≤ k ∧ Leads (run.state j) i' last.logTerm ∧
      ((run.state k).rafts i).log <+: ((run.state j).rafts i').log := by
  have hplain := ((plain_run run hno k hk).servers i).log
  rw [List.getLast?_eq_getElem?] at hlast
  have hpos : 1 ≤ ((run.state k).rafts i).log.length - 1 := by
    rcases Nat.eq_zero_or_pos (((run.state k).rafts i).log.length - 1) with hzero | hpos
    · rw [hzero, hplain.zero] at hlast
      obtain rfl := Option.some.inj hlast
      exact absurd hterm (Nat.not_succ_le_zero 0)
    · exact hpos
  obtain ⟨j, i', hj, hleads, hfront⟩ :=
    sourced_run hno hunique k hk i _ last hlast hpos
  rw [List.take_of_length_le (by omega)] at hfront
  exact ⟨j, i', hj, hleads, hfront⟩

/-- A log that is up to date with one that holds a prefix holds it too. -/
theorem prefix_of_upToDate {term later : Nat} {front : List (LogEntry C)}
    (hled : LedPrefix run term front)
    (hbetween : ∀ t, term < t → t < later → InLeaders run front t) {k q : Nat}
    (hk : k ≤ run.length) (hq : q ≤ run.length) {v j : Fin n} {last last' : LogEntry C}
    (hheld : front <+: ((run.state k).rafts v).log)
    (hlast : ((run.state k).rafts v).log.getLast? = some last)
    (hlast' : ((run.state q).rafts j).log.getLast? = some last')
    (hbelow : last'.logTerm < later)
    (hupToDate : last.logTerm < last'.logTerm ∨
      last.logTerm = last'.logTerm ∧ last.logIndex ≤ last'.logIndex) :
    front <+: ((run.state q).rafts j).log := by
  have hsorted := (ordered_run hno hunique k hk v).sorted
  obtain ⟨e, he, heterm⟩ := hled.last
  rw [List.getLast?_eq_getElem?] at he
  have hget := getElem?_mono hheld he
  have hlow : term ≤ last.logTerm := by
    rw [List.getLast?_eq_getElem?] at hlast
    rw [← heterm]
    refine sorted_getElem? hsorted ?_ hget hlast
    have := hheld.length_le
    omega
  have hpos : 1 ≤ term := by
    obtain ⟨k', i, hk', hleads, _⟩ := hled.led
    have := ((plain_run run hno k' hk').servers i).term_pos (.inl hleads.1)
    rwa [hleads.2] at this
  obtain ⟨m, i, hm, hleads, hsource⟩ := log_source hno hunique hk hlast (by omega)
  obtain ⟨m', i', hm', hleads', hsource'⟩ := log_source hno hunique hq hlast' (by omega)
  rcases hupToDate with hgt | ⟨heq, hindex⟩
  · -- the last term is between, so its leader had the prefix
    have hfront := hbetween last'.logTerm (by omega) hbelow m' i' (by omega) hleads'
    rcases List.prefix_or_prefix_of_prefix hfront hsource' with hdone | hshort
    · exact hdone
    · obtain ⟨p, hp⟩ := List.mem_iff_getElem?.mp
        (hshort.subset (List.mem_of_getLast? hlast'))
      obtain ⟨hplt, _⟩ := List.getElem?_eq_some_iff.mp hp
      have := sorted_getElem? hsorted (show p ≤ front.length - 1 by omega)
        (getElem?_mono hheld hp) hget
      omega
  · rw [heq] at hleads
    have hcompare : ((run.state k).rafts v).log <+: ((run.state q).rafts j).log ∨
        ((run.state q).rafts j).log <+: ((run.state k).rafts v).log := by
      rcases leader_logs_total run hno hunique (by omega) (by omega) hleads hleads' with
        htotal | htotal
      · exact List.prefix_or_prefix_of_prefix (hsource.trans htotal) hsource'
      · exact List.prefix_or_prefix_of_prefix hsource (hsource'.trans htotal)
    rcases hcompare with hle | hge
    · exact hheld.trans hle
    · have hlength := ((plain_run run hno k hk).servers v).log.last hlast
      have hlength' := ((plain_run run hno q hq).servers j).log.last hlast'
      rwa [hge.eq_of_length_le (by omega)]

theorem leader_completeness (hcount : CountsOnce run)
    (htoken : run.AllSteps fun s a => tokenFresh s a)
    (hkeeps : run.AllSteps fun s a => keepsAgreed s a) {term : Nat}
    {front : List (LogEntry C)} (hcommitted : Committed run term front) :
    ∀ later, term < later → InLeaders run front later := by
  intro later
  induction later using Nat.strong_induction_on with
  | _ later ih =>
      intro hlater k j hk hleads
      have hbetween : ∀ t, term < t → t < later → InLeaders run front t :=
        fun t hlow hhigh => ih t hhigh hlow
      obtain ⟨first, hfirst, hfirstLeads, hmin⟩ := exists_first_leads hleads
      have hnone : ∀ l, l < first → ∀ i, ¬ Leads (run.state l) i later := by
        intro l hl i hother
        obtain rfl := hunique l k (by omega) hk i j later hother hleads
        exact hmin l hl hother
      refine List.IsPrefix.trans ?_
        (leader_log_grows run hno hunique hfirst hk hfirstLeads hleads)
      -- a server that held the prefix and voted for the new leader
      obtain ⟨members, hmajority, hheld⟩ := hcommitted.held
      have helected := (mandate_run run hcount htoken first (by omega) j).leader hfirstLeads.1
      rw [hfirstLeads.2] at helected
      obtain ⟨voters, hvoters, _, hcast⟩ := helected
      obtain ⟨v, hv, hv'⟩ := hmajority.exists_common hvoters
      obtain ⟨kv, hkv, hterm, hfront⟩ := hheld v hv
      obtain ⟨s, hs, hslength, hvote⟩ := hcast v hv'
      have hafter : later ≤ ((run.state (s + 1)).rafts v).currentTerm := by
        have hrecorded := (recorded_of_cast (run.steps s hslength) hvote).1
        rwa [((plain_run run hno (s + 1) hslength).servers v).saved.term_eq] at hrecorded
      have hbefore : kv ≤ s := by
        by_contra hlt
        have := currentTerm_mono run hno v (show s + 1 ≤ kv by omega) hkv
        omega
      have hretained := retained hno hunique hkeeps hcommitted.toLedPrefix hbetween hnone
        hterm hfront
      by_cases hself : v = j
      · subst hself
        exact hretained first (by omega) (by omega) (Nat.le_refl _) hfirstLeads.2.le
      · rcases castVote_cases hvote with ⟨_, _, heq, _⟩ |
          ⟨l, call, _, hcall, rfl, rfl, hargs, hle, last, hlast, hupToDate⟩
        · exact absurd heq hself
        · have hheldThen := hretained s hbefore hslength.le (by omega) hle
          obtain ⟨_, q, hq, last', hlast', hasks⟩ :=
            (requestVotes_run run s hslength.le).2 call (List.mem_of_getElem? hcall)
          have hcaller : call.args.candidateId = call.caller := by rw [hasks]
          rw [hcaller] at hfirstLeads ⊢
          have hqterm : ((run.state q).rafts call.caller).currentTerm = later := by
            rw [← hargs, hasks]
          rw [log_stable hno hunique hnone hqterm first (by omega) (by omega)
            (Nat.le_refl _) hfirstLeads.2]
          have hbelow : last'.logTerm < later := by
            have hbounded := (ordered_run hno hunique q (by omega) call.caller).bounded last'
              (List.mem_of_getLast? hlast')
            rcases Nat.eq_or_lt_of_le (hqterm ▸ hbounded) with heq | hlt
            · obtain ⟨m, i, hm, hleads', _⟩ :=
                log_source hno hunique (show q ≤ run.length by omega) hlast' (by omega)
              rw [heq] at hleads'
              exact absurd hleads' (hnone m (by omega) i)
            · exact hlt
          refine prefix_of_upToDate hno hunique hcommitted.toLedPrefix hbetween hslength.le
            (by omega) hheldThen hlast hlast' hbelow ?_
          have hlastTerm : call.args.lastLogTerm = last'.logTerm := by rw [hasks]
          have hlastIndex : call.args.lastLogIndex = last'.logIndex := by rw [hasks]
          rw [upToDate, hlastTerm, hlastIndex] at hupToDate
          simp only [Bool.or_eq_true, decide_eq_true_eq, Bool.and_eq_true, beq_iff_eq]
            at hupToDate
          omega

end Completeness

end BlockchainTutorial.Raft
