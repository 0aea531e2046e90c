import BlockchainTutorial.Raft.Logs

namespace BlockchainTutorial.Raft

variable {n : Nat} {C D : Type}

/-! Log matching. Every log is, entry by entry, a prefix of a log that the leader
of that entry's term has held; and a leader's log only grows. -/

theorem appendEntries_run (run : ClusterRun n C D) : ∀ k, k ≤ run.length →
    ∀ call ∈ (run.state k).appendEntries, ∃ j, j < k ∧
      ((run.state j).rafts call.caller).loop = .leader ∧
      run.act j = .loop call.caller .proceed ∧
      Replicates call.caller
        (((run.state j).rafts call.caller).boatcastAppendEntries call.caller).1
        call.server call.args := by
  refine run.induct ?_ ?_
  · intro call hmem
    rw [run.starts] at hmem
    cases hmem
  · intro k hk ih call' hmem
    rcases appendEntries_step (run.steps k hk) hmem with
      ⟨call, hcall, hchange⟩ | ⟨_, hact, hloop, hreplicates⟩
    · obtain ⟨j, hj, hloop, hact, hreplicates⟩ := ih call hcall
      cases hchange with
      | kept => exact ⟨j, by omega, hloop, hact, hreplicates⟩
      | delivered => exact ⟨j, by omega, hloop, hact, hreplicates⟩
      | returned => exact ⟨j, by omega, hloop, hact, hreplicates⟩
    · exact ⟨k, by omega, hloop, hact, hreplicates⟩

def Describes (log : List (LogEntry C)) (args : AppendEntriesArgs n C) : Prop :=
  (∃ prev, log[args.prevLogIndex]? = some prev ∧ args.prevLogTerm = prev.logTerm) ∧
    args.entries = log.drop (args.prevLogIndex + 1)

/-- A server goes on as it was, or starts again without losing its term, its vote or
its log. -/
structure Resumes (rf next : Raft n C D) : Prop where
  term_eq : next.currentTerm = rf.currentTerm
  vote_eq : next.votedFor = rf.votedFor
  log_eq : next.log = rf.log
  cases : next = rf ∨ next = make rf.persister

theorem Resumes.of_eq (rf : Raft n C D) : Resumes rf rf :=
  ⟨rfl, rfl, rfl, .inl rfl⟩

theorem Resumes.of_saved {rf : Raft n C D} (h : Saved rf) : Resumes rf (make rf.persister) :=
  ⟨by rw [make_currentTerm, h.term_eq], by rw [make_votedFor, h.vote_eq],
    by rw [make_log h.snapshot_eq, h.log_eq], .inr rfl⟩

section NoSnapshots

variable (run : ClusterRun n C D) (hno : run.AllSteps fun _ a => noStartSnapshot a)

include hno

theorem appendEntries_sent {k : Nat} (hk : k ≤ run.length)
    {call : Rpc n (AppendEntriesArgs n C) AppendEntriesReply}
    (hcall : call ∈ (run.state k).appendEntries) :
    call.server ≠ call.caller ∧ ∃ j, j < k ∧
      Leads (run.state j) call.caller call.args.term ∧
      Describes ((run.state j).rafts call.caller).log call.args := by
  obtain ⟨j, hj, _, _, hreplicates⟩ := appendEntries_run run k hk call hcall
  obtain ⟨commit, chan, hform⟩ :=
    boatcastAppendEntries_fst call.caller ((run.state j).rafts call.caller)
  rw [hform] at hreplicates
  have hlog := ((plain_run run hno j (by omega)).servers call.caller).log
  exact ⟨hreplicates.other, j, hj, ⟨hreplicates.leader, hreplicates.term_eq.symm⟩,
    hreplicates.plain hlog⟩

/-- A server after a step is what it was or what the step made of it, unless it has
started again from its persister. -/
theorem server_step {k : Nat} (hk : k < run.length) (i : Fin n) :
    ∃ rf, (rf = (run.state k).rafts i ∨
        ∃ eff, Local (run.state k) (run.act k) i rf eff) ∧
      Resumes rf ((run.state (k + 1)).rafts i) := by
  have hplain := plain_run run hno k hk.le
  have hsaved := (hplain.servers i).saved
  rcases Cluster.step_server (run.steps k hk) i with
    heq | heq | ⟨rf, eff, hlocal, heq | heq⟩
  · rw [heq]
    exact ⟨_, .inl rfl, .of_eq _⟩
  · rw [heq]
    exact ⟨_, .inl rfl, .of_saved hsaved⟩
  · rw [heq]
    exact ⟨rf, .inr ⟨eff, hlocal⟩, .of_eq _⟩
  · rw [heq]
    exact ⟨rf, .inr ⟨eff, hlocal⟩, .of_saved (hsaved.step ⟨hno k hk, hplain.calls⟩ hlocal)⟩

theorem currentTerm_mono (i : Fin n) {j k : Nat} (hjk : j ≤ k) (hk : k ≤ run.length) :
    ((run.state j).rafts i).currentTerm ≤ ((run.state k).rafts i).currentTerm := by
  refine run.monotone (m := fun s => (s.rafts i).currentTerm) ?_ hjk hk
  intro k hk
  obtain ⟨rf, hrf, hnext⟩ := server_step run hno hk i
  rw [hnext.term_eq]
  rcases hrf with rfl | ⟨eff, hlocal⟩
  · exact Nat.le_refl _
  · exact (BallotStep.of_local hlocal).term_le

variable (hunique : UniqueLeaders run)

include hunique

theorem leader_logStep {k : Nat} (hk : k < run.length) {i : Fin n} {term : Nat}
    (hleads : Leads (run.state k) i term) {rf : Raft n C D}
    {eff : Effects n C D} (hlocal : Local (run.state k) (run.act k) i rf eff)
    (hterm : rf.currentTerm = term) : ((run.state k).rafts i).log <+: rf.log := by
  have hplain := plain_run run hno k hk.le
  cases LogStep.of_local ⟨hno k hk, hplain.calls⟩ (hplain.servers i).log hlocal with
  | kept hlog => rw [hlog]
  | appended command _ hstate _ hform =>
      rw [hform]
      exact List.prefix_append _ _
  | accepted j call _ hcall hserver _ hnew =>
      obtain ⟨hne, j', hj', hcaller, _⟩ :=
        appendEntries_sent run hno hk.le (List.mem_of_getElem? hcall)
      rw [← hnew, hterm] at hcaller
      have hsame := hunique k j' hk.le (by omega) i call.caller term hleads hcaller
      exact absurd (hserver.trans hsame) hne

/-- After a server has led a term, it is past the term, or still leads with a
longer log, or will not lead it again. -/
theorem tenure {j : Nat} {i : Fin n} {term : Nat} (hj : j ≤ run.length)
    (hleads : Leads (run.state j) i term) : ∀ k, j ≤ k → k ≤ run.length →
    term < ((run.state k).rafts i).currentTerm ∨
      ((run.state k).rafts i).currentTerm = term ∧
      ((run.state k).rafts i).loop.campaigning = false ∧
      (((run.state k).rafts i).state = .leader →
        ((run.state j).rafts i).log <+: ((run.state k).rafts i).log) := by
  refine run.induct_from (P := fun k =>
    term < ((run.state k).rafts i).currentTerm ∨
      ((run.state k).rafts i).currentTerm = term ∧
      ((run.state k).rafts i).loop.campaigning = false ∧
      (((run.state k).rafts i).state = .leader →
        ((run.state j).rafts i).log <+: ((run.state k).rafts i).log)) ?_ ?_
  · refine .inr ⟨hleads.2, ?_, fun _ => List.prefix_rfl⟩
    have hpoised := poised_run run j hj i
    cases hloop : ((run.state j).rafts i).loop with
    | waiting => exact absurd hleads.1 (hpoised (by simp [hloop]) (by simp [hloop]))
    | elected t => exact absurd hleads.1 (hpoised (by simp [hloop]) (by simp [hloop]))
    | _ => rfl
  · intro k hjk hk ih
    obtain ⟨rf, hrf, hnext⟩ := server_step run hno hk i
    have hkeep : term < rf.currentTerm ∨ rf.currentTerm = term ∧
        rf.loop.campaigning = false ∧
        (rf.state = .leader → ((run.state j).rafts i).log <+: rf.log) := by
      rcases hrf with rfl | ⟨eff, hlocal⟩
      · exact ih
      · have hle := (BallotStep.of_local hlocal).term_le
        rcases ih with hlt | ⟨hterm, hcampaigning, hfront⟩
        · exact .inl (by omega)
        · by_cases hsame : rf.currentTerm = term
          · have hstep := ElectionStep.of_local hlocal
            refine .inr ⟨hsame, ?_, fun hstate => ?_⟩
            · rw [Bool.eq_false_iff]
              intro hloop
              rcases hstep.campaigning_cases hloop with hold | hterm'
              · rw [hcampaigning] at hold
                cases hold
              · omega
            · obtain ⟨_, hold | hold⟩ :=
                hstep.leader_cases (poised_run run k hk.le i) hstate
              · exact (hfront hold).trans
                  (leader_logStep run hno hunique hk ⟨hold, hterm⟩ hlocal hsame)
              · rw [hcampaigning] at hold
                cases hold
          · exact .inl (by omega)
    rcases hnext.cases with heq | heq
    · rwa [heq]
    · rw [hnext.term_eq, heq]
      rcases hkeep with hlt | ⟨hterm, _⟩
      · exact .inl hlt
      · exact .inr ⟨hterm, by rw [make_loop]; rfl, by simp⟩

theorem leader_log_grows {j k : Nat} {i : Fin n} {term : Nat} (hjk : j ≤ k)
    (hk : k ≤ run.length) (hj : Leads (run.state j) i term)
    (hleads : Leads (run.state k) i term) :
    ((run.state j).rafts i).log <+: ((run.state k).rafts i).log := by
  rcases tenure run hno hunique (by omega) hj k hjk hk with hlt | ⟨_, _, hfront⟩
  · rw [hleads.2] at hlt
    exact absurd hlt (Nat.lt_irrefl _)
  · exact hfront hleads.1

theorem leader_logs_total {j k : Nat} (hj : j ≤ run.length) (hk : k ≤ run.length)
    {i i' : Fin n} {term : Nat} (hleads : Leads (run.state j) i term)
    (hleads' : Leads (run.state k) i' term) :
    ((run.state j).rafts i).log <+: ((run.state k).rafts i').log ∨
      ((run.state k).rafts i').log <+: ((run.state j).rafts i).log := by
  obtain rfl := hunique j k hj hk i i' term hleads hleads'
  rcases Nat.le_total j k with hjk | hkj
  · exact .inl (leader_log_grows run hno hunique hjk hk hleads hleads')
  · exact .inr (leader_log_grows run hno hunique hkj hj hleads' hleads)

omit hno hunique

/-- Each entry came, with all entries before it, from a leader of its term. -/
def Sourced (k : Nat) (log : List (LogEntry C)) : Prop :=
  ∀ p e, log[p]? = some e → 1 ≤ p → ∃ j i, j ≤ k ∧ Leads (run.state j) i e.logTerm ∧
    log.take (p + 1) <+: ((run.state j).rafts i).log

variable {run}

theorem Sourced.mono {k l : Nat} {log : List (LogEntry C)} (h : Sourced run k log)
    (hle : k ≤ l) : Sourced run l log := by
  intro p e he hp
  obtain ⟨j, i, hj, hrest⟩ := h p e he hp
  exact ⟨j, i, by omega, hrest⟩

theorem prefix_take {α : Type} {l l' : List α} (h : l <+: l') {m : Nat}
    (hm : l.length = m) : l'.take m = l := by
  subst hm
  exact (List.prefix_iff_eq_take.mp h).symm

include hno hunique

/-- Two sourced logs with one term at one position agree up to it. -/
theorem Sourced.take_eq {k l : Nat} (hk : k ≤ run.length) (hl : l ≤ run.length)
    {log log' : List (LogEntry C)} (h : Sourced run k log) (h' : Sourced run l log')
    {p : Nat} (hp : 1 ≤ p) {e e' : LogEntry C} (he : log[p]? = some e)
    (he' : log'[p]? = some e') (hterm : e.logTerm = e'.logTerm) :
    log.take (p + 1) = log'.take (p + 1) := by
  obtain ⟨j, i, hj, hleads, hfront⟩ := h p e he hp
  obtain ⟨j', i', hj', hleads', hfront'⟩ := h' p e' he' hp
  rw [hterm] at hleads
  obtain ⟨hlt, _⟩ := List.getElem?_eq_some_iff.mp he
  obtain ⟨hlt', _⟩ := List.getElem?_eq_some_iff.mp he'
  have hlength : (log.take (p + 1)).length = p + 1 := by rw [List.length_take]; omega
  have hlength' : (log'.take (p + 1)).length = p + 1 := by rw [List.length_take]; omega
  rcases leader_logs_total run hno hunique (by omega) (by omega) hleads hleads' with
    htotal | htotal
  · rw [← prefix_take (hfront.trans htotal) hlength, prefix_take hfront' hlength']
  · rw [← prefix_take (hfront'.trans htotal) hlength', prefix_take hfront hlength]

theorem accepted_log {k j : Nat} (hk : k ≤ run.length) (hj : j ≤ run.length) {i c : Fin n}
    {args : AppendEntriesArgs n C} (hsourced : Sourced run k ((run.state k).rafts i).log)
    (hsourced' : Sourced run j ((run.state j).rafts c).log)
    (hdescribes : Describes ((run.state j).rafts c).log args)
    (hmatch : 1 ≤ args.prevLogIndex → ∃ prev,
      ((run.state k).rafts i).log[args.prevLogIndex]? = some prev ∧
        prev.logTerm = args.prevLogTerm) :
    ((run.state k).rafts i).log.take (args.prevLogIndex + 1) ++ args.entries =
      ((run.state j).rafts c).log := by
  obtain ⟨⟨prev, hprev, hterm⟩, hentries⟩ := hdescribes
  have htake : ((run.state k).rafts i).log.take (args.prevLogIndex + 1) =
      ((run.state j).rafts c).log.take (args.prevLogIndex + 1) := by
    rcases Nat.eq_zero_or_pos args.prevLogIndex with hzero | hpos
    · have hhead := ((plain_run run hno k hk).servers i).log.head
      have hhead' := ((plain_run run hno j hj).servers c).log.head
      rw [hzero, List.take_one, List.take_one, hhead, hhead']
    · obtain ⟨own, hown, hsame⟩ := hmatch hpos
      exact hsourced.take_eq hno hunique hk hj hsourced' hpos hown hprev
        (hsame.trans hterm)
  rw [htake, hentries, List.take_append_drop]

theorem Sourced.step {k : Nat} (hk : k < run.length)
    (ih : ∀ j, j ≤ k → ∀ i, Sourced run j ((run.state j).rafts i).log) (i : Fin n) :
    Sourced run (k + 1) ((run.state (k + 1)).rafts i).log := by
  obtain ⟨rf, hrf, hnext⟩ := server_step run hno hk i
  have hlog := hnext.log_eq
  rcases hrf with rfl | ⟨eff, hlocal⟩
  · rw [hlog]
    exact (ih k (Nat.le_refl k) i).mono (by omega)
  · have hplain := plain_run run hno k hk.le
    cases LogStep.of_local ⟨hno k hk, hplain.calls⟩ (hplain.servers i).log hlocal with
    | kept hkept =>
        rw [hlog, hkept]
        exact (ih k (Nat.le_refl k) i).mono (by omega)
    | appended command hact hstate hstart hform =>
        intro p e he hp
        rcases Nat.lt_or_ge p ((run.state k).rafts i).log.length with hlt | hge
        · have hfront : ((run.state k).rafts i).log <+: rf.log := by
            rw [hform]
            exact List.prefix_append _ _
          rw [hlog] at he ⊢
          obtain ⟨rest, hrest⟩ := hfront
          rw [← hrest, List.getElem?_append_left hlt] at he
          rw [← hrest, List.take_append_of_le_length (by omega)]
          exact (ih k (Nat.le_refl k) i).mono (Nat.le_succ k) p e he hp
        · -- the entry just appended
          have hterm : e.logTerm = ((run.state k).rafts i).currentTerm := by
            rw [hlog, hform] at he
            simp only [persist_log] at he
            rw [List.getElem?_append_right hge] at he
            obtain ⟨_, heq⟩ := List.getElem?_eq_some_iff.mp he
            simp only [List.getElem_singleton] at heq
            rw [← heq]
          have hleader : Leads (run.state (k + 1)) i e.logTerm := by
            have hstep := run.steps k hk
            rw [hact] at hstep
            rw [hterm, Leads, start_server hstep hstart, hform]
            exact ⟨hstate, rfl⟩
          exact ⟨k + 1, i, Nat.le_refl _, hleader, List.take_prefix _ _⟩
    | accepted j call _ hcall hserver _ hnew _ hmatch hnewlog =>
        obtain ⟨_, j', hj', hleads, hdescribes⟩ :=
          appendEntries_sent run hno hk.le (List.mem_of_getElem? hcall)
        have hsource := ih j' (by omega) call.caller
        rw [hlog, hnewlog, accepted_log hno hunique hk.le (by omega)
          (ih k (Nat.le_refl k) i) hsource hdescribes hmatch]
        exact hsource.mono (by omega)

theorem sourced_run : ∀ k, k ≤ run.length →
    ∀ i, Sourced run k ((run.state k).rafts i).log := by
  refine run.induct_strong ?_ ?_
  · intro i p e he hp
    rw [run.starts] at he
    obtain ⟨hlt, _⟩ := List.getElem?_eq_some_iff.mp he
    have hlength : ((Cluster.init n C D).rafts i).log.length = 1 := rfl
    omega
  · intro k hk ih i
    exact .step hno hunique hk ih i

end NoSnapshots

/-! The logs that the property speaks of. -/

/-- The log of a server, or one that the sender of a request in flight can have cut
it from: it held the log before, as leader of the request's term. -/
inductive KnownLog (run : ClusterRun n C D) (k : Nat) : List (LogEntry C) → Prop
  | server (i : Fin n) : KnownLog run k ((run.state k).rafts i).log
  | inFlight (call : Rpc n (AppendEntriesArgs n C) AppendEntriesReply)
      (hcall : call ∈ (run.state k).appendEntries) (hflight : call.reply = none)
      (j : Nat) (hj : j < k) (hleads : Leads (run.state j) call.caller call.args.term)
      (hdescribes : Describes ((run.state j).rafts call.caller).log call.args) :
      KnownLog run k ((run.state j).rafts call.caller).log

/-- If both logs have an entry of one index and term, they have the same entries up
to that index. -/
def Matching (log log' : List (LogEntry C)) : Prop :=
  ∀ e ∈ log, ∀ e' ∈ log', e.logIndex = e'.logIndex → e.logTerm = e'.logTerm →
    ∀ x : LogEntry C, x.logIndex ≤ e.logIndex → (x ∈ log ↔ x ∈ log')

theorem PlainLog.getElem?_of_mem {log : List (LogEntry C)} (h : PlainLog log)
    {e : LogEntry C} (he : e ∈ log) : log[e.logIndex]? = some e := by
  obtain ⟨p, hp⟩ := List.mem_iff_getElem?.mp he
  rwa [h.index p e hp]

theorem PlainLog.mem_of_take {log log' : List (LogEntry C)} (h : PlainLog log) {p : Nat}
    (htake : log.take (p + 1) = log'.take (p + 1)) {x : LogEntry C}
    (hx : x.logIndex ≤ p) (hmem : x ∈ log) : x ∈ log' := by
  have hget := h.getElem?_of_mem hmem
  rw [← List.getElem?_take_of_lt (show x.logIndex < p + 1 by omega), htake,
    List.getElem?_take_of_lt (by omega)] at hget
  exact List.mem_of_getElem? hget

theorem KnownLog.origin {run : ClusterRun n C D} {k : Nat} (hk : k ≤ run.length)
    {log : List (LogEntry C)} (h : KnownLog run k log) :
    ∃ j i, j ≤ run.length ∧ log = ((run.state j).rafts i).log := by
  cases h with
  | server i => exact ⟨k, i, hk, rfl⟩
  | inFlight call _ _ j hj => exact ⟨j, call.caller, by omega, rfl⟩

/-- Each request in flight describes a known log, and any two known logs match. -/
theorem log_matching (run : ClusterRun n C D)
    (hno : run.AllSteps fun _ a => noStartSnapshot a) (hunique : UniqueLeaders run)
    {k : Nat} (hk : k ≤ run.length) :
    (∀ call ∈ (run.state k).appendEntries, call.reply = none →
      ∃ log, KnownLog run k log ∧ Describes log call.args) ∧
    ∀ log log', KnownLog run k log → KnownLog run k log' → Matching log log' := by
  refine ⟨fun call hcall hflight => ?_, fun log log' h h' e he e' he' hindex hterm x hx => ?_⟩
  · obtain ⟨_, j, hj, hleads, hdescribes⟩ := appendEntries_sent run hno hk hcall
    exact ⟨_, .inFlight call hcall hflight j hj hleads hdescribes, hdescribes⟩
  · obtain ⟨j, i, hj, rfl⟩ := h.origin hk
    obtain ⟨j', i', hj', rfl⟩ := h'.origin hk
    have hplain := ((plain_run run hno j hj).servers i).log
    have hplain' := ((plain_run run hno j' hj').servers i').log
    have hget := hplain.getElem?_of_mem he
    have hget' := hplain'.getElem?_of_mem he'
    have htake : ((run.state j).rafts i).log.take (e.logIndex + 1) =
        ((run.state j').rafts i').log.take (e.logIndex + 1) := by
      rcases Nat.eq_zero_or_pos e.logIndex with hzero | hpos
      · rw [hzero, List.take_one, List.take_one, hplain.head, hplain'.head]
      · exact (sourced_run hno hunique j hj i).take_eq hno hunique hj hj'
          (sourced_run hno hunique j' hj' i') hpos hget (hindex ▸ hget') hterm
    exact ⟨hplain.mem_of_take htake hx, hplain'.mem_of_take htake.symm hx⟩

/-! A run whose leaders can be listed beforehand, one for each term. -/

def ledBy (leader : Nat → Fin n) (s : Cluster n C D) : Bool :=
  (List.finRange n).all fun i =>
    (s.rafts i).state != .leader || i == leader (s.rafts i).currentTerm

theorem uniqueLeaders_of_ledBy {acts : List (Action n C D)} {leader : Nat → Fin n}
    (h : Lib.checkStates Cluster.step (ledBy leader) (Cluster.init n C D) acts = true) :
    UniqueLeaders (Lib.Run.ofActions acts (Lib.exec_isSome_of_checkStates h)) := by
  have hled : ∀ k i term,
      Leads ((Lib.Run.ofActions acts (Lib.exec_isSome_of_checkStates h)).state k) i term →
      i = leader term := by
    intro k i term hleads
    have hall := List.all_eq_true.mp (Lib.Run.ofActions_check h k) i (List.mem_finRange i)
    rw [← hleads.2]
    simpa [hleads.1] using hall
  intro k l _ _ i j term hi hj
  rw [hled k i term hi, hled l j term hj]

/-- Server 0 wins term 1, appends a command and sends it. Server 1 has it while the
request to server 2 is in flight. -/
def firstCommand : List (Action 3 Nat Unit) :=
  firstElection ++ [.start 0 10, .loop 0 .proceed, .loop 0 .proceed, .appendEntries 0]

theorem firstCommand_ledBy : Lib.checkStates Cluster.step (ledBy fun _ => 0)
    (Cluster.init 3 Nat Unit) firstCommand = true := by decide +kernel

def firstCommandRun : ClusterRun 3 Nat Unit :=
  Lib.Run.ofActions firstCommand (Lib.exec_isSome_of_checkStates firstCommand_ledBy)

theorem log_matching_first : KnownLog firstCommandRun 16
      ((firstCommandRun.state 16).rafts 1).log ∧
    (⟨1, 1, some 10⟩ : LogEntry Nat) ∈ ((firstCommandRun.state 16).rafts 1).log ∧
    (∀ call ∈ (firstCommandRun.state 16).appendEntries, call.reply = none →
      ∃ log, KnownLog firstCommandRun 16 log ∧ Describes log call.args) ∧
    ∀ log log', KnownLog firstCommandRun 16 log → KnownLog firstCommandRun 16 log' →
      Matching log log' := by
  have hno : firstCommandRun.AllSteps fun _ a => noStartSnapshot a := by decide +kernel
  have hunique : UniqueLeaders firstCommandRun := uniqueLeaders_of_ledBy firstCommand_ledBy
  exact ⟨.server 1, by decide +kernel,
    log_matching firstCommandRun hno hunique (by decide)⟩

end BlockchainTutorial.Raft
