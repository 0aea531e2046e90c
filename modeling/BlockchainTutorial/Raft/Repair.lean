import BlockchainTutorial.Raft.LogMatching

namespace BlockchainTutorial.Raft

variable {n : Nat} {C D : Type}

/-! Repair of one follower's log. The leader sends `AppendEntries` built from
`nextIndex` until the follower accepts, and moves `nextIndex` back to where each
rejection says. -/

/-- One exchange: the turn of `boatcastAppendEntries` for `server`, the follower's
`AppendEntries`, and what the leader does with the reply. There is none where one of
them would panic or the leader would send its snapshot instead. -/
def repairRound (me server : Fin n) (leader follower : Raft n C D) :
    Option (Raft n C D × Raft n C D × AppendEntriesReply) :=
  leader.log.head?.bind fun base =>
    (leader.replicate me base [server]).appendEntries.head?.bind fun call =>
      (follower.appendEntries call.2).2.map fun reply =>
        (leader.sendAppendEntries server call.2 reply,
          (follower.appendEntries call.2).1, reply)

/-- The values `nextIndex` has at the sends, and the follower that accepts. -/
def repair (me server : Fin n) : Nat → Raft n C D → Raft n C D →
    Option (List Nat × Raft n C D)
  | 0, _, _ => none
  | fuel + 1, leader, follower =>
      (repairRound me server leader follower).bind fun round =>
        if round.2.2.success then some ([leader.nextIndex server], round.2.1)
        else
          (repair me server fuel round.1 round.2.1).map fun done =>
            (leader.nextIndex server :: done.1, done.2)

/-- Both logs count up from the dummy entry, so that the leader's last index is one
less than the length of its log. -/
structure Repairable (me server : Fin n) (leader follower : Raft n C D) : Prop where
  other : server ≠ me
  leads : leader.state = .leader
  plain : PlainLog leader.log
  follower_plain : PlainLog follower.log
  matching : Matching leader.log follower.log
  term_le : follower.currentTerm ≤ leader.currentTerm
  next_pos : 1 ≤ leader.nextIndex server
  next_le : leader.nextIndex server ≤ leader.log.length

/-! The follower's side. -/

theorem conflictIndex_le (log : List (LogEntry C)) (term count : Nat) :
    conflictIndex log 0 term count ≤ count := by
  induction count with
  | zero => exact Nat.le_refl 0
  | succ count ih =>
      unfold conflictIndex
      split
      · exact Nat.zero_le _
      · split
        · omega
        · exact Nat.le_succ_of_le ih

/-- What a follower in the request's term, or behind it, answers. -/
inductive PlainReply (rf : Raft n C D) (args : AppendEntriesArgs n C) :
    Raft n C D → AppendEntriesReply → Prop
  | short (rf' : Raft n C D) (hlog : rf'.log = rf.log)
      (hterm : rf'.currentTerm = args.term) (hshort : rf.log.length ≤ args.prevLogIndex) :
      PlainReply rf args rf' ⟨args.term, false, rf.log.length⟩
  | conflict (rf' : Raft n C D) (prev : LogEntry C) (hlog : rf'.log = rf.log)
      (hterm : rf'.currentTerm = args.term) (hpos : 1 ≤ args.prevLogIndex)
      (hprev : rf.log[args.prevLogIndex]? = some prev) :
      PlainReply rf args rf'
        ⟨args.term, false, conflictIndex rf.log 0 prev.logTerm args.prevLogIndex⟩
  | accepted (rf' : Raft n C D) (nextIndex : Nat) (prev : LogEntry C)
      (hlog : rf'.log = rf.log.take (args.prevLogIndex + 1) ++ args.entries)
      (hprev : rf.log[args.prevLogIndex]? = some prev)
      (hsame : args.prevLogIndex = 0 ∨ args.prevLogTerm = prev.logTerm) :
      PlainReply rf args rf' ⟨args.term, true, nextIndex⟩

theorem observeTerm_currentTerm_of_le {rf : Raft n C D} {term : Nat}
    (hle : rf.currentTerm ≤ term) : (rf.observeTerm term).currentTerm = term := by
  unfold observeTerm
  split
  · rfl
  · exact Nat.le_antisymm hle (by omega)

theorem acceptEntries_plain {rf : Raft n C D} {args : AppendEntriesArgs n C}
    {prev : LogEntry C} (hprev : rf.log[args.prevLogIndex]? = some prev) :
    ∃ rf' nextIndex,
      rf.acceptEntries args 0 = (rf', some ⟨args.term, true, nextIndex⟩) ∧
      rf'.log = rf.log.take (args.prevLogIndex + 1) ++ args.entries := by
  obtain ⟨hlt, _⟩ := List.getElem?_eq_some_iff.mp hprev
  have hne : rf.log.take (args.prevLogIndex + 1) ++ args.entries ≠ [] := by
    intro hnil
    have hlength := congrArg List.length hnil
    simp only [List.length_append, List.length_take, List.length_nil] at hlength
    omega
  have hlast := List.getLast?_eq_some_getLast hne
  unfold acceptEntries
  simp only [Nat.not_lt_zero, if_false, Nat.sub_zero, hlast]
  split
  · exact ⟨_, _, rfl, rfl⟩
  · exact ⟨_, _, rfl, rfl⟩

theorem appendEntries_plain {rf : Raft n C D} {args : AppendEntriesArgs n C}
    (h : PlainLog rf.log) (hterm : rf.currentTerm ≤ args.term) :
    ∃ rf' reply, rf.appendEntries args = (rf', some reply) ∧
      PlainReply rf args rf' reply := by
  have hlast := List.getLast?_eq_some_getLast (List.ne_nil_of_length_pos h.length_pos)
  generalize rf.log.getLast _ = last at hlast
  have hlength := h.last hlast
  simp only [appendEntries, h.head, hlast, Nat.not_lt.mpr hterm, if_false,
    observeTerm_chanHeartbeat]
  -- from here on only the log and the term of the server that goes on matter
  have hlog : { rf.observeTerm args.term with
      chanHeartbeat := rf.chanHeartbeat + 1 }.log = rf.log := observeTerm_log rf args.term
  have hnow : { rf.observeTerm args.term with
      chanHeartbeat := rf.chanHeartbeat + 1 }.currentTerm = args.term :=
    observeTerm_currentTerm_of_le hterm
  generalize { rf.observeTerm args.term with
    chanHeartbeat := rf.chanHeartbeat + 1 } = observed at hlog hnow ⊢
  simp only [observeTerm_log, Nat.sub_zero]
  by_cases hshort : args.prevLogIndex > last.logIndex
  · rw [if_pos hshort, hlength]
    exact ⟨_, _, rfl, .short observed.persist hlog hnow (by omega)⟩
  · rw [if_neg hshort]
    obtain ⟨prev, hprev⟩ : ∃ prev, rf.log[args.prevLogIndex]? = some prev :=
      ⟨_, List.getElem?_eq_getElem (by omega)⟩
    have hheld : observed.log[args.prevLogIndex]? = some prev := by
      rw [hlog]
      exact hprev
    obtain ⟨rf', nextIndex, haccept, hnew⟩ := acceptEntries_plain hheld
    rw [hlog] at hnew
    simp only [hprev, haccept]
    split
    · next hpos =>
        split
        · exact ⟨_, _, rfl, .conflict observed.persist prev hlog hnow hpos hprev⟩
        · next hsame =>
            exact ⟨_, _, rfl, .accepted rf' nextIndex prev hnew hprev
              (.inr (not_ne_iff.mp hsame))⟩
    · next hzero =>
        exact ⟨_, _, rfl, .accepted rf' nextIndex prev hnew hprev (.inl (by omega))⟩

/-! The leader's side, and the splice. -/

theorem Matching.take_eq {log log' : List (LogEntry C)} (hmatching : Matching log log')
    (h : PlainLog log) (h' : PlainLog log') {p : Nat} {e e' : LogEntry C}
    (he : log[p]? = some e) (he' : log'[p]? = some e') (hterm : e.logTerm = e'.logTerm) :
    log.take (p + 1) = log'.take (p + 1) := by
  have hindex := h.index p e he
  have hshared := hmatching e (List.mem_of_getElem? he) e' (List.mem_of_getElem? he')
    (hindex.trans (h'.index p e' he').symm) hterm
  obtain ⟨hlt, _⟩ := List.getElem?_eq_some_iff.mp he
  obtain ⟨hlt', _⟩ := List.getElem?_eq_some_iff.mp he'
  apply List.ext_getElem?
  intro q
  by_cases hq : q < p + 1
  · rw [List.getElem?_take_of_lt hq, List.getElem?_take_of_lt hq]
    have hx : log[q]? = some log[q] := List.getElem?_eq_getElem (by omega)
    have hxindex := h.index q _ hx
    have hmem := (hshared log[q] (by omega)).mp (List.mem_of_getElem? hx)
    rw [hx, ← h'.getElem?_of_mem hmem, hxindex]
  · rw [List.getElem?_eq_none (by rw [List.length_take]; omega),
      List.getElem?_eq_none (by rw [List.length_take]; omega)]

theorem replicate_plain {me server : Fin n} {leader : Raft n C D}
    (hother : server ≠ me) (hleads : leader.state = .leader) {index : Nat}
    (hindex : leader.nextIndex server = index + 1) {prev : LogEntry C}
    (hprev : leader.log[index]? = some prev) :
    (leader.replicate me ⟨0, 0, none⟩ [server]).appendEntries =
      [(server, ⟨leader.currentTerm, me, prev.logTerm, index, leader.log.drop (index + 1),
        leader.commitIndex⟩)] := by
  simp only [replicate, hother, hleads, hindex, ne_eq, not_false_eq_true, and_self, if_true,
    gt_iff_lt, Nat.zero_lt_succ, Nat.add_sub_cancel, Nat.sub_zero, hprev]

theorem sendAppendEntries_rejected {leader : Raft n C D} {server : Fin n}
    {args : AppendEntriesArgs n C} (hleads : leader.state = .leader)
    (hterm : args.term = leader.currentTerm) (next : Nat) :
    leader.sendAppendEntries server args ⟨args.term, false, next⟩ =
      { leader with nextIndex := Function.update leader.nextIndex server next } := by
  simp only [sendAppendEntries, hleads, hterm, ne_eq, not_true_eq_false, if_false,
    gt_iff_lt, Nat.lt_irrefl, Bool.false_eq_true]

/-- What one exchange does: the leader steps back, or the logs agree. -/
inductive RoundOutcome (me server : Fin n) (leader follower : Raft n C D) :
    Raft n C D × Raft n C D × AppendEntriesReply → Prop
  | rejected (leader' follower' : Raft n C D) (reply : AppendEntriesReply)
      (hsuccess : reply.success = false)
      (hnext : leader'.nextIndex server < leader.nextIndex server)
      (hrepairable : Repairable me server leader' follower')
      (hlog : leader'.log = leader.log) :
      RoundOutcome me server leader follower (leader', follower', reply)
  | accepted (leader' follower' : Raft n C D) (reply : AppendEntriesReply)
      (hsuccess : reply.success = true) (hlog : follower'.log = leader.log) :
      RoundOutcome me server leader follower (leader', follower', reply)

theorem Repairable.stepBack {me server : Fin n} {leader follower follower' : Raft n C D}
    (h : Repairable me server leader follower) {next : Nat} (hpos : 1 ≤ next)
    (hlt : next < leader.nextIndex server) (hlog : follower'.log = follower.log)
    (hterm : follower'.currentTerm = leader.currentTerm) :
    Repairable me server
      { leader with nextIndex := Function.update leader.nextIndex server next }
      follower' where
  other := h.other
  leads := h.leads
  plain := h.plain
  follower_plain := by rw [hlog]; exact h.follower_plain
  matching := by rw [hlog]; exact h.matching
  term_le := hterm.le
  next_pos := by simpa using hpos
  next_le := by
    have := h.next_le
    simp only [Function.update_self]
    omega

theorem repairRound_outcome {me server : Fin n} {leader follower : Raft n C D}
    (h : Repairable me server leader follower) :
    ∃ round, repairRound me server leader follower = some round ∧
      RoundOutcome me server leader follower round := by
  obtain ⟨index, hindex⟩ : ∃ index, leader.nextIndex server = index + 1 :=
    ⟨leader.nextIndex server - 1, by have := h.next_pos; omega⟩
  have hle := h.next_le
  obtain ⟨prev, hprev⟩ : ∃ prev, leader.log[index]? = some prev :=
    ⟨_, List.getElem?_eq_getElem (by omega)⟩
  have hsent := replicate_plain h.other h.leads hindex hprev
  set args : AppendEntriesArgs n C := ⟨leader.currentTerm, me, prev.logTerm, index,
    leader.log.drop (index + 1), leader.commitIndex⟩
  have hterm : follower.currentTerm ≤ args.term := h.term_le
  obtain ⟨follower', reply, hreply, hplain⟩ := appendEntries_plain h.follower_plain hterm
  refine ⟨(leader.sendAppendEntries server args reply, follower', reply), ?_, ?_⟩
  · simp only [repairRound, h.plain.head, hsent, hreply, Option.bind_some, List.head?_cons,
      Option.map_some]
  · cases hplain with
    | short hlog hterm hshort =>
        have hpos := h.follower_plain.length_pos
        have hlt : follower.log.length < leader.nextIndex server := by
          rw [hindex]
          exact Nat.lt_succ_of_le hshort
        rw [sendAppendEntries_rejected h.leads rfl]
        exact .rejected _ _ _ rfl (by simpa using hlt) (h.stepBack hpos hlt hlog hterm) rfl
    | conflict e hlog hterm hpos he =>
        obtain ⟨hrange, _⟩ := List.getElem?_eq_some_iff.mp he
        have hback := conflictIndex_pos h.follower_plain
          (h.follower_plain.term_pos _ _ he hpos) args.prevLogIndex hpos hrange.le
        have hlt : conflictIndex follower.log 0 e.logTerm args.prevLogIndex <
            leader.nextIndex server := by
          rw [hindex]
          exact Nat.lt_succ_of_le (conflictIndex_le _ _ _)
        rw [sendAppendEntries_rejected h.leads rfl]
        exact .rejected _ _ _ rfl (by simpa using hlt) (h.stepBack hback hlt hlog hterm) rfl
    | accepted nextIndex e hlog he hsame =>
        refine .accepted _ _ _ rfl ?_
        have hterm : prev.logTerm = e.logTerm := by
          rcases hsame with hzero | hsame
          · have hbase : index = 0 := hzero
            rw [hbase, h.plain.zero] at hprev
            rw [hzero, h.follower_plain.zero] at he
            rw [← Option.some.inj hprev, ← Option.some.inj he]
          · exact hsame
        have htake := h.matching.take_eq h.plain h.follower_plain hprev he hterm
        rw [hlog, ← htake]
        exact List.take_append_drop (index + 1) leader.log

/-! The whole repair. -/

/-- The repair ends within `nextIndex` exchanges, none of which panics. Each send
starts at a smaller `nextIndex` than the one before, and never below 1. -/
theorem repair_converges {me server : Fin n} {leader follower : Raft n C D}
    (h : Repairable me server leader follower) {fuel : Nat}
    (hfuel : leader.nextIndex server ≤ fuel) :
    ∃ indexes final, repair me server fuel leader follower = some (indexes, final) ∧
      indexes.head? = some (leader.nextIndex server) ∧
      indexes.Pairwise (· > ·) ∧ (∀ index ∈ indexes, 1 ≤ index) ∧
      final.log = leader.log := by
  induction fuel generalizing leader follower with
  | zero =>
      have := h.next_pos
      omega
  | succ fuel ih =>
      obtain ⟨round, hround, houtcome⟩ := repairRound_outcome h
      simp only [repair, hround, Option.bind_some]
      cases houtcome with
      | accepted leader' follower' reply hsuccess hlog =>
          rw [if_pos hsuccess]
          refine ⟨_, _, rfl, rfl, List.pairwise_singleton _ _, ?_, hlog⟩
          intro index hmem
          rw [List.mem_singleton.mp hmem]
          exact h.next_pos
      | rejected leader' follower' reply hsuccess hnext hrepairable hsame =>
          obtain ⟨indexes, final, hrepair, hhead, hpairwise, hpos, hlog⟩ :=
            ih hrepairable (by omega)
          simp only [hsuccess, Bool.false_eq_true, if_false, hrepair, Option.map_some]
          refine ⟨_, _, rfl, rfl, ?_, ?_, hlog.trans hsame⟩
          · obtain ⟨rest, rfl⟩ := List.head?_eq_some_iff.mp hhead
            refine List.pairwise_cons.mpr ⟨?_, hpairwise⟩
            intro index hmem
            rcases List.mem_cons.mp hmem with rfl | hmem
            · exact hnext
            · exact lt_trans ((List.pairwise_cons.mp hpairwise).1 index hmem) hnext
          · intro index hmem
            rcases List.mem_cons.mp hmem with rfl | hmem
            · exact h.next_pos
            · exact hpos index hmem

/-- Two servers whose logs part behind the dummy entry, the follower's being longer. -/
def backupLeader : Raft 3 Nat Nat :=
  { make ⟨none, none⟩ with
    state := .leader
    currentTerm := 3
    log := [⟨0, 0, none⟩, ⟨1, 1, some 10⟩, ⟨2, 3, some 30⟩]
    nextIndex := fun _ => 3 }

def backupFollower : Raft 3 Nat Nat :=
  { make ⟨none, none⟩ with
    currentTerm := 2
    log := [⟨0, 0, none⟩, ⟨1, 2, some 20⟩, ⟨2, 2, some 21⟩, ⟨3, 2, some 22⟩] }

theorem plainLog_of_forall {log : List (LogEntry C)} (hhead : log.head? = some ⟨0, 0, none⟩)
    (hall : ∀ p : Fin log.length, log[p].logIndex = p ∧ (1 ≤ p.val → 1 ≤ log[p].logTerm)) :
    PlainLog log := by
  refine ⟨hhead, ?_, ?_⟩
  · intro p e he
    obtain ⟨hlt, rfl⟩ := List.getElem?_eq_some_iff.mp he
    exact (hall ⟨p, hlt⟩).1
  · intro p e he hpos
    obtain ⟨hlt, rfl⟩ := List.getElem?_eq_some_iff.mp he
    exact (hall ⟨p, hlt⟩).2 hpos

theorem backup_repairable : Repairable 0 1 backupLeader backupFollower where
  other := by decide
  leads := rfl
  plain := plainLog_of_forall rfl (by decide)
  follower_plain := plainLog_of_forall rfl (by decide)
  matching := by
    intro e he e' he' hindex hterm x hx
    -- only the dummy entries share an index and a term
    have hdummy : ∀ e ∈ backupLeader.log, ∀ e' ∈ backupFollower.log,
        e.logIndex = e'.logIndex → e.logTerm = e'.logTerm → e.logIndex = 0 := by decide
    have hzero : x.logIndex = 0 := by
      have := hdummy e he e' he' hindex hterm
      omega
    have hleader : ∀ x ∈ backupLeader.log, x.logIndex = 0 → x ∈ backupFollower.log := by
      decide
    have hfollower : ∀ x ∈ backupFollower.log, x.logIndex = 0 → x ∈ backupLeader.log := by
      decide
    exact ⟨fun hmem => hleader x hmem hzero, fun hmem => hfollower x hmem hzero⟩
  term_le := by decide
  next_pos := by decide
  next_le := by decide

theorem repair_converges_backup :
    ∃ indexes final, repair 0 1 3 backupLeader backupFollower = some (indexes, final) ∧
      indexes.head? = some 3 ∧ indexes.Pairwise (· > ·) ∧
      (∀ index ∈ indexes, 1 ≤ index) ∧ final.log = backupLeader.log :=
  repair_converges backup_repairable (Nat.le_refl 3)

/-- The first rejection skips the follower's whole term. -/
example : (repair 0 1 3 backupLeader backupFollower).map (·.1) = some [3, 1] := by decide

end BlockchainTutorial.Raft
