import BlockchainTutorial.Raft.Logs

namespace BlockchainTutorial.Raft

/-! Logs that are cut off in front, in runs with snapshots. The indexes of a log still
follow one another, from the one that its snapshot covers on. -/

variable {n : Nat} {C D : Type}

def Consecutive (start : Nat) (entries : List (LogEntry C)) : Prop :=
  ∀ k e, entries[k]? = some e → e.logIndex = start + k

theorem consecutive_singleton (entry : LogEntry C) : Consecutive entry.logIndex [entry] := by
  intro k e he
  obtain ⟨hk, rfl⟩ := List.getElem?_eq_some_iff.mp he
  obtain rfl : k = 0 := by simpa using hk
  rfl

theorem Consecutive.drop {start : Nat} {entries : List (LogEntry C)}
    (h : Consecutive start entries) (count : Nat) :
    Consecutive (start + count) (entries.drop count) := by
  intro k e he
  rw [List.getElem?_drop] at he
  rw [h _ e he, Nat.add_assoc]

theorem Consecutive.take {start : Nat} {entries : List (LogEntry C)}
    (h : Consecutive start entries) (count : Nat) :
    Consecutive start (entries.take count) := by
  intro k e he
  exact h k e (getElem?_mono (List.take_prefix count entries) he)

theorem Consecutive.append {start : Nat} {front back : List (LogEntry C)}
    (hfront : Consecutive start front) (hback : Consecutive (start + front.length) back) :
    Consecutive start (front ++ back) := by
  intro k e he
  rcases Nat.lt_or_ge k front.length with hlt | hge
  · rw [List.getElem?_append_left hlt] at he
    exact hfront k e he
  · rw [List.getElem?_append_right hge] at he
    rw [hback _ e he]
    omega

/-- A log that starts with `base`. -/
structure Based (base : LogEntry C) (log : List (LogEntry C)) : Prop where
  head : log.head? = some base
  consecutive : Consecutive base.logIndex log

namespace Based

variable {base : LogEntry C} {log : List (LogEntry C)}

theorem singleton (base : LogEntry C) : Based base [base] :=
  ⟨rfl, consecutive_singleton base⟩

theorem eq_cons (h : Based base log) : log = base :: log.tail :=
  (List.cons_head?_tail h.head).symm

theorem length_pos (h : Based base log) : 0 < log.length := by
  rw [h.eq_cons]
  exact Nat.succ_pos _

theorem last (h : Based base log) {last : LogEntry C} (hlast : log.getLast? = some last) :
    last.logIndex + 1 = base.logIndex + log.length := by
  rw [List.getLast?_eq_getElem?] at hlast
  have hindex := h.consecutive _ _ hlast
  have hpos := h.length_pos
  omega

theorem exists_last (h : Based base log) : ∃ last, log.getLast? = some last :=
  ⟨_, List.getLast?_eq_some_getLast (List.ne_nil_of_length_pos h.length_pos)⟩

theorem take_append (h : Based base log) {count : Nat} (hpos : 0 < count)
    (hcount : count ≤ log.length) {entries : List (LogEntry C)}
    (hentries : Consecutive (base.logIndex + count) entries) :
    Based base (log.take count ++ entries) := by
  refine ⟨?_, (h.consecutive.take count).append ?_⟩
  · rw [h.eq_cons]
    cases count with
    | zero => cases hpos
    | succ count => rfl
  · rwa [List.length_take, Nat.min_eq_left hcount]

theorem append (h : Based base log) {entries : List (LogEntry C)}
    (hentries : Consecutive (base.logIndex + log.length) entries) :
    Based base (log ++ entries) := by
  have htake := h.take_append h.length_pos (Nat.le_refl _) hentries
  rwa [List.take_length] at htake

/-- Cut off in front of `index`. -/
theorem cut (h : Based base log) {index : Nat} (hlow : base.logIndex ≤ index) (term : Nat) :
    Based ⟨index, term, none⟩
      (⟨index, term, none⟩ :: log.drop (index + 1 - base.logIndex)) := by
  refine ⟨rfl, (consecutive_singleton _).append ?_⟩
  have hdrop := h.consecutive.drop (index + 1 - base.logIndex)
  rwa [Nat.add_sub_cancel' (by omega)] at hdrop

end Based

/-! `truncateLog`. -/

theorem entriesAfter_eq_some {index term : Nat} {log rest : List (LogEntry C)}
    (h : entriesAfter index term log = some rest) :
    ∃ k entry, log[k]? = some entry ∧ entry.logIndex = index ∧ entry.logTerm = term ∧
      rest = log.drop (k + 1) := by
  induction log with
  | nil => cases h
  | cons first tail ih =>
      unfold entriesAfter at h
      cases hfound : entriesAfter index term tail with
      | some found =>
          rw [hfound] at h
          obtain rfl := Option.some.inj h
          obtain ⟨k, entry, hget, hmatch⟩ := ih hfound
          exact ⟨k + 1, entry, hget, hmatch⟩
      | none =>
          rw [hfound] at h
          dsimp only at h
          split at h
          · rename_i hmatch
            obtain rfl := Option.some.inj h
            exact ⟨0, first, rfl, hmatch.1, hmatch.2, rfl⟩
          · cases h

theorem entriesAfter_eq_none {index term : Nat} {log : List (LogEntry C)}
    (h : entriesAfter index term log = none) :
    ∀ entry ∈ log, ¬ (entry.logIndex = index ∧ entry.logTerm = term) := by
  induction log with
  | nil => exact nofun
  | cons first tail ih =>
      unfold entriesAfter at h
      cases hfound : entriesAfter index term tail with
      | some found =>
          rw [hfound] at h
          cases h
      | none =>
          rw [hfound] at h
          dsimp only at h
          split at h
          · cases h
          · rename_i hmatch
            intro entry hentry
            rcases List.mem_cons.mp hentry with rfl | htail
            · exact hmatch
            · exact ih hfound entry htail

/-- The log that a snapshot leaves: what follows the entry that it ends with, or
nothing. -/
theorem Based.truncateLog_cases {base : LogEntry C} {log : List (LogEntry C)}
    (h : Based base log) (index term : Nat) :
    (∃ entry, base.logIndex ≤ index ∧ log[index - base.logIndex]? = some entry ∧
      entry.logTerm = term ∧
      truncateLog index term log =
        ⟨index, term, none⟩ :: log.drop (index + 1 - base.logIndex)) ∨
    ((∀ entry ∈ log, ¬ (entry.logIndex = index ∧ entry.logTerm = term)) ∧
      truncateLog index term log = [⟨index, term, none⟩]) := by
  unfold truncateLog
  cases hfound : entriesAfter index term log with
  | some rest =>
      obtain ⟨k, entry, hget, hindex, hterm, rfl⟩ := entriesAfter_eq_some hfound
      have hk := h.consecutive k entry hget
      have hplace : index - base.logIndex = k := by omega
      refine .inl ⟨entry, by omega, by rwa [hplace], hterm, ?_⟩
      rw [Option.getD_some, show index + 1 - base.logIndex = k + 1 by omega]
  | none => exact .inr ⟨entriesAfter_eq_none hfound, rfl⟩

theorem Based.truncateLog {base : LogEntry C} {log : List (LogEntry C)}
    (h : Based base log) (index term : Nat) :
    Based ⟨index, term, none⟩ (truncateLog index term log) := by
  rcases h.truncateLog_cases index term with ⟨entry, hlow, _, _, heq⟩ | ⟨_, heq⟩
  · rw [heq]
    exact h.cut hlow term
  · rw [heq]
    exact .singleton _

theorem Based.truncateLog_self {base : LogEntry C} {log : List (LogEntry C)}
    (h : Based base log) (hcomd : base.logComd = none) :
    Raft.truncateLog base.logIndex base.logTerm log = log := by
  have hbase : (⟨base.logIndex, base.logTerm, none⟩ : LogEntry C) = base := by
    rw [← hcomd]
  rcases h.truncateLog_cases base.logIndex base.logTerm with
    ⟨entry, _, _, _, heq⟩ | ⟨hnone, _⟩
  · rw [heq, hbase, show base.logIndex + 1 - base.logIndex = 1 by omega, List.drop_one]
    exact h.eq_cons.symm
  · refine absurd ⟨rfl, rfl⟩ (hnone base ?_)
    rw [h.eq_cons]
    exact List.mem_cons_self

/-! What `AppendEntries` makes of the log and of `commitIndex`. -/

@[simp] theorem observeTerm_lastApplied (rf : Raft n C D) (term : Nat) :
    (rf.observeTerm term).lastApplied = rf.lastApplied := by
  unfold observeTerm; split <;> rfl

@[simp] theorem persist_lastApplied (rf : Raft n C D) :
    rf.persist.lastApplied = rf.lastApplied := rfl

/-- `AppendEntries` takes the entries of the request. -/
def accepts (rf : Raft n C D) (args : AppendEntriesArgs n C) : Bool :=
  match rf.log.head?, rf.log.getLast? with
  | some base, some last =>
      decide (rf.currentTerm ≤ args.term) && decide (base.logIndex ≤ args.prevLogIndex) &&
        decide (args.prevLogIndex ≤ last.logIndex) &&
        (decide (args.prevLogIndex = base.logIndex) ||
          rf.log[args.prevLogIndex - base.logIndex]?.any fun prev =>
            prev.logTerm == args.prevLogTerm)
  | _, _ => false

def raisedCommit (leaderCommit commit last : Nat) : Nat :=
  if leaderCommit > commit then min leaderCommit last else commit

theorem accepts_iff {rf : Raft n C D} {args : AppendEntriesArgs n C}
    {base last : LogEntry C} (hbase : rf.log.head? = some base)
    (hlast : rf.log.getLast? = some last) :
    rf.accepts args = true ↔ rf.currentTerm ≤ args.term ∧
      base.logIndex ≤ args.prevLogIndex ∧ args.prevLogIndex ≤ last.logIndex ∧
      (base.logIndex < args.prevLogIndex →
        ∃ prev, rf.log[args.prevLogIndex - base.logIndex]? = some prev ∧
          prev.logTerm = args.prevLogTerm) := by
  unfold accepts
  rw [hbase, hlast]
  simp only [Bool.and_eq_true, Bool.or_eq_true, decide_eq_true_eq, Option.any_eq_true,
    beq_iff_eq, and_assoc]
  refine and_congr_right fun _ => and_congr_right fun hlow => and_congr_right fun _ => ?_
  constructor
  · rintro (heq | hprev) hlt
    · omega
    · exact hprev
  · intro hprev
    rcases Nat.eq_or_lt_of_le hlow with heq | hlt
    · exact .inl heq.symm
    · exact .inr (hprev hlt)

inductive AppendCore (rf : Raft n C D) (args : AppendEntriesArgs n C) :
    Raft n C D → Option AppendEntriesReply → Prop
  | rejected (haccepts : rf.accepts args = false)
      (hbelow : ∀ base last, rf.log.head? = some base → rf.log.getLast? = some last →
        rf.currentTerm ≤ args.term → args.prevLogIndex < base.logIndex →
        last.logIndex < args.prevLogIndex)
      (beats : Nat) (reply : Option AppendEntriesReply) :
      AppendCore rf args { rf.observeTerm args.term with chanHeartbeat := beats }.persist
        reply
  | below (haccepts : rf.accepts args = false) (base last : LogEntry C)
      (hterm : rf.currentTerm ≤ args.term)
      (hbase : rf.log.head? = some base) (hlast : rf.log.getLast? = some last)
      (hbelow : args.prevLogIndex < base.logIndex) (beats chan : Nat)
      (reply : AppendEntriesReply) :
      AppendCore rf args
        { rf.observeTerm args.term with
          chanHeartbeat := beats
          log := rf.log
          commitIndex := raisedCommit args.leaderCommit rf.commitIndex last.logIndex
          chanCommit := chan }.persist (some reply)
  | accepted (haccepts : rf.accepts args = true) (base last newLast : LogEntry C)
      (hbase : rf.log.head? = some base) (hlast : rf.log.getLast? = some last)
      (hnew : (rf.log.take (args.prevLogIndex + 1 - base.logIndex) ++
        args.entries).getLast? = some newLast) (beats chan : Nat)
      (reply : AppendEntriesReply) :
      AppendCore rf args
        { rf.observeTerm args.term with
          chanHeartbeat := beats
          log := rf.log.take (args.prevLogIndex + 1 - base.logIndex) ++ args.entries
          commitIndex := raisedCommit args.leaderCommit rf.commitIndex newLast.logIndex
          chanCommit := chan }.persist (some reply)

theorem exists_getLast?_take_append {log entries : List (LogEntry C)} {base : LogEntry C}
    (hbase : log.head? = some base) (count : Nat) :
    ∃ last, (log.take (count + 1) ++ entries).getLast? = some last := by
  cases log with
  | nil => cases hbase
  | cons first rest => exact ⟨_, List.getLast?_eq_some_getLast (by simp)⟩

theorem acceptEntries_core {rf : Raft n C D} {args : AppendEntriesArgs n C}
    {base last : LogEntry C} (beats : Nat) (hterm : rf.currentTerm ≤ args.term)
    (hbase : rf.log.head? = some base) (hlast : rf.log.getLast? = some last)
    (hlog : args.prevLogIndex < base.logIndex → rf.accepts args = false)
    (haccepts : base.logIndex ≤ args.prevLogIndex → rf.accepts args = true) :
    let out := { rf.observeTerm args.term with
      chanHeartbeat := beats }.acceptEntries args base.logIndex
    AppendCore rf args out.1 out.2 := by
  dsimp only
  by_cases hbelow : args.prevLogIndex < base.logIndex
  · have hcore := AppendCore.below (hlog hbelow) base last hterm hbase hlast hbelow beats
    simp only [acceptEntries, hbelow, if_true, observeTerm_log, hlast,
      observeTerm_commitIndex]
    unfold raisedCommit at hcore
    split
    · rename_i hraise
      simp only [if_pos hraise] at hcore
      exact hcore ((rf.observeTerm args.term).chanCommit + 1) _
    · rename_i hkeep
      simp only [if_neg hkeep] at hcore
      exact hcore (rf.observeTerm args.term).chanCommit _
  · have hle : base.logIndex ≤ args.prevLogIndex := Nat.le_of_not_lt hbelow
    obtain ⟨newLast, hnew⟩ := @exists_getLast?_take_append C rf.log args.entries base
      hbase (args.prevLogIndex - base.logIndex)
    rw [← Nat.sub_add_comm hle] at hnew
    have hcore := AppendCore.accepted (haccepts hle) base last newLast hbase hlast hnew beats
    simp only [acceptEntries, hbelow, if_false, observeTerm_log, observeTerm_commitIndex, hnew]
    unfold raisedCommit at hcore
    split
    · rename_i hraise
      simp only [if_pos hraise] at hcore
      exact hcore ((rf.observeTerm args.term).chanCommit + 1) _
    · rename_i hkeep
      simp only [if_neg hkeep] at hcore
      exact hcore (rf.observeTerm args.term).chanCommit _

theorem appendEntries_core (rf : Raft n C D) (args : AppendEntriesArgs n C) :
    AppendCore rf args (rf.appendEntries args).1 (rf.appendEntries args).2 := by
  unfold appendEntries
  split
  · rename_i base last hbase hlast
    have hiff := @accepts_iff n C D rf args base last hbase hlast
    have hbelow : (rf.currentTerm ≤ args.term → args.prevLogIndex < base.logIndex →
        last.logIndex < args.prevLogIndex) → ∀ base last, rf.log.head? = some base →
        rf.log.getLast? = some last → rf.currentTerm ≤ args.term →
        args.prevLogIndex < base.logIndex → last.logIndex < args.prevLogIndex := by
      intro h base' last' hbase' hlast'
      rw [hbase] at hbase'
      rw [hlast] at hlast'
      obtain rfl := Option.some.inj hbase'
      obtain rfl := Option.some.inj hlast'
      exact h
    by_cases hterm : args.term < rf.currentTerm
    · have hself : rf.observeTerm args.term = rf := observeTerm_eq_self (Nat.le_of_lt hterm)
      have hrejected := @AppendCore.rejected n C D rf args
        (Bool.eq_false_iff.mpr fun h => absurd (hiff.mp h).1 (Nat.not_le.mpr hterm))
        (hbelow fun hle => absurd hle (Nat.not_le.mpr hterm))
        rf.chanHeartbeat (some ⟨rf.currentTerm, false, last.logIndex + 1⟩)
      rw [if_pos hterm]
      rwa [hself] at hrejected
    · have hle : rf.currentTerm ≤ args.term := Nat.le_of_not_lt hterm
      rw [if_neg hterm, observeTerm_chanHeartbeat]
      dsimp only
      split
      · rename_i habove
        exact .rejected (Bool.eq_false_iff.mpr fun h =>
          absurd (hiff.mp h).2.2.1 (Nat.not_le.mpr habove)) (hbelow fun _ _ => habove) _ _
      · rename_i habove
        have habove : args.prevLogIndex ≤ last.logIndex := Nat.le_of_not_lt habove
        have hlog : args.prevLogIndex < base.logIndex → rf.accepts args = false :=
          fun hbelow => Bool.eq_false_iff.mpr fun h =>
            absurd (hiff.mp h).2.1 (Nat.not_le.mpr hbelow)
        split
        · rename_i hgt
          have hnot := hbelow fun _ hlt => absurd hlt (Nat.lt_asymm hgt)
          split
          · rename_i hnone
            refine .rejected (Bool.eq_false_iff.mpr fun h => ?_) hnot _ _
            obtain ⟨prev, hprev, _⟩ := (hiff.mp h).2.2.2 hgt
            rw [observeTerm_log, hprev] at hnone
            cases hnone
          · rename_i prev hprev
            rw [observeTerm_log] at hprev
            split
            · rename_i hmismatch
              refine .rejected (Bool.eq_false_iff.mpr fun h => ?_) hnot _ _
              obtain ⟨prev', hprev', hmatch⟩ := (hiff.mp h).2.2.2 hgt
              rw [hprev] at hprev'
              cases hprev'
              exact hmismatch hmatch.symm
            · rename_i hmatch
              exact acceptEntries_core _ hle hbase hlast hlog fun hlow =>
                hiff.mpr ⟨hle, hlow, habove, fun _ =>
                  ⟨prev, hprev, (not_ne_iff.mp hmatch).symm⟩⟩
        · rename_i hgt
          exact acceptEntries_core _ hle hbase hlast hlog fun hlow =>
            hiff.mpr ⟨hle, hlow, habove, fun hlt => absurd hlt hgt⟩
  · rename_i hnone
    refine .rejected ?_ (fun base last hbase hlast => absurd hlast (hnone base last hbase))
      (rf.observeTerm args.term).chanHeartbeat none
    unfold accepts
    split
    · rename_i base last hbase hlast
      exact absurd hlast (hnone base last hbase)
    · rfl

end BlockchainTutorial.Raft
