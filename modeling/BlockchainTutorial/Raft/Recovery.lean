import BlockchainTutorial.Raft.LogShape
import BlockchainTutorial.Raft.TermBounds

namespace BlockchainTutorial.Raft

/-! What a server reads back that crashed while it wrote a snapshot, in runs in which
servers may have crashed so before. -/

variable {n : Nat} {C D : Type}

def coveredIndex : Option (Snapshot D) → Nat
  | none => 0
  | some snapshot => snapshot.lastIncludedIndex

/-- The log starts where the stored snapshot ends. -/
def Aligned (rf : Raft n C D) : Prop :=
  rf.log.head?.map (·.logIndex) = some (coveredIndex rf.persister.snapshot)

/-- There is an entry with the same index and term. -/
def HasAt (log : List (LogEntry C)) (entry : LogEntry C) : Prop :=
  ∃ held ∈ log, held.logIndex = entry.logIndex ∧ held.logTerm = entry.logTerm

/-- The entry is there, or the one that it stands for as the first entry of a log. -/
def Holds (log : List (LogEntry C)) (entry : LogEntry C) : Prop :=
  ∃ held ∈ log, entry = held ∨ entry = ⟨held.logIndex, held.logTerm, none⟩

/-- A log that begins with `base` has no place for the entry, or contradicts it. -/
def Overrides (log : List (LogEntry C)) (base entry : LogEntry C) : Prop :=
  entry.logIndex ≤ base.logIndex ∨
    ∃ other ∈ log, other.logIndex = base.logIndex ∧ other.logTerm ≠ base.logTerm

namespace SnapshotCall

/-- The new snapshot covers the entry, or contradicts the log below it. -/
def Supersedes (log : List (LogEntry C)) (entry : LogEntry C) : SnapshotCall n D → Prop
  | .startSnapshot _ index => entry.logIndex ≤ index
  | .installSnapshot args => Overrides log (snapshotBase args.data) entry

/-- The call is not turned down. -/
def Taken (rf : Raft n C D) : SnapshotCall n D → Prop
  | .startSnapshot _ index => ∃ base ∈ rf.log.head?, ∃ last ∈ rf.log.getLast?,
      base.logIndex < index ∧ index ≤ last.logIndex
  | .installSnapshot args => rf.currentTerm ≤ args.term

/-- `StartSnapshot` has an older snapshot to go back to, and no entry above the new one.
`InstallSnapshot` does not go back to an older snapshot, or the stored log goes back as far,
or it has nothing of the log. -/
def SafeBetween (rf : Raft n C D) : SnapshotCall n D → Prop
  | .startSnapshot _ index =>
      rf.persister.snapshot.isSome ∧ ∃ last ∈ rf.log.getLast?, index = last.logIndex
  | .installSnapshot args => ∃ base ∈ rf.log.head?,
      base.logIndex ≤ coveredIndex args.data ∨
        HasAt (storedLog rf.persister) (snapshotBase args.data) ∨
          args.data.isSome ∧ ¬ HasAt (storedLog rf.persister) base

/-- The request comes from a log that starts where its snapshot ends, and does not go back
to an older one than a log of which something is stored. -/
def SafeAfter (rf : Raft n C D) : SnapshotCall n D → Prop
  | .startSnapshot .. => True
  | .installSnapshot args => args.lastIncludedIndex = coveredIndex args.data ∧
      ∃ base ∈ rf.log.head?, HasAt (storedLog rf.persister) base →
        base.logIndex ≤ args.lastIncludedIndex

end SnapshotCall

/-- The log starts where the stored snapshot ends, and has the stored entries above that
were in the log before the call, up to those that the new snapshot supersedes. -/
structure Recovered (before : Raft n C D) (call : SnapshotCall n D)
    (rf : Raft n C D) : Prop where
  base : Aligned rf
  entries : ∀ entry ∈ before.log, HasAt (storedLog before.persister) entry →
    coveredIndex rf.persister.snapshot < entry.logIndex →
      ¬ call.Supersedes before.log entry → Holds rf.log entry

/-- What a crash after `done` writes of a call needs. -/
structure CrashSafe (rf : Raft n C D) (call : SnapshotCall n D) (done : Nat) : Prop where
  unwritten : done = 0 ∨ ¬ call.Taken rf → Aligned rf
  between : done = 1 → call.Taken rf → call.SafeBetween rf
  written : 2 ≤ done → call.Taken rf → call.SafeAfter rf

section CrashSafe

variable {rf : Raft n C D} {call : SnapshotCall n D} {done : Nat}

theorem crashSafe_unwritten (h : done = 0 ∨ ¬ call.Taken rf) :
    CrashSafe rf call done ↔ Aligned rf := by
  constructor
  · exact fun hsafe => hsafe.unwritten h
  · intro haligned
    refine ⟨fun _ => haligned, fun hone htaken => ?_, fun htwo htaken => ?_⟩
    · rcases h with hzero | hnot
      · omega
      · exact absurd htaken hnot
    · rcases h with hzero | hnot
      · omega
      · exact absurd htaken hnot

theorem crashSafe_between (htaken : call.Taken rf) :
    CrashSafe rf call 1 ↔ call.SafeBetween rf := by
  constructor
  · exact fun hsafe => hsafe.between rfl htaken
  · intro hsafe
    refine ⟨fun hor => ?_, fun _ _ => hsafe, fun htwo => by omega⟩
    rcases hor with hzero | hnot
    · omega
    · exact absurd htaken hnot

theorem crashSafe_written (htaken : call.Taken rf) (hdone : 2 ≤ done) :
    CrashSafe rf call done ↔ call.SafeAfter rf := by
  constructor
  · exact fun hsafe => hsafe.written hdone htaken
  · intro hsafe
    refine ⟨fun hor => ?_, fun hone => by omega, fun _ _ => hsafe⟩
    rcases hor with hzero | hnot
    · omega
    · exact absurd htaken hnot

end CrashSafe

/-! The entries that are found. -/

section Found

variable {log : List (LogEntry C)} {entry : LogEntry C}

theorem Holds.of_mem (h : entry ∈ log) : Holds log entry :=
  ⟨entry, h, .inl rfl⟩

theorem Holds.hasAt (h : Holds log entry) : HasAt log entry := by
  obtain ⟨held, hmem, rfl | rfl⟩ := h
  · exact ⟨entry, hmem, rfl, rfl⟩
  · exact ⟨held, hmem, rfl, rfl⟩

theorem HasAt.holds (h : HasAt log entry) (hcomd : entry.logComd = none) : Holds log entry := by
  obtain ⟨held, hmem, hindex, hterm⟩ := h
  refine ⟨held, hmem, .inr ?_⟩
  obtain ⟨index, term, comd⟩ := entry
  obtain rfl := hcomd
  rw [hindex, hterm]

theorem not_holds_singleton {index term : Nat} (hne : entry.logIndex ≠ index) :
    ¬ Holds [⟨index, term, none⟩] entry := by
  intro hholds
  obtain ⟨held, hmem, hindex, _⟩ := hholds.hasAt
  rw [List.mem_singleton.mp hmem] at hindex
  exact hne hindex.symm

end Found

namespace Based

variable {base : LogEntry C} {log : List (LogEntry C)}

theorem index_of_mem (h : Based base log) {entry : LogEntry C} (hentry : entry ∈ log) :
    ∃ k, log[k]? = some entry ∧ entry.logIndex = base.logIndex + k := by
  obtain ⟨k, hk⟩ := List.mem_iff_getElem?.mp hentry
  exact ⟨k, hk, h.consecutive k entry hk⟩

theorem index_le (h : Based base log) {entry : LogEntry C} (hentry : entry ∈ log) :
    base.logIndex ≤ entry.logIndex := by
  obtain ⟨k, _, hindex⟩ := h.index_of_mem hentry
  omega

theorem mem_drop (h : Based base log) {entry : LogEntry C} (hentry : entry ∈ log)
    {index : Nat} (hlt : index < entry.logIndex) :
    entry ∈ log.drop (index + 1 - base.logIndex) := by
  obtain ⟨k, hk, hindex⟩ := h.index_of_mem hentry
  refine List.mem_iff_getElem?.mpr ⟨k - (index + 1 - base.logIndex), ?_⟩
  rwa [List.getElem?_drop, Nat.add_sub_cancel' (by omega)]

theorem base_mem (h : Based base log) : base ∈ log := by
  rw [h.eq_cons]
  exact List.mem_cons_self

/-- Every index between the first one and one that is there is there. -/
theorem exists_between (h : Based base log) {entry : LogEntry C} (hentry : entry ∈ log)
    {index : Nat} (hlow : base.logIndex ≤ index) (hle : index ≤ entry.logIndex) :
    ∃ other ∈ log, other.logIndex = index := by
  obtain ⟨k, hk, hindex⟩ := h.index_of_mem hentry
  obtain ⟨hlength, _⟩ := List.getElem?_eq_some_iff.mp hk
  have hother := List.getElem?_eq_getElem (show index - base.logIndex < log.length by omega)
  refine ⟨_, List.mem_of_getElem? hother, ?_⟩
  rw [h.consecutive _ _ hother]
  omega

/-- Below the log, nothing of it is found. -/
theorem truncateLog_below (h : Based base log) {index : Nat} (hlt : index < base.logIndex)
    (term : Nat) : Raft.truncateLog index term log = [⟨index, term, none⟩] := by
  rcases h.truncateLog_cases index term with ⟨_, hlow, _⟩ | ⟨_, heq⟩
  · omega
  · exact heq

/-- An entry that `truncateLog` leaves is the new first one, or one of the log, which has
what the new first one stands for. -/
theorem mem_truncateLog (h : Based base log) {index term : Nat} {entry : LogEntry C}
    (hentry : entry ∈ Raft.truncateLog index term log) :
    entry = ⟨index, term, none⟩ ∨ (entry ∈ log ∧ HasAt log ⟨index, term, none⟩) := by
  rcases h.truncateLog_cases index term with ⟨found, hlow, hfound, hterm, heq⟩ | ⟨_, heq⟩
  · rw [heq] at hentry
    rcases List.mem_cons.mp hentry with hfirst | hrest
    · exact .inl hfirst
    · have hindex := h.consecutive _ _ hfound
      refine .inr ⟨List.mem_of_mem_drop hrest, found, List.mem_of_getElem? hfound, ?_, hterm⟩
      rw [hindex]
      exact Nat.add_sub_cancel' hlow
  · rw [heq] at hentry
    exact .inl (List.mem_singleton.mp hentry)

theorem mem_truncateLog_of_hasAt (h : Based base log) {index term : Nat}
    (hat : HasAt log ⟨index, term, none⟩) {entry : LogEntry C} (hentry : entry ∈ log)
    (hlt : index < entry.logIndex) : entry ∈ Raft.truncateLog index term log := by
  rcases h.truncateLog_cases index term with ⟨_, _, _, _, heq⟩ | ⟨hnone, _⟩
  · rw [heq]
    exact List.mem_cons_of_mem _ (h.mem_drop hentry hlt)
  · obtain ⟨held, hheld, hmatch⟩ := hat
    exact absurd hmatch (hnone held hheld)

/-- Where an entry above is not overridden, the log has what `first` stands for. -/
theorem hasAt_of_not_overrides (h : Based base log) {first entry : LogEntry C}
    (hlow : base.logIndex ≤ first.logIndex) (hentry : entry ∈ log)
    (hnot : ¬ Overrides log first entry) : HasAt log first := by
  have hlt : first.logIndex < entry.logIndex := Nat.lt_of_not_le fun hle => hnot (.inl hle)
  obtain ⟨other, hother, hindex⟩ := h.exists_between hentry hlow (Nat.le_of_lt hlt)
  refine ⟨other, hother, hindex, ?_⟩
  by_contra hterm
  exact hnot (.inr ⟨other, hother, hindex, hterm⟩)

/-- A log does not override its own first entry in favour of a smaller index. -/
theorem not_overrides_base (h : Based base log) {first : LogEntry C}
    (hlt : first.logIndex < base.logIndex) : ¬ Overrides log first base := by
  rintro (hle | ⟨other, hother, hindex, _⟩)
  · exact absurd hle (Nat.not_le.mpr hlt)
  · have hle := h.index_le hother
    omega

/-- The log that a snapshot leaves has what the snapshot does not supersede, when the
snapshot is not older than the log. -/
theorem truncateLog_keeps (h : Based base log) {index : Nat} (hlow : base.logIndex ≤ index)
    (term : Nat) {entry : LogEntry C} (hentry : entry ∈ log) (hlt : index < entry.logIndex)
    (hnot : ¬ Overrides log ⟨index, term, none⟩ entry) :
    Holds (Raft.truncateLog index term log) entry := by
  have hat := h.hasAt_of_not_overrides hlow hentry hnot
  exact .of_mem (h.mem_truncateLog_of_hasAt hat hentry hlt)

end Based

namespace Durable

variable {rf : Raft n C D} {base : LogEntry C}

theorem aligned_make_iff {p : Persister n C D} (hlog : Based base (Raft.make p).log) :
    Aligned (Raft.make p) ↔ base.logIndex = coveredIndex p.snapshot := by
  rw [Aligned, hlog.head, make_persister, Option.map_some, Option.some.injEq]

theorem aligned_of_some {p : Persister n C D} (h : Readable p) (hsome : p.snapshot.isSome) :
    Aligned (Raft.make p) := by
  obtain ⟨snapshot, hsnapshot⟩ := Option.isSome_iff_exists.mp hsome
  obtain ⟨base, hlog, hbase⟩ := h.make
  rw [aligned_make_iff hlog, hbase.covered snapshot hsnapshot, hsnapshot]
  rfl

/-- A crash before the first write loses nothing. -/
theorem recovered_unwritten (h : Durable rf) (call : SnapshotCall n D) :
    Recovered rf call (Raft.make rf.persister) ↔ Aligned rf := by
  have haligned : Aligned (Raft.make rf.persister) ↔ Aligned rf := by
    rw [Aligned, h.back, make_persister, Aligned]
  constructor
  · exact fun hrecovered => haligned.mp hrecovered.base
  · intro hbase
    refine ⟨haligned.mpr hbase, fun entry hentry _ _ _ => ?_⟩
    rw [h.back]
    exact .of_mem hentry

/-- A log is the stored one, or begins with what the stored one has, or has nothing but
its first entry. -/
theorem log_cases (h : Durable rf) (hlog : Based base rf.log)
    (hbase : Beside base rf.persister.snapshot) :
    rf.log = storedLog rf.persister ∨
      (∃ snapshot, rf.persister.snapshot = some snapshot) ∧ base.logComd = none ∧
        ∀ entry ∈ rf.log, entry = base ∨
          (entry ∈ storedLog rf.persister ∧ HasAt (storedLog rf.persister) base) := by
  cases hsnapshot : rf.persister.snapshot with
  | none =>
      left
      rw [← h.back, make_log hsnapshot]
  | some snapshot =>
      right
      obtain ⟨stored, hstored, _⟩ := h.stored.log
      obtain rfl := hbase.covered snapshot hsnapshot
      refine ⟨⟨snapshot, rfl⟩, rfl, fun entry hentry => ?_⟩
      rw [← h.back, make_log_some hsnapshot] at hentry
      exact hstored.mem_truncateLog hentry

/-- The stored log has all of the log, or nothing of it. -/
theorem hasAt_stored_iff (h : Durable rf) (hlog : Based base rf.log)
    (hbase : Beside base rf.persister.snapshot) {entry : LogEntry C} (hentry : entry ∈ rf.log) :
    HasAt (storedLog rf.persister) entry ↔ HasAt (storedLog rf.persister) base := by
  rcases h.log_cases hlog hbase with heq | ⟨_, _, hall⟩
  · rw [← heq]
    exact iff_of_true ⟨entry, hentry, rfl, rfl⟩ ⟨base, hlog.base_mem, rfl, rfl⟩
  · rcases hall entry hentry with rfl | ⟨hmem, hat⟩
    · rfl
    · exact iff_of_true ⟨entry, hmem, rfl, rfl⟩ hat

theorem hasAt_above (h : Durable rf) (hlog : Based base rf.log)
    (hbase : Beside base rf.persister.snapshot) {entry : LogEntry C} (hentry : entry ∈ rf.log)
    (hlt : base.logIndex < entry.logIndex) : HasAt (storedLog rf.persister) entry := by
  rcases h.log_cases hlog hbase with heq | ⟨_, _, hall⟩
  · rw [← heq]
    exact ⟨entry, hentry, rfl, rfl⟩
  · rcases hall entry hentry with rfl | ⟨hmem, _⟩
    · exact absurd hlt (Nat.lt_irrefl _)
    · exact ⟨entry, hmem, rfl, rfl⟩

/-- Reading the stored log back, an entry of the log that it has at all is there. -/
theorem holds_stored (h : Durable rf) (hlog : Based base rf.log)
    (hbase : Beside base rf.persister.snapshot) {entry : LogEntry C} (hentry : entry ∈ rf.log)
    (hat : HasAt (storedLog rf.persister) entry) : Holds (storedLog rf.persister) entry := by
  rcases h.log_cases hlog hbase with heq | ⟨_, hcomd, hall⟩
  · rw [← heq]
    exact .of_mem hentry
  · rcases hall entry hentry with rfl | ⟨hmem, _⟩
    · exact hat.holds hcomd
    · exact .of_mem hmem

/-! `StartSnapshot`. -/

/-- `StartSnapshot` is turned down, or writes the log from `index` on and then the
snapshot. -/
theorem startSnapshotWrites_cases (hlog : Based base rf.log) (snapshot : D) (index : Nat) :
    (rf.startSnapshotWrites snapshot index = [] ∧
      ¬ (SnapshotCall.startSnapshot snapshot index : SnapshotCall n D).Taken rf) ∨
    ∃ (last entry : LogEntry C), rf.log.getLast? = some last ∧ base.logIndex < index ∧
      index ≤ last.logIndex ∧ rf.startSnapshotWrites snapshot index =
        [.saveRaftState ⟨rf.currentTerm, rf.votedFor,
          ⟨index, entry.logTerm, none⟩ :: rf.log.drop (index + 1 - base.logIndex)⟩,
        .saveSnapshot (some ⟨index, entry.logTerm, snapshot⟩)] := by
  obtain ⟨last, hlast⟩ := hlog.exists_last
  have hlength := hlog.last hlast
  by_cases hrange : index ≤ base.logIndex ∨ index > last.logIndex
  · refine .inl ⟨?_, ?_⟩
    · rw [startSnapshotWrites, hlog.head, hlast]
      exact if_pos hrange
    · rintro ⟨base', hbase', last', hlast', hlow, hhigh⟩
      rw [Option.mem_def, hlog.head] at hbase'
      rw [Option.mem_def, hlast] at hlast'
      obtain rfl := Option.some.inj hbase'
      obtain rfl := Option.some.inj hlast'
      omega
  · obtain ⟨entry, hentry⟩ : ∃ entry, rf.log[index - base.logIndex]? = some entry :=
      ⟨_, List.getElem?_eq_getElem (by omega)⟩
    refine .inr ⟨last, entry, hlast, by omega, by omega, ?_⟩
    rw [startSnapshotWrites, hlog.head, hlast]
    dsimp only
    rw [if_neg hrange, hentry]

/-- The new log with the old snapshot: what is read back is cut off at a snapshot that
does not reach the log. -/
theorem recovered_between (h : Durable rf) (hlog : Based base rf.log)
    (hbase : Beside base rf.persister.snapshot) (snapshot : D) {index term : Nat}
    {last : LogEntry C} (hlast : rf.log.getLast? = some last) (hlow : base.logIndex < index)
    (hhigh : index ≤ last.logIndex) {log : List (LogEntry C)}
    (hcut : Based ⟨index, term, none⟩ log) (currentTerm : Nat) (votedFor : Option (Fin n)) :
    Recovered rf (.startSnapshot snapshot index)
      (Raft.make ⟨some ⟨currentTerm, votedFor, log⟩, rf.persister.snapshot⟩) ↔
      rf.persister.snapshot.isSome ∧ index = last.logIndex := by
  have hlength := hlog.last hlast
  have hstored := h.hasAt_above hlog hbase (List.mem_of_getLast? hlast)
    (Nat.lt_of_lt_of_le hlow hhigh)
  generalize rf.persister.snapshot = saved at *
  cases saved with
  | none =>
      refine iff_of_false (fun hrecovered => ?_) (by rintro ⟨⟨⟩, _⟩)
      have hmake : (Raft.make (⟨some ⟨currentTerm, votedFor, log⟩, none⟩ :
          Persister n C D)).log = log := Raft.make_log rfl
      have hzero := (aligned_make_iff (by rwa [hmake])).mp hrecovered.base
      exact absurd (show index = 0 from hzero) (by omega)
  | some stored =>
      obtain rfl := hbase.covered stored rfl
      change stored.lastIncludedIndex < index at hlow
      change _ = stored.lastIncludedIndex + _ at hlength
      have hmake : (Raft.make ⟨some ⟨currentTerm, votedFor, log⟩, some stored⟩).log =
          [⟨stored.lastIncludedIndex, stored.lastIncludedTerm, none⟩] := by
        rw [make_log_some rfl]
        exact hcut.truncateLog_below hlow _
      constructor
      · intro hrecovered
        refine ⟨rfl, ?_⟩
        by_contra hne
        have hentries := hrecovered.entries last (List.mem_of_getLast? hlast) hstored
        rw [make_persister, hmake] at hentries
        have hlt := Nat.lt_of_lt_of_le hlow hhigh
        exact not_holds_singleton (Nat.ne_of_gt hlt)
          (hentries hlt fun hle => hne (Nat.le_antisymm hhigh hle))
      · rintro ⟨_, rfl⟩
        refine ⟨by rw [Aligned, hmake, make_persister]; rfl, fun entry hentry _ _ hnot => ?_⟩
        obtain ⟨k, hk, hindex⟩ := hlog.index_of_mem hentry
        obtain ⟨hk, _⟩ := List.getElem?_eq_some_iff.mp hk
        change _ = stored.lastIncludedIndex + k at hindex
        exact absurd (show entry.logIndex ≤ last.logIndex by omega) hnot

/-- The new log with the new snapshot. -/
theorem recovered_cut {log : List (LogEntry C)} {snapshot : D} {index term : Nat}
    (hlog : Based ⟨index, term, none⟩ log)
    (hmem : ∀ entry ∈ rf.log, index < entry.logIndex → entry ∈ log) (currentTerm : Nat)
    (votedFor : Option (Fin n)) :
    Recovered rf (.startSnapshot snapshot index)
      (Raft.make ⟨some ⟨currentTerm, votedFor, log⟩, some ⟨index, term, snapshot⟩⟩) := by
  have hmake : (Raft.make ⟨some ⟨currentTerm, votedFor, log⟩,
      some ⟨index, term, snapshot⟩⟩).log = log := make_log_based hlog
  refine ⟨?_, fun entry hentry _ _ hnot => ?_⟩
  · rw [aligned_make_iff (by rwa [hmake])]
    rfl
  · rw [hmake]
    exact .of_mem (hmem entry hentry (Nat.lt_of_not_le hnot))

theorem recovered_startSnapshot (h : Durable rf) (snapshot : D) (index done : Nat) :
    Recovered rf (.startSnapshot snapshot index)
      (restarted rf (.startSnapshot snapshot index) done) ↔
      CrashSafe rf (.startSnapshot snapshot index) done := by
  obtain ⟨base, hlog, hbase⟩ := h.log
  rw [restarted, SnapshotCall.writes]
  rcases startSnapshotWrites_cases hlog snapshot index with
    ⟨hnone, hnot⟩ | ⟨last, entry, hlast, hlow, hhigh, hwrites⟩
  · rw [hnone, List.take_nil, crashSafe_unwritten (.inr hnot)]
    exact h.recovered_unwritten _
  · have htaken : (SnapshotCall.startSnapshot snapshot index : SnapshotCall n D).Taken rf :=
      ⟨base, hlog.head, last, hlast, hlow, hhigh⟩
    have hcut := hlog.cut (Nat.le_of_lt hlow) entry.logTerm
    rw [hwrites]
    rcases done with _ | _ | done
    · rw [crashSafe_unwritten (.inl rfl)]
      exact h.recovered_unwritten _
    · rw [crashSafe_between htaken, SnapshotCall.SafeBetween, hlast]
      simp only [Option.mem_some_iff, exists_eq_left']
      exact h.recovered_between hlog hbase snapshot hlast hlow hhigh hcut _ _
    · rw [crashSafe_written htaken (Nat.le_add_left 2 done),
        List.take_of_length_le (Nat.le_add_left 2 done)]
      refine iff_of_true (recovered_cut hcut (fun existing hexisting hlt => ?_) _ _) trivial
      exact List.mem_cons_of_mem _ (hlog.mem_drop hexisting hlt)

/-! `InstallSnapshot`. -/

/-- The old log without a snapshot. -/
theorem recovered_without (h : Durable rf) (hlog : Based base rf.log)
    (hbase : Beside base rf.persister.snapshot) (args : InstallSnapshotArgs n D) :
    Recovered rf (.installSnapshot args) (Raft.make ⟨rf.persister.raftstate, none⟩) ↔
      base.logIndex ≤ 0 ∨
        HasAt (storedLog rf.persister) (snapshotBase (none : Option (Snapshot D))) := by
  obtain ⟨root, hstored, hzero⟩ := h.stored.log
  have hmake : (Raft.make (⟨rf.persister.raftstate, none⟩ : Persister n C D)).log =
      storedLog rf.persister := Raft.make_log rfl
  have haligned := aligned_make_iff (p := (⟨rf.persister.raftstate, none⟩ : Persister n C D))
    (by rwa [hmake])
  rw [Nat.le_zero]
  constructor
  · intro hrecovered
    have hroot := hzero (haligned.mp hrecovered.base)
    refine .inr ⟨root, hstored.base_mem, ?_⟩
    rw [hroot]
    exact ⟨rfl, rfl⟩
  · intro hcond
    have hroot : root.logIndex = 0 := by
      rcases hcond with hbaseZero | ⟨held, hheld, hindex, _⟩
      · obtain ⟨_, hnone⟩ := hbase.origin hbaseZero
        rcases h.log_cases hlog hbase with heq | ⟨⟨snapshot, hsome⟩, _⟩
        · rw [heq] at hlog
          have hsame := Option.some.inj (hlog.head.symm.trans hstored.head)
          rw [← hsame, hbaseZero]
        · rw [hnone] at hsome
          cases hsome
      · have hle := hstored.index_le hheld
        rw [hindex] at hle
        exact Nat.le_zero.mp hle
    refine ⟨haligned.mpr hroot, fun entry hentry hpersisted _ _ => ?_⟩
    rw [hmake]
    exact h.holds_stored hlog hbase hentry hpersisted

/-- The old log with the new snapshot. -/
theorem recovered_halfway (h : Durable rf) (hlog : Based base rf.log)
    (hbase : Beside base rf.persister.snapshot) {args : InstallSnapshotArgs n D}
    {snapshot : Snapshot D} (hdata : args.data = some snapshot)
    (hpos : 0 < snapshot.lastIncludedIndex) :
    Recovered rf (.installSnapshot args)
      (Raft.make ⟨rf.persister.raftstate, some snapshot⟩) ↔
      base.logIndex ≤ snapshot.lastIncludedIndex ∨
        HasAt (storedLog rf.persister) (snapshotBase (some snapshot)) ∨
          ¬ HasAt (storedLog rf.persister) base := by
  obtain ⟨root, hstored, _⟩ := h.stored.log
  have hmake : (Raft.make (⟨rf.persister.raftstate, some snapshot⟩ : Persister n C D)).log =
      truncateLog snapshot.lastIncludedIndex snapshot.lastIncludedTerm
        (storedLog rf.persister) := make_log_some rfl
  have hsupersedes : ∀ entry, (SnapshotCall.installSnapshot args).Supersedes rf.log entry ↔
      Overrides rf.log (snapshotBase (some snapshot)) entry := by
    intro entry
    rw [SnapshotCall.Supersedes, hdata]
  constructor
  · intro hrecovered
    by_contra hnot
    rw [not_or, not_or, not_not, Nat.not_le] at hnot
    obtain ⟨hlt, hfirst, hat⟩ := hnot
    have hholds := hrecovered.entries base hlog.base_mem hat
    rw [make_persister, hmake, hsupersedes] at hholds
    obtain ⟨held, hheld, hindex, _⟩ := (hholds hlt (hlog.not_overrides_base hlt)).hasAt
    rcases hstored.mem_truncateLog hheld with rfl | ⟨_, hsome⟩
    · exact absurd hindex (Nat.ne_of_lt hlt)
    · exact hfirst hsome
  · intro hcond
    refine ⟨aligned_of_some ⟨h.stored.log, fun stored heq => ?_⟩ rfl,
      fun entry hentry hat hlt hnot => ?_⟩
    · obtain rfl := Option.some.inj heq
      exact hpos
    · rw [make_persister] at hlt
      rw [hsupersedes] at hnot
      rw [hmake]
      have hatBase := (h.hasAt_stored_iff hlog hbase hentry).mp hat
      have hfirst : HasAt (storedLog rf.persister) (snapshotBase (some snapshot)) := by
        rcases hcond with hle | hfirst | hnone
        · have hlow : base.logIndex ≤ (snapshotBase (some snapshot) : LogEntry C).logIndex := hle
          obtain ⟨other, hother, hindex, hterm⟩ := hlog.hasAt_of_not_overrides hlow hentry hnot
          obtain ⟨held, hheld, hindex', hterm'⟩ :=
            (h.hasAt_stored_iff hlog hbase hother).mpr hatBase
          exact ⟨held, hheld, hindex'.trans hindex, hterm'.trans hterm⟩
        · exact hfirst
        · exact absurd hatBase hnone
      -- the entry is in the stored log, above what the snapshot stands for
      obtain ⟨held, hheld, heq⟩ := h.holds_stored hlog hbase hentry hat
      refine ⟨held, hstored.mem_truncateLog_of_hasAt hfirst hheld ?_, heq⟩
      rcases heq with rfl | rfl
      · exact hlt
      · exact hlt

/-- The new snapshot with the log that `truncateLog` leaves. -/
theorem recovered_install (h : Durable rf) (hlog : Based base rf.log)
    (hbase : Beside base rf.persister.snapshot) {args : InstallSnapshotArgs n D}
    (hargs : Beside (⟨args.lastIncludedIndex, args.lastIncludedTerm, none⟩ : LogEntry C)
      args.data) (currentTerm : Nat) (votedFor : Option (Fin n)) :
    Recovered rf (.installSnapshot args) (Raft.make ⟨some ⟨currentTerm, votedFor,
      truncateLog args.lastIncludedIndex args.lastIncludedTerm rf.log⟩, args.data⟩) ↔
      args.lastIncludedIndex = coveredIndex args.data ∧
        (HasAt (storedLog rf.persister) base → base.logIndex ≤ args.lastIncludedIndex) := by
  have hbased := hlog.truncateLog args.lastIncludedIndex args.lastIncludedTerm
  have hmake : (Raft.make ⟨some ⟨currentTerm, votedFor, truncateLog args.lastIncludedIndex
      args.lastIncludedTerm rf.log⟩, args.data⟩).log =
      truncateLog args.lastIncludedIndex args.lastIncludedTerm rf.log := by
    cases hdata : args.data with
    | none => exact Raft.make_log rfl
    | some snapshot =>
        refine make_log_based ?_
        rw [← hargs.covered snapshot hdata]
        exact hbased
  have haligned := aligned_make_iff (p := ⟨some ⟨currentTerm, votedFor,
    truncateLog args.lastIncludedIndex args.lastIncludedTerm rf.log⟩, args.data⟩)
    (by rwa [hmake])
  have hfirst : args.lastIncludedIndex = coveredIndex args.data →
      (snapshotBase args.data : LogEntry C) =
        ⟨args.lastIncludedIndex, args.lastIncludedTerm, none⟩ := by
    intro hindex
    cases hdata : args.data with
    | none =>
        rw [hdata] at hindex
        exact (hargs.origin hindex).1.symm
    | some snapshot => exact (hargs.covered snapshot hdata).symm
  constructor
  · intro hrecovered
    have hindex := haligned.mp hrecovered.base
    refine ⟨hindex, fun hat => ?_⟩
    by_contra hnot
    have hlt : args.lastIncludedIndex < base.logIndex := Nat.lt_of_not_le hnot
    have hholds := hrecovered.entries base hlog.base_mem hat
    rw [make_persister, ← hindex, hmake, SnapshotCall.Supersedes, hfirst hindex,
      hlog.truncateLog_below hlt] at hholds
    exact not_holds_singleton (Nat.ne_of_gt hlt) (hholds hlt (hlog.not_overrides_base hlt))
  · rintro ⟨hindex, hlow⟩
    refine ⟨haligned.mpr hindex, fun entry hentry hat hlt hnot => ?_⟩
    rw [make_persister, ← hindex] at hlt
    rw [SnapshotCall.Supersedes, hfirst hindex] at hnot
    rw [hmake]
    exact hlog.truncateLog_keeps (hlow ((h.hasAt_stored_iff hlog hbase hentry).mp hat)) _
      hentry hlt hnot

theorem recovered_installSnapshot (h : Durable rf) {args : InstallSnapshotArgs n D}
    (hargs : Beside (⟨args.lastIncludedIndex, args.lastIncludedTerm, none⟩ : LogEntry C)
      args.data) (done : Nat) :
    Recovered rf (.installSnapshot args) (restarted rf (.installSnapshot args) done) ↔
      CrashSafe rf (.installSnapshot args) done := by
  obtain ⟨base, hlog, hbase⟩ := h.log
  rw [restarted, SnapshotCall.writes, installSnapshotWrites]
  by_cases hterm : args.term < rf.currentTerm
  · have hnot : ¬ (SnapshotCall.installSnapshot args).Taken rf := Nat.not_le.mpr hterm
    rw [if_pos hterm, List.take_nil, crashSafe_unwritten (.inr hnot)]
    exact h.recovered_unwritten _
  · have htaken : (SnapshotCall.installSnapshot args).Taken rf := Nat.le_of_not_lt hterm
    rw [if_neg hterm]
    rcases done with _ | _ | done
    · rw [crashSafe_unwritten (.inl rfl)]
      exact h.recovered_unwritten _
    · rw [crashSafe_between htaken, SnapshotCall.SafeBetween, hlog.head]
      simp only [Option.mem_some_iff, exists_eq_left']
      cases hdata : args.data with
      | none =>
          simp only [Option.isSome_none, Bool.false_eq_true, false_and, or_false]
          exact h.recovered_without hlog hbase args
      | some snapshot =>
          simp only [Option.isSome_some, true_and]
          exact h.recovered_halfway hlog hbase hdata (hargs.pos hdata)
    · rw [crashSafe_written htaken (Nat.le_add_left 2 done), SnapshotCall.SafeAfter,
        List.take_of_length_le (Nat.le_add_left 2 done), hlog.head]
      simp only [Option.mem_some_iff, exists_eq_left']
      exact h.recovered_install hlog hbase hargs _ _

end Durable

/-- A call that a server has reason to handle, and a crash after `done` of its writes. -/
theorem recovered_iff (run : CrashRun n C D) {k : Nat} (hk : k ≤ run.length) (i : Fin n)
    (call : SnapshotCall n D) (hmade : call.MadeTo (run.state k) i) (done : Nat) :
    (Recovered ((run.state k).rafts i) call
      (restarted ((run.state k).rafts i) call done) ↔
        CrashSafe ((run.state k).rafts i) call done) ∧
      (2 ≤ done → restarted ((run.state k).rafts i) call done =
        make (call.handled ((run.state k).rafts i)).persister) := by
  have hdurable := durable_run run k hk
  refine ⟨?_, restarted_handled _ call⟩
  cases call with
  | startSnapshot snapshot index =>
      exact (hdurable.servers i).recovered_startSnapshot snapshot index done
  | installSnapshot args =>
      obtain ⟨rpc, hrpc, _, rfl⟩ := hmade
      exact (hdurable.servers i).recovered_installSnapshot (hdurable.installs rpc hrpc) done

/-- Server 2 crashes between the two writes of the snapshot that it is sent, and is sent it
once more. -/
def interruptedActs : List (CrashAction 3 Nat Unit) :=
  newerSnapshot.dropLast.map .step ++ [.installSnapshot 0 1]

def interruptedRun : CrashRun 3 Nat Unit :=
  Lib.Run.ofActions interruptedActs (by decide +kernel)

def sentSnapshot : InstallSnapshotArgs 3 Unit :=
  ⟨1, 0, 1, 1, some ⟨1, 1, ()⟩⟩

theorem sentSnapshot_madeTo : (SnapshotCall.installSnapshot sentSnapshot).MadeTo
    (interruptedRun.state 24) 2 :=
  ⟨_, List.mem_of_getElem? (i := 0) rfl, rfl, rfl⟩

theorem recovered_interrupted :
    ((interruptedRun.state 24).rafts 2).log = [⟨1, 1, none⟩] ∧
      storedLog ((interruptedRun.state 24).rafts 2).persister = [⟨0, 0, none⟩] ∧
      Recovered ((interruptedRun.state 24).rafts 2) (.installSnapshot sentSnapshot)
        (restarted ((interruptedRun.state 24).rafts 2) (.installSnapshot sentSnapshot) 1) := by
  have hlog : ((interruptedRun.state 24).rafts 2).log = [⟨1, 1, none⟩] := by
    decide +kernel
  have htaken : (SnapshotCall.installSnapshot sentSnapshot).Taken
      ((interruptedRun.state 24).rafts 2) := by
    change _ ≤ _
    decide +kernel
  refine ⟨hlog, by decide +kernel, ((recovered_iff interruptedRun (Nat.le_refl 24) 2 _
    sentSnapshot_madeTo 1).1.mpr ((crashSafe_between htaken).mpr ?_))⟩
  rw [SnapshotCall.SafeBetween, hlog]
  exact ⟨_, rfl, .inl (Nat.le_refl 1)⟩

/-- Server 0 has applied index 1 and takes its first snapshot. Between the two writes, the
stored log starts with index 1 and no snapshot is stored. -/
theorem not_recovered : ¬ ∀ run : CrashRun 3 Nat Unit, ∀ k, k ≤ run.length → ∀ i call,
    call.MadeTo (run.state k) i → ∀ done,
      Recovered ((run.state k).rafts i) call
        (restarted ((run.state k).rafts i) call done) := by
  intro hall
  have hbase := (hall crashedRun 22 (by decide) 0 (.startSnapshot () 1) trivial 1).base
  rw [Aligned] at hbase
  revert hbase
  decide +kernel

end BlockchainTutorial.Raft
