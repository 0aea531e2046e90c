import BlockchainTutorial.Raft.ForwardOnly
import BlockchainTutorial.Raft.Safety

namespace BlockchainTutorial.Raft

variable {n : Nat} {C D : Type} [DecidableEq C]

/-! What the goroutines of `start1` in `config.go` check of the messages on the
`applyCh` of their servers. -/

/-- `cfg.logs`. It outlives the servers. -/
abbrev ApplyLogs (n : Nat) (C : Type) :=
  Fin n → Nat → Option C

inductive ApplyError (n : Nat) (C : Type) where
  | mismatch (index : Nat) (i : Fin n) (v : C) (j : Fin n) (old : C)
  | outOfOrder (i : Fin n) (index : Nat)
  | notInt

/-- The last of the servers that have another value at `index`. -/
def mismatched (logs : ApplyLogs n C) (index : Nat) (v : C) : Option (Fin n × C) :=
  (List.finRange n).foldl (fun err j =>
    match logs j index with
    | some old => if old ≠ v then some (j, old) else err
    | none => err) none

/-- A message of server `i` is read. A command that is missing stands for any that
is not an `int`. -/
def receiveApply (logs : ApplyLogs n C) (i : Fin n) (m : ApplyMsg C D) :
    Except (ApplyError n C) (ApplyLogs n C) :=
  if m.useSnapshot then .ok logs
  else match m.command with
    | none => .error .notInt
    | some v =>
        let err := mismatched logs m.index v
        let prevok := (logs i (m.index - 1)).isSome
        if m.index > 1 ∧ prevok = false then .error (.outOfOrder i m.index)
        else match err with
          | some (j, old) => .error (.mismatch m.index i v j old)
          | none => .ok (Function.update logs i (Function.update (logs i) m.index (some v)))

/-- `log.Fatalf` ends the test at the first error. -/
def receiveAll (messages : List (Fin n × ApplyMsg C D)) :
    Except (ApplyError n C) (ApplyLogs n C) :=
  messages.foldlM (fun logs message => receiveApply logs message.1 message.2) fun _ _ => none

/-- How many servers have a value at `index`, and which. Nothing where two differ. -/
def nCommitted (logs : ApplyLogs n C) (index : Nat) : Option (Nat × Option C) :=
  (List.finRange n).foldlM (fun acc i =>
    match logs i index with
    | some cmd1 =>
        if acc.1 > 0 ∧ acc.2 ≠ some cmd1 then none else some (acc.1 + 1, some cmd1)
    | none => some acc) (0, none)

/-! What the messages are checked for. -/

def DeliveredAt (messages : List (Fin n × ApplyMsg C D)) (i : Fin n) (index : Nat) (v : C) :
    Prop :=
  ∃ m, (i, m) ∈ messages ∧ m.useSnapshot = false ∧ m.index = index ∧ m.command = some v

/-- No two servers, and no server twice, deliver different commands at one index. -/
def Agreeing (messages : List (Fin n × ApplyMsg C D)) : Prop :=
  ∀ i j index v w, DeliveredAt messages i index v → DeliveredAt messages j index w → v = w

/-- Each server delivers commands, and none before the one of the index below. -/
structure InOrder (messages : List (Fin n × ApplyMsg C D)) : Prop where
  commands : ∀ i m, (i, m) ∈ messages → m.useSnapshot = false → ∃ v, m.command = some v
  follows : ∀ front i m back, messages = front ++ (i, m) :: back → m.useSnapshot = false →
    1 < m.index → ∃ v, DeliveredAt front i (m.index - 1) v

def Represents (messages : List (Fin n × ApplyMsg C D)) (logs : ApplyLogs n C) : Prop :=
  ∀ i index v, logs i index = some v ↔ DeliveredAt messages i index v

omit [DecidableEq C] in
theorem deliveredAt_concat {messages : List (Fin n × ApplyMsg C D)} {i j : Fin n}
    {m : ApplyMsg C D} {index : Nat} {v : C} :
    DeliveredAt (messages ++ [(i, m)]) j index v ↔ DeliveredAt messages j index v ∨
      j = i ∧ m.useSnapshot = false ∧ m.index = index ∧ m.command = some v := by
  constructor
  · rintro ⟨m', hmem, hrest⟩
    rcases List.mem_append.mp hmem with hold | hnew
    · exact .inl ⟨m', hold, hrest⟩
    · obtain ⟨rfl, rfl⟩ := Prod.mk.inj (List.mem_singleton.mp hnew)
      exact .inr ⟨rfl, hrest⟩
  · rintro (⟨m', hmem, hrest⟩ | ⟨rfl, hrest⟩)
    · exact ⟨m', List.mem_append_left _ hmem, hrest⟩
    · exact ⟨m, List.mem_append_right _ List.mem_cons_self, hrest⟩

/-- The next message is in order with those before it. -/
def Fits (messages : List (Fin n × ApplyMsg C D)) (i : Fin n) (m : ApplyMsg C D) : Prop :=
  m.useSnapshot = false → ∃ v, m.command = some v ∧
    (∀ j w, DeliveredAt messages j m.index w → w = v) ∧
    (1 < m.index → ∃ w, DeliveredAt messages i (m.index - 1) w)

omit [DecidableEq C] in
theorem agreeing_concat {messages : List (Fin n × ApplyMsg C D)} {i : Fin n} {m : ApplyMsg C D}
    (h : Agreeing messages) (hfits : Fits messages i m) : Agreeing (messages ++ [(i, m)]) := by
  intro j j' index v w hv hw
  rcases deliveredAt_concat.mp hv with hold | ⟨rfl, hplain, rfl, hnew⟩
  · rcases deliveredAt_concat.mp hw with hold' | ⟨rfl, hplain, rfl, hnew⟩
    · exact h j j' index v w hold hold'
    · obtain ⟨u, hu, hsame, _⟩ := hfits hplain
      rw [hsame j v hold, Option.some.inj (hu.symm.trans hnew)]
  · obtain ⟨u, hu, hsame, _⟩ := hfits hplain
    obtain rfl : u = v := Option.some.inj (hu.symm.trans hnew)
    rcases deliveredAt_concat.mp hw with hold' | ⟨_, _, _, hnew'⟩
    · exact (hsame j' w hold').symm
    · exact Option.some.inj (hnew.symm.trans hnew')

omit [DecidableEq C] in
theorem inOrder_concat {messages : List (Fin n × ApplyMsg C D)} {i : Fin n} {m : ApplyMsg C D}
    (h : InOrder messages) (hcommand : m.useSnapshot = false → ∃ v, m.command = some v)
    (hfollows : m.useSnapshot = false → 1 < m.index →
      ∃ v, DeliveredAt messages i (m.index - 1) v) : InOrder (messages ++ [(i, m)]) := by
  refine ⟨fun j m' hmem => ?_, fun front j m' back heq => ?_⟩
  · rcases List.mem_append.mp hmem with hold | hnew
    · exact h.commands j m' hold
    · obtain ⟨_, rfl⟩ := Prod.mk.inj (List.mem_singleton.mp hnew)
      exact hcommand
  · rcases List.eq_nil_or_concat back with rfl | ⟨back, last, rfl⟩
    · obtain ⟨rfl, hlast⟩ := List.append_inj' heq rfl
      obtain ⟨rfl, rfl⟩ := Prod.mk.inj (List.cons.inj hlast).1
      exact hfollows
    · have hinit : messages = front ++ (j, m') :: back := by
        rw [List.concat_eq_append, ← List.cons_append, ← List.append_assoc] at heq
        exact (List.append_inj' heq rfl).1
      exact h.follows front j m' back hinit

omit [DecidableEq C] in
theorem InOrder.front {messages more : List (Fin n × ApplyMsg C D)}
    (h : InOrder (messages ++ more)) : InOrder messages := by
  refine ⟨fun i m hmem => h.commands i m (List.mem_append_left _ hmem),
    fun front i m back heq => h.follows front i m (back ++ more) ?_⟩
  rw [heq, List.append_assoc, List.cons_append]

omit [DecidableEq C] in
theorem Agreeing.front {messages more : List (Fin n × ApplyMsg C D)}
    (h : Agreeing (messages ++ more)) : Agreeing messages := by
  have hmore : ∀ {i : Fin n} {index : Nat} {v : C}, DeliveredAt messages i index v →
      DeliveredAt (messages ++ more) i index v := fun hv =>
    hv.imp fun m hm => ⟨List.mem_append_left _ hm.1, hm.2⟩
  exact fun i j index v w hv hw => h i j index v w (hmore hv) (hmore hw)

omit [DecidableEq C] in
theorem checked_concat_iff {messages : List (Fin n × ApplyMsg C D)} {i : Fin n}
    {m : ApplyMsg C D} : Agreeing (messages ++ [(i, m)]) ∧ InOrder (messages ++ [(i, m)]) ↔
      (Agreeing messages ∧ InOrder messages) ∧ Fits messages i m := by
  constructor
  · rintro ⟨hagreeing, horder⟩
    refine ⟨⟨hagreeing.front, horder.front⟩, fun hplain => ?_⟩
    obtain ⟨v, hv⟩ := horder.commands i m (List.mem_append_right _ List.mem_cons_self) hplain
    refine ⟨v, hv, fun j w hw => ?_, horder.follows messages i m [] rfl hplain⟩
    exact hagreeing j i m.index w v (deliveredAt_concat.mpr (.inl hw))
      (deliveredAt_concat.mpr (.inr ⟨rfl, hplain, rfl, hv⟩))
  · rintro ⟨⟨hagreeing, horder⟩, hfits⟩
    refine ⟨agreeing_concat hagreeing hfits, inOrder_concat horder (fun hplain => ?_) ?_⟩
    · obtain ⟨v, hv, _⟩ := hfits hplain
      exact ⟨v, hv⟩
    · intro hplain
      obtain ⟨_, _, _, hfollows⟩ := hfits hplain
      exact hfollows

/-! One goroutine against one message. -/

theorem mismatched_eq_none_iff {logs : ApplyLogs n C} {index : Nat} {v : C} :
    mismatched logs index v = none ↔ ∀ j old, logs j index = some old → old = v := by
  have hfold : ∀ (servers : List (Fin n)) (err : Option (Fin n × C)),
      servers.foldl (fun err j =>
        match logs j index with
        | some old => if old ≠ v then some (j, old) else err
        | none => err) err = none ↔
      err = none ∧ ∀ j ∈ servers, ∀ old, logs j index = some old → old = v := by
    intro servers
    induction servers with
    | nil => simp
    | cons j servers ih =>
        intro err
        rw [List.foldl_cons, ih, List.forall_mem_cons]
        cases hold : logs j index with
        | none => simp
        | some old => by_cases hne : old = v <;> simp [hne]
  rw [mismatched, hfold]
  simp

theorem receiveApply_eq_ok {logs logs' : ApplyLogs n C} {i : Fin n} {m : ApplyMsg C D} :
    receiveApply logs i m = .ok logs' ↔ m.useSnapshot = true ∧ logs' = logs ∨
      m.useSnapshot = false ∧ ∃ v, m.command = some v ∧ mismatched logs m.index v = none ∧
        (1 < m.index → (logs i (m.index - 1)).isSome = true) ∧
        logs' = Function.update logs i (Function.update (logs i) m.index (some v)) := by
  rw [receiveApply]
  cases m.useSnapshot with
  | true =>
      rw [if_pos rfl, Except.ok.injEq]
      constructor
      · exact fun h => .inl ⟨rfl, h.symm⟩
      · rintro (⟨_, rfl⟩ | ⟨h, _⟩)
        · rfl
        · cases h
  | false =>
      rw [if_neg Bool.false_ne_true]
      cases m.command with
      | none => exact ⟨nofun, by rintro (⟨h, _⟩ | ⟨_, _, h, _⟩) <;> cases h⟩
      | some v =>
          dsimp only
          by_cases hprev : m.index > 1 ∧ (logs i (m.index - 1)).isSome = false
          · rw [if_pos hprev]
            refine ⟨nofun, ?_⟩
            rintro (⟨h, _⟩ | ⟨_, _, _, _, hfollows, _⟩)
            · cases h
            · cases hprev.2.symm.trans (hfollows hprev.1)
          · rw [if_neg hprev]
            have hfollows : 1 < m.index → (logs i (m.index - 1)).isSome = true := by
              intro hlt
              cases hsome : (logs i (m.index - 1)).isSome with
              | true => rfl
              | false => exact absurd ⟨hlt, hsome⟩ hprev
            cases hmismatched : mismatched logs m.index v with
            | some other =>
                refine ⟨nofun, ?_⟩
                rintro (⟨h, _⟩ | ⟨_, u, hu, hnone, _⟩)
                · cases h
                · obtain rfl := Option.some.inj hu
                  cases hmismatched.symm.trans hnone
            | none =>
                rw [Except.ok.injEq]
                constructor
                · exact fun h => .inr ⟨rfl, v, rfl, hmismatched, hfollows, h.symm⟩
                · rintro (⟨h, _⟩ | ⟨_, u, hu, _, _, rfl⟩)
                  · cases h
                  · obtain rfl := Option.some.inj hu
                    rfl

theorem receiveApply_ok_iff {messages : List (Fin n × ApplyMsg C D)} {logs : ApplyLogs n C}
    (h : Represents messages logs) (i : Fin n) (m : ApplyMsg C D) :
    (∃ logs', receiveApply logs i m = .ok logs') ↔ Fits messages i m := by
  have hprev : (logs i (m.index - 1)).isSome = true ↔
      ∃ w, DeliveredAt messages i (m.index - 1) w := by
    rw [Option.isSome_iff_exists]
    exact exists_congr fun w => h i (m.index - 1) w
  have hsame : ∀ v, mismatched logs m.index v = none ↔
      ∀ j w, DeliveredAt messages j m.index w → w = v := by
    intro v
    rw [mismatched_eq_none_iff]
    exact forall_congr' fun j => forall_congr' fun w => by rw [h j m.index w]
  constructor
  · rintro ⟨logs', hok⟩ hplain
    rcases receiveApply_eq_ok.mp hok with ⟨hsnapshot, _⟩ | ⟨_, v, hv, hmismatched, hfollows, _⟩
    · rw [hplain] at hsnapshot
      cases hsnapshot
    · exact ⟨v, hv, (hsame v).mp hmismatched, fun hlt => hprev.mp (hfollows hlt)⟩
  · intro hfits
    cases hsnapshot : m.useSnapshot with
    | true => exact ⟨logs, receiveApply_eq_ok.mpr (.inl ⟨hsnapshot, rfl⟩)⟩
    | false =>
        obtain ⟨v, hv, hagrees, hfollows⟩ := hfits hsnapshot
        exact ⟨_, receiveApply_eq_ok.mpr (.inr ⟨hsnapshot, v, hv, (hsame v).mpr hagrees,
          fun hlt => hprev.mpr (hfollows hlt), rfl⟩)⟩

theorem represents_receiveApply {messages : List (Fin n × ApplyMsg C D)}
    {logs logs' : ApplyLogs n C} (h : Represents messages logs) {i : Fin n} {m : ApplyMsg C D}
    (hok : receiveApply logs i m = .ok logs') : Represents (messages ++ [(i, m)]) logs' := by
  intro j index w
  rw [deliveredAt_concat, ← h j index w]
  rcases receiveApply_eq_ok.mp hok with ⟨hsnapshot, rfl⟩ | ⟨hplain, v, hv, hmismatched, _, rfl⟩
  · simp [hsnapshot]
  · have hagrees := mismatched_eq_none_iff.mp hmismatched
    by_cases hj : j = i
    · subst hj
      rw [Function.update_self]
      by_cases hindex : index = m.index
      · subst hindex
        rw [Function.update_self, hv]
        constructor
        · exact fun hw => .inr ⟨rfl, hplain, rfl, hw⟩
        · rintro (hold | ⟨_, _, _, hw⟩)
          · rw [hagrees j w hold]
          · exact hw
      · rw [Function.update_of_ne hindex]
        exact ⟨.inl, fun hor => hor.resolve_right fun hnew => hindex hnew.2.2.1.symm⟩
    · rw [Function.update_of_ne hj]
      exact ⟨.inl, fun hor => hor.resolve_right fun hnew => hj hnew.1⟩

theorem receiveAll_concat (messages : List (Fin n × ApplyMsg C D)) (i : Fin n)
    (m : ApplyMsg C D) : receiveAll (messages ++ [(i, m)]) =
      (receiveAll messages).bind fun logs => receiveApply logs i m := by
  rw [receiveAll, List.foldlM_append]
  simp only [List.foldlM_cons, List.foldlM_nil, bind_pure]
  rfl

/-- The test goes on exactly while the messages agree and are in order, and `cfg.logs` is
then what was delivered. -/
theorem receiveAll_spec (messages : List (Fin n × ApplyMsg C D)) :
    ((∃ logs, receiveAll messages = .ok logs) ↔ Agreeing messages ∧ InOrder messages) ∧
      ∀ logs, receiveAll messages = .ok logs → Represents messages logs := by
  induction messages using List.reverseRecOn with
  | nil =>
      refine ⟨⟨fun _ => ⟨?_, ?_, ?_⟩, fun _ => ⟨_, rfl⟩⟩, ?_⟩
      · rintro i j index v w ⟨m, hmem, _⟩
        cases hmem
      · exact fun i m hmem => nomatch hmem
      · intro front i m back heq
        cases front <;> cases heq
      · intro logs hok i index v
        obtain rfl := Except.ok.inj hok
        exact ⟨nofun, fun ⟨_, hmem, _⟩ => nomatch hmem⟩
  | append_singleton messages last ih =>
      obtain ⟨i, m⟩ := last
      obtain ⟨hiff, hrepresents⟩ := ih
      rw [receiveAll_concat, checked_concat_iff, ← hiff]
      cases hall : receiveAll messages with
      | error err => simp [Except.bind]
      | ok logs =>
          have hlogs := hrepresents logs hall
          rw [← receiveApply_ok_iff hlogs]
          simp only [Except.bind, Except.ok.injEq, exists_eq', true_and]
          exact fun logs' => represents_receiveApply hlogs

/-- After that `nCommitted` counts the servers that have delivered something at the index,
and does not find two values. -/
theorem nCommitted_eq {messages : List (Fin n × ApplyMsg C D)} {logs : ApplyLogs n C}
    (h : Represents messages logs) (hagreeing : Agreeing messages) (index : Nat) :
    ∃ cmd, nCommitted logs index =
        some ((List.finRange n).countP fun i => (logs i index).isSome, cmd) ∧
      ∀ i v, DeliveredAt messages i index v → cmd = some v := by
  have hfold : ∀ (servers : List (Fin n)) (count : Nat) (cmd : Option C),
      (0 < count → ∀ i v, logs i index = some v → cmd = some v) →
      ∃ cmd', servers.foldlM (fun acc i =>
        match logs i index with
        | some cmd1 =>
            if acc.1 > 0 ∧ acc.2 ≠ some cmd1 then none else some (acc.1 + 1, some cmd1)
        | none => some acc) (count, cmd) =
          some (count + servers.countP fun i => (logs i index).isSome, cmd') ∧
        (0 < count + (servers.countP fun i => (logs i index).isSome) →
          ∀ i v, logs i index = some v → cmd' = some v) := by
    intro servers
    induction servers with
    | nil => exact fun count cmd hcmd => ⟨cmd, rfl, hcmd⟩
    | cons i servers ih =>
        intro count cmd hcmd
        rw [List.foldlM_cons, List.countP_cons]
        cases hlog : logs i index with
        | none => simpa using ih count cmd hcmd
        | some v =>
            have hsame : ¬ (count > 0 ∧ cmd ≠ some v) := fun hne =>
              hne.2 (hcmd hne.1 i v hlog)
            dsimp only
            rw [if_neg hsame, Option.bind_eq_bind, Option.bind_some, Option.isSome_some,
              if_pos rfl, Nat.add_comm (List.countP _ _) 1, ← Nat.add_assoc]
            refine ih (count + 1) (some v) fun _ j w hw => ?_
            exact congrArg some (hagreeing i j index v w ((h i index v).mp hlog)
              ((h j index w).mp hw))
  obtain ⟨cmd, hcommitted, hcmd⟩ := hfold (List.finRange n) 0 none (absurd · (Nat.lt_irrefl 0))
  rw [Nat.zero_add] at hcommitted hcmd
  refine ⟨cmd, hcommitted, fun i v hv => ?_⟩
  have hlog := (h i index v).mpr hv
  refine hcmd (List.countP_pos_iff.mpr ⟨i, List.mem_finRange i, ?_⟩) i v hlog
  rw [hlog]
  rfl

/-! The messages of the servers of a cluster. -/

section Cluster

omit [DecidableEq C]

theorem AppendCore.lastApplied_eq {rf rf' : Raft n C D} {args : AppendEntriesArgs n C}
    {reply : Option AppendEntriesReply} (h : AppendCore rf args rf' reply) :
    rf'.lastApplied = rf.lastApplied := by
  cases h <;> simp

theorem applyCommitted_advances {rf rf' : Raft n C D} {eff : Effects n C D}
    (h : rf.applyCommitted = some (rf', eff)) :
    ∃ done, commandsOf eff.applied = List.range' (rf.lastApplied + 1) done ∧
      rf'.lastApplied = rf.lastApplied + done := by
  unfold applyCommitted at h
  split at h
  · cases h
  · obtain ⟨done, _, hfst, hindexes, hplain, _⟩ := applyFrom_spec
      { rf with chanCommit := rf.chanCommit - 1 } (rf.lastApplied + 1)
      (rf.commitIndex - rf.lastApplied) rfl
    rw [congrArg Prod.snd (Option.some.inj h)] at hindexes hplain
    rw [congrArg Prod.fst (Option.some.inj h)] at hfst
    refine ⟨done, ?_, congrArg Raft.lastApplied hfst⟩
    have hall : eff.applied.filter (fun msg => !msg.useSnapshot) = eff.applied :=
      List.filter_eq_self.mpr fun msg hmsg => by rw [hplain msg hmsg]; rfl
    rw [commandsOf, hall, hindexes]

/-- Without snapshots only the delivering goroutine moves `lastApplied`. -/
theorem lastApplied_local {s : Cluster n C D} {a : Action n C D} {i : Fin n} {rf : Raft n C D}
    {eff : Effects n C D} (hno : NoSnapshots s a) (hlocal : Local s a i rf eff) :
    rf.lastApplied = (s.rafts i).lastApplied ∨ a = .applyCommitted i := by
  cases hlocal with
  | startSnapshot => cases hno.action
  | applyCommitted i => exact .inr rfl
  | installSnapshot k hcall => simp [hno.calls] at hcall
  | sendInstallSnapshot k hcall => simp [hno.calls] at hcall
  | start i command =>
      rcases start_cases (s.rafts i) command with hout | ⟨last, _, _, hout⟩
      · exact .inl (by rw [hout])
      · exact .inl (by rw [hout]; rfl)
  | loop i choice hstep =>
      refine .inl ?_
      cases loopStep_outcome hstep with
      | broadcast hloop =>
          obtain ⟨_, _, hform, _⟩ := boatcastAppendEntries_raises i (s.rafts i)
          rw [hform]
      | lead term hloop =>
          rcases becomeLeader_cases (s.rafts i) with hlead | ⟨last, _, hlead⟩ <;> rw [hlead]
      | _ => rfl
  | boatcastRequestVote i job hstep =>
      obtain ⟨jobs, rfl⟩ := boatcastRequestVote_fst hstep
      exact .inl rfl
  | applySnapshot i hstep =>
      obtain ⟨snapshots, rfl⟩ := applySnapshot_fst hstep
      exact .inl rfl
  | requestVote k =>
      rename_i call _ _
      refine .inl ?_
      rcases requestVote_cases (s.rafts call.server) call.args with
        ⟨_, hout⟩ | ⟨_, reply, _, hout⟩ | ⟨_, last, _, _, _, hout⟩ <;> rw [hout] <;> simp
  | sendRequestVote k =>
      rename_i call reply _ _ _ _
      have houtcome := sendRequestVote_outcome (s.rafts call.caller) call.args reply
      generalize (s.rafts call.caller).sendRequestVote call.args reply = rf at houtcome ⊢
      refine .inl ?_
      cases houtcome <;> simp
  | appendEntries k =>
      rename_i call _ _
      exact .inl (appendEntries_core (s.rafts call.server) call.args).lastApplied_eq
  | sendAppendEntries k =>
      rename_i call reply _ _ _ _
      have houtcome :=
        sendAppendEntries_outcome (s.rafts call.caller) call.server call.args reply
      generalize (s.rafts call.caller).sendAppendEntries call.server call.args reply = rf
        at houtcome ⊢
      refine .inl ?_
      cases houtcome <;> simp

/-- What one server delivers in a step, and how far it is then. -/
theorem delivers_local {s : Cluster n C D} {a : Action n C D} {i : Fin n} {rf : Raft n C D}
    {eff : Effects n C D} (hno : NoSnapshots s a) (hlocal : Local s a i rf eff) :
    ∃ done, commandsOf eff.applied = List.range' ((s.rafts i).lastApplied + 1) done ∧
      rf.lastApplied ≤ (s.rafts i).lastApplied + done := by
  rcases lastApplied_local hno hlocal with hsame | rfl
  · obtain ⟨done, hcommands, _⟩ := hlocal.delivers
    exact ⟨done, hcommands, by omega⟩
  · cases hlocal with
    | applyCommitted i hstep =>
        obtain ⟨done, hcommands, happlied⟩ := applyCommitted_advances hstep
        exact ⟨done, hcommands, happlied.le⟩

/-- Every entry but the first holds a command. -/
def Commanded (log : List (LogEntry C)) : Prop :=
  ∀ p e, log[p]? = some e → 1 ≤ p → ∃ v, e.logComd = some v

theorem Commanded.append {log : List (LogEntry C)} (h : Commanded log) (index term : Nat)
    (command : C) : Commanded (log ++ [⟨index, term, some command⟩]) := by
  intro p e he hp
  rcases Nat.lt_or_ge p log.length with hlt | hge
  · rw [List.getElem?_append_left hlt] at he
    exact h p e he hp
  · rw [List.getElem?_append_right hge] at he
    obtain ⟨_, rfl⟩ := List.getElem?_eq_some_iff.mp he
    exact ⟨command, by rw [List.getElem_singleton]⟩

theorem Commanded.splice {log log' : List (LogEntry C)} (h : Commanded log)
    (h' : Commanded log') (m : Nat) : Commanded (log.take (m + 1) ++ log'.drop (m + 1)) := by
  intro p e he hp
  rcases Nat.lt_or_ge p (log.take (m + 1)).length with hlt | hge
  · rw [List.getElem?_append_left hlt, List.getElem?_take_of_lt (by
      rw [List.length_take] at hlt
      omega)] at he
    exact h p e he hp
  · rw [List.getElem?_append_right hge, List.getElem?_drop] at he
    exact h' _ e he (by omega)

theorem commanded_run {run : ClusterRun n C D} (hno : run.AllSteps fun _ a => noStartSnapshot a) :
    ∀ k, k ≤ run.length → ∀ i, Commanded ((run.state k).rafts i).log := by
  refine run.induct_strong ?_ ?_
  · intro i p e he hp
    rw [run.starts] at he
    obtain ⟨hlt, _⟩ := List.getElem?_eq_some_iff.mp he
    have hlength : ((Cluster.init n C D).rafts i).log.length = 1 := rfl
    omega
  · intro k hk ih i
    obtain ⟨rf, hrf, hnext⟩ := server_step run hno hk i
    rw [hnext.log_eq]
    rcases hrf with rfl | ⟨eff, hlocal⟩
    · exact ih k (Nat.le_refl k) i
    · have hplain := plain_run run hno k hk.le
      cases LogStep.of_local ⟨hno k hk, hplain.calls⟩ (hplain.servers i).log hlocal with
      | kept hkept =>
          rw [hkept]
          exact ih k (Nat.le_refl k) i
      | appended command _ _ _ hform =>
          rw [hform]
          exact (ih k (Nat.le_refl k) i).append _ _ command
      | accepted j call _ hcall _ _ _ _ _ hnewlog =>
          obtain ⟨_, j', hj', _, _, hentries⟩ :=
            appendEntries_sent run hno hk.le (List.mem_of_getElem? hcall)
          rw [hnewlog, hentries]
          exact (ih k (Nat.le_refl k) i).splice (ih j' (by omega) call.caller) _

theorem DeliveredAt.append {messages : List (Fin n × ApplyMsg C D)} {i : Fin n} {index : Nat}
    {v : C} (h : DeliveredAt messages i index v) (more : List (Fin n × ApplyMsg C D)) :
    DeliveredAt (messages ++ more) i index v :=
  h.imp fun _ hm => ⟨List.mem_append_left more hm.1, hm.2⟩

/-- A server that has delivered all up to `last` delivers the next commands. -/
theorem inOrder_deliver {i : Fin n} (applied : List (ApplyMsg C D)) :
    ∀ {messages : List (Fin n × ApplyMsg C D)} {last done : Nat}, InOrder messages →
      (∀ k, 1 ≤ k → k ≤ last → ∃ v, DeliveredAt messages i k v) →
      commandsOf applied = List.range' (last + 1) done →
      (∀ m ∈ applied, m.useSnapshot = false → ∃ v, m.command = some v) →
      InOrder (messages ++ applied.map (i, ·)) ∧
        ∀ k, 1 ≤ k → k ≤ last + done →
          ∃ v, DeliveredAt (messages ++ applied.map (i, ·)) i k v := by
  induction applied with
  | nil =>
      intro messages last done horder hdone hrange _
      obtain rfl : done = 0 := by
        have hlength := congrArg List.length hrange
        simpa [commandsOf] using hlength.symm
      rw [List.map_nil, List.append_nil]
      exact ⟨horder, hdone⟩
  | cons m applied ih =>
      intro messages last done horder hdone hrange hcommands
      rw [List.forall_mem_cons] at hcommands
      have hsplit : messages ++ (m :: applied).map (i, ·) =
          messages ++ [(i, m)] ++ applied.map (i, ·) := by
        rw [List.map_cons, List.append_assoc, List.singleton_append]
      rw [hsplit]
      cases hsnapshot : m.useSnapshot with
      | true =>
          have hnext : commandsOf applied = List.range' (last + 1) done := by
            rw [← hrange, commandsOf, commandsOf, List.filter_cons, hsnapshot]
            rfl
          refine ih (inOrder_concat horder ?_ ?_) (fun k hlow hhigh => ?_) hnext hcommands.2
          · intro hplain
            cases hsnapshot.symm.trans hplain
          · intro hplain
            cases hsnapshot.symm.trans hplain
          · exact (hdone k hlow hhigh).imp fun v hv => hv.append _
      | false =>
          have hhead : commandsOf (m :: applied) = m.index :: commandsOf applied := by
            rw [commandsOf, List.filter_cons, hsnapshot]
            rfl
          rw [hhead] at hrange
          cases done with
          | zero => cases hrange
          | succ done =>
              obtain ⟨hindex, hnext⟩ := List.cons.inj hrange
              obtain ⟨v, hv⟩ := hcommands.1 hsnapshot
              have hnew : DeliveredAt (messages ++ [(i, m)]) i (last + 1) v :=
                deliveredAt_concat.mpr (.inr ⟨rfl, hsnapshot, hindex, hv⟩)
              have hfollows : m.useSnapshot = false → 1 < m.index →
                  ∃ w, DeliveredAt messages i (m.index - 1) w := by
                intro _ hlt
                exact hdone (m.index - 1) (by omega) (by omega)
              rw [← Nat.add_assoc, Nat.add_right_comm last done 1]
              refine ih (inOrder_concat horder hcommands.1 hfollows) (fun k hlow hhigh => ?_)
                hnext hcommands.2
              rcases Nat.lt_or_ge last k with hlt | hge
              · obtain rfl : k = last + 1 := by omega
                exact ⟨v, hnew⟩
              · exact (hdone k hlow hge).imp fun w hw => hw.append _

theorem commands_local {run : ClusterRun n C D} (hno : run.AllSteps fun _ a => noStartSnapshot a)
    {k : Nat} (hk : k < run.length) {i : Fin n} {rf : Raft n C D} {eff : Effects n C D}
    (hlocal : Local (run.state k) (run.act k) i rf eff) :
    ∀ m ∈ eff.applied, m.useSnapshot = false → ∃ v, m.command = some v := by
  intro m hmem hsnapshot
  have hplain := plain_run run hno k hk.le
  obtain ⟨done, hcommands, _⟩ := delivers_local ⟨hno k hk, hplain.calls⟩ hlocal
  have hindex : m.index ∈ commandsOf eff.applied := by
    refine List.mem_map.mpr ⟨m, List.mem_filter.mpr ⟨hmem, ?_⟩, rfl⟩
    rw [hsnapshot]
    rfl
  rw [hcommands, List.mem_range'_1] at hindex
  rcases hlocal.sends.applied_of_mem hmem with ⟨hzero, _⟩ | ⟨hpos, _, entry, hentry, hcommand⟩
  · omega
  · have hget : ((run.state k).rafts i).log[m.index]? = some entry := by
      simpa [entryAt, (hplain.servers i).log.head] using hentry
    rw [hcommand]
    exact commanded_run hno k hk.le i m.index entry hget hpos

/-- What the servers have delivered, and how far each of them is. -/
structure Served (s : Cluster n C D) : Prop where
  order : InOrder s.delivered
  done : ∀ i k, 1 ≤ k → k ≤ (s.rafts i).lastApplied → ∃ v, DeliveredAt s.delivered i k v

theorem served_run {run : ClusterRun n C D} (hno : run.AllSteps fun _ a => noStartSnapshot a) :
    ∀ k, k ≤ run.length → Served (run.state k) := by
  refine run.induct ?_ ?_
  · rw [run.starts]
    refine ⟨⟨fun i m hmem => ?_, fun front i m back heq => ?_⟩, fun i k hlow hhigh => ?_⟩
    · cases hmem
    · cases front <;> cases heq
    · have hzero : ((Cluster.init n C D).rafts i).lastApplied = 0 := rfl
      omega
  · intro k hk ih
    have hplain := plain_run run hno k hk.le
    have hmake : ∀ rf : Raft n C D, rf.persister.snapshot = none →
        (make rf.persister).lastApplied = 0 := fun rf hnone => by
      rw [(make_indexes rf.persister).1, hnone]
      rfl
    rcases Cluster.step_cases (run.steps k hk) with ⟨j, _, heq⟩ | ⟨j, rf, eff, hlocal, heq⟩
    · rw [heq]
      refine ⟨ih.order, fun i m hlow hhigh => ?_⟩
      rw [Cluster.restart] at hhigh
      dsimp only at hhigh
      by_cases hi : i = j
      · rw [hi, Function.update_self, hmake _ (hplain.servers j).saved.snapshot_eq] at hhigh
        omega
      · rw [Function.update_of_ne hi] at hhigh
        exact ih.done i m hlow hhigh
    · have hno' : NoSnapshots (run.state k) (run.act k) := ⟨hno k hk, hplain.calls⟩
      obtain ⟨done, hcommands, happlied⟩ := delivers_local hno' hlocal
      obtain ⟨horder, hdone⟩ := inOrder_deliver eff.applied ih.order (ih.done j) hcommands
        (commands_local hno hk hlocal)
      rw [heq]
      refine ⟨?_, fun i m hlow hhigh => ?_⟩
      · rw [Cluster.moved_delivered, Cluster.touched_delivered]
        exact horder
      · rw [Cluster.moved_delivered, Cluster.touched_delivered]
        by_cases hi : i = j
        · subst hi
          refine hdone m hlow (Nat.le_trans hhigh (Nat.le_trans ?_ happlied))
          rw [Cluster.moved_rafts_self]
          by_cases hpanicked : eff.panicked = true
          · rw [if_pos hpanicked, hmake rf ((hplain.servers i).saved.step hno' hlocal).snapshot_eq]
            exact Nat.zero_le _
          · rw [if_neg hpanicked]
        · rw [Cluster.moved_rafts_of_ne _ _ _ hi, Cluster.touched_rafts] at hhigh
          exact (ih.done i m hlow hhigh).imp fun v hv => hv.append _

/-- The goroutines of different servers read their messages in any order. -/
theorem InOrder.of_read {messages delivered : List (Fin n × ApplyMsg C D)}
    (h : InOrder delivered)
    (hread : ∀ i, messages.filter (fun message => message.1 = i) <+:
      delivered.filter fun message => message.1 = i) : InOrder messages := by
  refine ⟨fun i m hmem => ?_, fun front i m back heq hsnapshot hlt => ?_⟩
  · have hread' := (hread i).subset (List.mem_filter.mpr ⟨hmem, decide_eq_true rfl⟩)
    exact h.commands i m (List.mem_filter.mp hread').1
  · obtain ⟨rest, hrest⟩ := hread i
    have hself : decide ((i, m).1 = i) = true := decide_eq_true rfl
    rw [heq, List.filter_append, List.filter_cons, if_pos hself, List.append_assoc] at hrest
    obtain ⟨front', back', hsplit, hfront, hback⟩ := List.filter_eq_append_iff.mp hrest.symm
    rw [List.cons_append] at hback
    obtain ⟨skipped, back'', rfl, hskipped, _⟩ := List.filter_eq_cons_iff.mp hback
    rw [← List.append_assoc] at hsplit
    obtain ⟨v, m', hmem, hrest'⟩ := h.follows _ i m back'' hsplit hsnapshot hlt
    refine ⟨v, m', ?_, hrest'⟩
    rcases List.mem_append.mp hmem with hfirst | hskip
    · have hfilter : (i, m') ∈ front'.filter fun message => message.1 = i :=
        List.mem_filter.mpr ⟨hfirst, decide_eq_true rfl⟩
      rw [hfront] at hfilter
      exact (List.mem_filter.mp hfilter).1
    · exact absurd (decide_eq_true rfl) (hskipped _ hskip)

end Cluster

/-- The servers that have delivered something at the index. -/
def deliveredBy (messages : List (Fin n × ApplyMsg C D)) (index : Nat) : List (Fin n) :=
  (List.finRange n).filter fun i =>
    messages.any fun message =>
      message.1 == i && !message.2.useSnapshot && message.2.index == index &&
        message.2.command.isSome

/-- In whatever order the messages are read, the test is ended only by two servers that
deliver different commands at one index; until then `nCommitted` counts those that have
delivered something. -/
theorem appliers_report_disagreement (run : ClusterRun n C D)
    (hno : run.AllSteps fun _ a => noStartSnapshot a) {k : Nat} (hk : k ≤ run.length)
    (messages : List (Fin n × ApplyMsg C D))
    (hread : ∀ i, messages.filter (fun message => message.1 = i) <+:
      (run.state k).delivered.filter fun message => message.1 = i) :
    ((∃ logs, receiveAll messages = .ok logs) ↔ Agreeing messages) ∧
      ∀ logs, receiveAll messages = .ok logs → ∀ index, ∃ cmd,
        nCommitted logs index = some ((deliveredBy messages index).length, cmd) ∧
          ∀ i v, DeliveredAt messages i index v → cmd = some v := by
  have horder := (served_run hno k hk).order.of_read hread
  obtain ⟨hok, hrepresents⟩ := receiveAll_spec messages
  refine ⟨hok.trans (and_iff_left horder), fun logs hlogs index => ?_⟩
  have hall := hrepresents logs hlogs
  obtain ⟨cmd, hcount, hcmd⟩ := nCommitted_eq hall (hok.mp ⟨logs, hlogs⟩).1 index
  refine ⟨cmd, ?_, hcmd⟩
  have hsame : ∀ i, (logs i index).isSome = true ↔ (messages.any fun message =>
      message.1 == i && !message.2.useSnapshot && message.2.index == index &&
        message.2.command.isSome) = true := by
    intro i
    rw [Option.isSome_iff_exists, List.any_eq_true]
    constructor
    · rintro ⟨v, hv⟩
      obtain ⟨m, hmem, hplain, hindex, hcommand⟩ := (hall i index v).mp hv
      exact ⟨(i, m), hmem, by simp [hplain, hindex, hcommand]⟩
    · rintro ⟨⟨j, m⟩, hmem, hmessage⟩
      obtain ⟨⟨⟨rfl, hplain⟩, hindex⟩, hcommand⟩ :
          ((j = i ∧ m.useSnapshot = false) ∧ m.index = index) ∧ m.command.isSome = true := by
        simpa using hmessage
      obtain ⟨v, hv⟩ := Option.isSome_iff_exists.mp hcommand
      exact ⟨v, (hall j index v).mpr ⟨m, hmem, hplain, hindex, hv⟩⟩
  rw [hcount, deliveredBy, ← List.countP_eq_length_filter,
    List.countP_congr fun i _ => hsame i]

theorem appliers_report_disagreement_first :
    ((∃ logs, receiveAll [((1 : Fin 3), (⟨1, some 10, false, none⟩ : ApplyMsg Nat Unit)),
        (0, ⟨1, some 10, false, none⟩)] = .ok logs) ↔
      Agreeing [((1 : Fin 3), (⟨1, some 10, false, none⟩ : ApplyMsg Nat Unit)),
        (0, ⟨1, some 10, false, none⟩)]) := by
  have hno : firstDeliveryRun.AllSteps fun _ a => noStartSnapshot a := by decide +kernel
  have hread : ∀ i : Fin 3, [((1 : Fin 3), (⟨1, some 10, false, none⟩ : ApplyMsg Nat Unit)),
        (0, ⟨1, some 10, false, none⟩)].filter (fun message => message.1 = i) <+:
      (firstDeliveryRun.state 22).delivered.filter fun message => message.1 = i := by
    decide +kernel
  exact (appliers_report_disagreement firstDeliveryRun hno (by decide) _ hread).1

end BlockchainTutorial.Raft
