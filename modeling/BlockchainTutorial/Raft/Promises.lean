import BlockchainTutorial.Raft.Networked

namespace BlockchainTutorial.Raft

open Labrpc

variable {n : Nat} {C D Endname : Type}

/-! What a server has promised outlives its instances. -/

/-- The vote of the first stands in the second, unless the term has passed. -/
def StandsBy (old new : RaftState n C) : Prop :=
  old.currentTerm ≤ new.currentTerm ∧ (old.currentTerm = new.currentTerm →
    ∀ candidate, old.votedFor = some candidate → new.votedFor = some candidate)

theorem StandsBy.refl (state : RaftState n C) : StandsBy state state :=
  ⟨Nat.le_refl _, fun _ _ => id⟩

theorem StandsBy.trans {a b c : RaftState n C} (h : StandsBy a b) (h' : StandsBy b c) :
    StandsBy a c := by
  refine ⟨Nat.le_trans h.1 h'.1, fun hterm candidate hvote => ?_⟩
  have hle := h.1
  have hle' := h'.1
  exact h'.2 (by omega) candidate (h.2 (by omega) candidate hvote)

/-- What `persist` would encode. -/
def raftState (rf : Raft n C D) : RaftState n C :=
  ⟨rf.currentTerm, rf.votedFor, rf.log⟩

def storedState (persister : Persister n C D) : RaftState n C :=
  ⟨storedTerm persister, storedVote persister, storedLog persister⟩

theorem Saved.stored_eq {rf : Raft n C D} (h : Saved rf) :
    storedState rf.persister = raftState rf := by
  rw [storedState, h.term_eq, h.vote_eq, h.log_eq, raftState]

theorem raftState_make {persister : Persister n C D} (h : persister.snapshot = none) :
    raftState (make persister) = storedState persister := by
  rw [raftState, make_currentTerm, make_votedFor, make_log h, storedState]

theorem BallotStep.standsBy {s : Cluster n C D} {a : Action n C D} {i : Fin n} {rf : Raft n C D}
    (h : BallotStep s a i rf) : StandsBy (raftState (s.rafts i)) (raftState rf) := by
  refine ⟨h.term_le, fun hterm candidate hvote => ?_⟩
  replace hterm : (s.rafts i).currentTerm = rf.currentTerm := hterm
  replace hvote : (s.rafts i).votedFor = some candidate := hvote
  change rf.votedFor = some candidate
  cases h with
  | kept _ _ hkept => rw [hkept, hvote]
  | raised _ hlt => omega
  | cast other _ _ hfree hcast =>
      rcases hfree hterm with hnone | hsame
      · cases hnone.symm.trans hvote
      · rw [hcast, ← hsame, hvote]

theorem standsBy_run {run : ClusterRun n C D}
    (hno : run.AllSteps fun _ a => noStartSnapshot a) (i : Fin n) {j : Nat} :
    ∀ k, j ≤ k → k ≤ run.length →
      StandsBy (raftState ((run.state j).rafts i)) (raftState ((run.state k).rafts i)) := by
  refine run.induct_from
    (P := fun k => StandsBy (raftState ((run.state j).rafts i)) (raftState ((run.state k).rafts i)))
    (.refl _) ?_
  intro k _ hk ih
  refine ih.trans ?_
  obtain ⟨rf, hrf, hnext⟩ := server_step run hno hk i
  have hsame : raftState ((run.state (k + 1)).rafts i) = raftState rf := by
    rw [raftState, hnext.term_eq, hnext.vote_eq, hnext.log_eq, raftState]
  rw [hsame]
  rcases hrf with rfl | ⟨eff, hlocal⟩
  · exact .refl _
  · exact (BallotStep.of_local hlocal).standsBy

namespace Harness

/-- What server `i` has in memory, or what it restarts with. -/
def stateOf (s : Harness n C D Endname) (i : Fin n) : Option (RaftState n C) :=
  match s.saved i with
  | .shared k => (s.raftOf k).map raftState
  | .own persister => some (storedState persister)

/-- The instance whose goroutine takes the step. -/
def actor (s : Harness n C D Endname) : HarnessAction n C Endname → Option Nat
  | .server k _ => some k
  | .handle k => s.requests[k]?.bind fun req => req.msg.dispatch.server
  | .finish k => s.requests[k]?.map fun req => req.caller
  | _ => none

variable {s s' : Harness n C D Endname} {c : Cluster n C D} {i : Fin n}

theorem Shown.stateOf_eq (h : s.Shown c) : s.stateOf i = some (raftState (c.rafts i)) := by
  rw [stateOf]
  cases hsaved : s.saved i with
  | shared k =>
      dsimp only
      rw [h.up i k hsaved]
      rfl
  | own persister =>
      obtain ⟨hnone, hmake⟩ := h.down i persister hsaved
      dsimp only
      rw [hmake, raftState_make hnone]

theorem stateOf_congr (hsaved : s'.saved i = s.saved i)
    (hraft : ∀ k, s.Current i k → s'.raftOf k = s.raftOf k) : s'.stateOf i = s.stateOf i := by
  rw [stateOf, stateOf, hsaved]
  cases hshared : s.saved i with
  | shared k =>
      dsimp only
      rw [hraft k hshared]
  | own persister => rfl

/-- An instance moves: only the server that it is the instance of can change. -/
theorem stateOf_moveInstance {k : Nat} {inst : Instance n C D Endname} {rf : Raft n C D}
    {eff : Effects n C D} (hmove : s.moveInstance k inst rf eff = some s')
    (hinst : s.instances[k]? = some inst) (hcurrent : ¬ s.Current i k) :
    s'.stateOf i = s.stateOf i := by
  have hraftOf := raftOf_moveInstance hmove hinst
  obtain ⟨_, _, rfl⟩ := moveInstance_eq_some hmove
  refine stateOf_congr rfl fun l hl => ?_
  have hne : k ≠ l := fun heq => hcurrent (heq ▸ hl)
  rw [hraftOf l, if_neg hne]

theorem Shown.stored_persisterOf (h : s.Shown c) (hsaved : Saved (c.rafts i))
    {persister : Persister n C D} (hpersister : s.persisterOf i = some persister) :
    storedState persister = raftState (c.rafts i) := by
  rw [persisterOf] at hpersister
  cases hi : s.saved i with
  | shared k =>
      rw [hi] at hpersister
      dsimp only at hpersister
      rw [h.up i k hi, Option.map_some, Option.some.injEq] at hpersister
      rw [← hpersister, hsaved.stored_eq]
  | own own =>
      rw [hi] at hpersister
      obtain rfl := Option.some.inj hpersister
      obtain ⟨hnone, hmake⟩ := h.down i own hi
      rw [hmake, raftState_make hnone]

variable [DecidableEq Endname]

/-- Neither crashing a server nor starting it again loses anything. -/
theorem stateOf_stepTester (hwired : Wired s) (hshown : s.Shown c)
    (hsaved : ∀ i, Saved (c.rafts i)) (hstep : s.stepTester = some s') :
    s'.stateOf i = s.stateOf i := by
  have hunderway := hwired.underway
  cases htester : s.tester with
  | idle => simp [stepTester, htester] at hstep
  | enabling pending =>
      cases pending <;> simp only [stepTester, htester, Option.some.injEq] at hstep <;>
        subst hstep <;> exact stateOf_congr rfl fun _ _ => rfl
  | crashing j pending names =>
      cases pending <;> simp only [stepTester, htester, Option.some.injEq] at hstep <;>
        subst hstep <;> exact stateOf_congr rfl fun _ _ => rfl
  | copying j names =>
      simp only [stepTester, htester] at hstep
      obtain ⟨persister, hpersister, rfl⟩ := Option.map_eq_some_iff.mp hstep
      by_cases hi : i = j
      · subst hi
        rw [hshown.stateOf_eq, stateOf]
        dsimp only
        rw [Function.update_self, ← hshown.stored_persisterOf (hsaved i) hpersister]
        rfl
      · refine stateOf_congr ?_ fun _ _ => rfl
        exact Function.update_of_ne hi ..
  | makingEnds j names =>
      simp only [stepTester, htester] at hstep
      obtain ⟨net, _, rfl⟩ := Option.map_eq_some_iff.mp hstep
      exact stateOf_congr rfl fun _ _ => rfl
  | making j names =>
      simp only [Underway, htester] at hunderway
      obtain ⟨_, ⟨p, hown⟩, _⟩ := hunderway
      simp only [stepTester, htester] at hstep
      obtain ⟨persister, hpersister, rfl⟩ := Option.map_eq_some_iff.mp hstep
      by_cases hi : i = j
      · subst hi
        have hread : persister = p := by
          rw [persisterOf, hown, Option.some.injEq] at hpersister
          exact hpersister.symm
        obtain ⟨hnone, hmake⟩ := hshown.down i p hown
        rw [hread, stateOf, stateOf, hown]
        dsimp only
        rw [Function.update_self]
        dsimp only
        rw [raftOf, List.getElem?_concat_length]
        exact congrArg some (raftState_make hnone)
      · refine stateOf_congr (Function.update_of_ne hi ..) fun k hk => ?_
        obtain ⟨peers, hplace, _⟩ := hwired.current i k hk
        rw [raftOf, raftOf, List.getElem?_append_left hplace.lt]
  | adding j k =>
      simp only [stepTester, htester, Option.some.injEq] at hstep
      subst hstep
      exact stateOf_congr rfl fun _ _ => rfl

/-- Only the instance of a server that is up changes what the server has. -/
theorem stateOf_step (hwired : Wired s) (hshown : s.Shown c) (hsaved : ∀ i, Saved (c.rafts i))
    {a : HarnessAction n C Endname} (hstep : s.step a = some s') :
    s'.stateOf i = s.stateOf i ∨ ∃ k, s.actor a = some k ∧ s.Current i k := by
  cases a with
  | setunreliable unrel =>
      obtain rfl := Option.some.inj hstep
      exact .inl (stateOf_congr rfl fun _ _ => rfl)
  | config call =>
      cases htester : s.tester <;> simp only [step, htester, reduceCtorEq] at hstep
      obtain ⟨connected, tester, rfl⟩ := stepConfig_eq_some hstep
      exact .inl (stateOf_congr rfl fun _ _ => rfl)
  | tester => exact .inl (stateOf_stepTester hwired hshown hsaved hstep)
  | server k local_ =>
      obtain ⟨inst, rf, eff, hinst, _, hmove⟩ := stepServer_eq_some hstep
      by_cases hcurrent : s.Current i k
      · exact .inr ⟨k, rfl, hcurrent⟩
      · exact .inl (stateOf_moveInstance hmove hinst hcurrent)
  | processReq r choice =>
      obtain ⟨req, msg, _, _, rfl⟩ := stepProcessReq_eq_some hstep
      exact .inl (stateOf_congr rfl fun _ _ => rfl)
  | count r =>
      obtain ⟨req, k, inst, _, _, hinst, rfl⟩ := stepCount_eq_some hstep
      exact .inl (stateOf_congr rfl fun l _ => raftOf_count rfl hinst l)
  | handle r =>
      obtain ⟨req, k, inst, rf, reply, applied, hreq, hdispatch, hinst, _, hmove⟩ :=
        stepHandle_eq_some hstep
      by_cases hcurrent : s.Current i k
      · refine .inr ⟨k, ?_, hcurrent⟩
        rw [actor, hreq, Option.bind_some, hdispatch]
        rfl
      · exact .inl ((stateOf_moveInstance hmove hinst hcurrent).trans
          (stateOf_congr rfl fun _ _ => rfl))
  | finish r =>
      obtain ⟨req, inst, answer, rf, hreq, _, _, hinst, _, hmove⟩ := stepFinish_eq_some hstep
      by_cases hcurrent : s.Current i req.caller
      · refine .inr ⟨req.caller, ?_, hcurrent⟩
        rw [actor, hreq]
        rfl
      · exact .inl ((stateOf_moveInstance hmove hinst hcurrent).trans
          (stateOf_congr rfl fun _ _ => rfl))

end Harness

section Run

variable [DecidableEq Endname] (run : HarnessRun n C D Endname) (i : Fin n)

/-- Crashes, restarts and the network leave a server's term, vote and log alone, and so do
its instances that were crashed. Over the whole run its term never falls, and it takes no
vote back. -/
theorem promises_outlive_crashes :
    (∀ k, k < run.length → (run.state (k + 1)).stateOf i = (run.state k).stateOf i ∨
      ∃ inst, (run.state k).actor (run.act k) = some inst ∧ (run.state k).Current i inst) ∧
    ∀ j k, j ≤ k → k ≤ run.length → ∃ old new, (run.state j).stateOf i = some old ∧
      (run.state k).stateOf i = some new ∧ StandsBy old new := by
  obtain ⟨cluster, shown, hno, hshows⟩ := simulates_run run
  refine ⟨fun k hk => ?_, fun j k hjk hk => ?_⟩
  · have hsim := hshows.related k hk.le
    have hplain := plain_run cluster hno (shown k) (hshows.le_length hk.le)
    exact Harness.stateOf_step hsim.wired hsim.shown (fun j => (hplain.servers j).saved)
      (run.steps k hk)
  · exact ⟨_, _, (hshows.related j (hjk.trans hk)).shown.stateOf_eq,
      (hshows.related k hk).shown.stateOf_eq,
      standsBy_run hno i _ (hshows.mono j k hjk hk) (hshows.le_length hk)⟩

end Run

end BlockchainTutorial.Raft
