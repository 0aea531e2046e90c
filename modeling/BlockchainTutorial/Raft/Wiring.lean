import BlockchainTutorial.Raft.Harness
import Mathlib.Data.List.Basic

namespace BlockchainTutorial.Raft

open Labrpc

variable {n : Nat} {C D Endname : Type}

/-! Which instance can be reached over which client end, whatever the servers do. -/

namespace Harness

/-- Instance `k` is a server number `i` with these client ends. -/
def Place (s : Harness n C D Endname) (k : Nat) (i : Fin n) (peers : Fin n → Endname) : Prop :=
  ∃ inst, s.instances[k]? = some inst ∧ inst.me = i ∧ inst.peers = peers

theorem Place.unique {s : Harness n C D Endname} {k : Nat} {i i' : Fin n}
    {peers peers' : Fin n → Endname} (h : s.Place k i peers) (h' : s.Place k i' peers') :
    i = i' ∧ peers = peers' := by
  obtain ⟨inst, hinst, rfl, rfl⟩ := h
  obtain ⟨inst', hinst', rfl, rfl⟩ := h'
  obtain rfl := Option.some.inj (hinst.symm.trans hinst')
  exact ⟨rfl, rfl⟩

theorem Place.lt {s : Harness n C D Endname} {k : Nat} {i : Fin n} {peers : Fin n → Endname}
    (h : s.Place k i peers) : k < s.instances.length := by
  obtain ⟨inst, hinst, _⟩ := h
  exact (List.getElem?_eq_some_iff.mp hinst).1

/-- The server behind an instance moves, and the instance stays where it is. -/
theorem place_set {s s' : Harness n C D Endname} {k : Nat} {inst : Instance n C D Endname}
    (inst' : Instance n C D Endname) (h : s.instances[k]? = some inst)
    (hinstances : s'.instances = s.instances.set k inst') (hme : inst'.me = inst.me)
    (hpeers : inst'.peers = inst.peers) (l : Nat) (i : Fin n) (peers : Fin n → Endname) :
    s'.Place l i peers ↔ s.Place l i peers := by
  rw [Place, Place, hinstances, List.getElem?_set]
  by_cases hl : k = l
  · subst hl
    obtain ⟨hk, rfl⟩ := List.getElem?_eq_some_iff.mp h
    simp [hk, hme, hpeers]
  · rw [if_neg hl]

theorem place_append {s s' : Harness n C D Endname} {inst : Instance n C D Endname}
    (hinstances : s'.instances = s.instances ++ [inst]) {k : Nat} {i : Fin n}
    {peers : Fin n → Endname} (h : s'.Place k i peers) :
    s.Place k i peers ∨ k = s.instances.length ∧ i = inst.me ∧ peers = inst.peers := by
  obtain ⟨inst', hinst', rfl, rfl⟩ := h
  rw [hinstances] at hinst'
  by_cases hk : k < s.instances.length
  · rw [List.getElem?_append_left hk] at hinst'
    exact .inl ⟨inst', hinst', rfl, rfl⟩
  · rw [List.getElem?_append_right (Nat.le_of_not_lt hk)] at hinst'
    have hzero : k - s.instances.length = 0 := by
      have hlt := (List.getElem?_eq_some_iff.mp hinst').1
      simpa using hlt
    rw [hzero] at hinst'
    obtain rfl : inst = inst' := by simpa using hinst'
    exact .inr ⟨by omega, rfl, rfl⟩

theorem Place.append {s s' : Harness n C D Endname} {more : List (Instance n C D Endname)}
    (hinstances : s'.instances = s.instances ++ more) {k : Nat} {i : Fin n}
    {peers : Fin n → Endname} (h : s.Place k i peers) : s'.Place k i peers := by
  obtain ⟨inst, hinst, hme, hpeers⟩ := h
  refine ⟨inst, ?_, hme, hpeers⟩
  rw [hinstances, List.getElem?_append_left (List.getElem?_eq_some_iff.mp hinst).1]
  exact hinst

/-- Instance `k` is the one that `cfg.rafts[i]` stands for, and writes to `cfg.saved[i]`. -/
def Current (s : Harness n C D Endname) (i : Fin n) (k : Nat) : Prop :=
  s.saved i = .shared k

/-- A client end of an instance that is not down. -/
def LiveEnd (s : Harness n C D Endname) (endname : Endname) : Prop :=
  ∃ i k peers j, s.Current i k ∧ s.Place k i peers ∧ peers j = endname

/-- What the function that the test is in has already achieved. -/
def Underway (s : Harness n C D Endname) : Prop :=
  match s.tester with
  | .idle => True
  | .enabling pending => ∀ endname, (endname, true) ∈ pending → s.LiveEnd endname
  | .crashing i pending _ =>
      s.connected i = false ∧ (∀ endname, (endname, true) ∉ pending) ∧
        ∀ k peers j, s.Current i k → s.Place k i peers →
          s.net.enabled (peers j) = false ∨ (peers j, false) ∈ pending
  | .copying i _ =>
      s.connected i = false ∧ s.net.servers i = none ∧
        ∀ k peers j, s.Current i k → s.Place k i peers → s.net.enabled (peers j) = false
  | .makingEnds i _ => s.connected i = false ∧ ∃ persister, s.saved i = .own persister
  | .making i names =>
      s.connected i = false ∧ (∃ persister, s.saved i = .own persister) ∧
        s.endnames i = some names ∧
        ∀ j, s.net.ends (names j) = true ∧ s.net.connections (names j) = some j ∧
          ∀ k i' peers j', s.Place k i' peers → peers j' ≠ names j
  | .adding i k => s.Current i k

structure Wired (s : Harness n C D Endname) : Prop where
  known : ∀ k i peers j, s.Place k i peers →
    s.net.ends (peers j) = true ∧ s.net.connections (peers j) = some j
  distinct : ∀ k k' i i' peers peers' j j', s.Place k i peers → s.Place k' i' peers' →
    peers j = peers' j' → k = k'
  off : ∀ k i peers j, s.Place k i peers → ¬ s.Current i k → s.net.enabled (peers j) = false
  current : ∀ i k, s.Current i k → ∃ peers, s.Place k i peers ∧ s.endnames i = some peers
  registered : ∀ i k, s.net.servers i = some k → s.Current i k
  rafts : ∀ i k, s.rafts i = some k → s.Current i k
  connected : ∀ i, s.connected i = true → ∃ k, s.Current i k
  underway : s.Underway

theorem Wired.unique {s : Harness n C D Endname} (h : Wired s) {i i' : Fin n} {k : Nat}
    (hi : s.Current i k) (hi' : s.Current i' k) : i = i' := by
  obtain ⟨peers, hplace, _⟩ := h.current i k hi
  obtain ⟨peers', hplace', _⟩ := h.current i' k hi'
  exact (hplace.unique hplace').1

theorem wired_init : Wired (Harness.init n C D Endname) where
  known k i peers j h := by simp [Place, init] at h
  distinct k k' i i' peers peers' j j' h := by simp [Place, init] at h
  off k i peers j h := by simp [Place, init] at h
  current i k h := by simp [Current, init] at h
  registered i k h := by simp [init, Network.makeNetwork] at h
  rafts i k h := by simp [init] at h
  connected i h := by simp [init] at h
  underway := trivial

/-- A step that leaves alone all that the wiring is about. -/
theorem Wired.of_same {s s' : Harness n C D Endname} (h : Wired s)
    (hends : s'.net.ends = s.net.ends) (henabled : s'.net.enabled = s.net.enabled)
    (hservers : s'.net.servers = s.net.servers)
    (hconnections : s'.net.connections = s.net.connections)
    (hplace : ∀ k i peers, s'.Place k i peers ↔ s.Place k i peers)
    (hconnected : s'.connected = s.connected) (hsaved : s'.saved = s.saved)
    (hrafts : s'.rafts = s.rafts) (hendnames : s'.endnames = s.endnames)
    (htester : s'.tester = s.tester) : Wired s' := by
  have hcurrent : ∀ i k, s'.Current i k ↔ s.Current i k := fun i k => by
    rw [Current, Current, hsaved]
  have hlive : ∀ endname, s'.LiveEnd endname ↔ s.LiveEnd endname := fun endname => by
    simp only [LiveEnd, hcurrent, hplace]
  have hunderway : s'.Underway ↔ s.Underway := by
    simp only [Underway, hcurrent, hlive, hplace, hends, henabled, hservers, hconnections,
      hconnected, hsaved, hendnames, htester]
  refine ⟨?_, ?_, ?_, ?_, ?_, ?_, ?_, hunderway.mpr h.underway⟩
  · simp only [hplace, hends, hconnections]
    exact h.known
  · simp only [hplace]
    exact h.distinct
  · simp only [hplace, henabled, hcurrent]
    exact h.off
  · simp only [hplace, hendnames, hcurrent]
    exact h.current
  · simp only [hservers, hcurrent]
    exact h.registered
  · simp only [hrafts, hcurrent]
    exact h.rafts
  · simp only [hconnected, hcurrent]
    exact h.connected

/-! Steps of the servers and of `ProcessReq`. -/

theorem moveInstance_eq_some {s s' : Harness n C D Endname} {k : Nat}
    {inst : Instance n C D Endname} {rf : Raft n C D} {eff : Effects n C D}
    (h : s.moveInstance k inst rf eff = some s') :
    rf.withinChans = true ∧ eff.panicked = false ∧ s' = { s with
      instances := s.instances.set k { inst with raft := rf }
      requests := s.requests ++ eff.calls.map (inst.request k)
      delivered := s.delivered ++ eff.applied.map (inst.me, ·) } := by
  unfold moveInstance at h
  split at h
  · next hgo =>
      simp only [Bool.and_eq_true, Bool.not_eq_true'] at hgo
      exact ⟨hgo.1, hgo.2, (Option.some.inj h).symm⟩
  · cases h

theorem moveInstance_place {s s' : Harness n C D Endname} {k : Nat}
    {inst : Instance n C D Endname} {rf : Raft n C D} {eff : Effects n C D}
    (h : s.moveInstance k inst rf eff = some s') (hinst : s.instances[k]? = some inst) :
    ∀ l i peers, s'.Place l i peers ↔ s.Place l i peers := by
  obtain ⟨_, _, rfl⟩ := moveInstance_eq_some h
  exact place_set _ hinst rfl rfl rfl

theorem Wired.moveInstance {s s' : Harness n C D Endname} (h : Wired s) {k : Nat}
    {inst : Instance n C D Endname} (hinst : s.instances[k]? = some inst) {rf : Raft n C D}
    {eff : Effects n C D} (hmove : s.moveInstance k inst rf eff = some s') : Wired s' := by
  have hplace := moveInstance_place hmove hinst
  obtain ⟨_, _, rfl⟩ := moveInstance_eq_some hmove
  exact h.of_same rfl rfl rfl rfl hplace rfl rfl rfl rfl rfl

theorem stepServer_eq_some {s s' : Harness n C D Endname} {k : Nat} {local_ : LocalStep C}
    (h : s.stepServer k local_ = some s') :
    ∃ inst rf eff, s.instances[k]? = some inst ∧
      local_.take inst.me inst.raft = some (rf, eff) ∧
      s.moveInstance k inst rf eff = some s' := by
  unfold stepServer at h
  cases hinst : s.instances[k]? with
  | none => simp [hinst] at h
  | some inst =>
      simp only [hinst] at h
      obtain ⟨out, hout, hmove⟩ := Option.bind_eq_some_iff.mp h
      exact ⟨inst, out.1, out.2, rfl, hout, hmove⟩

theorem stepProcessReq_eq_some {s s' : Harness n C D Endname} {k : Nat} {choice : Choice}
    (h : s.stepProcessReq k choice = some s') :
    ∃ req msg, s.requests[k]? = some req ∧ req.msg.step s.net choice = some msg ∧
      s' = s.setRequest k { req with msg } := by
  unfold stepProcessReq at h
  cases hreq : s.requests[k]? with
  | none => simp [hreq] at h
  | some req =>
      simp only [hreq] at h
      obtain ⟨msg, hmsg, rfl⟩ := Option.map_eq_some_iff.mp h
      exact ⟨req, msg, rfl, hmsg, rfl⟩

theorem stepCount_eq_some {s s' : Harness n C D Endname} {k : Nat}
    (h : s.stepCount k = some s') :
    ∃ req server inst, s.requests[k]? = some req ∧ req.msg.dispatch = .started server ∧
      s.instances[server]? = some inst ∧
      s' = { s.setRequest k (req.dispatched (.counted server)) with
        instances := s.instances.set server { inst with count := inst.count + 1 } } := by
  unfold stepCount at h
  cases hreq : s.requests[k]? with
  | none => simp [hreq] at h
  | some req =>
      simp only [hreq] at h
      cases hdispatch : req.msg.dispatch <;> simp only [hdispatch, reduceCtorEq] at h
      obtain ⟨inst, hinst, rfl⟩ := Option.map_eq_some_iff.mp h
      exact ⟨req, _, inst, rfl, hdispatch, hinst, rfl⟩

theorem stepHandle_eq_some {s s' : Harness n C D Endname} {k : Nat}
    (h : s.stepHandle k = some s') :
    ∃ req server inst rf reply applied, s.requests[k]? = some req ∧
      req.msg.dispatch = .counted server ∧ s.instances[server]? = some inst ∧
      serviceDispatch inst.raft req.msg.args = some (rf, reply, applied) ∧
      (s.setRequest k (req.dispatched (.sending server reply))).moveInstance server inst rf
        { applied } = some s' := by
  unfold stepHandle at h
  cases hreq : s.requests[k]? with
  | none => simp [hreq] at h
  | some req =>
      simp only [hreq] at h
      cases hdispatch : req.msg.dispatch <;> simp only [hdispatch, reduceCtorEq] at h
      obtain ⟨inst, hinst, h⟩ := Option.bind_eq_some_iff.mp h
      obtain ⟨out, hout, hmove⟩ := Option.bind_eq_some_iff.mp h
      exact ⟨req, _, inst, out.1, out.2.1, out.2.2, rfl, hdispatch, hinst, hout, hmove⟩

theorem stepFinish_eq_some {s s' : Harness n C D Endname} {k : Nat}
    (h : s.stepFinish k = some s') :
    ∃ req inst reply rf, s.requests[k]? = some req ∧
      req.msg.returned = some (some reply) ∧ req.finished = false ∧
      s.instances[req.caller]? = some inst ∧
      afterCall inst.raft req.server req.msg.args reply = some rf ∧
      (s.setRequest k { req with finished := true }).moveInstance req.caller inst rf {} =
        some s' := by
  unfold stepFinish at h
  cases hreq : s.requests[k]? with
  | none => simp [hreq] at h
  | some req =>
      simp only [hreq] at h
      cases hreturned : req.msg.returned with
      | none => simp [hreturned] at h
      | some answer =>
          cases answer with
          | none => simp [hreturned] at h
          | some reply =>
              simp only [hreturned] at h
              split at h
              · cases h
              · next hfinished =>
                  obtain ⟨inst, hinst, h⟩ := Option.bind_eq_some_iff.mp h
                  obtain ⟨rf, hrf, hmove⟩ := Option.bind_eq_some_iff.mp h
                  exact ⟨req, inst, reply, rf, rfl, hreturned, by simpa using hfinished, hinst,
                    hrf, hmove⟩

/-! Steps of the test. -/

theorem disconnectEnds_false {s : Harness n C D Endname} {i : Fin n} {pair : Endname × Bool}
    (h : pair ∈ s.disconnectEnds i) : pair.2 = false := by
  simp only [disconnectEnds, List.mem_append, List.mem_filterMap, Option.map_eq_some_iff] at h
  rcases h with ⟨j, _, names, _, rfl⟩ | ⟨j, _, names, _, rfl⟩ <;> rfl

theorem mem_disconnectEnds {s : Harness n C D Endname} {i : Fin n} {names : Fin n → Endname}
    (h : s.endnames i = some names) (j : Fin n) : (names j, false) ∈ s.disconnectEnds i := by
  simp only [disconnectEnds, List.mem_append, List.mem_filterMap, Option.map_eq_some_iff]
  exact .inl ⟨j, List.mem_finRange j, names, h, rfl⟩

theorem Wired.connected_update {s : Harness n C D Endname} (h : Wired s) {i j : Fin n}
    {connected : Bool} (hi : connected = true → ∃ k, s.Current i k)
    (hj : Function.update s.connected i connected j = true) : ∃ k, s.Current j k := by
  by_cases heq : j = i
  · subst heq
    rw [Function.update_self] at hj
    exact hi hj
  · rw [Function.update_of_ne heq] at hj
    exact h.connected j hj

theorem Wired.connectEnds_live {s : Harness n C D Endname} (h : Wired s) {i : Fin n}
    (hi : ∃ k, s.Current i k) {endname : Endname} {enabled : Bool}
    (hmem : (endname, enabled) ∈ s.connectEnds i) : s.LiveEnd endname := by
  have hlive : ∀ j names k, s.endnames j = some names → (∃ l, s.Current j l) →
      s.LiveEnd (names k) := by
    rintro j names k hnames ⟨l, hl⟩
    obtain ⟨peers, hplace, hpeers⟩ := h.current j l hl
    obtain rfl := Option.some.inj (hnames.symm.trans hpeers)
    exact ⟨j, l, names, k, hl, hplace, rfl⟩
  simp only [connectEnds, List.mem_append, List.mem_filterMap, Option.ite_none_right_eq_some,
    Option.map_eq_some_iff, Prod.mk.injEq] at hmem
  rcases hmem with ⟨j, _, _, names, hnames, rfl, _⟩ | ⟨j, _, hj, names, hnames, rfl, _⟩
  · exact hlive i names j hnames hi
  · exact hlive j names i hnames (h.connected_update (fun _ => hi) hj)

/-- The test enters a function of `config.go`: only its own bookkeeping has changed. -/
theorem Wired.enter {s : Harness n C D Endname} (h : Wired s) {i : Fin n} {connected : Bool}
    {tester : Tester n Endname} (hi : connected = true → ∃ k, s.Current i k)
    (hunderway : { s with
      connected := Function.update s.connected i connected
      tester := tester }.Underway) :
    Wired { s with
      connected := Function.update s.connected i connected
      tester := tester } :=
  ⟨h.known, h.distinct, h.off, h.current, h.registered, h.rafts,
    fun _ hj => h.connected_update hi hj, hunderway⟩

theorem Wired.crashing {s : Harness n C D Endname} (h : Wired s) (i : Fin n)
    (names : Option (Fin n → Endname)) :
    Wired { s with
      connected := Function.update s.connected i false
      tester := .crashing i (s.disconnectEnds i) names } := by
  refine h.enter (fun hfalse => absurd hfalse Bool.false_ne_true)
    ⟨Function.update_self .., fun endname hmem => ?_, fun k peers j hcurrent hplace => .inr ?_⟩
  · exact absurd (disconnectEnds_false hmem).symm Bool.false_ne_true
  · obtain ⟨peers', hplace', hnames⟩ := h.current i k hcurrent
    obtain ⟨_, rfl⟩ := Place.unique hplace hplace'
    exact mem_disconnectEnds hnames j

theorem Wired.stepConfig {s s' : Harness n C D Endname} (h : Wired s)
    {call : ConfigCall n Endname} (hstep : s.stepConfig call = some s') : Wired s' := by
  cases call with
  | connect i =>
      simp only [Harness.stepConfig] at hstep
      split at hstep
      · next hup =>
          obtain rfl := Option.some.inj hstep
          obtain ⟨k, hk⟩ := Option.isSome_iff_exists.mp hup
          have hi : ∃ k, s.Current i k := ⟨k, h.rafts i k hk⟩
          exact h.enter (fun _ => hi) fun endname hmem => h.connectEnds_live hi hmem
      · cases hstep
  | disconnect i =>
      obtain rfl := Option.some.inj hstep
      refine h.enter (fun hfalse => absurd hfalse Bool.false_ne_true) fun endname hmem => ?_
      exact absurd (disconnectEnds_false hmem).symm Bool.false_ne_true
  | crash1 i =>
      obtain rfl := Option.some.inj hstep
      exact h.crashing i none
  | start1 i names =>
      obtain rfl := Option.some.inj hstep
      exact h.crashing i (some names)

theorem Wired.copying {s : Harness n C D Endname} (h : Wired s) {i : Fin n}
    {names : Option (Fin n → Endname)} (htester : s.tester = .copying i names)
    (persister : Persister n C D) {tester : Tester n Endname}
    (htester' : tester = .idle ∨ ∃ names, tester = .makingEnds i names) :
    Wired { s with
      saved := Function.update s.saved i (.own persister)
      rafts := Function.update s.rafts i none
      tester := tester } := by
  have hunderway := h.underway
  simp only [Underway, htester] at hunderway
  obtain ⟨hconnected, hservers, hoff⟩ := hunderway
  have hcurrent : ∀ j k, Function.update s.saved i (.own persister) j = .shared k ↔
      j ≠ i ∧ s.Current j k := by
    intro j k
    by_cases hj : j = i
    · subst hj
      simp
    · simp [Current, hj]
  refine ⟨h.known, h.distinct, ?_, ?_, ?_, ?_, ?_, ?_⟩
  · intro k j peers l hplace hnot
    by_cases hold : s.Current j k
    · obtain rfl : j = i := by
        by_contra hj
        exact hnot ((hcurrent j k).mpr ⟨hj, hold⟩)
      exact hoff k peers l hold hplace
    · exact h.off k j peers l hplace hold
  · intro j k hk
    exact h.current j k ((hcurrent j k).mp hk).2
  · intro j k hk
    refine (hcurrent j k).mpr ⟨?_, h.registered j k hk⟩
    rintro rfl
    cases hservers.symm.trans hk
  · intro j k hk
    by_cases hj : j = i
    · simp [hj] at hk
    · exact (hcurrent j k).mpr ⟨hj, h.rafts j k (by simpa [hj] using hk)⟩
  · intro j hj
    obtain ⟨k, hk⟩ := h.connected j hj
    refine ⟨k, (hcurrent j k).mpr ⟨?_, hk⟩⟩
    rintro rfl
    exact Bool.false_ne_true (hconnected.symm.trans hj)
  · rcases htester' with rfl | ⟨names, rfl⟩
    · trivial
    · exact ⟨hconnected, persister, Function.update_self ..⟩

/-- What `MakeEnd` and `Connect` have done for the peers: the names were new. -/
structure Made (net net' : Network Endname (Fin n) Nat) (names : Fin n → Endname)
    (peers : List (Fin n)) : Prop where
  fresh : ∀ j ∈ peers, net.ends (names j) = false
  made : ∀ j ∈ peers, net'.ends (names j) = true ∧ net'.connections (names j) = some j
  rest : ∀ endname, (∀ j ∈ peers, names j ≠ endname) →
    net'.ends endname = net.ends endname ∧ net'.enabled endname = net.enabled endname ∧
      net'.connections endname = net.connections endname
  servers : net'.servers = net.servers

theorem Wired.makingEnds {s : Harness n C D Endname} (h : Wired s) {i : Fin n}
    {names : Fin n → Endname} (htester : s.tester = .makingEnds i names)
    {net : Network Endname (Fin n) Nat} (hmade : Made s.net net names (List.finRange n)) :
    Wired { s with
      net := net
      endnames := Function.update s.endnames i (some names)
      tester := .making i names } := by
  have hunderway := h.underway
  simp only [Underway, htester] at hunderway
  obtain ⟨hconnected, persister, hsaved⟩ := hunderway
  have hne : ∀ k i' peers j l, s.Place k i' peers → peers j ≠ names l := by
    intro k i' peers j l hplace heq
    have hold := (h.known k i' peers j hplace).1
    rw [heq, hmade.fresh l (List.mem_finRange l)] at hold
    cases hold
  have hrest : ∀ k i' peers j, s.Place k i' peers →
      net.ends (peers j) = s.net.ends (peers j) ∧
        net.enabled (peers j) = s.net.enabled (peers j) ∧
        net.connections (peers j) = s.net.connections (peers j) :=
    fun k i' peers j hplace =>
      hmade.rest (peers j) fun l _ heq => hne k i' peers j l hplace heq.symm
  refine ⟨?_, h.distinct, ?_, ?_, ?_, h.rafts, h.connected, hconnected, ⟨persister, hsaved⟩,
    Function.update_self .., ?_⟩
  · intro k i' peers j hplace
    obtain ⟨hends, -, hconnections⟩ := hrest k i' peers j hplace
    rw [hends, hconnections]
    exact h.known k i' peers j hplace
  · intro k i' peers j hplace hcurrent
    rw [(hrest k i' peers j hplace).2.1]
    exact h.off k i' peers j hplace hcurrent
  · intro j k hcurrent
    have hj : j ≠ i := by
      rintro rfl
      cases hsaved.symm.trans hcurrent
    obtain ⟨peers, hplace, hnames⟩ := h.current j k hcurrent
    exact ⟨peers, hplace, by simpa [hj] using hnames⟩
  · rw [hmade.servers]
    exact h.registered
  · intro j
    obtain ⟨hends, hconnections⟩ := hmade.made j (List.mem_finRange j)
    exact ⟨hends, hconnections, fun k i' peers j' hplace => hne k i' peers j' j hplace⟩

theorem Wired.making {s : Harness n C D Endname} (h : Wired s) {i : Fin n}
    {names : Fin n → Endname} (htester : s.tester = .making i names)
    (rf : Raft n C D) :
    Wired { s with
      instances := s.instances ++ [⟨i, names, rf, 0⟩]
      saved := Function.update s.saved i (.shared s.instances.length)
      rafts := Function.update s.rafts i (some s.instances.length)
      tester := .adding i s.instances.length } := by
  have hunderway := h.underway
  simp only [Underway, htester] at hunderway
  obtain ⟨hconnected, ⟨persister, hsaved⟩, hendnames, hnames⟩ := hunderway
  have hdown : ∀ j k, s.Current j k → j ≠ i := by
    rintro j k hcurrent rfl
    cases hsaved.symm.trans hcurrent
  have hkept : ∀ j k, s.Current j k →
      Function.update s.saved i (.shared s.instances.length) j = .shared k := fun j k hcurrent => by
    rw [Function.update_of_ne (hdown j k hcurrent)]
    exact hcurrent
  refine ⟨?_, ?_, ?_, ?_, fun j k hk => hkept j k (h.registered j k hk), ?_, ?_,
    Function.update_self ..⟩
  · intro k i' peers j hplace
    rcases place_append rfl hplace with hold | ⟨_, _, rfl⟩
    · exact h.known k i' peers j hold
    · exact ⟨(hnames j).1, (hnames j).2.1⟩
  · intro k k' i₁ i₂ peers peers' j j' hplace hplace' heq
    rcases place_append rfl hplace with hold | ⟨rfl, _, rfl⟩
    · rcases place_append rfl hplace' with hold' | ⟨rfl, _, rfl⟩
      · exact h.distinct k k' i₁ i₂ peers peers' j j' hold hold' heq
      · exact absurd heq ((hnames j').2.2 k i₁ peers j hold)
    · rcases place_append rfl hplace' with hold' | ⟨rfl, _, _⟩
      · exact absurd heq.symm ((hnames j).2.2 k' i₂ peers' j' hold')
      · rfl
  · intro k i' peers j hplace hcurrent
    rcases place_append rfl hplace with hold | ⟨rfl, rfl, _⟩
    · exact h.off k i' peers j hold fun hold' => hcurrent (hkept i' k hold')
    · exact absurd (Function.update_self ..) hcurrent
  · intro j k hcurrent
    by_cases hj : j = i
    · subst hj
      obtain rfl : s.instances.length = k := by simpa [Current] using hcurrent
      exact ⟨names, ⟨_, List.getElem?_concat_length, rfl, rfl⟩, hendnames⟩
    · obtain ⟨peers, hplace, hpeers⟩ := h.current j k (by simpa [Current, hj] using hcurrent)
      exact ⟨peers, hplace.append rfl, hpeers⟩
  · intro j k hk
    by_cases hj : j = i
    · subst hj
      obtain rfl : s.instances.length = k := by simpa using hk
      exact Function.update_self ..
    · exact hkept j k (h.rafts j k (by simpa [hj] using hk))
  · intro j hj
    obtain ⟨k, hk⟩ := h.connected j hj
    exact ⟨k, hkept j k hk⟩

variable [DecidableEq Endname]

/-- An end that is switched on belongs to an instance that is not down. -/
theorem Wired.off_enable {s : Harness n C D Endname} (h : Wired s) {endname : Endname}
    {enabled : Bool} (hlive : enabled = true → s.LiveEnd endname) {k : Nat} {i : Fin n}
    {peers : Fin n → Endname} (j : Fin n) (hplace : s.Place k i peers)
    (hcurrent : ¬ s.Current i k) :
    Function.update s.net.enabled endname enabled (peers j) = false := by
  by_cases heq : peers j = endname
  · rw [heq, Function.update_self]
    cases enabled with
    | false => rfl
    | true =>
        obtain ⟨i', k', peers', j', hcurrent', hplace', heq'⟩ := hlive rfl
        obtain rfl := h.distinct k k' i i' peers peers' j j' hplace hplace' (heq.trans heq'.symm)
        obtain ⟨rfl, _⟩ := hplace.unique hplace'
        exact absurd hcurrent' hcurrent
  · rw [Function.update_of_ne heq]
    exact h.off k i peers j hplace hcurrent

theorem Wired.enable {s : Harness n C D Endname} (h : Wired s) {endname : Endname}
    {enabled : Bool} {tester : Tester n Endname} (hlive : enabled = true → s.LiveEnd endname)
    (hunderway : { s with net := s.net.enable endname enabled, tester := tester }.Underway) :
    Wired { s with net := s.net.enable endname enabled, tester := tester } :=
  ⟨h.known, h.distinct, fun _ _ _ j hplace hcurrent => h.off_enable hlive j hplace hcurrent,
    h.current, h.registered, h.rafts, h.connected, hunderway⟩

theorem makeEnds_made {names : Fin n → Endname} {peers : List (Fin n)}
    {net net' : Network Endname (Fin n) Nat} (h : makeEnds net names peers = some net') :
    Made net net' names peers := by
  induction peers generalizing net with
  | nil =>
      obtain rfl := Option.some.inj h
      exact ⟨by simp, by simp, fun _ _ => ⟨rfl, rfl, rfl⟩, rfl⟩
  | cons j peers ih =>
      obtain ⟨net₁, hmake, hrest⟩ := Option.bind_eq_some_iff.mp h
      simp only [Network.makeEnd, Option.ite_none_left_eq_some, Option.some.injEq,
        Bool.not_eq_true] at hmake
      obtain ⟨hfresh, rfl⟩ := hmake
      have hmade := ih hrest
      -- the later names are new after `names j` was taken, so none of them is `names j`
      have hne : ∀ l ∈ peers, names l ≠ names j := by
        intro l hl heq
        have hold := hmade.fresh l hl
        rw [heq] at hold
        simp [Network.connect] at hold
      obtain ⟨hends, -, hconnections⟩ := hmade.rest (names j) hne
      refine ⟨?_, ?_, ?_, hmade.servers⟩
      · intro l hl
        rcases List.mem_cons.mp hl with rfl | hl
        · exact hfresh
        · simpa [Network.connect, hne l hl] using hmade.fresh l hl
      · intro l hl
        rcases List.mem_cons.mp hl with rfl | hl
        · rw [hends, hconnections]
          simp [Network.connect]
        · exact hmade.made l hl
      · intro endname hnot
        obtain ⟨hends', henabled', hconnections'⟩ :=
          hmade.rest endname fun l hl => hnot l (List.mem_cons_of_mem _ hl)
        have hj : endname ≠ names j := fun heq => hnot j List.mem_cons_self heq.symm
        rw [hends', henabled', hconnections']
        simp [Network.connect, hj]

theorem Wired.stepTester {s s' : Harness n C D Endname} (h : Wired s)
    (hstep : s.stepTester = some s') : Wired s' := by
  have hunderway := h.underway
  cases htester : s.tester with
  | idle => simp [Harness.stepTester, htester] at hstep
  | enabling pending =>
      simp only [Underway, htester] at hunderway
      cases pending with
      | nil =>
          simp only [Harness.stepTester, htester, Option.some.injEq] at hstep
          subst hstep
          exact ⟨h.known, h.distinct, h.off, h.current, h.registered, h.rafts, h.connected,
            trivial⟩
      | cons pair pending =>
          obtain ⟨endname, enabled⟩ := pair
          simp only [Harness.stepTester, htester, Option.some.injEq] at hstep
          subst hstep
          refine h.enable (fun htrue => hunderway endname (htrue ▸ List.mem_cons_self)) ?_
          exact fun e he => hunderway e (List.mem_cons_of_mem _ he)
  | crashing i pending names =>
      simp only [Underway, htester] at hunderway
      obtain ⟨hconnected, hfalse, hoff⟩ := hunderway
      cases pending with
      | nil =>
          simp only [Harness.stepTester, htester, Option.some.injEq] at hstep
          subst hstep
          refine ⟨h.known, h.distinct, h.off, h.current, ?_, h.rafts, h.connected,
            hconnected, Function.update_self .., ?_⟩
          · intro j k hk
            by_cases hj : j = i
            · simp [Network.deleteServer, hj] at hk
            · exact h.registered j k (by simpa [Network.deleteServer, hj] using hk)
          · intro k peers j hcurrent hplace
            rcases hoff k peers j hcurrent hplace with hoff | hmem
            · exact hoff
            · exact absurd hmem List.not_mem_nil
      | cons pair pending =>
          obtain ⟨endname, enabled⟩ := pair
          simp only [Harness.stepTester, htester, Option.some.injEq] at hstep
          subst hstep
          have hdisable : enabled = false := by
            cases enabled with
            | false => rfl
            | true => exact absurd List.mem_cons_self (hfalse endname)
          subst hdisable
          refine h.enable (fun htrue => absurd htrue Bool.false_ne_true)
            ⟨hconnected, fun e he => hfalse e (List.mem_cons_of_mem _ he), ?_⟩
          intro k peers j hcurrent hplace
          by_cases heq : peers j = endname
          · exact .inl (by simp [Network.enable, heq])
          · rcases hoff k peers j hcurrent hplace with hoff | hmem
            · exact .inl (by simpa [Network.enable, heq] using hoff)
            · exact .inr (by simpa [heq] using hmem)
  | copying i names =>
      simp only [Harness.stepTester, htester] at hstep
      obtain ⟨persister, _, rfl⟩ := Option.map_eq_some_iff.mp hstep
      refine h.copying htester _ ?_
      cases names with
      | none => exact .inl rfl
      | some names => exact .inr ⟨names, rfl⟩
  | makingEnds i names =>
      simp only [Harness.stepTester, htester] at hstep
      obtain ⟨net, hnet, rfl⟩ := Option.map_eq_some_iff.mp hstep
      exact h.makingEnds htester (makeEnds_made hnet)
  | making i names =>
      simp only [Harness.stepTester, htester] at hstep
      obtain ⟨persister, _, rfl⟩ := Option.map_eq_some_iff.mp hstep
      exact h.making htester _
  | adding i k =>
      simp only [Underway, htester] at hunderway
      simp only [Harness.stepTester, htester, Option.some.injEq] at hstep
      subst hstep
      refine ⟨h.known, h.distinct, h.off, h.current, ?_, h.rafts, h.connected, trivial⟩
      intro j l hl
      by_cases hj : j = i
      · subst hj
        obtain rfl : k = l := by simpa [Network.addServer] using hl
        exact hunderway
      · exact h.registered j l (by simpa [Network.addServer, hj] using hl)

theorem Wired.step {s s' : Harness n C D Endname} (h : Wired s)
    {a : HarnessAction n C Endname} (hstep : s.step a = some s') : Wired s' := by
  cases a with
  | setunreliable unrel =>
      obtain rfl := Option.some.inj hstep
      exact h.of_same rfl rfl rfl rfl (fun _ _ _ => Iff.rfl) rfl rfl rfl rfl rfl
  | config call =>
      cases htester : s.tester <;> simp only [Harness.step, htester, reduceCtorEq] at hstep
      exact h.stepConfig hstep
  | tester => exact h.stepTester hstep
  | server k local_ =>
      obtain ⟨inst, rf, eff, hinst, _, hmove⟩ := stepServer_eq_some hstep
      exact h.moveInstance hinst hmove
  | processReq k choice =>
      obtain ⟨req, msg, _, _, rfl⟩ := stepProcessReq_eq_some hstep
      exact h.of_same rfl rfl rfl rfl (fun _ _ _ => Iff.rfl) rfl rfl rfl rfl rfl
  | count k =>
      obtain ⟨req, server, inst, _, _, hinst, rfl⟩ := stepCount_eq_some hstep
      exact h.of_same rfl rfl rfl rfl (place_set _ hinst rfl rfl rfl) rfl rfl rfl rfl rfl
  | handle k =>
      obtain ⟨req, server, inst, rf, reply, applied, _, _, hinst, _, hmove⟩ :=
        stepHandle_eq_some hstep
      obtain ⟨_, _, rfl⟩ := moveInstance_eq_some hmove
      exact h.of_same rfl rfl rfl rfl (place_set _ hinst rfl rfl rfl) rfl rfl rfl rfl rfl
  | finish k =>
      obtain ⟨req, inst, reply, rf, _, _, _, hinst, _, hmove⟩ := stepFinish_eq_some hstep
      obtain ⟨_, _, rfl⟩ := moveInstance_eq_some hmove
      exact h.of_same rfl rfl rfl rfl (place_set _ hinst rfl rfl rfl) rfl rfl rfl rfl rfl

end Harness

end BlockchainTutorial.Raft
