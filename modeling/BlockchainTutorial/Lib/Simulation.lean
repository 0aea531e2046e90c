import BlockchainTutorial.Lib.Run
import Mathlib.Data.List.Basic

namespace BlockchainTutorial.Lib

universe u v

/-! Forward simulation between runs, where a step of the first system may be no
step of the second. -/

namespace Run

variable {σ : Type u} {α : Type v} {init : σ} {step : σ → α → Option σ}

def empty [Inhabited α] (init : σ) (step : σ → α → Option σ) : Run init step where
  length := 0
  state _ := init
  act _ := default
  starts := rfl
  steps k hk := absurd hk (Nat.not_lt_zero k)

/-- The run, and one step more. -/
def extend (run : Run init step) (a : α) (s : σ)
    (h : step (run.state run.length) a = some s) : Run init step where
  length := run.length + 1
  state k := if k ≤ run.length then run.state k else s
  act k := if k < run.length then run.act k else a
  starts := by
    rw [if_pos (Nat.zero_le _)]
    exact run.starts
  steps k hk := by
    by_cases hlt : k < run.length
    · rw [if_pos (Nat.le_of_lt hlt), if_pos hlt, if_pos (Nat.succ_le_of_lt hlt)]
      exact run.steps k hlt
    · obtain rfl : k = run.length := by omega
      rw [if_pos (Nat.le_refl _), if_neg hlt, if_neg (by omega)]
      exact h

theorem extend_state_of_le {run : Run init step} {a : α} {s : σ}
    (h : step (run.state run.length) a = some s) {k : Nat} (hk : k ≤ run.length) :
    (run.extend a s h).state k = run.state k :=
  if_pos hk

theorem extend_last {run : Run init step} {a : α} {s : σ}
    (h : step (run.state run.length) a = some s) :
    (run.extend a s h).state (run.length + 1) = s :=
  if_neg (by omega)

theorem AllSteps.extend {run : Run init step} {ok : σ → α → Prop} (hall : run.AllSteps ok)
    {a : α} {s : σ} (h : step (run.state run.length) a = some s)
    (hok : ok (run.state run.length) a) : (run.extend a s h).AllSteps ok := by
  intro k hk
  by_cases hlt : k < run.length
  · rw [extend_state_of_le h (Nat.le_of_lt hlt)]
    have hact : (run.extend a s h).act k = run.act k := if_pos hlt
    rw [hact]
    exact hall k hlt
  · obtain rfl : k = run.length := Nat.le_antisymm (Nat.lt_succ_iff.mp hk) (Nat.le_of_not_lt hlt)
    rw [extend_state_of_le h (Nat.le_refl _)]
    have hact : (run.extend a s h).act run.length = a := if_neg hlt
    rw [hact]
    exact hok

end Run

/-- The run `run` shows, state for state, what `run'` shows at the index `shown`. -/
structure Shows {σ τ α β : Type*} {init : σ} {step : σ → α → Option σ} {init' : τ}
    {step' : τ → β → Option τ} (R : σ → τ → Prop) (run : Run init step)
    (run' : Run init' step') (last : Nat) (shown : Nat → Nat) : Prop where
  ends : shown last = run'.length
  mono : ∀ j k, j ≤ k → k ≤ last → shown j ≤ shown k
  onto : ∀ j, j ≤ run'.length → ∃ k, k ≤ last ∧ shown k = j
  related : ∀ k, k ≤ last → R (run.state k) (run'.state (shown k))

namespace Shows

variable {σ τ α β : Type*} {init : σ} {step : σ → α → Option σ} {init' : τ}
  {step' : τ → β → Option τ} {R : σ → τ → Prop} {run : Run init step}
  {run' : Run init' step'} {last : Nat} {shown : Nat → Nat}

theorem le_length (h : Shows R run run' last shown) {k : Nat} (hk : k ≤ last) :
    shown k ≤ run'.length :=
  h.ends ▸ h.mono k last hk (Nat.le_refl _)

theorem last_related (h : Shows R run run' last shown) :
    R (run.state last) (run'.state run'.length) :=
  h.ends ▸ h.related last (Nat.le_refl _)

theorem imp {R' : σ → τ → Prop} (h : Shows R run run' last shown)
    (himp : ∀ s t, R s t → R' s t) : Shows R' run run' last shown :=
  ⟨h.ends, h.mono, h.onto, fun k hk => himp _ _ (h.related k hk)⟩

/-- The first system moves and the second does not. -/
theorem stutter (h : Shows R run run' last shown)
    (hrelated : R (run.state (last + 1)) (run'.state run'.length)) :
    Shows R run run' (last + 1) (fun k => if k ≤ last then shown k else run'.length) where
  ends := if_neg (by omega)
  mono := by
    intro j k hjk hk
    by_cases hlast : k ≤ last
    · rw [if_pos hlast, if_pos (Nat.le_trans hjk hlast)]
      exact h.mono j k hjk hlast
    · rw [if_neg hlast]
      by_cases hj : j ≤ last
      · rw [if_pos hj]
        exact h.le_length hj
      · exact Nat.le_of_eq (if_neg hj)
  onto := by
    intro j hj
    obtain ⟨k, hk, hshown⟩ := h.onto j hj
    exact ⟨k, Nat.le_succ_of_le hk, (if_pos hk).trans hshown⟩
  related := by
    intro k hk
    by_cases hlast : k ≤ last
    · rw [if_pos hlast]
      exact h.related k hlast
    · obtain rfl : k = last + 1 := by omega
      rw [if_neg hlast]
      exact hrelated

/-- Both move. -/
theorem advance (h : Shows R run run' last shown) {b : β} {t : τ}
    (hstep : step' (run'.state run'.length) b = some t)
    (hrelated : R (run.state (last + 1)) t) :
    Shows R run (run'.extend b t hstep) (last + 1)
      (fun k => if k ≤ last then shown k else run'.length + 1) where
  ends := if_neg (by omega)
  mono := by
    intro j k hjk hk
    by_cases hlast : k ≤ last
    · rw [if_pos hlast, if_pos (Nat.le_trans hjk hlast)]
      exact h.mono j k hjk hlast
    · rw [if_neg hlast]
      by_cases hj : j ≤ last
      · rw [if_pos hj]
        exact Nat.le_succ_of_le (h.le_length hj)
      · exact Nat.le_of_eq (if_neg hj)
  onto := by
    intro j hj
    rcases Nat.lt_or_eq_of_le hj with hlt | rfl
    · obtain ⟨k, hk, hshown⟩ := h.onto j (Nat.lt_succ_iff.mp hlt)
      exact ⟨k, Nat.le_succ_of_le hk, (if_pos hk).trans hshown⟩
    · exact ⟨last + 1, Nat.le_refl _, if_neg (by omega)⟩
  related := by
    intro k hk
    by_cases hlast : k ≤ last
    · rw [if_pos hlast, Run.extend_state_of_le hstep (h.le_length hlast)]
      exact h.related k hlast
    · obtain rfl : k = last + 1 := by omega
      rw [if_neg hlast, Run.extend_last hstep]
      exact hrelated

end Shows

/-- A relation that holds at the start and that every step of the first system
either keeps or lets one allowed step of the second restore holds along a whole
run, with a run of the second beside it. -/
theorem Run.simulate {σ τ α β : Type*} [Inhabited β] {init : σ} {step : σ → α → Option σ}
    {init' : τ} {step' : τ → β → Option τ} {R : σ → τ → Prop} {ok : τ → β → Prop}
    (run : Run init step) (hinit : R init init')
    (hstep : ∀ k, k < run.length → ∀ t, R (run.state k) t →
      R (run.state (k + 1)) t ∨
        ∃ b t', ok t b ∧ step' t b = some t' ∧ R (run.state (k + 1)) t') :
    ∃ (run' : Run init' step') (shown : Nat → Nat),
      run'.AllSteps ok ∧ Shows R run run' run.length shown := by
  refine run.induct
    (P := fun k => ∃ (run' : Run init' step') (shown : Nat → Nat),
      run'.AllSteps ok ∧ Shows R run run' k shown) ?_ ?_ run.length (Nat.le_refl _)
  · refine ⟨Run.empty init' step', fun _ => 0, fun k hk => absurd hk (Nat.not_lt_zero k), ?_⟩
    refine ⟨rfl, fun _ _ _ _ => Nat.le_refl _, fun j hj => ⟨0, Nat.le_refl _, ?_⟩, fun k hk => ?_⟩
    · exact (Nat.le_zero.mp hj).symm
    obtain rfl : k = 0 := Nat.le_zero.mp hk
    rw [run.starts]
    exact hinit
  · rintro k hk ⟨run', shown, hok, hshows⟩
    rcases hstep k hk _ hshows.last_related with hsame | ⟨b, t, hb, hmove, hrelated⟩
    · exact ⟨run', _, hok, hshows.stutter hsame⟩
    · exact ⟨run'.extend b t hmove, _, hok.extend hmove hb, hshows.advance hmove hrelated⟩

/-! A list that follows another: its elements are those of the other in their
order, less some that are out of sight. -/

inductive Tracks {α β : Type*} (R : α → β → Prop) (hidden : α → Prop) :
    List α → List β → Prop
  | nil : Tracks R hidden [] []
  | seen {a : α} {b : β} {as : List α} {bs : List β} (h : R a b)
      (rest : Tracks R hidden as bs) : Tracks R hidden (a :: as) (b :: bs)
  | unseen {a : α} {as : List α} {bs : List β} (h : hidden a)
      (rest : Tracks R hidden as bs) : Tracks R hidden (a :: as) bs

namespace Tracks

variable {α β : Type*} {R R' : α → β → Prop} {hidden hidden' : α → Prop} {as as' : List α}
  {bs bs' : List β}

theorem append (h : Tracks R hidden as bs) (h' : Tracks R hidden as' bs') :
    Tracks R hidden (as ++ as') (bs ++ bs') := by
  induction h with
  | nil => exact h'
  | seen hab _ ih => exact .seen hab ih
  | unseen ha _ ih => exact .unseen ha ih

theorem all_unseen (h : ∀ a ∈ as, hidden a) : Tracks R hidden as [] := by
  induction as with
  | nil => exact .nil
  | cons a as ih =>
      exact .unseen (h a List.mem_cons_self) (ih fun x hx => h x (List.mem_cons_of_mem a hx))

theorem append_unseen (h : Tracks R hidden as bs) (h' : ∀ a ∈ as', hidden a) :
    Tracks R hidden (as ++ as') bs := by
  have hboth := h.append (all_unseen (R := R) h')
  rwa [List.append_nil] at hboth

theorem unseen_append (h : ∀ a ∈ as, hidden a) (h' : Tracks R hidden as' bs) :
    Tracks R hidden (as ++ as') bs :=
  (all_unseen h).append h'

theorem map_map {γ : Type*} {f : γ → α} {g : γ → β} {cs : List γ}
    (h : ∀ c ∈ cs, R (f c) (g c)) : Tracks R hidden (cs.map f) (cs.map g) := by
  induction cs with
  | nil => exact .nil
  | cons c cs ih =>
      exact .seen (h c List.mem_cons_self) (ih fun x hx => h x (List.mem_cons_of_mem c hx))

theorem imp (h : Tracks R hidden as bs) (hR : ∀ a ∈ as, ∀ b, R a b → R' a b)
    (hhidden : ∀ a ∈ as, hidden a → hidden' a) : Tracks R' hidden' as bs := by
  induction h with
  | nil => exact .nil
  | seen hab _ ih =>
      exact .seen (hR _ List.mem_cons_self _ hab)
        (ih (fun x hx => hR x (List.mem_cons_of_mem _ hx))
          fun x hx => hhidden x (List.mem_cons_of_mem _ hx))
  | unseen ha _ ih =>
      exact .unseen (hhidden _ List.mem_cons_self ha)
        (ih (fun x hx => hR x (List.mem_cons_of_mem _ hx))
          fun x hx => hhidden x (List.mem_cons_of_mem _ hx))

/-- An element of the longer list is out of sight, or has its element in the other. -/
theorem get (h : Tracks R hidden as bs) {k : Nat} {a : α} (ha : as[k]? = some a) :
    (hidden a ∧ ∀ a', hidden a' → Tracks R hidden (as.set k a') bs) ∨
      ∃ (j : Nat) (b : β), bs[j]? = some b ∧ R a b ∧
        ∀ a' b', R a' b' → Tracks R hidden (as.set k a') (bs.set j b') := by
  induction h generalizing k with
  | nil => simp at ha
  | @seen x y as bs hxy rest ih =>
      cases k with
      | zero =>
          obtain rfl : x = a := by simpa using ha
          exact .inr ⟨0, y, rfl, hxy, fun a' b' hab => .seen hab rest⟩
      | succ k =>
          rcases ih (by simpa using ha) with ⟨hhidden, hset⟩ | ⟨j, b, hb, hab, hset⟩
          · exact .inl ⟨hhidden, fun a' ha' => .seen hxy (hset a' ha')⟩
          · exact .inr ⟨j + 1, b, by simpa using hb, hab,
              fun a' b' hab' => .seen hxy (hset a' b' hab')⟩
  | @unseen x as bs hx rest ih =>
      cases k with
      | zero =>
          obtain rfl : x = a := by simpa using ha
          exact .inl ⟨hx, fun a' ha' => .unseen ha' rest⟩
      | succ k =>
          rcases ih (by simpa using ha) with ⟨hhidden, hset⟩ | ⟨j, b, hb, hab, hset⟩
          · exact .inl ⟨hhidden, fun a' ha' => .unseen hx (hset a' ha')⟩
          · exact .inr ⟨j, b, hb, hab, fun a' b' hab' => .unseen hx (hset a' b' hab')⟩

/-- A change of one element that the other list does not notice. -/
theorem set_of_imp (h : Tracks R hidden as bs) {k : Nat} {a a' : α} (ha : as[k]? = some a)
    (hR : ∀ b, R a b → R a' b) (hhidden : hidden a → hidden a') :
    Tracks R hidden (as.set k a') bs := by
  rcases h.get ha with ⟨hold, hset⟩ | ⟨j, b, hb, hab, hset⟩
  · exact hset a' (hhidden hold)
  · have hsame : bs.set j b = bs := by
      obtain ⟨hj, rfl⟩ := List.getElem?_eq_some_iff.mp hb
      exact List.set_getElem_self hj
    simpa only [hsame] using hset a' b (hR b hab)

end Tracks

end BlockchainTutorial.Lib
