import Mathlib.Data.List.Basic
import Mathlib.Order.RelClasses

/-!
# Transition systems with guarded runs

A system has initial states and an executable partial step function.  `Reach S ok s` says that `s`
ends a run of `S` in which every step satisfies the guard `ok` (a predicate on the state before
the step and the action taken).  The guard carries what the callers of the system promise, or the
condition under which a property is claimed.

* `Reach.invariant` proves a property of every state of every guarded run from one step;
* `Reach.progress` continues a run until a condition holds, by a measure;
* `Reach.exec` gives reachable states by executing a list of actions;
* `Inevitable S ok Done s` says that every guarded run from `s` gets to `Done` after finitely many
  steps and is nowhere stuck before; `Inevitable.measure` proves it, `not_inevitable` refutes it;
* `Served S ok mine Asleep Done s` says that a guarded run from `s` gets to `Done` if it goes on
  with the steps that are `mine`; `Served.measure` proves it;
* `Simulation.reach` transports reachability to an abstract system.
-/

/-- A labelled transition system with an executable partial step function. -/
structure Transition (σ α : Type*) where
  Init : σ → Prop
  step : σ → α → Option σ

namespace Transition

variable {σ α : Type*} (S : Transition σ α)

/-- States that end a run whose steps all satisfy the guard. -/
inductive Reach (ok : σ → α → Prop) : σ → Prop
  | init {s : σ} : S.Init s → Reach ok s
  | step {s s' : σ} (a : α) : Reach ok s → ok s a → S.step s a = some s' → Reach ok s'

/-- The system, started in a given state. -/
def startAt (s : σ) : Transition σ α := ⟨(· = s), S.step⟩

/-- Executes actions for as long as they are guarded and enabled. -/
def exec (ok : σ → α → Prop) [∀ s a, Decidable (ok s a)] (s : σ) : List α → σ
  | [] => s
  | a :: as =>
    if ok s a then
      match S.step s a with
      | some s' => exec ok s' as
      | none => s
    else s

namespace Reach

variable {S} {ok ok' : σ → α → Prop} {s s' : σ}

/-- The invariant rule.  The step may use that the state before it is reachable, so invariants
proved earlier are available to later ones. -/
theorem invariant (I : σ → Prop) (hinit : ∀ s, S.Init s → I s)
    (hstep : ∀ s a s', S.Reach ok s → I s → ok s a → S.step s a = some s' → I s')
    (h : S.Reach ok s) : I s := by
  induction h with
  | init h0 => exact hinit _ h0
  | step a hr hok hs ih => exact hstep _ a _ hr ih hok hs

theorem mono (h : S.Reach ok s) (hle : ∀ s a, ok s a → ok' s a) : S.Reach ok' s := by
  induction h with
  | init h0 => exact .init h0
  | step a _ hok hs ih => exact .step a ih (hle _ _ hok) hs

/-- The progress rule.  Where some guarded step makes a measure smaller as long as `Done` fails, a
run can be continued until it holds. -/
theorem progress (I Done : σ → Prop) (μ : σ → ℕ)
    (hstep : ∀ s, I s → ¬ Done s → ∃ a s', ok s a ∧ S.step s a = some s' ∧ I s' ∧ μ s' < μ s)
    (h : S.Reach ok s) (hI : I s) : ∃ s', S.Reach ok s' ∧ Done s' := by
  induction hn : μ s using Nat.strongRecOn generalizing s with
  | _ n ih =>
    by_cases hdone : Done s
    · exact ⟨s, h, hdone⟩
    · obtain ⟨a, s', hok, hs, hI', hless⟩ := hstep s hI hdone
      exact ih (μ s') (hn ▸ hless) (.step a h hok hs) hI' rfl

/-- A step in front of a run. -/
theorem cons {a : α} {u : σ} (hok : ok s a) (hs : S.step s a = some s')
    (h : (S.startAt s').Reach ok u) : (S.startAt s).Reach ok u := by
  induction h with
  | init h0 =>
    obtain rfl : _ = s' := h0
    exact .step (S := S.startAt s) a (.init rfl) hok hs
  | step b _ hokb hsb ih => exact .step b ih hokb hsb

/-- A run that goes on from a reachable state. -/
theorem trans {u : σ} (h : S.Reach ok s) (h' : (S.startAt s).Reach ok u) : S.Reach ok u := by
  induction h' with
  | init h0 =>
    obtain rfl : _ = s := h0
    exact h
  | step a _ hok hs ih => exact .step a ih hok hs

/-- Executing a list of actions leads to a reachable state. -/
theorem exec [∀ s a, Decidable (ok s a)] (as : List α) (h : S.Reach ok s) :
    S.Reach ok (S.exec ok s as) := by
  induction as generalizing s with
  | nil => exact h
  | cons a as ih =>
    rw [Transition.exec]
    split_ifs with hok
    · cases hs : S.step s a with
      | none => exact h
      | some s' => exact ih (.step a h hok hs)
    · exact h

end Reach

/-! ## What cannot be avoided -/

/-- Every guarded run from the state reaches `Done` after finitely many steps. -/
inductive Inevitable (ok : σ → α → Prop) (Done : σ → Prop) : σ → Prop
  | now {s : σ} : Done s → Inevitable ok Done s
  | later {s : σ} : (∃ a s', ok s a ∧ S.step s a = some s') →
      (∀ a s', ok s a → S.step s a = some s' → Inevitable ok Done s') → Inevitable ok Done s

section Inevitable

variable {S} {ok : σ → α → Prop} {Done : σ → Prop} {s : σ}

/-- The variant rule.  Every guarded step makes a measure smaller, and as long as `Done` fails some
guarded step is enabled. -/
theorem Inevitable.measure {β : Type*} [Preorder β] [WellFoundedLT β] (I : σ → Prop) (μ : σ → β)
    (henabled : ∀ s, I s → ¬ Done s → ∃ a s', ok s a ∧ S.step s a = some s')
    (hstep : ∀ s a s', I s → ¬ Done s → ok s a → S.step s a = some s' → I s' ∧ μ s' < μ s)
    (hI : I s) : S.Inevitable ok Done s := by
  induction hn : μ s using WellFoundedLT.induction generalizing s with
  | ind n ih =>
    by_cases hdone : Done s
    · exact .now hdone
    · refine .later (henabled s hI hdone) fun a s' hok hs => ?_
      obtain ⟨hI', hless⟩ := hstep s a s' hI hdone hok hs
      exact ih (μ s') (hn ▸ hless) hI' rfl

/-- What cannot be avoided is reached. -/
theorem Inevitable.exists_reach (h : S.Inevitable ok Done s) :
    ∃ s', (S.startAt s).Reach ok s' ∧ Done s' := by
  induction h with
  | now hdone => exact ⟨_, .init rfl, hdone⟩
  | later henabled _ ih =>
    obtain ⟨a, s', hok, hs⟩ := henabled
    obtain ⟨u, hreach, hdone⟩ := ih a s' hok hs
    exact ⟨u, hreach.cons hok hs, hdone⟩

/-- A set of states in which `Done` fails, and which some run never leaves or in which it gets
stuck. -/
theorem not_inevitable (L : σ → Prop) (hdone : ∀ s, L s → ¬ Done s)
    (hstay : ∀ s a s', L s → ok s a → S.step s a = some s' →
      ∃ b t, ok s b ∧ S.step s b = some t ∧ L t) (hL : L s) : ¬ S.Inevitable ok Done s := by
  intro h
  induction h with
  | now hd => exact hdone _ hL hd
  | later henabled _ ih =>
    obtain ⟨a, s', hok, hs⟩ := henabled
    obtain ⟨b, t, hokb, hsb, hLt⟩ := hstay _ a s' hL hok hs
    exact ih b t hokb hsb hLt

end Inevitable

/-! ## What is not put off for ever -/

/-- The system with a count of the steps that are `mine`. -/
def counted (mine : α → Prop) [DecidablePred mine] : Transition (σ × ℕ) α where
  Init s := S.Init s.1 ∧ s.2 = 0
  step s a := (S.step s.1 a).map fun s' => (s', if mine a then s.2 + 1 else s.2)

/-- Before a guarded run from the state gets to `Done` it makes at most so many steps that are
`mine`, and always another such step is enabled or the state is `Asleep`. -/
def Served (ok : σ → α → Prop) (mine : α → Prop) [DecidablePred mine] (Asleep Done : σ → Prop)
    (s : σ) : Prop :=
  ∃ n, ∀ u k, ((S.startAt s).counted mine).Reach (fun v a => ¬ Done v.1 ∧ ok v.1 a) (u, k) →
    k ≤ n ∧ (Done u ∨ Asleep u ∨ ∃ a u', mine a ∧ S.step u a = some u')

/-- The rule for `Served`.  The steps that are `mine` make a measure smaller and the other ones do
not make it larger. -/
theorem Served.measure {S : Transition σ α} {ok : σ → α → Prop} {mine : α → Prop}
    [DecidablePred mine] {Asleep Done : σ → Prop} {s : σ} (I : σ → Prop) (μ : σ → ℕ)
    (henabled : ∀ s, I s → Done s ∨ Asleep s ∨ ∃ a s', mine a ∧ S.step s a = some s')
    (hstep : ∀ s a s', I s → ¬ Done s → ok s a → S.step s a = some s' →
      I s' ∧ μ s' ≤ μ s ∧ (mine a → μ s' < μ s))
    (hI : I s) : S.Served ok mine Asleep Done s := by
  refine ⟨μ s, fun u k h => ?_⟩
  have hcount : I u ∧ k + μ u ≤ μ s := by
    refine h.invariant (fun v => I v.1 ∧ v.2 + μ v.1 ≤ μ s) ?_ fun v a v' _ hv hok hs => ?_
    · rintro ⟨v, k⟩ ⟨hv, hk⟩
      obtain rfl : v = s := hv
      obtain rfl : k = 0 := hk
      exact ⟨hI, Nat.le_of_eq (Nat.zero_add _)⟩
    · obtain ⟨w, hw, rfl⟩ := Option.map_eq_some_iff.1 hs
      obtain ⟨hI', hle, hless⟩ := hstep v.1 a w hv.1 hok.1 hok.2 hw
      have hsum := hv.2
      refine ⟨hI', ?_⟩
      dsimp only
      split_ifs with hmine
      · have := hless hmine
        omega
      · omega
  exact ⟨by omega, henabled u hcount.1⟩

/-! ## Simulation -/

/-- A forward simulation: a guarded concrete step is matched by one abstract step or by none. -/
structure Simulation {τ β : Type*} (S : Transition σ α) (ok : σ → α → Prop)
    (A : Transition τ β) (R : σ → τ → Prop) : Prop where
  init : ∀ s, S.Init s → ∃ t, A.Init t ∧ R s t
  step : ∀ s a s' t, R s t → ok s a → S.step s a = some s' →
    R s' t ∨ ∃ b t', A.step t b = some t' ∧ R s' t'

/-- Every reachable concrete state is related to a reachable abstract state. -/
theorem Simulation.reach {τ β : Type*} {S : Transition σ α} {ok : σ → α → Prop}
    {A : Transition τ β} {R : σ → τ → Prop} (hsim : Simulation S ok A R) {s : σ}
    (h : S.Reach ok s) : ∃ t, A.Reach (fun _ _ => True) t ∧ R s t := by
  induction h with
  | init h0 =>
    obtain ⟨t, ht, hR⟩ := hsim.init _ h0
    exact ⟨t, .init ht, hR⟩
  | step a _ hok hs ih =>
    obtain ⟨t, ht, hR⟩ := ih
    rcases hsim.step _ a _ t hR hok hs with hR' | ⟨b, t', hb, hR'⟩
    · exact ⟨t, ht, hR'⟩
    · exact ⟨t', .step b ht trivial hb, hR'⟩

end Transition
