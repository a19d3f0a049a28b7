import Mathlib.Data.Finset.Card
import Mathlib.Data.Finset.SDiff
import Mathlib.Logic.Function.Basic

/-!
# Futex words

A futex is a 32-bit word together with the set of threads asleep on it in the kernel.  The word is
changed by ordinary atomic operations; `wait` checks the word and enqueues in one step, `wake`
removes up to `k` sleepers of the kernel's choice, and `leave` is a sleep that ends by a timeout or
a signal.  A thread removed by `wake` is no longer a sleeper, so the timeout of a woken thread does
not exist.

`asleep_update` is the rule for the invariant that sleepers stand inside their wait.
-/

/-- A futex word and the threads asleep on it. -/
structure Futex (ι : Type*) where
  word : UInt32
  sleepers : Finset ι

namespace Futex

variable {ι : Type*}

/-- The word is `0` and nobody sleeps. -/
def zero : Futex ι := ⟨0, ∅⟩

/-- Atomic store (also the write half of a successful compare-and-swap or of an exchange). -/
def store (f : Futex ι) (v : UInt32) : Futex ι := { f with word := v }

@[simp] theorem store_word (f : Futex ι) (v : UInt32) : (f.store v).word = v := rfl

@[simp] theorem store_sleepers (f : Futex ι) (v : UInt32) : (f.store v).sleepers = f.sleepers := rfl

variable [DecidableEq ι]

/-- `FUTEX_WAIT`: enqueue if the word still has the expected value, else `EAGAIN` (`none`). -/
def wait (f : Futex ι) (i : ι) (expected : UInt32) : Option (Futex ι) :=
  if f.word = expected then some { f with sleepers := insert i f.sleepers } else none

/-- `FUTEX_WAKE`: `who` is the kernel's choice of `min k` sleepers. -/
def wake (f : Futex ι) (k : ℕ) (who : Finset ι) : Option (Futex ι) :=
  if who ⊆ f.sleepers ∧ who.card = min k f.sleepers.card then
    some { f with sleepers := f.sleepers \ who }
  else none

/-- A sleep that ends by a timeout or a signal. -/
def leave (f : Futex ι) (i : ι) : Option (Futex ι) :=
  if i ∈ f.sleepers then some { f with sleepers := f.sleepers.erase i } else none

variable {f f' : Futex ι} {i : ι} {k : ℕ} {who : Finset ι} {expected : UInt32}

theorem wait_eq_some (h : f.wait i expected = some f') :
    f.word = expected ∧ f' = { f with sleepers := insert i f.sleepers } := by
  unfold wait at h
  split_ifs at h with hw
  exact ⟨hw, (Option.some.inj h).symm⟩

theorem wait_eq_none (h : f.wait i expected = none) : f.word ≠ expected := by
  unfold wait at h
  split_ifs at h with hw
  exact hw

theorem leave_eq_some (h : f.leave i = some f') :
    i ∈ f.sleepers ∧ f' = { f with sleepers := f.sleepers.erase i } := by
  unfold leave at h
  split_ifs at h with hi
  exact ⟨hi, (Option.some.inj h).symm⟩

theorem wake_eq_some (h : f.wake k who = some f') :
    who ⊆ f.sleepers ∧ who.card = min k f.sleepers.card ∧
      f' = { f with sleepers := f.sleepers \ who } := by
  unfold wake at h
  split_ifs at h with hw
  exact ⟨hw.1, hw.2, (Option.some.inj h).symm⟩

theorem wake_word (h : f.wake k who = some f') : f'.word = f.word := by
  obtain ⟨-, -, rfl⟩ := wake_eq_some h
  rfl

theorem wake_sleepers_subset (h : f.wake k who = some f') : f'.sleepers ⊆ f.sleepers := by
  obtain ⟨-, -, rfl⟩ := wake_eq_some h
  exact Finset.sdiff_subset

theorem wake_card (h : f.wake k who = some f') :
    f'.sleepers.card = f.sleepers.card - min k f.sleepers.card := by
  obtain ⟨hsub, hcard, rfl⟩ := wake_eq_some h
  rw [← hcard]
  exact Finset.card_sdiff_of_subset hsub

/-- Waking at least one thread leaves nobody asleep or makes some sleeper runnable. -/
theorem wake_progress (h : f.wake k who = some f') (hk : 0 < k) :
    f'.sleepers = ∅ ∨ ∃ w ∈ f.sleepers, w ∉ f'.sleepers := by
  obtain ⟨hsub, hcard, rfl⟩ := wake_eq_some h
  rcases who.eq_empty_or_nonempty with rfl | ⟨w, hw⟩
  · left
    have : f.sleepers.card = 0 := by
      rw [Finset.card_empty] at hcard
      omega
    simpa using this
  · exact .inr ⟨w, hsub hw, by simp [hw]⟩

/-- A step of thread `i` that queues nobody else, and `i` only inside its wait. -/
theorem asleep_update {Lo : Type*} {l : ι → Lo} {t : Lo} (asleep : Lo → Prop)
    (hS : ∀ j ∈ f.sleepers, asleep (l j)) (hother : ∀ j, j ≠ i → j ∈ f'.sleepers → j ∈ f.sleepers)
    (hself : i ∈ f'.sleepers → asleep t) : ∀ j ∈ f'.sleepers, asleep (Function.update l i t j) := by
  intro j hj
  by_cases hji : j = i
  · subst hji
    simpa using hself hj
  · simpa [hji] using hS j (hother j hji hj)

end Futex
