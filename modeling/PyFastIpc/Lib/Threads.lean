import PyFastIpc.Lib.Transition
import Mathlib.Algebra.BigOperators.Ring.Finset
import Mathlib.Data.Fintype.Basic
import Mathlib.Tactic.Abel

/-!
# Interleaved threads over shared memory

A configuration is a shared state and one local state per thread.  A thread program performs one
atomic step: it reads and writes the shared state and its own local state, and nothing else.
`interleave` lets any thread step next.

`forall_update` is the rule for invariants that speak about every thread (the stepping thread
re-establishes its part, every other thread's part survives the change of the shared state), and
`sum_update` the one for invariants that count over all threads.
-/

/-- A shared state and one local state per thread. -/
structure Config (ι Sh Lo : Type*) where
  shared : Sh
  locals : ι → Lo

namespace Config

variable {ι Sh Lo Mv : Type*} [DecidableEq ι]

/-- One atomic step of one thread. -/
def interleave (prog : ι → Mv → Sh → Lo → Option (Sh × Lo)) (c : Config ι Sh Lo) (a : ι × Mv) :
    Option (Config ι Sh Lo) :=
  (prog a.1 a.2 c.shared (c.locals a.1)).map fun r => ⟨r.1, Function.update c.locals a.1 r.2⟩

theorem interleave_eq_some {prog : ι → Mv → Sh → Lo → Option (Sh × Lo)} {c c' : Config ι Sh Lo}
    {a : ι × Mv} (h : interleave prog c a = some c') :
    ∃ sh lo, prog a.1 a.2 c.shared (c.locals a.1) = some (sh, lo) ∧
      c' = ⟨sh, Function.update c.locals a.1 lo⟩ := by
  obtain ⟨⟨sh, lo⟩, hr, rfl⟩ := Option.map_eq_some_iff.1 h
  exact ⟨sh, lo, hr, rfl⟩

theorem interleave_of_step (prog : ι → Mv → Sh → Lo → Option (Sh × Lo)) {c : Config ι Sh Lo}
    {i : ι} {m : Mv} {sh : Sh} {lo : Lo} (h : prog i m c.shared (c.locals i) = some (sh, lo)) :
    interleave prog c (i, m) = some ⟨sh, Function.update c.locals i lo⟩ := by
  rw [interleave, h]
  rfl

/-- The next step of the thread that made the last one. -/
theorem interleave_update (prog : ι → Mv → Sh → Lo → Option (Sh × Lo)) {l : ι → Lo} {i : ι}
    {m : Mv} {sh sh' : Sh} {lo lo' : Lo} (h : prog i m sh lo = some (sh', lo')) :
    interleave prog ⟨sh, Function.update l i lo⟩ (i, m) =
      some ⟨sh', Function.update l i lo'⟩ := by
  have hself : prog i m sh (Function.update l i lo i) = some (sh', lo') := by
    rwa [Function.update_self]
  rw [interleave_of_step prog hself, Function.update_idem]

theorem forall_update {l : ι → Lo} {i : ι} {x : Lo} (P : ι → Lo → Prop) (hself : P i x)
    (hother : ∀ j, j ≠ i → P j (l j)) (j : ι) : P j (Function.update l i x j) := by
  by_cases hj : j = i
  · subst hj
    simpa using hself
  · simpa [hj] using hother j hj

/-- A property of some thread survives a step of another one. -/
theorem exists_update {l : ι → Lo} {i j : ι} {x : Lo} (P : ι → Lo → Prop) (hne : j ≠ i)
    (hj : P j (l j)) : ∃ k, P k (Function.update l i x k) :=
  ⟨j, by simpa [hne] using hj⟩

/-- A step of a thread that has not the property before it. -/
theorem exists_update_iff {l : ι → Lo} {i : ι} {x : Lo} (P : ι → Lo → Prop) (hi : ¬ P i (l i)) :
    (∃ j, P j (Function.update l i x j)) ↔ (∃ j, P j (l j)) ∨ P i x := by
  constructor
  · rintro ⟨j, hj⟩
    by_cases hji : j = i
    · subst hji
      exact .inr (by simpa using hj)
    · exact .inl ⟨j, by simpa [hji] using hj⟩
  · rintro (⟨j, hj⟩ | hx)
    · have hji : j ≠ i := by
        rintro rfl
        exact hi hj
      exact exists_update P hji hj
    · exact ⟨i, by simpa using hx⟩

/-- A sum over all threads changes by the stepping thread's summand. -/
theorem sum_update_index [Fintype ι] {M : Type*} [AddCommMonoid M] (l : ι → Lo) (i : ι) (x : Lo)
    (f : ι → Lo → M) :
    ∑ j, f j (Function.update l i x j) + f i (l i) = ∑ j, f j (l j) + f i x := by
  have hrest : ∑ j ∈ Finset.univ.erase i, f j (Function.update l i x j) =
      ∑ j ∈ Finset.univ.erase i, f j (l j) := by
    refine Finset.sum_congr rfl fun j hj => ?_
    rw [Function.update_of_ne (Finset.ne_of_mem_erase hj)]
  rw [← Finset.add_sum_erase _ (fun j => f j (Function.update l i x j)) (Finset.mem_univ i),
    ← Finset.add_sum_erase _ (fun j => f j (l j)) (Finset.mem_univ i), hrest,
    Function.update_self]
  abel

/-- The case of a summand that does not depend on who the thread is. -/
theorem sum_update [Fintype ι] {M : Type*} [AddCommMonoid M] (l : ι → Lo) (i : ι) (x : Lo)
    (f : Lo → M) : ∑ j, f (Function.update l i x j) + f (l i) = ∑ j, f (l j) + f x :=
  sum_update_index l i x fun _ => f

end Config

/-- The threads of small runs. -/
inductive Tid where
  | a
  | b
  | c
  deriving DecidableEq

instance : Fintype Tid := ⟨{.a, .b, .c}, fun t => by cases t <;> decide⟩

instance : Nonempty Tid := ⟨.a⟩
