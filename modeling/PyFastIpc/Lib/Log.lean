import Mathlib.Algebra.BigOperators.Group.Finset.Piecewise
import Mathlib.Data.Fintype.Basic

/-!
# Logs of updates

A log has the updates of a value in the order in which they took effect, each with the thread that
made it.  `replay` is the value that they lead to, and `doneBy` the part of one thread.
-/

namespace Log

variable {ι β δ : Type*} {log : List (ι × β)}

/-- The value after the updates of the log, one after the other. -/
def replay (update : β → δ → δ) (d : δ) (log : List (ι × β)) : δ :=
  log.foldl (fun v e => update e.2 v) d

/-- The updates that thread `i` has made, in order. -/
def doneBy [DecidableEq ι] (i : ι) (log : List (ι × β)) : List β :=
  (log.filter fun e => e.1 = i).map Prod.snd

@[simp] theorem replay_nil (update : β → δ → δ) (d : δ) :
    replay update d ([] : List (ι × β)) = d := rfl

@[simp] theorem replay_append_singleton (update : β → δ → δ) (d : δ) (log : List (ι × β))
    (e : ι × β) : replay update d (log ++ [e]) = update e.2 (replay update d log) := by
  simp [replay]

/-- Updates that add an amount to each value that they come across. -/
theorem replay_eq_add {M : Type*} [AddMonoid M] {update : β → M → M} {d : M} (f : β → M)
    (hadd : ∀ l e, l ++ [e] <+: log → update e.2 (d + (l.map fun e => f e.2).sum) =
      d + (l.map fun e => f e.2).sum + f e.2) :
    replay update d log = d + (log.map fun e => f e.2).sum := by
  induction log using List.reverseRecOn with
  | nil => simp
  | append_singleton l e ih =>
    have hbefore := ih fun l' e' h => hadd l' e' (h.trans (List.prefix_append l [e]))
    rw [replay_append_singleton, hbefore, hadd l e List.prefix_rfl, List.map_append,
      List.sum_append, List.map_singleton, List.sum_singleton, add_assoc]

section Threads

variable [DecidableEq ι] {i j : ι}

@[simp] theorem doneBy_nil (i : ι) : doneBy i ([] : List (ι × β)) = [] := rfl

@[simp] theorem doneBy_append_self (i : ι) (log : List (ι × β)) (b : β) :
    doneBy i (log ++ [(i, b)]) = doneBy i log ++ [b] := by
  simp [doneBy]

theorem doneBy_append_of_ne (hne : i ≠ j) (log : List (ι × β)) (b : β) :
    doneBy j (log ++ [(i, b)]) = doneBy j log := by
  simp [doneBy, hne]

theorem mem_doneBy {e : ι × β} (h : e ∈ log) : e.2 ∈ doneBy e.1 log :=
  List.mem_map_of_mem (List.mem_filter.2 ⟨h, by simp⟩)

/-- A sum over the log, thread by thread. -/
theorem sum_log [Fintype ι] {M : Type*} [AddCommMonoid M] (f : β → M) (log : List (ι × β)) :
    (log.map fun e => f e.2).sum = ∑ i, ((doneBy i log).map f).sum := by
  induction log with
  | nil => simp
  | cons e log ih =>
    have hcons (i : ι) : ((doneBy i (e :: log)).map f).sum =
        (if e.1 = i then f e.2 else 0) + ((doneBy i log).map f).sum := by
      by_cases hi : e.1 = i <;> simp [doneBy, hi]
    simp [hcons, Finset.sum_add_distrib, ih]

end Threads

end Log
