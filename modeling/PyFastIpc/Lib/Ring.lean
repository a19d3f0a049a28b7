import Mathlib.Data.List.Basic

/-!
# What a ring of slots retains

Elements numbered from 0 are put into `N` slots, number `k` into slot `k % N`.
`Retains N d xs holds` says that the last `d` elements of the history `xs` are in their slots, where
`holds slot x` is the caller's meaning of "the slot has `x`".  Filling the slot of the next element
leaves the last `N - 1` alone (`Retains.overwrite`), and when the slot is filled the history is
longer by that element (`Retains.push`).
-/

variable {α : Type*}

/-- The last `d` elements of `xs` are in their slots. -/
def Retains (N d : ℕ) (xs : List α) (holds : ℕ → α → Prop) : Prop :=
  ∀ k x, xs[k]? = some x → xs.length ≤ k + d → holds (k % N) x

/-- Fewer than `N` numbers apart, two elements have different slots. -/
theorem mod_ne_mod_of_lt {N k n : ℕ} (hlt : k < n) (hn : n < k + N) : k % N ≠ n % N := by
  intro h
  have hdvd : N ∣ n - k := Nat.dvd_of_mod_eq_zero (Nat.sub_mod_eq_zero_of_mod_eq h.symm)
  have := Nat.le_of_dvd (by omega) hdvd
  omega

/-- Of the numbers below `n` that share a slot with `m` the last one is less than `N` from `n`. -/
theorem exists_last_mod {N m n : ℕ} (hN : 0 < N) (hm : m < n) :
    ∃ k, m ≤ k ∧ k < n ∧ n ≤ k + N ∧ k % N = m % N := by
  have hrest := Nat.mod_lt (n - 1 - m) hN
  have hle := Nat.mod_le (n - 1 - m) N
  have hdiv := Nat.mod_add_div (n - 1 - m) N
  obtain ⟨q, hq⟩ : ∃ q, q = (n - 1 - m) / N := ⟨_, rfl⟩
  rw [← hq] at hdiv
  refine ⟨m + N * q, by omega, by omega, by omega, ?_⟩
  rw [Nat.add_mul_mod_self_left]

namespace Retains

variable {N d : ℕ} {xs : List α} {holds holds' : ℕ → α → Prop}

theorem nil : Retains N d ([] : List α) holds := fun k x h => by simp at h

theorem mono {d' : ℕ} (h : Retains N d xs holds) (hd : d' ≤ d) : Retains N d' xs holds :=
  fun k x hk hle => h k x hk (by omega)

/-- A change of the slot of the next element. -/
theorem overwrite (h : Retains N (N - 1) xs holds)
    (hkeep : ∀ slot, slot ≠ xs.length % N → ∀ x ∈ xs, holds slot x → holds' slot x) :
    Retains N (N - 1) xs holds' := by
  intro k x hk hle
  have hlt : k < xs.length := (List.getElem?_eq_some_iff.1 hk).1
  exact hkeep _ (mod_ne_mod_of_lt hlt (by omega)) x (List.mem_of_getElem? hk) (h k x hk hle)

/-- The slot of the next element has been filled. -/
theorem push {x : α} (h : Retains N (N - 1) xs holds) (hN : 0 < N)
    (hx : holds (xs.length % N) x) : Retains N N (xs ++ [x]) holds := by
  intro k y hk hle
  rw [List.length_append, List.length_singleton] at hle
  rcases Nat.lt_or_ge k xs.length with hlt | hge
  · rw [List.getElem?_append_left hlt] at hk
    exact h k y hk (by omega)
  · have hkn : k = xs.length := by
      have hlt := (List.getElem?_eq_some_iff.1 hk).1
      rw [List.length_append, List.length_singleton] at hlt
      omega
    subst hkn
    simp only [List.getElem?_concat_length, Option.some.injEq] at hk
    exact hk ▸ hx

/-- The last element of the history. -/
theorem last (h : Retains N d xs holds) (hd : 0 < d) {x : α} (hx : xs.getLast? = some x) :
    holds ((xs.length - 1) % N) x := by
  rw [List.getLast?_eq_getElem?] at hx
  exact h _ _ hx (by omega)

end Retains
