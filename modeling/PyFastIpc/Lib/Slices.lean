import Mathlib.Data.List.Basic

/-!
# Slices of a list

Reading and assigning a range of a list, as `b[off : off + n]` in Python: the range is clipped at
the end of the list, and an assignment of another length moves what follows.

An `Assignment` computes what it assigns from the list itself, so in a sequence of assignments the
later ones read what the earlier ones wrote.  When the ranges lie in the list, one behind the other,
each of them ends up with what its assignment read at its turn (`exists_read`), and that is what it
would have read at the start if the assignments before it do not change it
(`getSlice_assignAll`).
-/

variable {α : Type*}

/-- `b[off : off + n]`. -/
def getSlice (b : List α) (off n : ℕ) : List α := (b.drop off).take n

/-- `b[off : off + n] = xs`. -/
def setSlice (b : List α) (off n : ℕ) (xs : List α) : List α :=
  b.take off ++ xs ++ b.drop (off + n)

/-- `b[off : off + size] = value(b)`. -/
structure Assignment (α : Type*) where
  off : ℕ
  size : ℕ
  value : List α → List α

def Assignment.run (w : Assignment α) (b : List α) : List α :=
  setSlice b w.off w.size (w.value b)

/-- The assignments one after the other. -/
def assignAll (ws : List (Assignment α)) (b : List α) : List α :=
  ws.foldl (fun b w => w.run b) b

section Slice

variable {b xs : List α} {off n : ℕ}

theorem length_getSlice (h : off + n ≤ b.length) : (getSlice b off n).length = n := by
  rw [getSlice, List.length_take, List.length_drop]
  omega

theorem getElem?_getSlice {k : ℕ} (hk : k < n) : (getSlice b off n)[k]? = b[off + k]? := by
  rw [getSlice, List.getElem?_take_of_lt hk, List.getElem?_drop]

/-- A range that is assigned what it holds. -/
theorem setSlice_getSlice (b : List α) (off n : ℕ) : setSlice b off n (getSlice b off n) = b := by
  rw [setSlice, getSlice, List.append_assoc, ← List.drop_drop, List.take_append_drop,
    List.take_append_drop]

/-- The pieces of a list that consists of lists of `n` items each. -/
theorem getSlice_flatten {ls : List (List α)} (h : ∀ l ∈ ls, l.length = n) {k : ℕ}
    (hk : k < ls.length) : getSlice ls.flatten (k * n) n = ls[k] := by
  induction ls generalizing k with
  | nil => cases hk
  | cons l ls ih =>
    have hl := h l List.mem_cons_self
    rw [getSlice, List.flatten_cons]
    cases k with
    | zero => rw [Nat.zero_mul, List.drop_zero, List.take_left' hl, List.getElem_cons_zero]
    | succ k =>
      have hrest := ih (fun x hx => h x (List.mem_cons_of_mem l hx)) (Nat.lt_of_succ_lt_succ hk)
      rw [Nat.succ_mul, Nat.add_comm, ← List.drop_drop, List.drop_left' hl,
        List.getElem_cons_succ]
      exact hrest

theorem length_setSlice (h : off + xs.length ≤ b.length) :
    (setSlice b off xs.length xs).length = b.length := by
  simp only [setSlice, List.length_append, List.length_take, List.length_drop]
  omega

/-- What lies before the range stays, whatever is assigned. -/
theorem getElem?_setSlice_before {j : ℕ} (hj : j < off) (hb : j < b.length) :
    (setSlice b off n xs)[j]? = b[j]? := by
  have hlen : j < (b.take off).length := by
    rw [List.length_take]
    omega
  rw [setSlice, List.append_assoc, List.getElem?_append_left hlen, List.getElem?_take_of_lt hj]

theorem getElem?_setSlice_inside {k : ℕ} (hoff : off ≤ b.length) (hk : k < xs.length) :
    (setSlice b off n xs)[off + k]? = xs[k]? := by
  have hlen : (b.take off).length = off := by
    rw [List.length_take]
    omega
  rw [setSlice, List.append_assoc, List.getElem?_append_right (by omega), hlen,
    Nat.add_sub_cancel_left, List.getElem?_append_left hk]

theorem getElem?_setSlice_after {j : ℕ} (h : off + xs.length ≤ b.length)
    (hj : off + xs.length ≤ j) : (setSlice b off xs.length xs)[j]? = b[j]? := by
  have hlen : (b.take off ++ xs).length = off + xs.length := by
    rw [List.length_append, List.length_take]
    omega
  rw [setSlice, List.getElem?_append_right (by omega), hlen, List.getElem?_drop]
  congr 1
  omega

theorem getElem?_setSlice_outside {j : ℕ} (h : off + xs.length ≤ b.length)
    (hj : j < off ∨ off + xs.length ≤ j) : (setSlice b off xs.length xs)[j]? = b[j]? := by
  rcases hj with hj | hj
  · exact getElem?_setSlice_before hj (by omega)
  · exact getElem?_setSlice_after h hj

end Slice

section Assign

/-- The assignment keeps the length of every list of length `n`. -/
structure Assignment.Fits (w : Assignment α) (n : ℕ) : Prop where
  length : ∀ b, (w.value b).length = w.size
  inside : w.off + w.size ≤ n

variable {b : List α} {w : Assignment α} {ws : List (Assignment α)}

namespace Assignment.Fits

variable (h : w.Fits b.length)
include h

theorem length_run : (w.run b).length = b.length := by
  have hlen := h.length b
  rw [run, ← hlen]
  apply length_setSlice
  rw [hlen]
  exact h.inside

theorem getElem?_run {k : ℕ} (hk : k < w.off ∨ w.off + w.size ≤ k) : (w.run b)[k]? = b[k]? := by
  have hlen := h.length b
  have hin := h.inside
  rw [← hlen] at hin hk
  rw [run, ← hlen]
  exact getElem?_setSlice_outside hin hk

theorem getElem?_run_inside {k : ℕ} (hk : k < w.size) :
    (w.run b)[w.off + k]? = (w.value b)[k]? := by
  have hin := h.inside
  exact getElem?_setSlice_inside (by omega) (by rw [h.length]; exact hk)

end Assignment.Fits

theorem length_assignAll (h : ∀ w ∈ ws, w.Fits b.length) : (assignAll ws b).length = b.length := by
  induction ws generalizing b with
  | nil => rfl
  | cons w ws ih =>
    rw [List.forall_mem_cons] at h
    have hlen := h.1.length_run
    exact (ih (hlen.symm ▸ h.2)).trans hlen

/-- The rest of the list is untouched. -/
theorem getElem?_assignAll {k : ℕ} (h : ∀ w ∈ ws, w.Fits b.length)
    (hk : ∀ w ∈ ws, k < w.off ∨ w.off + w.size ≤ k) : (assignAll ws b)[k]? = b[k]? := by
  induction ws generalizing b with
  | nil => rfl
  | cons w ws ih =>
    rw [List.forall_mem_cons] at h hk
    exact (ih (h.1.length_run.symm ▸ h.2) hk.2).trans (h.1.getElem?_run hk.1)

theorem assignAll_eq_self (h : ∀ w ∈ ws, w.run b = b) : assignAll ws b = b := by
  induction ws with
  | nil => rfl
  | cons w ws ih =>
    rw [List.forall_mem_cons] at h
    change assignAll ws (w.run b) = b
    rw [h.1, ih h.2]

/-- The range of the first assignment stays as it was assigned. -/
theorem getSlice_assignAll_cons (h : ∀ v ∈ w :: ws, v.Fits b.length)
    (hdis : (w :: ws).Pairwise fun v w => v.off + v.size ≤ w.off) :
    getSlice (assignAll (w :: ws) b) w.off w.size = w.value b := by
  rw [List.forall_mem_cons] at h
  rw [List.pairwise_cons] at hdis
  apply List.ext_getElem?
  intro k
  by_cases hk : k < w.size
  · rw [getElem?_getSlice hk, ← h.1.getElem?_run_inside hk]
    have hrest : ∀ v ∈ ws, v.Fits (w.run b).length := h.1.length_run.symm ▸ h.2
    apply getElem?_assignAll hrest
    intro v hv
    have hle := hdis.1 v hv
    omega
  · rw [getSlice, List.getElem?_take_eq_none (by omega),
      List.getElem?_eq_none (by rw [h.1.length]; omega)]

/-- Each range ends up with what its assignment read, from a list that is the last one up to this
range. -/
theorem exists_read (h : ∀ w ∈ ws, w.Fits b.length)
    (hdis : ws.Pairwise fun v w => v.off + v.size ≤ w.off) (hw : w ∈ ws) :
    ∃ l : List α, getSlice (assignAll ws b) w.off w.size = w.value l ∧
      ∀ k < w.off, l[k]? = (assignAll ws b)[k]? := by
  induction ws generalizing b with
  | nil => cases hw
  | cons v ws ih =>
    rcases List.mem_cons.1 hw with rfl | hmem
    · refine ⟨b, getSlice_assignAll_cons h hdis, fun k hk => (getElem?_assignAll h ?_).symm⟩
      rw [List.pairwise_cons] at hdis
      refine List.forall_mem_cons.2 ⟨.inl hk, fun u hu => .inl ?_⟩
      have hle := hdis.1 u hu
      omega
    · rw [List.forall_mem_cons] at h
      exact ih (h.1.length_run.symm ▸ h.2) (List.Pairwise.of_cons hdis) hmem

/-- When no assignment changes what a later one reads, all of them read the list as it was. -/
theorem getSlice_assignAll {n : ℕ} (h : ∀ w ∈ ws, w.Fits n)
    (hdis : ws.Pairwise fun v w => v.off + v.size ≤ w.off)
    (hread : ws.Pairwise fun v w => ∀ b, b.length = n → w.value (v.run b) = w.value b)
    (hb : b.length = n) (hw : w ∈ ws) :
    getSlice (assignAll ws b) w.off w.size = w.value b := by
  induction ws generalizing b with
  | nil => cases hw
  | cons v ws ih =>
    rcases List.mem_cons.1 hw with rfl | hmem
    · exact getSlice_assignAll_cons (hb.symm ▸ h) hdis
    · rw [List.forall_mem_cons] at h
      rw [List.pairwise_cons] at hread
      have hlen : (v.run b).length = n := by
        subst hb
        exact h.1.length_run
      rw [← hread.1 w hmem b hb]
      exact ih h.2 (List.Pairwise.of_cons hdis) hread.2 hlen hmem

end Assign
