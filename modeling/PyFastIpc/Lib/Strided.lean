import PyFastIpc.Lib.Memory
import Mathlib.Algebra.BigOperators.Group.List.Basic

/-!
# Strided arrays

The items of a multi-dimensional array lie at `base + i₁ * s₁ + … + iₖ * sₖ`, where the `s` are the
strides of the dimensions.  `offsets` lists these in C order, the last index running fastest.  When
the strides are those of C order too (`Contiguous`), the items lie one after the other
(`offsets_of_contiguous`), so the bytes of the array are one range of the memory.
-/

namespace Strided

/-- The offsets of the items in C order; a dimension is its size and its stride. -/
def offsets : List (ℕ × ℤ) → List ℤ
  | [] => [0]
  | (n, s) :: dims =>
    (List.range n).flatMap fun i : ℕ => (offsets dims).map fun o => (i : ℤ) * s + o

def shape (dims : List (ℕ × ℤ)) : List ℕ := dims.map Prod.fst

/-- The strides are those of C order; they do not matter in a dimension of size 1. -/
def RowMajor (item : ℕ) : List (ℕ × ℤ) → Prop
  | [] => True
  | (n, s) :: dims => (n = 1 ∨ s = (shape dims).prod * item) ∧ RowMajor item dims

instance (item : ℕ) : (dims : List (ℕ × ℤ)) → Decidable (RowMajor item dims)
  | [] => inferInstanceAs (Decidable True)
  | (_, _) :: dims =>
    have := instDecidableRowMajor item dims
    inferInstanceAs (Decidable (_ ∧ _))

/-- The dimensions of an array that is stored in C order. -/
def rowMajor (item : ℕ) : List ℕ → List (ℕ × ℤ)
  | [] => []
  | n :: ns => (n, (ns.prod * item : ℕ)) :: rowMajor item ns

@[simp] theorem shape_rowMajor (item : ℕ) (ns : List ℕ) : shape (rowMajor item ns) = ns := by
  induction ns with
  | nil => rfl
  | cons n ns ih => exact congrArg (n :: ·) ih

theorem rowMajor_rowMajor (item : ℕ) (ns : List ℕ) : RowMajor item (rowMajor item ns) := by
  induction ns with
  | nil => trivial
  | cons n ns ih =>
    refine ⟨.inr ?_, ih⟩
    rw [shape_rowMajor]
    push_cast
    rfl

theorem length_offsets (dims : List (ℕ × ℤ)) : (offsets dims).length = (shape dims).prod := by
  induction dims with
  | nil => rfl
  | cons d dims ih =>
    obtain ⟨n, s⟩ := d
    simp [offsets, shape, List.length_flatMap, ih]

/-- The numbers below `n * p` in `n` runs of `p`. -/
theorem range_mul (n p : ℕ) :
    List.range (n * p) = (List.range n).flatMap fun i => (List.range p).map (i * p + ·) := by
  induction n with
  | zero => simp
  | succ n ih =>
    rw [Nat.succ_mul, List.range_add, ih, List.range_succ, List.flatMap_append]
    simp

/-- The items of an array in C order lie one after the other. -/
theorem offsets_of_rowMajor {item : ℕ} {dims : List (ℕ × ℤ)} (h : RowMajor item dims) :
    offsets dims = (List.range (shape dims).prod).map fun k => ((k * item : ℕ) : ℤ) := by
  induction dims with
  | nil => simp [offsets, shape]
  | cons d dims ih =>
    obtain ⟨n, s⟩ := d
    obtain ⟨hs, hrest⟩ := h
    have hstep {i : ℕ} (hi : i < n) (k : ℕ) :
        (i : ℤ) * s + ((k * item : ℕ) : ℤ) = ((i * (shape dims).prod + k) * item : ℕ) := by
      rcases hs with rfl | rfl
      · obtain rfl : i = 0 := by omega
        simp
      · push_cast
        ring
    change (List.range n).flatMap (fun i : ℕ => (offsets dims).map fun o => (i : ℤ) * s + o) =
      (List.range (n * (shape dims).prod)).map _
    rw [ih hrest, range_mul, List.map_flatMap]
    refine List.flatMap_congr fun i hi => ?_
    rw [List.map_map, List.map_map]
    exact List.map_congr_left fun k _ => hstep (List.mem_range.1 hi) k

end Strided
