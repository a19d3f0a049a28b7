import PyFastIpc.NpTree.Model
import Mathlib.Data.List.Forall2
import Mathlib.Algebra.Order.Ring.Nat

/-!
# Where a layout puts the leaves

`place` are the descriptors of a list of arrays from an offset on, and `laid_of_build` says that the
texts of a layout read as these.  Everything else about a layout is about `place`: the offsets are
multiples of the alignment, the ranges follow each other with less than the alignment between them,
and the buffer size is the end of the last one.
-/

namespace NpTree

variable {N : NumPy} {κ : Type}

/-! ## Rounding up -/

section AlignUp

variable {n m a b : ℕ}

theorem le_alignUp (ha : 0 < a) (n : ℕ) : n ≤ alignUp n a := by
  have h := Nat.div_add_mod (n + a - 1) a
  have hlt := Nat.mod_lt (n + a - 1) ha
  rw [alignUp, Nat.mul_comm]
  omega

theorem alignUp_lt (ha : 0 < a) (n : ℕ) : alignUp n a < n + a := by
  have h := Nat.div_mul_le_self (n + a - 1) a
  rw [alignUp]
  omega

theorem dvd_alignUp (n a : ℕ) : a ∣ alignUp n a := Nat.dvd_mul_left _ _

/-- It is the least multiple from there on. -/
theorem alignUp_le (ha : 0 < a) (hn : n ≤ m) (hm : a ∣ m) : alignUp n a ≤ m := by
  obtain ⟨q, rfl⟩ := hm
  have hlt : alignUp n a < (q + 1) * a := by
    calc alignUp n a < n + a := alignUp_lt ha n
      _ ≤ a * q + a := Nat.add_le_add_right hn a
      _ = (q + 1) * a := by rw [Nat.mul_comm, Nat.succ_mul]
  obtain ⟨p, hp⟩ := dvd_alignUp n a
  rw [hp, Nat.mul_comm (q + 1)] at hlt
  rw [hp]
  exact Nat.mul_le_mul_left a (Nat.le_of_lt_succ (Nat.lt_of_mul_lt_mul_left hlt))

theorem alignUp_mono (ha : 0 < a) (hb : 0 < b) (hab : a ∣ b) (hn : n ≤ m) :
    alignUp n a ≤ alignUp m b :=
  alignUp_le ha (hn.trans (le_alignUp hb m)) (hab.trans (dvd_alignUp m b))

theorem alignUp_one (n : ℕ) : alignUp n 1 = n := by simp [alignUp]

end AlignUp

/-! ## Descriptors -/

/-- The dtype that the text of a dtype is read as. -/
def NumPy.read (N : NumPy) (d : N.Dtype) : N.Dtype := (N.dtype (N.str d)).getD d

theorem NumPy.Documented.dtype_read (hN : N.Documented) (d : N.Dtype) :
    N.dtype (N.str d) = some (N.read d) := by
  obtain ⟨d', hd, -⟩ := hN.dtype_str d
  rw [NumPy.read, hd]
  rfl

theorem NumPy.Documented.itemsize_read (hN : N.Documented) (d : N.Dtype) :
    N.itemsize (N.read d) = N.itemsize d := by
  obtain ⟨d', hd, hsize⟩ := hN.dtype_str d
  rw [NumPy.read, hd]
  exact hsize

/-- The dimensions read as they were written; there are no commas in an empty text. -/
theorem parseShape_intercalate (shape : List ℕ) :
    parseShape (N := N) ([','].intercalate (shape.map str)) = .ok shape := by
  have hread (ns : List ℕ) : (ns.map str).mapM
      (fun s => (int s).elim (.error (.int s)) .ok) = (.ok ns : Except (Error N) (List ℕ)) := by
    induction ns with
    | nil => rfl
    | cons n ns ih =>
      rw [List.map_cons, List.mapM_cons, ih, int_str]
      rfl
  cases shape with
  | nil => rfl
  | cons n ns =>
    have hne : [','].intercalate ((n :: ns).map str) ≠ [] := by
      cases ns with
      | nil => simpa [List.intercalate] using str_ne_nil n
      | cons m ns => simp [List.intercalate]
    rw [parseShape, if_neg hne, List.splitOn_intercalate _ (fun s hs => ?_) (by simp)]
    · exact hread (n :: ns)
    · obtain ⟨k, -, rfl⟩ := List.mem_map.1 hs
      exact not_mem_str (by decide) k

/-- What a descriptor reads as. -/
theorem parseArrDesc_describe (hN : N.Documented) (arr : Arr N) (offset : ℕ) :
    parseArrDesc (describe arr offset) =
      .ok ⟨N.read arr.dtype, arr.shape, offset, arr.nbytes⟩ := by
  have hdims : '\t' ∉ [','].intercalate (arr.shape.map str) := by
    refine not_mem_intercalate (by decide) fun s hs => ?_
    obtain ⟨n, -, rfl⟩ := List.mem_map.1 hs
    exact not_mem_str (by decide) n
  have hsplit : (describe arr offset).splitOn '\t' =
      [N.str arr.dtype, [','].intercalate (arr.shape.map str), str offset] := by
    rw [describe, List.splitOn_intercalate _ (fun s hs => ?_) (by simp)]
    rcases List.mem_cons.1 hs with rfl | hs
    · exact hN.noTab arr.dtype
    · rcases List.mem_cons.1 hs with rfl | hs
      · exact hdims
      · rw [List.mem_singleton.1 hs]
        exact not_mem_str (by decide) offset
  simp only [parseArrDesc, hsplit, hN.dtype_read, parseShape_intercalate, int_str]
  change Except.ok (⟨_, _, _, arr.shape.prod * N.itemsize (N.read arr.dtype)⟩ : Desc N) = _
  rw [hN.itemsize_read]
  rfl

/-- The descriptors of arrays that are laid out from an offset on. -/
def place (alignment : ℕ) : ℕ → List (Arr N) → List (Desc N)
  | _, [] => []
  | offset, arr :: arrs =>
    ⟨N.read arr.dtype, arr.shape, offset, arr.nbytes⟩ ::
      place alignment (alignUp (offset + arr.nbytes) alignment) arrs

/-- The texts read as the descriptors. -/
def Reads (texts : List Text) (ds : List (Desc N)) : Prop :=
  List.Forall₂ (fun s d => parseArrDesc s = .ok d) texts ds

theorem mapM_arrDesc (hN : N.Documented) (alignment offset : ℕ) (arrs : List (Arr N)) :
    ∃ texts offset', (arrs.mapM (arrDesc alignment)).run offset = .ok texts offset' ∧
      Reads texts (place alignment offset arrs) := by
  induction arrs generalizing offset with
  | nil => exact ⟨[], offset, rfl, .nil⟩
  | cons arr arrs ih =>
    obtain ⟨texts, offset', hrun, hreads⟩ := ih (alignUp (offset + arr.nbytes) alignment)
    refine ⟨describe arr offset :: texts, offset', ?_,
      .cons (parseArrDesc_describe hN arr offset) hreads⟩
    rw [List.mapM_cons]
    simp only [EStateM.run_bind, EStateM.run_pure]
    have hfirst : (arrDesc alignment arr).run offset =
        .ok (describe arr offset) (alignUp (offset + arr.nbytes) alignment) := rfl
    rw [hfirst]
    simp only [hrun]

/-- The layout of a tree: its skeleton, and the descriptors of its leaves in order. -/
structure Laid (alignment : ℕ) (t : NumpyTree N κ) (layout : LayoutTree κ) : Prop where
  skeleton : layout.skeleton = t.skeleton
  reads : Reads layout.leaves (place alignment 0 t.leaves)

/-- The check of the alignment. -/
theorem accepts_iff (alignment : ℤ) :
    ¬ (alignment ≤ 0 ∨ alignment.toNat &&& (alignment.toNat - 1) ≠ 0) ↔
      ∃ k : ℕ, alignment = 2 ^ k := by
  constructor
  · intro h
    obtain ⟨hpos, hand⟩ := not_or.1 h
    have hne : alignment.toNat ≠ 0 := by omega
    obtain ⟨k, hk⟩ := (Nat.and_sub_one_eq_zero_iff_isPowerOfTwo hne).1 (not_not.1 hand)
    refine ⟨k, ?_⟩
    have hcast : ((alignment.toNat : ℕ) : ℤ) = 2 ^ k := by exact_mod_cast hk
    omega
  · rintro ⟨k, rfl⟩
    have hpos : (0 : ℤ) < 2 ^ k := by positivity
    have hnat : ((2 : ℤ) ^ k).toNat = 2 ^ k := by
      rw [show (2 : ℤ) ^ k = ((2 ^ k : ℕ) : ℤ) by push_cast; rfl, Int.toNat_natCast]
    rw [hnat, not_or, not_not]
    exact ⟨by omega, (Nat.and_sub_one_eq_zero_iff_isPowerOfTwo (by positivity)).2 ⟨k, rfl⟩⟩

/-- `build_nptree_layout` raises unless the alignment is a power of two. -/
theorem build_eq_error {t : NumpyTree N κ} {alignment : ℤ} (h : ¬ ∃ k : ℕ, alignment = 2 ^ k) :
    buildNptreeLayout t alignment = .error .alignment := by
  rw [← accepts_iff, not_not] at h
  rw [buildNptreeLayout, if_pos h]

theorem exists_laid (hN : N.Documented) (t : NumpyTree N κ) (k : ℕ) :
    ∃ layout, buildNptreeLayout t (2 ^ k) = .ok layout ∧ Laid (2 ^ k) t layout := by
  have hnat : ((2 : ℤ) ^ k).toNat = 2 ^ k := by
    rw [show (2 : ℤ) ^ k = ((2 ^ k : ℕ) : ℤ) by push_cast; rfl, Int.toNat_natCast]
  obtain ⟨texts, offset', hrun, hreads⟩ := mapM_arrDesc hN (2 ^ k) 0 t.leaves
  obtain ⟨layout, hmap, hleaves, hskel⟩ := Nest.run_mapM_of_leaves hrun
  refine ⟨layout, ?_, hskel, by rw [hleaves]; exact hreads⟩
  rw [buildNptreeLayout, if_neg ((accepts_iff _).2 ⟨k, rfl⟩), hnat, hmap]

/-- What is known about every layout that `build_nptree_layout` returns. -/
theorem laid_of_build (hN : N.Documented) {t : NumpyTree N κ} {alignment : ℤ}
    {layout : LayoutTree κ} (h : buildNptreeLayout t alignment = .ok layout) :
    ∃ k : ℕ, alignment = 2 ^ k ∧ Laid (2 ^ k) t layout := by
  by_cases hpow : ∃ k : ℕ, alignment = 2 ^ k
  · obtain ⟨k, rfl⟩ := hpow
    obtain ⟨layout', hbuild, hlaid⟩ := exists_laid hN t k
    obtain rfl : layout' = layout := Except.ok.inj (hbuild.symm.trans h)
    exact ⟨k, rfl, hlaid⟩
  · rw [build_eq_error hpow] at h
    cases h

/-! ## The size of the buffer -/

/-- The largest end, from `m` on. -/
def bufferSize (m : ℕ) (ds : List (Desc N)) : ℕ :=
  ds.foldl (fun m d => max m (d.offset + d.size)) m

theorem run_readDesc {σ : Type} {text : Text} {d : Desc N} (h : parseArrDesc text = .ok d)
    (s : σ) : (readDesc N text).run s = .ok d s := by
  rw [readDesc, h]
  rfl

theorem mapM_updateMaxOffset {texts : List Text} {ds : List (Desc N)} (h : Reads texts ds)
    (m : ℕ) : ∃ us, (texts.mapM (updateMaxOffset N)).run m = .ok us (bufferSize m ds) := by
  induction h generalizing m with
  | nil => exact ⟨[], rfl⟩
  | @cons text d texts ds hread _ ih =>
    have hfirst : (updateMaxOffset N text).run m =
        .ok () (max m (d.offset + d.size)) := by
      have hmax : (if m < d.offset + d.size then d.offset + d.size else m) =
          max m (d.offset + d.size) := by
        split_ifs <;> omega
      rw [updateMaxOffset, EStateM.run_bind, run_readDesc hread, ← hmax]
      rfl
    obtain ⟨us, hrun⟩ := ih (max m (d.offset + d.size))
    refine ⟨() :: us, ?_⟩
    rw [List.mapM_cons]
    simp only [EStateM.run_bind, EStateM.run_pure, hfirst, hrun]
    rfl

theorem calcBufferSize_of_reads {layout : LayoutTree κ} {ds : List (Desc N)}
    (h : Reads layout.leaves ds) : calcBufferSize N layout = .ok (bufferSize 0 ds) := by
  obtain ⟨us, hrun⟩ := mapM_updateMaxOffset h 0
  obtain ⟨u, hmap, -⟩ := Nest.run_mapM_of_leaves hrun
  rw [calcBufferSize, hmap]
  rfl

theorem le_bufferSize (m : ℕ) (ds : List (Desc N)) : m ≤ bufferSize m ds := by
  induction ds generalizing m with
  | nil => exact le_rfl
  | cons d ds ih => exact (le_max_left _ _).trans (ih _)

theorem end_le_bufferSize {m : ℕ} {ds : List (Desc N)} {d : Desc N} (hd : d ∈ ds) :
    d.offset + d.size ≤ bufferSize m ds := by
  induction ds generalizing m with
  | nil => cases hd
  | cons e ds ih =>
    rcases List.mem_cons.1 hd with rfl | hmem
    · exact (le_max_right _ _).trans (le_bufferSize _ ds)
    · exact ih hmem

end NpTree
