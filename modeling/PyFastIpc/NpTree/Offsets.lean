import PyFastIpc.NpTree.Layout

/-!
# The geometry of a layout

The offsets of a layout are aligned, ordered and tight (`layout_geometry`), and they grow with the
alignment (`layout_monotone`).  Both follow from what one step of `place` does: the next offset is
the end of the array, rounded up.
-/

namespace NpTree

variable {N : NumPy} {κ : Type}

/-! ## Offsets -/

section Place

variable {a : ℕ} {o : ℕ} {arrs : List (Arr N)} {d e : Desc N}

theorem size_place (a o : ℕ) (arrs : List (Arr N)) :
    (place a o arrs).map (·.size) = arrs.map Arr.nbytes := by
  induction arrs generalizing o with
  | nil => rfl
  | cons arr arrs ih => exact congrArg (arr.nbytes :: ·) (ih _)

theorem le_offset_place (ha : 0 < a) (hd : d ∈ place a o arrs) : o ≤ d.offset := by
  induction arrs generalizing o with
  | nil => cases hd
  | cons arr arrs ih =>
    rcases List.mem_cons.1 hd with rfl | hmem
    · exact le_rfl
    · have hup := le_alignUp ha (o + arr.nbytes)
      have hle := ih hmem
      omega

theorem dvd_offset_place (ho : a ∣ o) (hd : d ∈ place a o arrs) : a ∣ d.offset := by
  induction arrs generalizing o with
  | nil => cases hd
  | cons arr arrs ih =>
    rcases List.mem_cons.1 hd with rfl | hmem
    · exact ho
    · exact ih (dvd_alignUp _ a) hmem

theorem head?_place (hd : (place a o arrs).head? = some d) : d.offset = o := by
  cases arrs with
  | nil => cases hd
  | cons arr arrs =>
    obtain rfl := Option.some.inj hd
    rfl

/-- The next offset is the end of the array, rounded up. -/
theorem next_place {i : ℕ} (hd : (place a o arrs)[i]? = some d)
    (he : (place a o arrs)[i + 1]? = some e) : e.offset = alignUp (d.offset + d.size) a := by
  induction arrs generalizing o i with
  | nil => cases hd
  | cons arr arrs ih =>
    rw [place, List.getElem?_cons_succ] at he
    cases i with
    | zero =>
      obtain rfl := Option.some.inj hd
      exact head?_place (List.head?_eq_getElem?.trans he)
    | succ i =>
      rw [place, List.getElem?_cons_succ] at hd
      exact ih hd he

/-- The ranges follow each other. -/
theorem pairwise_place (ha : 0 < a) (o : ℕ) (arrs : List (Arr N)) :
    (place a o arrs).Pairwise fun d e => d.offset + d.size ≤ e.offset := by
  induction arrs generalizing o with
  | nil => exact .nil
  | cons arr arrs ih =>
    refine .cons (fun e he => ?_) (ih _)
    exact (le_alignUp ha _).trans (le_offset_place ha he)

/-- The buffer ends with the last array. -/
theorem bufferSize_place (ha : 0 < a) {m : ℕ} (hm : m ≤ o) (arrs : List (Arr N)) :
    bufferSize m (place a o arrs) =
      ((place a o arrs).getLast?.map fun d => d.offset + d.size).getD m := by
  induction arrs generalizing o m with
  | nil => rfl
  | cons arr arrs ih =>
    have hmax : max m (o + arr.nbytes) = o + arr.nbytes := max_eq_right (by omega)
    have hrest := ih (o := alignUp (o + arr.nbytes) a) (le_alignUp ha (o + arr.nbytes))
    change bufferSize (max m (o + arr.nbytes)) (place a (alignUp (o + arr.nbytes) a) arrs) = _
    rw [hmax, hrest, place, List.getLast?_cons]
    cases (place a (alignUp (o + arr.nbytes) a) arrs).getLast? <;> rfl

end Place

/-- `build_nptree_layout` accepts exactly the positive powers of two.  The offsets of a layout start
at 0, are multiples of the alignment and lie at less than the alignment behind the end of the leaf
before, and the buffer size is the end of the last leaf, which no leaf exceeds. -/
theorem layout_geometry (hN : N.Documented) (t : NumpyTree N κ) (alignment : ℤ) :
    ((∃ layout, buildNptreeLayout t alignment = .ok layout) ↔ ∃ k : ℕ, alignment = 2 ^ k) ∧
    ∀ layout, buildNptreeLayout t alignment = .ok layout → ∃ ds : List (Desc N),
      Reads layout.leaves ds ∧ ds.map (·.size) = t.leaves.map Arr.nbytes ∧
      (∀ d, ds.head? = some d → d.offset = 0) ∧
      (∀ d ∈ ds, alignment ∣ d.offset) ∧
      (∀ i d e, ds[i]? = some d → ds[i + 1]? = some e →
        d.offset + d.size ≤ e.offset ∧ (e.offset : ℤ) < d.offset + d.size + alignment) ∧
      ∃ last, calcBufferSize N layout = .ok last ∧
        last = (ds.getLast?.map fun d => d.offset + d.size).getD 0 ∧
        ∀ d ∈ ds, d.offset + d.size ≤ last := by
  refine ⟨⟨fun ⟨layout, h⟩ => ?_, ?_⟩, fun layout h => ?_⟩
  · obtain ⟨k, hk, -⟩ := laid_of_build hN h
    exact ⟨k, hk⟩
  · rintro ⟨k, rfl⟩
    obtain ⟨layout, hbuild, -⟩ := exists_laid hN t k
    exact ⟨layout, hbuild⟩
  · obtain ⟨k, rfl, hlaid⟩ := laid_of_build hN h
    have ha : 0 < 2 ^ k := Nat.two_pow_pos k
    refine ⟨place (2 ^ k) 0 t.leaves, hlaid.reads, size_place _ _ _, fun d => head?_place,
      fun d hd => ?_, fun i d e hd he => ?_, bufferSize 0 (place (2 ^ k) 0 t.leaves),
      calcBufferSize_of_reads hlaid.reads, bufferSize_place ha le_rfl _,
      fun d hd => end_le_bufferSize hd⟩
    · exact_mod_cast dvd_offset_place (dvd_zero _) hd
    · rw [next_place hd he]
      exact ⟨le_alignUp ha _, by exact_mod_cast alignUp_lt ha _⟩

/-- Three bytes and two numbers. -/
def smallTree : NumpyTree someNumPy String :=
  .node "dict" [.leaf (someArray .b1 [3] [1, 0, 1]),
    .leaf (someArray .i4 [2] [1, 0, 0, 0, 2, 0, 0, 0])]

theorem layout_geometry_smallTree : ∃ (layout : LayoutTree String) (ds : List (Desc someNumPy)),
    buildNptreeLayout smallTree 8 = .ok layout ∧ Reads layout.leaves ds ∧
      ds.map (·.size) = [3, 8] ∧ ∀ d ∈ ds, (8 : ℤ) ∣ d.offset := by
  obtain ⟨hiff, hall⟩ := layout_geometry documented_someNumPy smallTree 8
  obtain ⟨layout, hbuild⟩ := hiff.2 ⟨3, rfl⟩
  obtain ⟨ds, hreads, hsizes, -, hdvd, -⟩ := hall layout hbuild
  exact ⟨layout, ds, hbuild, hreads, hsizes, hdvd⟩

/-! ## Growing alignments -/

section Monotone

variable {a b : ℕ} {o o' : ℕ}

/-- The descriptors of one tree at two alignments. -/
theorem place_mono (ha : 0 < a) (hb : 0 < b) (hab : a ∣ b) (ho : o ≤ o') (arrs : List (Arr N)) :
    List.Forall₂ (fun d e => d.offset ≤ e.offset ∧ d.size = e.size) (place a o arrs)
      (place b o' arrs) := by
  induction arrs generalizing o o' with
  | nil => exact .nil
  | cons arr arrs ih =>
    exact .cons ⟨ho, rfl⟩ (ih (alignUp_mono ha hb hab (Nat.add_le_add_right ho _)))

theorem bufferSize_mono {ds es : List (Desc N)}
    (h : List.Forall₂ (fun d e => d.offset ≤ e.offset ∧ d.size = e.size) ds es) {m n : ℕ}
    (hm : m ≤ n) : bufferSize m ds ≤ bufferSize n es := by
  induction h generalizing m n with
  | nil => exact hm
  | cons hde _ ih => exact ih (max_le_max hm (by omega))

/-- Without alignment there are no gaps. -/
theorem bufferSize_one (o : ℕ) (arrs : List (Arr N)) :
    bufferSize o (place 1 o arrs) = o + (arrs.map Arr.nbytes).sum := by
  induction arrs generalizing o with
  | nil => rfl
  | cons arr arrs ih =>
    have hmax : max o (o + arr.nbytes) = o + arr.nbytes := max_eq_right (by omega)
    change bufferSize (max o (o + arr.nbytes)) (place 1 (alignUp (o + arr.nbytes) 1) arrs) = _
    rw [hmax, alignUp_one, ih, List.map_cons, List.sum_cons]
    omega

/-- There is less than one alignment of padding for each array. -/
theorem bufferSize_lt (ha : 0 < a) {m : ℕ} (hm : m ≤ o) {arrs : List (Arr N)} (hne : arrs ≠ []) :
    bufferSize m (place a o arrs) < o + (arrs.map Arr.nbytes).sum + a * arrs.length := by
  induction arrs generalizing o m with
  | nil => exact absurd rfl hne
  | cons arr arrs ih =>
    have hmax : max m (o + arr.nbytes) = o + arr.nbytes := max_eq_right (by omega)
    change bufferSize (max m (o + arr.nbytes)) (place a (alignUp (o + arr.nbytes) a) arrs) < _
    rw [hmax, List.map_cons, List.sum_cons, List.length_cons, Nat.mul_succ]
    cases arrs with
    | nil =>
      change o + arr.nbytes < o + (arr.nbytes + 0) + (a * 0 + a)
      omega
    | cons arr' arrs =>
      have hrest := ih (le_alignUp ha (o + arr.nbytes)) (List.cons_ne_nil _ _)
      have hup := alignUp_lt ha (o + arr.nbytes)
      omega

end Monotone

/-- With a larger alignment no leaf lies earlier and the buffer is no smaller; at alignment 1 it has
the bytes of the leaves and nothing else, and at any alignment less than one alignment more for each
leaf. -/
theorem layout_monotone (hN : N.Documented) (t : NumpyTree N κ) {j k : ℕ} (hjk : j ≤ k) :
    ∃ (layout layout' : LayoutTree κ) (ds es : List (Desc N)) (size size' : ℕ),
      buildNptreeLayout t (2 ^ j) = .ok layout ∧ buildNptreeLayout t (2 ^ k) = .ok layout' ∧
      Reads layout.leaves ds ∧ Reads layout'.leaves es ∧
      List.Forall₂ (fun d e => d.offset ≤ e.offset) ds es ∧
      calcBufferSize N layout = .ok size ∧ calcBufferSize N layout' = .ok size' ∧
      size ≤ size' ∧ (j = 0 → size = (t.leaves.map Arr.nbytes).sum) ∧
      (t.leaves ≠ [] → size < (t.leaves.map Arr.nbytes).sum + 2 ^ j * t.leaves.length) := by
  obtain ⟨layout, hbuild, hlaid⟩ := exists_laid hN t j
  obtain ⟨layout', hbuild', hlaid'⟩ := exists_laid hN t k
  have hj : 0 < 2 ^ j := Nat.two_pow_pos j
  have hmono := place_mono hj (Nat.two_pow_pos k) (Nat.pow_dvd_pow 2 hjk) (le_refl 0) t.leaves
  refine ⟨layout, layout', _, _, _, _, hbuild, hbuild', hlaid.reads, hlaid'.reads,
    hmono.imp fun _ _ h => h.1, calcBufferSize_of_reads hlaid.reads,
    calcBufferSize_of_reads hlaid'.reads, bufferSize_mono hmono le_rfl, ?_, fun hne => ?_⟩
  · rintro rfl
    rw [pow_zero, bufferSize_one, Nat.zero_add]
  · have hlt := bufferSize_lt hj (le_refl 0) hne
    rwa [Nat.zero_add] at hlt

theorem layout_monotone_smallTree : ∃ (layout layout' : LayoutTree String) (size size' : ℕ),
    buildNptreeLayout smallTree 1 = .ok layout ∧ buildNptreeLayout smallTree 8 = .ok layout' ∧
      calcBufferSize someNumPy layout = .ok size ∧ calcBufferSize someNumPy layout' = .ok size' ∧
      size ≤ size' ∧ size = 11 := by
  obtain ⟨layout, layout', ds, es, size, size', hbuild, hbuild', -, -, -, hsize, hsize', hle, hsum,
    -⟩ := layout_monotone documented_someNumPy smallTree (Nat.zero_le 3)
  exact ⟨layout, layout', size, size', hbuild, hbuild', hsize, hsize', hle, hsum rfl⟩

end NpTree
