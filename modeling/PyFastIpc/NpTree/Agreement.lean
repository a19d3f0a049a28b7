import PyFastIpc.NpTree.RoundTrip

/-!
# What a layout says about trees

A layout keeps of a tree its structure and of each array the text of its dtype and its shape, and
nothing else (`layout_eq_iff`): the descriptors can be told apart, and where an array lies follows
from those before it.  So a layout is the type of the trees that `validate_layout` accepts, which
are the trees with this very layout, and of those that `deserialize_nptree` returns
(`layout_types_trees`).
-/

namespace NpTree

variable {N : NumPy} {κ : Type}

/-! ## The texts of a layout -/

/-- The texts of arrays that are laid out from an offset on. -/
def describeAll (alignment : ℕ) : ℕ → List (Arr N) → List Text
  | _, [] => []
  | offset, arr :: arrs =>
    describe arr offset :: describeAll alignment (alignUp (offset + arr.nbytes) alignment) arrs

theorem run_mapM_arrDesc (a o : ℕ) (arrs : List (Arr N)) :
    ∃ o', (arrs.mapM (arrDesc a)).run o = .ok (describeAll a o arrs) o' := by
  induction arrs generalizing o with
  | nil => exact ⟨o, rfl⟩
  | cons arr arrs ih =>
    obtain ⟨o', hrun⟩ := ih (alignUp (o + arr.nbytes) a)
    have hfirst : (arrDesc a arr).run o =
        .ok (describe arr o) (alignUp (o + arr.nbytes) a) := rfl
    refine ⟨o', ?_⟩
    rw [List.mapM_cons]
    simp only [EStateM.run_bind, EStateM.run_pure, hfirst, hrun]
    rfl

/-- The one layout of a tree at an alignment. -/
theorem build_eq_ok_iff {t : NumpyTree N κ} {layout : LayoutTree κ} (k : ℕ) :
    buildNptreeLayout t (2 ^ k) = .ok layout ↔
      layout.skeleton = t.skeleton ∧ layout.leaves = describeAll (2 ^ k) 0 t.leaves := by
  have hnat : ((2 : ℤ) ^ k).toNat = 2 ^ k := by
    rw [show (2 : ℤ) ^ k = ((2 ^ k : ℕ) : ℤ) by push_cast; rfl, Int.toNat_natCast]
  obtain ⟨o', hrun⟩ := run_mapM_arrDesc (2 ^ k) 0 t.leaves
  obtain ⟨built, hmap, hleaves, hskel⟩ := Nest.run_mapM_of_leaves hrun
  have hbuild : buildNptreeLayout t (2 ^ k) = .ok built := by
    rw [buildNptreeLayout, if_neg ((accepts_iff _).2 ⟨k, rfl⟩), hnat, hmap]
  rw [hbuild, ← hskel, ← hleaves]
  constructor
  · intro h
    rw [Except.ok.inj h]
    exact ⟨rfl, rfl⟩
  · rintro ⟨hs, hl⟩
    rw [Nest.ext_leaves layout built hs hl]

/-! ## Telling descriptors apart -/

/-- What a descriptor keeps of an array. -/
structure Alike (arr arr' : Arr N) : Prop where
  dtype : N.str arr.dtype = N.str arr'.dtype
  shape : arr.shape = arr'.shape

section Alike

variable {arr arr' : Arr N}

theorem Alike.read (h : Alike arr arr') (hN : N.Documented) :
    N.read arr.dtype = N.read arr'.dtype := by
  have hread := hN.dtype_read arr.dtype
  rw [h.dtype, hN.dtype_read] at hread
  exact (Option.some.inj hread).symm

theorem Alike.nbytes (h : Alike arr arr') (hN : N.Documented) : arr.nbytes = arr'.nbytes := by
  have hitem : arr.itemsize = arr'.itemsize := by
    calc N.itemsize arr.dtype = N.itemsize (N.read arr.dtype) := (hN.itemsize_read _).symm
      _ = N.itemsize (N.read arr'.dtype) := by rw [h.read hN]
      _ = N.itemsize arr'.dtype := hN.itemsize_read _
  rw [Arr.nbytes, Arr.nbytes, h.shape, hitem]

/-- Reading the texts tells the shapes and the offsets apart, and then what is before the first tab
is the text of the dtype. -/
theorem describe_eq_iff (hN : N.Documented) {o o' : ℕ} :
    describe arr o = describe arr' o' ↔ Alike arr arr' ∧ o = o' := by
  constructor
  · intro h
    have hparse := parseArrDesc_describe hN arr o
    rw [h, parseArrDesc_describe hN] at hparse
    have hdesc := Except.ok.inj hparse
    have hshape : arr.shape = arr'.shape := (congrArg Desc.shape hdesc).symm
    have ho : o = o' := (congrArg Desc.offset hdesc).symm
    refine ⟨⟨?_, hshape⟩, ho⟩
    simp only [describe, hshape, ho, List.intercalate_cons_cons] at h
    exact List.append_cancel_right (List.append_cancel_right h)
  · rintro ⟨h, rfl⟩
    rw [describe, describe, h.dtype, h.shape]

theorem describeAll_eq_iff (hN : N.Documented) {a o : ℕ} {arrs arrs' : List (Arr N)} :
    describeAll a o arrs = describeAll a o arrs' ↔ List.Forall₂ Alike arrs arrs' := by
  induction arrs generalizing o arrs' with
  | nil => cases arrs' <;> simp [describeAll]
  | cons arr arrs ih =>
    cases arrs' with
    | nil => simp [describeAll]
    | cons arr' arrs' =>
      rw [describeAll, describeAll, List.cons.injEq, describe_eq_iff hN, List.forall₂_cons,
        and_iff_left rfl]
      apply and_congr_right
      intro h
      rw [h.nbytes hN, ih]

end Alike

/-- Two trees have the same layout exactly when they have the same structure, and at each leaf the
same dtype text and shape. -/
theorem layout_eq_iff (hN : N.Documented) (t t' : NumpyTree N κ) (k : ℕ) :
    buildNptreeLayout t (2 ^ k) = buildNptreeLayout t' (2 ^ k) ↔
      t.skeleton = t'.skeleton ∧ List.Forall₂ Alike t.leaves t'.leaves := by
  obtain ⟨layout, hbuild, -⟩ := exists_laid hN t k
  obtain ⟨hskel, hleaves⟩ := (build_eq_ok_iff k).1 hbuild
  rw [hbuild, eq_comm, build_eq_ok_iff, hskel, hleaves, describeAll_eq_iff hN]

/-! ## Layouts as types -/

/-- The text of every dtype in the tree reads as that dtype. -/
def Described (t : NumpyTree N κ) : Prop :=
  ∀ arr ∈ t.leaves, N.dtype (N.str arr.dtype) = some arr.dtype

theorem matches_place_iff (hN : N.Documented) {a o : ℕ} {arrs arrs' : List (Arr N)}
    (h : ∀ arr ∈ arrs, N.dtype (N.str arr.dtype) = some arr.dtype) :
    List.Forall₂ Matches arrs' (place a o arrs) ↔
      List.Forall₂ Alike arrs' arrs ∧
        ∀ arr ∈ arrs', N.dtype (N.str arr.dtype) = some arr.dtype := by
  induction arrs generalizing o arrs' with
  | nil => cases arrs' <;> simp [place]
  | cons arr arrs ih =>
    rw [List.forall_mem_cons] at h
    cases arrs' with
    | nil => simp [place]
    | cons arr' arrs' =>
      have hread := (hN.read_eq_iff _).2 h.1
      have hfirst (d : Desc N) (hd : d.dtype = N.read arr.dtype) (hs : d.shape = arr.shape) :
          Matches arr' d ↔ Alike arr' arr ∧ N.dtype (N.str arr'.dtype) = some arr'.dtype := by
        constructor
        · intro hm
          have hdtype : arr'.dtype = arr.dtype := hm.dtype.trans (hd.trans hread)
          exact ⟨⟨congrArg N.str hdtype, hm.shape.trans hs⟩, hdtype ▸ h.1⟩
        · rintro ⟨halike, hself⟩
          refine ⟨?_, halike.shape.trans hs.symm⟩
          rw [hd, ← halike.read hN, (hN.read_eq_iff _).2 hself]
      rw [place, List.forall₂_cons, List.forall₂_cons, List.forall_mem_cons, ih h.2,
        hfirst _ rfl rfl]
      exact and_and_and_comm

section Deserialize

variable {layout : LayoutTree κ} {ds : List (Desc N)} {r : NumpyTree N κ}

/-- Without a buffer, a new one is read, and its views stay with the tree. -/
theorem deserialize_none (h : Reads layout.leaves ds) :
    deserializeNptree N layout none =
      (deserializeNptree N layout (some (List.replicate (bufferSize 0 ds) 0))).map fun r =>
        r.map (·.own (List.replicate (bufferSize 0 ds) 0)) := by
  rw [deserializeNptree_eq h (by simp), deserializeNptree, calcBufferSize_of_reads h]
  change Except.bind (layout.mapM _) _ = Except.map _ (layout.mapM _)
  cases layout.mapM (descToArr N (List.replicate (bufferSize 0 ds) 0)) <;> rfl

/-- What is read has the types that the layout says. -/
theorem matches_of_deserialize {buffer : Option (List UInt8)} (h : Reads layout.leaves ds)
    (hr : deserializeNptree N layout buffer = .ok r) :
    r.skeleton = layout.skeleton ∧ List.Forall₂ Matches r.leaves ds := by
  cases buffer with
  | some b =>
    obtain ⟨-, hleaves, hskel⟩ := readable_of_deserialize h hr
    rw [hleaves]
    exact ⟨hskel, forall₂_matches_map matches_view ds⟩
  | none =>
    rw [deserialize_none h] at hr
    cases hread : deserializeNptree N layout (some (List.replicate (bufferSize 0 ds) 0)) with
    | error e =>
      rw [hread] at hr
      cases hr
    | ok v =>
      obtain ⟨-, hleaves, hskel⟩ := readable_of_deserialize h hread
      rw [hread] at hr
      obtain rfl := Except.ok.inj hr
      rw [Nest.leaves_map, Nest.skeleton_map, hleaves, List.map_map]
      exact ⟨hskel, forall₂_matches_map (fun d => matches_own (matches_view d) _) ds⟩

end Deserialize

section Types

variable [DecidableEq κ] {t : NumpyTree N κ} {alignment : ℤ} {layout : LayoutTree κ}

/-- A layout is a type of trees: it is the layout of the trees with its structure, dtype texts and
shapes, `validate_layout` accepts those of them whose dtypes are described by their texts, and
`deserialize_nptree` returns only trees of that type. -/
theorem layout_types_trees (hN : N.Documented)
    (h : buildNptreeLayout t alignment = .ok layout) (ht : Described t) :
    (∀ t' : NumpyTree N κ, buildNptreeLayout t' alignment = .ok layout ↔
      t'.skeleton = t.skeleton ∧ List.Forall₂ Alike t'.leaves t.leaves) ∧
    (∀ t' : NumpyTree N κ, validateLayout t' layout = .ok () ↔
      buildNptreeLayout t' alignment = .ok layout ∧ Described t') ∧
    ∀ b (r : NumpyTree N κ), deserializeNptree N layout b = .ok r →
      validateLayout r layout = .ok () ∧ buildNptreeLayout r alignment = .ok layout := by
  obtain ⟨k, rfl, hlaid⟩ := laid_of_build hN h
  have hbuild (t' : NumpyTree N κ) : buildNptreeLayout t' (2 ^ k) = .ok layout ↔
      t'.skeleton = t.skeleton ∧ List.Forall₂ Alike t'.leaves t.leaves := by
    rw [← h, layout_eq_iff hN]
  have hvalid (t' : NumpyTree N κ) : validateLayout t' layout = .ok () ↔
      buildNptreeLayout t' (2 ^ k) = .ok layout ∧ Described t' := by
    rw [validateLayout_iff hlaid.reads, matches_place_iff hN ht, hlaid.skeleton, hbuild, and_assoc]
    rfl
  refine ⟨hbuild, hvalid, fun b r hr => ?_⟩
  have hr' : validateLayout r layout = .ok () := by
    rw [validateLayout_iff hlaid.reads]
    exact matches_of_deserialize hlaid.reads hr
  exact ⟨hr', ((hvalid r).1 hr').1⟩

theorem described_mixedTree : Described mixedTree :=
  List.forall_mem_cons.2 ⟨rfl, List.forall_mem_cons.2 ⟨rfl, List.forall_mem_singleton.2 rfl⟩⟩

/-- The tree of zeros that is read without a buffer has the layout that it was read with. -/
theorem layout_types_trees_zeros : ∃ (layout : LayoutTree String)
    (r : NumpyTree someNumPy String), buildNptreeLayout mixedTree 8 = .ok layout ∧
      deserializeNptree someNumPy layout none = .ok r ∧ buildNptreeLayout r 8 = .ok layout := by
  have hbuild : ∃ layout : LayoutTree String, buildNptreeLayout mixedTree 8 = .ok layout :=
    ⟨_, rfl⟩
  obtain ⟨layout, hbuild⟩ := hbuild
  obtain ⟨k, -, hlaid⟩ := laid_of_build documented_someNumPy hbuild
  have hreadable : ∀ d ∈ place (2 ^ k) 0 mixedTree.leaves, Readable d.dtype :=
    forall_place (P := fun d _ => Readable d).2 (List.forall_mem_cons.2 ⟨by decide,
      List.forall_mem_cons.2 ⟨by decide, List.forall_mem_singleton.2 (by decide)⟩⟩)
  obtain ⟨r, hr, -, -⟩ := exists_deserialize hlaid.reads List.length_replicate.ge hreadable
  have hnone := deserialize_none hlaid.reads
  rw [hr] at hnone
  have htypes := layout_types_trees documented_someNumPy hbuild described_mixedTree
  exact ⟨layout, _, hbuild, hnone, (htypes.2.2 none _ hnone).2⟩

end Types

end NpTree
