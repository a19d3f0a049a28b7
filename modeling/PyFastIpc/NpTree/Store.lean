import PyFastIpc.NpTree.Offsets
import Mathlib.Algebra.Order.BigOperators.Group.List

/-!
# Storing a tree and reading it back

One spec lemma for each of `validate_layout`, `serialize_nptree` and `deserialize_nptree`, over the
descriptors that the texts of a layout read as.  `storeAll` is the loop of `serialize_nptree` over
the pairs of arrays and descriptors: it stops at the first array that has to be copied and cannot be
cast, or has another length while the buffer is fixed.  With arrays that have the sizes of their
descriptors it is a list of assignments, each of which reads the buffer that the ones before it left
(`storeAll_eq_ok`).
-/

namespace NpTree

variable {N : NumPy} {κ : Type}

/-! ## Validation -/

/-- The array has the dtype and the shape that the layout says. -/
structure Matches (arr : Arr N) (d : Desc N) : Prop where
  dtype : arr.dtype = d.dtype
  shape : arr.shape = d.shape

theorem check_eq_ok_iff {arr : Arr N} {text : Text} {d : Desc N}
    (h : parseArrDesc text = .ok d) : check arr text = .ok () ↔ Matches arr d := by
  have hcheck : check arr text =
      if arr.dtype ≠ d.dtype then .error (.dtypeMismatch d.dtype arr.dtype)
      else if arr.shape ≠ d.shape then .error (.shapeMismatch d.shape arr.shape)
      else .ok () := by
    rw [check, h]
    by_cases hdtype : arr.dtype = d.dtype
    · by_cases hshape : arr.shape = d.shape
      · simp only [bind, Except.bind, hdtype, hshape, ne_eq, not_true, if_false]
        rfl
      · simp only [bind, Except.bind, hdtype, hshape, ne_eq, not_true, not_false_eq_true, if_false,
          if_true]
        rfl
    · simp only [bind, Except.bind, hdtype, ne_eq, not_false_eq_true, if_true]
      rfl
  rw [hcheck]
  split_ifs with hdtype hshape
  · exact ⟨fun h => (by cases h), fun hm => absurd hm.dtype hdtype⟩
  · exact ⟨fun h => (by cases h), fun hm => absurd hm.shape hshape⟩
  · exact ⟨fun _ => ⟨not_not.1 hdtype, not_not.1 hshape⟩, fun _ => rfl⟩

theorem forM_check_iff {texts : List Text} {ds : List (Desc N)} (h : Reads texts ds)
    {arrs : List (Arr N)} (hlen : arrs.length = texts.length) :
    (arrs.zip texts).forM (fun p => check p.1 p.2) = .ok () ↔ List.Forall₂ Matches arrs ds := by
  induction h generalizing arrs with
  | nil =>
    obtain rfl := List.length_eq_zero_iff.1 hlen
    exact ⟨fun _ => .nil, fun _ => rfl⟩
  | @cons text d texts ds hread _ ih =>
    obtain ⟨arr, arrs, rfl⟩ := List.exists_cons_of_length_eq_add_one hlen
    rw [List.forall₂_cons, ← check_eq_ok_iff hread, ← ih (Nat.succ.inj hlen), List.zip_cons_cons]
    change (check arr text >>= fun _ => (arrs.zip texts).forM fun p => check p.1 p.2) = _ ↔ _
    cases check arr text with
    | error e => exact ⟨fun h => (by cases h), fun h => (by cases h.1)⟩
    | ok u => exact ⟨fun h => ⟨rfl, h⟩, fun h => h.2⟩

theorem validateLayout_iff [DecidableEq κ] {t : NumpyTree N κ} {layout : LayoutTree κ}
    {ds : List (Desc N)} (h : Reads layout.leaves ds) :
    validateLayout t layout = .ok () ↔
      t.skeleton = layout.skeleton ∧ List.Forall₂ Matches t.leaves ds := by
  rw [validateLayout]
  split_ifs with hskel
  · exact ⟨fun h => (by cases h), fun hv => absurd hv.1 hskel⟩
  · have hlen := Nest.length_leaves_of_skeleton (not_not.1 hskel)
    rw [forM_check_iff h hlen]
    exact ⟨fun hm => ⟨not_not.1 hskel, hm⟩, fun hv => hv.2⟩

/-! ## Serialization -/

/-- Stores the arrays one after the other, up to the first one that cannot be stored. -/
def storeAll (fixed : Bool) :
    List (Arr N × Desc N) → List UInt8 → EStateM.Result (Error N) (List UInt8) Unit
  | [], b => .ok () b
  | (arr, d) :: ps, b =>
    if d.size = 0 then storeAll fixed ps b
    else if ¬ arr.Castable then .error .cast b
    else if fixed ∧ arr.nbytes ≠ (getSlice b d.offset d.size).length then .error .resize b
    else storeAll fixed ps (setSlice b d.offset d.size (arr.tobytes b))

theorem run_serializeLeaf {arr : Arr N} {text : Text} {d : Desc N}
    (h : parseArrDesc text = .ok d) (fixed : Bool) (b : List UInt8) :
    (serializeLeaf fixed arr text).run b =
      if d.size = 0 then .ok () b
      else if ¬ arr.Castable then .error .cast b
      else if fixed ∧ arr.nbytes ≠ (getSlice b d.offset d.size).length then .error .resize b
      else .ok () (setSlice b d.offset d.size (arr.tobytes b)) := by
  rw [serializeLeaf, EStateM.run_bind, run_readDesc h]
  by_cases hsize : d.size = 0
  · simp [hsize]
  · simp only [hsize, ne_eq, not_false_eq_true, if_true, if_false, EStateM.run_bind,
      EStateM.run_get]
    by_cases hcast : arr.Castable
    · rw [Arr.cast_ascontiguousarray hcast, if_neg (not_not.2 hcast)]
      simp only [Arr.length_tobytes]
      split_ifs <;> rfl
    · rw [Arr.cast_eq_error hcast, if_pos hcast]
      rfl

theorem run_serializeLeaves {t : NumpyTree N κ} {layout : LayoutTree κ} {ds : List (Desc N)}
    (h : Reads layout.leaves ds) (hlen : t.leaves.length = layout.leaves.length)
    (b : List UInt8) :
    (serializeLeaves t layout).run b = storeAll (pinned t) (t.leaves.zip ds) b := by
  unfold serializeLeaves
  generalize pinned t = fixed
  generalize t.leaves = arrs at hlen ⊢
  generalize layout.leaves = texts at h hlen ⊢
  induction h generalizing arrs b with
  | nil =>
    obtain rfl := List.length_eq_zero_iff.1 hlen
    rfl
  | @cons text d texts ds hread _ ih =>
    obtain ⟨arr, arrs, rfl⟩ := List.exists_cons_of_length_eq_add_one hlen
    rw [List.zip_cons_cons, List.zip_cons_cons]
    change (serializeLeaf fixed arr text >>= fun _ =>
      (arrs.zip texts).forM fun p => serializeLeaf fixed p.1 p.2).run b = _
    rw [EStateM.run_bind, run_serializeLeaf hread, storeAll]
    split_ifs with hsize hcast hfixed
    · exact ih b arrs (Nat.succ.inj hlen)
    · rfl
    · exact ih _ arrs (Nat.succ.inj hlen)
    · rfl

section Serialize

variable [DecidableEq κ] {t : NumpyTree N κ} {layout : LayoutTree κ} {ds : List (Desc N)}
  {buffer : Option (List UInt8)}

/-- The buffer that is written: the caller's or a new one. -/
def target (size : ℕ) (buffer : Option (List UInt8)) : List UInt8 :=
  buffer.getD (List.replicate size 0)

omit [DecidableEq κ] in
theorem within_of_owned (h : ∀ arr ∈ t.leaves, arr.Owned) : Within t buffer :=
  fun arr harr hnone => absurd hnone (h arr harr)

omit [DecidableEq κ] in
/-- Every buffer that is long enough contains the views of the tree. -/
theorem exists_within (t : NumpyTree N κ) (size : ℕ) :
    ∃ n, size ≤ n ∧ ∀ b : List UInt8, n ≤ b.length → Within t (some b) := by
  refine ⟨size + (t.leaves.flatMap Arr.positions).sum + 1, by omega, fun b hb arr harr _ => ?_⟩
  refine ⟨b, rfl, fun k hk => ?_⟩
  have hle := List.single_le_sum (fun _ _ => Nat.zero_le _) k (List.mem_flatMap.2 ⟨arr, harr, hk⟩)
  omega

/-- What the caller gets: the buffer that was written, which is his own if he gave one. -/
def answer (buffer : Option (List UInt8)) : EStateM.Result (Error N) (List UInt8) Unit →
    EStateM.Result (Error N) (Option (List UInt8)) (List UInt8)
  | .ok _ b => .ok b (buffer.map fun _ => b)
  | .error e b => .error e (buffer.map fun _ => b)

theorem serializeNptree_eq (h : Reads layout.leaves ds) (hskel : t.skeleton = layout.skeleton)
    (hlen : bufferSize 0 ds ≤ (target (bufferSize 0 ds) buffer).length) :
    serializeNptree t layout buffer =
      answer buffer
        (storeAll (pinned t) (t.leaves.zip ds) (target (bufferSize 0 ds) buffer)) := by
  have hrun := run_serializeLeaves (t := t) h (Nest.length_leaves_of_skeleton hskel)
  rw [serializeNptree, if_neg (not_not.2 hskel), calcBufferSize_of_reads h]
  cases buffer with
  | none =>
    simp only [hrun, target, Option.getD_none]
    cases storeAll (pinned t) (t.leaves.zip ds) (List.replicate (bufferSize 0 ds) 0) <;> rfl
  | some b =>
    have hfit : ¬ b.length < bufferSize 0 ds := Nat.not_lt.2 hlen
    simp only [hrun, target, Option.getD_some, hfit, if_false]
    cases storeAll (pinned t) (t.leaves.zip ds) b <;> rfl

/-- What is checked before anything is stored. -/
theorem serializeNptree_eq_error (h : Reads layout.leaves ds)
    (hno : t.skeleton ≠ layout.skeleton ∨
      (target (bufferSize 0 ds) buffer).length < bufferSize 0 ds) :
    ∃ e, serializeNptree t layout buffer = .error e buffer := by
  by_cases hskel : t.skeleton = layout.skeleton
  · have hlt := hno.resolve_left (not_not.2 hskel)
    cases buffer with
    | none => simp [target] at hlt
    | some b =>
      refine ⟨.bufferTooSmall, ?_⟩
      rw [serializeNptree, if_neg (not_not.2 hskel), calcBufferSize_of_reads h]
      exact if_pos hlt
  · exact ⟨.treeStructure, if_pos hskel⟩

end Serialize

/-- The assignments of `storeAll`. -/
def assignments (ps : List (Arr N × Desc N)) : List (Assignment UInt8) :=
  ps.map fun p => ⟨p.2.offset, p.2.size, p.1.tobytes⟩

/-- The buffer after them. -/
def stored (ps : List (Arr N × Desc N)) (b : List UInt8) : List UInt8 :=
  assignAll (assignments ps) b

/-- The array has the size of its descriptor, whose range lies in the buffer. -/
structure Sized (n : ℕ) (p : Arr N × Desc N) : Prop where
  size : p.1.nbytes = p.2.size
  inside : p.2.offset + p.2.size ≤ n

theorem Sized.fits {n : ℕ} {p : Arr N × Desc N} (h : Sized n p) :
    (⟨p.2.offset, p.2.size, p.1.tobytes⟩ : Assignment UInt8).Fits n where
  length b := (p.1.length_tobytes b).trans h.size
  inside := h.inside

theorem fits_assignments {n : ℕ} {ps : List (Arr N × Desc N)} (h : ∀ p ∈ ps, Sized n p) :
    ∀ w ∈ assignments ps, w.Fits n := by
  intro w hw
  obtain ⟨p, hp, rfl⟩ := List.mem_map.1 hw
  exact (h p hp).fits

/-- When the sizes are those of the arrays, the ranges are assigned one after the other. -/
theorem storeAll_eq_ok {ps : List (Arr N × Desc N)} {b : List UInt8} (fixed : Bool)
    (hsized : ∀ p ∈ ps, Sized b.length p) (hcast : ∀ p ∈ ps, p.2.size ≠ 0 → p.1.Castable) :
    storeAll fixed ps b = .ok () (stored ps b) := by
  induction ps generalizing b with
  | nil => rfl
  | cons p ps ih =>
    obtain ⟨arr, d⟩ := p
    rw [List.forall_mem_cons] at hsized hcast
    have hfits := hsized.1.fits
    have hrest := ih (b := setSlice b d.offset d.size (arr.tobytes b))
      (hfits.length_run.symm ▸ hsized.2) hcast.2
    rw [storeAll]
    by_cases hzero : d.size = 0
    · -- Nothing is assigned to an empty range.
      have hnil : arr.tobytes b = [] :=
        List.length_eq_zero_iff.1 ((hfits.length b).trans hzero)
      have hsame : setSlice b d.offset d.size (arr.tobytes b) = b := by
        rw [hnil, hzero]
        exact setSlice_getSlice b d.offset 0
      rw [hsame] at hrest
      rw [if_pos hzero, hrest]
      change _ = EStateM.Result.ok () (stored ps (setSlice b d.offset d.size (arr.tobytes b)))
      rw [hsame]
    · have hlen : (getSlice b d.offset d.size).length = arr.nbytes :=
        (length_getSlice hsized.1.inside).trans hsized.1.size.symm
      rw [if_neg hzero, if_neg (not_not.2 (hcast.1 hzero)), hlen, if_neg (by simp), hrest]
      rfl

/-! ## Reading back -/

/-- The array that a descriptor describes. -/
def view (d : Desc N) : Arr N := .ofBuffer d.dtype d.shape d.offset

/-- NumPy can read items of this dtype from bytes. -/
def Readable (d : N.Dtype) : Prop := N.hasobject d = false ∧ N.itemsize d ≠ 0

instance (d : N.Dtype) : Decidable (Readable d) := inferInstanceAs (Decidable (_ ∧ _))

theorem size_of_parse {text : Text} {d : Desc N} (h : parseArrDesc text = .ok d) :
    d.size = d.shape.prod * N.itemsize d.dtype := by
  unfold parseArrDesc at h
  split at h
  next dtypeStr shapeStr offsetStr _ =>
    cases hdtype : N.dtype dtypeStr with
    | none =>
      rw [hdtype] at h
      cases h
    | some dt =>
      cases hshape : parseShape (N := N) shapeStr with
      | error e =>
        rw [hdtype, hshape] at h
        cases h
      | ok shape =>
        cases hoff : int offsetStr with
        | none =>
          rw [hdtype, hshape, hoff] at h
          cases h
        | some off =>
          rw [hdtype, hshape, hoff] at h
          obtain rfl := Except.ok.inj h
          rfl
  next => cases h

theorem descToArr_eq {b : List UInt8} {text : Text} {d : Desc N}
    (h : parseArrDesc text = .ok d) (hb : d.offset + d.size ≤ b.length) :
    descToArr N b text =
      if Readable d.dtype then .ok (view d) else .error .frombuffer := by
  have hbind : descToArr N b text =
      (Arr.frombuffer d.offset (d.shape.prod * N.itemsize d.dtype) d.dtype).bind
        (·.reshape d.shape) := by
    rw [descToArr, h, ← size_of_parse h, ← length_getSlice hb]
    change Except.bind (Arr.frombuffer (min d.offset b.length) _ _) _ = _
    rw [min_eq_left (by omega)]
  rw [hbind]
  split_ifs with hread
  · exact Arr.reshape_frombuffer d.offset hread.1 hread.2
  · rw [Arr.frombuffer, if_pos]
    · rfl
    · by_contra hno
      obtain ⟨hobject, hrest⟩ := not_or.1 hno
      exact hread ⟨by simpa using hobject, (not_or.1 hrest).1⟩

theorem mapM_descToArr {b : List UInt8} {texts : List Text} {ds : List (Desc N)}
    (h : Reads texts ds) (hb : ∀ d ∈ ds, d.offset + d.size ≤ b.length) :
    texts.mapM (descToArr N b) =
      if ∀ d ∈ ds, Readable d.dtype then .ok (ds.map view) else .error .frombuffer := by
  induction h with
  | nil => rfl
  | @cons text d texts ds hread _ ih =>
    have hrest := ih fun e he => hb e (List.mem_cons_of_mem d he)
    rw [List.mapM_cons, descToArr_eq hread (hb d List.mem_cons_self), hrest]
    simp only [List.forall_mem_cons]
    by_cases hd : Readable d.dtype
    · by_cases hds : ∀ e ∈ ds, Readable e.dtype
      · rw [if_pos hd, if_pos hds, if_pos ⟨hd, hds⟩]
        rfl
      · have hall : ¬ (Readable d.dtype ∧ ∀ e ∈ ds, Readable e.dtype) := fun hall => hds hall.2
        rw [if_pos hd, if_neg hds, if_neg hall]
        rfl
    · have hall : ¬ (Readable d.dtype ∧ ∀ e ∈ ds, Readable e.dtype) := fun hall => hd hall.1
      rw [if_neg hd, if_neg hall]
      rfl

section Deserialize

variable {layout : LayoutTree κ} {ds : List (Desc N)} {b : List UInt8}

theorem deserializeNptree_eq (h : Reads layout.leaves ds) (hb : bufferSize 0 ds ≤ b.length) :
    deserializeNptree N layout (some b) = layout.mapM (descToArr N b) := by
  rw [deserializeNptree, calcBufferSize_of_reads h]
  exact if_neg (Nat.not_lt.2 hb)

/-- Reading a buffer gives the views that the descriptors describe. -/
theorem exists_deserialize (h : Reads layout.leaves ds) (hb : bufferSize 0 ds ≤ b.length)
    (hread : ∀ d ∈ ds, Readable d.dtype) :
    ∃ r : NumpyTree N κ, deserializeNptree N layout (some b) = .ok r ∧
      r.leaves = ds.map view ∧ r.skeleton = layout.skeleton := by
  have hmap := mapM_descToArr h fun d hd => (end_le_bufferSize hd).trans hb
  rw [if_pos hread] at hmap
  rw [deserializeNptree_eq h hb]
  exact Nest.mapM_of_leaves hmap

theorem readable_of_deserialize {r : NumpyTree N κ} (h : Reads layout.leaves ds)
    (hr : deserializeNptree N layout (some b) = .ok r) :
    (∀ d ∈ ds, Readable d.dtype) ∧ r.leaves = ds.map view ∧ r.skeleton = layout.skeleton := by
  by_cases hb : bufferSize 0 ds ≤ b.length
  · rw [deserializeNptree_eq h hb] at hr
    obtain ⟨hleaves, hskel⟩ := Nest.leaves_of_mapM hr
    rw [mapM_descToArr h fun d hd => (end_le_bufferSize hd).trans hb] at hleaves
    by_cases hread : ∀ d ∈ ds, Readable d.dtype
    · rw [if_pos hread] at hleaves
      exact ⟨hread, (Except.ok.inj hleaves).symm, hskel⟩
    · rw [if_neg hread] at hleaves
      cases hleaves
  · have hshort : deserializeNptree N layout (some b) = .error .bufferTooSmall := by
      rw [deserializeNptree, calcBufferSize_of_reads h]
      exact if_pos (Nat.lt_of_not_le hb)
    cases hshort.symm.trans hr

end Deserialize

end NpTree
