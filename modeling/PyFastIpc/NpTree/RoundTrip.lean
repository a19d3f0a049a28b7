import PyFastIpc.NpTree.Store

/-!
# Round trips

A tree that matches a layout is stored so that its bytes are read back, as long as every dtype of
the layout can be copied to and from bytes (`Usable`) and no array reads what the call itself wrote
before (`Settled`).  The ranges of a layout follow each other, so the assignments of
`serialize_nptree` neither overlap nor change the length of the buffer.
-/

namespace NpTree

variable {N : NumPy} {κ : Type}

/-! ## Arrays and their descriptors -/

/-- Arrays of this dtype and size can be written and read. -/
structure Usable (d : N.Dtype) (size : ℕ) : Prop where
  readable : Readable d
  exported : size ≠ 0 → N.exported d = true

/-- The arrays have the sizes of their descriptors, whose ranges follow each other. -/
structure Fits (ps : List (Arr N × Desc N)) (n : ℕ) : Prop where
  sized : ∀ p ∈ ps, Sized n p
  apart : ps.Pairwise fun p q => p.2.offset + p.2.size ≤ q.2.offset

theorem size_of_reads {texts : List Text} {ds : List (Desc N)} (h : Reads texts ds) :
    ∀ d ∈ ds, d.size = d.shape.prod * N.itemsize d.dtype := by
  induction h with
  | nil => exact fun d hd => (by cases hd)
  | cons hread _ ih => exact List.forall_mem_cons.2 ⟨size_of_parse hread, ih⟩

theorem Matches.nbytes {arr : Arr N} {d : Desc N} (h : Matches arr d)
    (hd : d.size = d.shape.prod * N.itemsize d.dtype) : arr.nbytes = d.size := by
  rw [hd, Arr.nbytes, Arr.itemsize, h.dtype, h.shape]

theorem Matches.castable {arr : Arr N} {d : Desc N} (h : Matches arr d)
    (hd : d.size = d.shape.prod * N.itemsize d.dtype) (hu : Usable d.dtype d.size)
    (hsize : d.size ≠ 0) : arr.Castable := by
  refine ⟨by rw [h.dtype]; exact hu.exported hsize, .inr fun hzero => hsize ?_⟩
  rw [hd, ← h.shape, List.prod_eq_zero hzero, Nat.zero_mul]

theorem fits_of_matches {texts : List Text} {ds : List (Desc N)} {arrs : List (Arr N)} {n : ℕ}
    (hreads : Reads texts ds) (hapart : ds.Pairwise fun d e => d.offset + d.size ≤ e.offset)
    (hn : bufferSize 0 ds ≤ n) (hm : List.Forall₂ Matches arrs ds) : Fits (arrs.zip ds) n where
  sized p hp := ⟨(List.forall₂_zip hm hp).nbytes (size_of_reads hreads _ (List.of_mem_zip hp).2),
    (end_le_bufferSize (List.of_mem_zip hp).2).trans hn⟩
  apart := by
    have hsnd : (arrs.zip ds).map Prod.snd = ds := List.map_snd_zip (by rw [hm.length_eq])
    rw [← hsnd, List.pairwise_map] at hapart
    exact hapart

/-- Where an array reads a byte of the range of an earlier one, that byte is in its place: it is
the one that the earlier array has there. -/
def Settled (ps : List (Arr N × Desc N)) : Prop :=
  ps.Pairwise fun p q => ∀ m k, q.1.Lies m k → p.2.offset ≤ k → k < p.2.offset + p.2.size →
    p.1.Lies (k - p.2.offset) k

section Stored

variable {ps : List (Arr N × Desc N)} {b : List UInt8} {p : Arr N × Desc N} {n : ℕ}

theorem settled_of_owned (h : ∀ p ∈ ps, p.1.Owned) : Settled ps :=
  List.pairwise_of_forall_mem_list fun _ _ q hq m k hlies => absurd hlies ((h q hq).not_lies m k)

theorem Fits.assignments_apart (h : Fits ps n) :
    (assignments ps).Pairwise fun v w => v.off + v.size ≤ w.off := by
  rw [assignments, List.pairwise_map]
  exact h.apart

theorem Fits.length_stored (h : Fits ps b.length) : (stored ps b).length = b.length :=
  length_assignAll (fits_assignments h.sized)

theorem Fits.getElem?_stored (h : Fits ps b.length) {i : ℕ}
    (hi : ∀ p ∈ ps, i < p.2.offset ∨ p.2.offset + p.2.size ≤ i) : (stored ps b)[i]? = b[i]? := by
  apply getElem?_assignAll (fits_assignments h.sized)
  intro w hw
  obtain ⟨p, hp, rfl⟩ := List.mem_map.1 hw
  exact hi p hp

/-- Storing an array whose bytes are in their places changes nothing there. -/
theorem Sized.getElem?_run (h : Sized b.length p) {k : ℕ}
    (hk : p.2.offset ≤ k → k < p.2.offset + p.2.size → p.1.Lies (k - p.2.offset) k) :
    (Assignment.run ⟨p.2.offset, p.2.size, p.1.tobytes⟩ b)[k]? = b[k]? := by
  by_cases hin : p.2.offset ≤ k ∧ k < p.2.offset + p.2.size
  · have hlies := hk hin.1 hin.2
    have hle := h.inside
    have hrun := h.fits.getElem?_run_inside (k := k - p.2.offset) (by dsimp only; omega)
    dsimp only at hrun
    rw [Nat.add_sub_cancel' hin.1] at hrun
    rw [hrun, hlies.getElem?_tobytes, List.getD_eq_getElem?_getD,
      List.getElem?_eq_getElem (show k < b.length by omega)]
    rfl
  · apply h.fits.getElem?_run
    dsimp only
    omega

/-- Each range holds the bytes that its array had. -/
theorem Fits.getSlice_stored (h : Fits ps b.length) (hsettled : Settled ps) (hp : p ∈ ps) :
    getSlice (stored ps b) p.2.offset p.2.size = p.1.tobytes b := by
  have hread : (assignments ps).Pairwise fun v w => ∀ c, c.length = b.length →
      w.value (v.run c) = w.value c := by
    rw [assignments, List.pairwise_map]
    refine hsettled.imp_of_mem fun {p q} hp _ hpq c hc => ?_
    apply Arr.tobytes_of_lies
    intro m k hlies
    exact (hc.symm ▸ h.sized p hp).getElem?_run (hpq m k hlies)
  exact getSlice_assignAll (fits_assignments h.sized) h.assignments_apart hread rfl
    (List.mem_map_of_mem hp)

/-- The condition is necessary: an array that reads a byte that was changed before does not end up
in the buffer as it was. -/
theorem Fits.settled (h : Fits ps n)
    (hall : ∀ b : List UInt8, b.length = n → ∀ p ∈ ps,
      getSlice (stored ps b) p.2.offset p.2.size = p.1.tobytes b) : Settled ps := by
  refine h.apart.imp_of_mem fun {p q} hp hq hpq m k hlies hle hlt => ?_
  by_contra hno
  have hsized := h.sized p hp
  have hin := hsized.inside
  have hk : k - p.2.offset < p.2.size := by omega
  obtain ⟨b, rfl, hdiff⟩ := Arr.exists_differs (n := n) (k := k) (hsized.size.symm ▸ hk)
    (by omega) hno
  obtain ⟨l, hread, hbefore⟩ := exists_read (fits_assignments h.sized) h.assignments_apart
    (List.mem_map_of_mem hq)
  have hsame : q.1.tobytes l = q.1.tobytes b := hread.symm.trans (hall b rfl q hq)
  have hstored : (stored ps b)[k]? = (p.1.tobytes b)[k - p.2.offset]? := by
    rw [← hall b rfl p hp, getElem?_getSlice hk, Nat.add_sub_cancel' hle]
  have hl : l[k]? = (p.1.tobytes b)[k - p.2.offset]? := by
    rw [← hstored]
    exact hbefore k (by dsimp only; omega)
  have hvalue := congrArg (fun bs => bs[m]?) hsame
  simp only [hlies.getElem?_tobytes, Option.some.injEq, List.getD_eq_getElem?_getD] at hvalue
  rw [hl] at hvalue
  apply hdiff
  have hbk := List.getElem?_eq_getElem (show k < b.length by omega)
  have hlen : k - p.2.offset < (p.1.tobytes b).length := by
    rw [p.1.length_tobytes, hsized.size]
    exact hk
  rw [List.getElem?_eq_getElem hlen, hbk] at hvalue ⊢
  exact congrArg some hvalue

end Stored

/-! ## Trees -/

/-- The two arrays, each with its buffer, have the same dtype, shape and items. -/
structure Same (b b' : List UInt8) (arr arr' : Arr N) : Prop where
  dtype : arr.dtype = arr'.dtype
  shape : arr.shape = arr'.shape
  elements : arr.elements b = arr'.elements b'

/-- The two trees, each with its buffer, have the same structure, and the same arrays at their
leaves. -/
structure SameTree (b b' : List UInt8) (t t' : NumpyTree N κ) : Prop where
  skeleton : t.skeleton = t'.skeleton
  leaves : List.Forall₂ (Same b b') t.leaves t'.leaves

theorem tobytes_view {d : Desc N} {b : List UInt8}
    (hd : d.size = d.shape.prod * N.itemsize d.dtype) (hb : d.offset + d.size ≤ b.length) :
    (view d).tobytes b = getSlice b d.offset d.size := by
  rw [hd] at hb ⊢
  exact Arr.tobytes_ofBuffer _ hb

/-- A view of a range that holds the bytes of an array is that array. -/
theorem same_view {arr : Arr N} {d : Desc N} {b b' : List UInt8} (hm : Matches arr d)
    (hd : d.size = d.shape.prod * N.itemsize d.dtype) (hb : d.offset + d.size ≤ b.length)
    (h : getSlice b d.offset d.size = arr.tobytes b') : Same b b' (view d) arr := by
  have hshape : (view d).shape = arr.shape := (Arr.shape_ofBuffer _ _ _).trans hm.shape.symm
  have hbytes : (view d).tobytes b = arr.tobytes b' := (tobytes_view hd hb).trans h
  exact ⟨hm.dtype.symm, hshape, Arr.elements_congr hm.dtype.symm hshape hbytes⟩

theorem matches_view (d : Desc N) : Matches (view d) d := ⟨rfl, Arr.shape_ofBuffer _ _ _⟩

theorem matches_own {arr : Arr N} {d : Desc N} (h : Matches arr d) (b : List UInt8) :
    Matches (arr.own b) d := ⟨h.dtype, h.shape⟩

theorem forall₂_matches_map {f : Desc N → Arr N} (h : ∀ d, Matches (f d) d) (ds : List (Desc N)) :
    List.Forall₂ Matches (ds.map f) ds := by
  rw [List.forall₂_map_left_iff, List.forall₂_same]
  exact fun d _ => h d

/-- Only arrays that can be cast are stored. -/
theorem castable_of_storeAll {fixed : Bool} {ps : List (Arr N × Desc N)} {b b' : List UInt8}
    (h : storeAll fixed ps b = .ok () b') : ∀ p ∈ ps, p.2.size ≠ 0 → p.1.Castable := by
  induction ps generalizing b with
  | nil => exact fun p hp => (by cases hp)
  | cons p ps ih =>
    obtain ⟨arr, d⟩ := p
    rw [storeAll] at h
    split_ifs at h with hzero hcast hfixed
    · exact List.forall_mem_cons.2 ⟨fun hsize => absurd hzero hsize, ih h⟩
    · exact List.forall_mem_cons.2 ⟨fun _ => hcast, ih h⟩

/-- Where arrays that match were stored, arrays can be written. -/
theorem usable_of_storeAll {fixed : Bool} {arrs : List (Arr N)} {ds : List (Desc N)}
    {b b' : List UInt8} (hm : List.Forall₂ Matches arrs ds) (hread : ∀ d ∈ ds, Readable d.dtype)
    (h : storeAll fixed (arrs.zip ds) b = .ok () b') : ∀ d ∈ ds, Usable d.dtype d.size := by
  have hcast := castable_of_storeAll h
  clear h
  induction hm with
  | nil => exact fun d hd => (by cases hd)
  | cons hmatch _ ih =>
    rw [List.zip_cons_cons, List.forall_mem_cons] at hcast
    rw [List.forall_mem_cons] at hread ⊢
    refine ⟨⟨hread.1, fun hsize => ?_⟩, ih hread.2 hcast.2⟩
    rw [← hmatch.dtype]
    exact (hcast.1 hsize).1

/-- What a layout says about its leaves, in terms of the arrays that it was built from. -/
theorem forall_place {P : N.Dtype → ℕ → Prop} {a o : ℕ} {arrs : List (Arr N)} :
    (∀ d ∈ place a o arrs, P d.dtype d.size) ↔ ∀ arr ∈ arrs, P (N.read arr.dtype) arr.nbytes := by
  induction arrs generalizing o with
  | nil => simp [place]
  | cons arr arrs ih => rw [place, List.forall_mem_cons, List.forall_mem_cons, ih]

section Layouts

variable {layout : LayoutTree κ} {ds : List (Desc N)} {t : NumpyTree N κ}
  {buffer : Option (List UInt8)}

/-- A buffer that holds the bytes of an accepted tree is read as that tree. -/
theorem deserialize_of_holds {b b' : List UInt8} (hreads : Reads layout.leaves ds)
    (hread : ∀ d ∈ ds, Readable d.dtype) (hskel : t.skeleton = layout.skeleton)
    (hm : List.Forall₂ Matches t.leaves ds) (hb : bufferSize 0 ds ≤ b.length)
    (h : ∀ p ∈ t.leaves.zip ds, getSlice b p.2.offset p.2.size = p.1.tobytes b') :
    ∃ r, deserializeNptree N layout (some b) = .ok r ∧ SameTree b b' r t := by
  obtain ⟨r, hr, hleaves, hrskel⟩ := exists_deserialize hreads hb hread
  refine ⟨r, hr, hrskel.trans hskel.symm, ?_⟩
  rw [hleaves, List.forall₂_map_left_iff]
  refine List.Forall₂.flip (List.forall₂_iff_zip.2 ⟨hm.length_eq, fun {arr d} hp => ?_⟩)
  have hd : d ∈ ds := (List.of_mem_zip hp).2
  exact same_view (List.forall₂_zip hm hp) (size_of_reads hreads d hd)
    ((end_le_bufferSize hd).trans hb) (h (arr, d) hp)

/-- An answer that is a buffer comes from stores that all succeeded. -/
theorem storeAll_of_answer {res : EStateM.Result (Error N) (List UInt8) Unit} {b' : List UInt8}
    {c : Option (List UInt8)} (h : answer buffer res = .ok b' c) : res = .ok () b' := by
  cases res with
  | ok u b =>
    cases h
    rfl
  | error e b => cases h

variable [DecidableEq κ]

/-- What storing an accepted tree does to the buffer. -/
theorem serialize_of_matches (hreads : Reads layout.leaves ds)
    (husable : ∀ d ∈ ds, Usable d.dtype d.size) (hskel : t.skeleton = layout.skeleton)
    (hm : List.Forall₂ Matches t.leaves ds)
    (hfits : Fits (t.leaves.zip ds) (target (bufferSize 0 ds) buffer).length)
    (hlen : bufferSize 0 ds ≤ (target (bufferSize 0 ds) buffer).length) :
    serializeNptree t layout buffer =
      .ok (stored (t.leaves.zip ds) (target (bufferSize 0 ds) buffer))
        (buffer.map fun _ => stored (t.leaves.zip ds) (target (bufferSize 0 ds) buffer)) := by
  have hcast : ∀ p ∈ t.leaves.zip ds, p.2.size ≠ 0 → p.1.Castable := by
    intro p hp
    have hd := (List.of_mem_zip hp).2
    exact (List.forall₂_zip hm hp).castable (size_of_reads hreads _ hd) (husable _ hd)
  rw [serializeNptree_eq hreads hskel hlen, storeAll_eq_ok _ hfits.sized hcast]
  rfl

/-- The tree is stored in the buffer, beside which nothing changes, and read back from it as it was
when the call began. -/
def Stored (layout : LayoutTree κ) (ds : List (Desc N)) (size : ℕ) (t : NumpyTree N κ)
    (buffer : Option (List UInt8)) : Prop :=
  ∃ b', serializeNptree t layout buffer = .ok b' (buffer.map fun _ => b') ∧
    b'.length = (target size buffer).length ∧
    (∀ i, (∀ d ∈ ds, i < d.offset ∨ d.offset + d.size ≤ i) → b'[i]? = (target size buffer)[i]?) ∧
    ∃ r, deserializeNptree N layout (some b') = .ok r ∧ SameTree b' (target size buffer) r t

/-- The tree that is read from the buffer is stored there as it is, and in every other buffer so
that the ranges become the same. -/
def Loaded (N : NumPy) (layout : LayoutTree κ) (ds : List (Desc N)) (size : ℕ)
    (b : List UInt8) : Prop :=
  ∃ r, deserializeNptree N layout (some b) = .ok r ∧
    serializeNptree r layout (some b) = .ok b (some b) ∧
    ∀ buffer, size ≤ (target size buffer).length →
      ∃ b', serializeNptree (r.map (·.own b)) layout buffer = .ok b' (buffer.map fun _ => b') ∧
        ∀ d ∈ ds, getSlice b' d.offset d.size = getSlice b d.offset d.size

section Usable

variable (hreads : Reads layout.leaves ds)
  (hapart : ds.Pairwise fun d e => d.offset + d.size ≤ e.offset)
  (husable : ∀ d ∈ ds, Usable d.dtype d.size)
include hreads hapart husable

theorem stored_of_usable (hskel : t.skeleton = layout.skeleton)
    (hm : List.Forall₂ Matches t.leaves ds) (hsettled : Settled (t.leaves.zip ds))
    (hlen : bufferSize 0 ds ≤ (target (bufferSize 0 ds) buffer).length) :
    Stored layout ds (bufferSize 0 ds) t buffer := by
  have hfits := fits_of_matches hreads hapart hlen hm
  refine ⟨_, serialize_of_matches hreads husable hskel hm hfits hlen, hfits.length_stored,
    fun i hi => hfits.getElem?_stored fun p hp => hi p.2 (List.of_mem_zip hp).2, ?_⟩
  exact deserialize_of_holds hreads (fun d hd => (husable d hd).readable) hskel hm
    (hfits.length_stored.symm ▸ hlen) fun p hp => hfits.getSlice_stored hsettled hp

theorem loaded_of_usable {b : List UInt8} (hb : bufferSize 0 ds ≤ b.length) :
    Loaded N layout ds (bufferSize 0 ds) b := by
  obtain ⟨r, hr, hleaves, hskel⟩ :=
    exists_deserialize hreads hb fun d hd => (husable d hd).readable
  have hview {d : Desc N} (hd : d ∈ ds) : (view d).tobytes b = getSlice b d.offset d.size :=
    tobytes_view (size_of_reads hreads d hd) ((end_le_bufferSize hd).trans hb)
  refine ⟨r, hr, ?_, fun buffer hlen => ?_⟩
  · -- Every array is assigned to its own place.
    have hm : List.Forall₂ Matches r.leaves ds := by
      rw [hleaves]
      exact forall₂_matches_map matches_view ds
    have hfits := fits_of_matches hreads hapart hb hm
    have hsame : stored (r.leaves.zip ds) b = b := by
      apply assignAll_eq_self
      intro w hw
      obtain ⟨p, hp, rfl⟩ := List.mem_map.1 hw
      rw [hleaves, ← List.map_id ds, List.map_map, List.zip_map'] at hp
      obtain ⟨d, hd, rfl⟩ := List.mem_map.1 hp
      change setSlice b d.offset d.size ((view d).tobytes b) = b
      rw [hview hd, setSlice_getSlice]
    have hser : serializeNptree r layout (some b) =
        .ok (stored (r.leaves.zip ds) b) (some (stored (r.leaves.zip ds) b)) :=
      serialize_of_matches hreads husable hskel hm hfits hb
    rwa [hsame] at hser
  · have hown : (r.map (·.own b)).leaves = ds.map fun d => (view d).own b := by
      rw [Nest.leaves_map, hleaves, List.map_map]
      rfl
    have hm : List.Forall₂ Matches (r.map (·.own b)).leaves ds := by
      rw [hown]
      exact forall₂_matches_map (fun d => matches_own (matches_view d) b) ds
    have hfits := fits_of_matches hreads hapart hlen hm
    have hsettled : Settled ((r.map (·.own b)).leaves.zip ds) := by
      apply settled_of_owned
      intro p hp hnone
      obtain ⟨arr, -, harr⟩ := List.mem_map.1 (Nest.leaves_map _ r ▸ (List.of_mem_zip hp).1)
      rw [← harr] at hnone
      cases hnone
    refine ⟨_, serialize_of_matches hreads husable ((Nest.skeleton_map _ r).trans hskel) hm hfits
      hlen, fun d hd => ?_⟩
    have hp : ((view d).own b, d) ∈ (r.map (·.own b)).leaves.zip ds := by
      rw [hown, ← List.map_id ds, List.map_map, List.zip_map']
      exact List.mem_map.2 ⟨d, hd, rfl⟩
    rw [hfits.getSlice_stored hsettled hp, ← hview hd]
    exact Arr.tobytes_own _

end Usable

/-- What is known when a tree that matches was stored and read back. -/
theorem Stored.usable (h : Stored layout ds (bufferSize 0 ds) t buffer)
    (hreads : Reads layout.leaves ds) (hskel : t.skeleton = layout.skeleton)
    (hm : List.Forall₂ Matches t.leaves ds)
    (hlen : bufferSize 0 ds ≤ (target (bufferSize 0 ds) buffer).length) :
    ∀ d ∈ ds, Usable d.dtype d.size := by
  obtain ⟨b', hser, -, -, r, hr, -⟩ := h
  rw [serializeNptree_eq hreads hskel hlen] at hser
  exact usable_of_storeAll hm (readable_of_deserialize hreads hr).1 (storeAll_of_answer hser)

/-- An accepted tree is stored and read back with every buffer that contains its views exactly when
its dtypes can be used and none of its arrays reads what was written before. -/
theorem stored_iff (hreads : Reads layout.leaves ds)
    (hapart : ds.Pairwise fun d e => d.offset + d.size ≤ e.offset)
    (hskel : t.skeleton = layout.skeleton) (hm : List.Forall₂ Matches t.leaves ds) :
    (∀ buffer, Within t buffer → bufferSize 0 ds ≤ (target (bufferSize 0 ds) buffer).length →
      Stored layout ds (bufferSize 0 ds) t buffer) ↔
    (∀ d ∈ ds, Usable d.dtype d.size) ∧ Settled (t.leaves.zip ds) := by
  constructor
  · intro hall
    obtain ⟨n, hn, hwithin⟩ := exists_within t (bufferSize 0 ds)
    have hzeros : n ≤ (List.replicate n (0 : UInt8)).length := by simp
    have husable := (hall (some _) (hwithin _ hzeros) (hn.trans hzeros)).usable hreads hskel hm
      (hn.trans hzeros)
    refine ⟨husable, (fits_of_matches hreads hapart hn hm).settled fun b hb p hp => ?_⟩
    have hlen : bufferSize 0 ds ≤ b.length := hn.trans hb.ge
    have hfits := fits_of_matches hreads hapart hlen hm
    obtain ⟨b', hser, -, -, r, hr, hsame⟩ := hall (some b) (hwithin b hb.ge) hlen
    have heq : serializeNptree t layout (some b) = .ok (stored (t.leaves.zip ds) b) _ :=
      serialize_of_matches hreads husable hskel hm hfits hlen
    rw [hser] at heq
    injection heq with hb'
    obtain ⟨-, hleaves, -⟩ := readable_of_deserialize hreads hr
    have hleaf := hsame.leaves
    rw [hleaves, List.forall₂_map_left_iff] at hleaf
    have hd := (List.of_mem_zip hp).2
    have helems := List.forall₂_zip hleaf.flip hp
    rw [← tobytes_view (size_of_reads hreads _ hd), Arr.tobytes, ← hb', helems.elements]
    · rfl
    · rw [hfits.length_stored]
      exact (end_le_bufferSize hd).trans hlen
  · rintro ⟨husable, hsettled⟩ buffer - hlen
    exact stored_of_usable hreads hapart husable hskel hm hsettled hlen

theorem loaded_iff (hreads : Reads layout.leaves ds)
    (hapart : ds.Pairwise fun d e => d.offset + d.size ≤ e.offset) :
    (∀ b : List UInt8, bufferSize 0 ds ≤ b.length → Loaded N layout ds (bufferSize 0 ds) b) ↔
      ∀ d ∈ ds, Usable d.dtype d.size := by
  constructor
  · intro hall
    have hb : bufferSize 0 ds ≤ (List.replicate (bufferSize 0 ds) (0 : UInt8)).length := by simp
    obtain ⟨r, hr, hser, -⟩ := hall _ hb
    obtain ⟨hread, hleaves, hskel⟩ := readable_of_deserialize hreads hr
    have heq : serializeNptree r layout (some (List.replicate (bufferSize 0 ds) 0)) = _ :=
      serializeNptree_eq hreads hskel hb
    rw [heq] at hser
    refine usable_of_storeAll ?_ hread (storeAll_of_answer hser)
    rw [hleaves]
    exact forall₂_matches_map matches_view ds
  · exact fun husable b hb => loaded_of_usable hreads hapart husable hb

end Layouts

/-! ## Layouts of trees -/

section Build

variable [DecidableEq κ]

/-- Under the layout of a tree, an accepted tree is stored and read back with every buffer that
contains its views exactly when the dtypes that the texts of the leaves are read as have items that
can be read and, for the leaves that are not empty, cast, and no array reads what the call wrote
before; what is read from a buffer is stored as it was exactly when the dtypes are such. -/
theorem roundTrips_iff (hN : N.Documented) (t : NumpyTree N κ) (k : ℕ) :
    ∃ (layout : LayoutTree κ) (ds : List (Desc N)) (size : ℕ),
      buildNptreeLayout t (2 ^ k) = .ok layout ∧ Reads layout.leaves ds ∧
      calcBufferSize N layout = .ok size ∧
      (∀ t', validateLayout t' layout = .ok () →
        ((∀ buffer, Within t' buffer → size ≤ (target size buffer).length →
            Stored layout ds size t' buffer) ↔
          (∀ arr ∈ t.leaves, Usable (N.read arr.dtype) arr.nbytes) ∧
            Settled (t'.leaves.zip ds))) ∧
      ((∀ b : List UInt8, size ≤ b.length → Loaded N layout ds size b) ↔
        ∀ arr ∈ t.leaves, Usable (N.read arr.dtype) arr.nbytes) := by
  obtain ⟨layout, hbuild, hlaid⟩ := exists_laid hN t k
  have hapart := pairwise_place (Nat.two_pow_pos k) 0 t.leaves
  refine ⟨layout, _, _, hbuild, hlaid.reads, calcBufferSize_of_reads hlaid.reads,
    fun t' hvalid => ?_, ?_⟩
  · obtain ⟨hskel, hm⟩ := (validateLayout_iff hlaid.reads).1 hvalid
    rw [stored_iff hlaid.reads hapart hskel hm, forall_place]
  · rw [loaded_iff hlaid.reads hapart, forall_place]

/-- A column-major array, one without dimensions and one without items. -/
def mixedTree : NumpyTree someNumPy String :=
  .node "list" [
    .leaf ⟨.i4, [(2, 4), (3, 8)], some (memoryOf ((List.range 24).map UInt8.ofNat)), 0⟩,
    .node "tuple" [.leaf (someArray .b1 [] [1]), .leaf (someArray .swapped [0, 2] [])]]

theorem roundTrips_mixedTree : ∃ (layout : LayoutTree String) (ds : List (Desc someNumPy))
    (size : ℕ), buildNptreeLayout mixedTree 8 = .ok layout ∧ Reads layout.leaves ds ∧
      calcBufferSize someNumPy layout = .ok size ∧
      (∀ t', validateLayout t' layout = .ok () → Settled (t'.leaves.zip ds) →
        ∀ buffer, Within t' buffer → size ≤ (target size buffer).length →
          Stored layout ds size t' buffer) ∧
      ∀ b : List UInt8, size ≤ b.length → Loaded someNumPy layout ds size b := by
  obtain ⟨layout, ds, size, hbuild, hreads, hsize, hstore, hload⟩ :=
    roundTrips_iff documented_someNumPy mixedTree 3
  have husable : ∀ arr ∈ mixedTree.leaves, Usable (someNumPy.read arr.dtype) arr.nbytes :=
    List.forall_mem_cons.2 ⟨⟨by decide, fun _ => rfl⟩, List.forall_mem_cons.2
      ⟨⟨by decide, fun _ => rfl⟩, List.forall_mem_singleton.2 ⟨by decide, fun h => absurd rfl h⟩⟩⟩
  exact ⟨layout, ds, size, hbuild, hreads, hsize,
    fun t' hvalid hsettled => (hstore t' hvalid).2 ⟨husable, hsettled⟩, hload.2 husable⟩

/-- One date. -/
def dateTree : NumpyTree someNumPy String := .leaf (someArray .date [1] [1, 0, 0, 0, 0, 0, 0, 0])

/-- A date is given a layout and accepted, but not stored. -/
theorem dateTree_not_stored : ∃ layout : LayoutTree String,
    buildNptreeLayout dateTree 8 = .ok layout ∧ validateLayout dateTree layout = .ok () ∧
      serializeNptree dateTree layout none = .error .cast none ∧
      ∀ ds size, ¬ Stored layout ds size dateTree none := by
  have hrun : ∃ layout : LayoutTree String, buildNptreeLayout dateTree 8 = .ok layout ∧
      validateLayout dateTree layout = .ok () ∧
      serializeNptree dateTree layout none = .error .cast none := ⟨_, rfl, rfl, rfl⟩
  obtain ⟨layout, hbuild, hvalid, herror⟩ := hrun
  refine ⟨layout, hbuild, hvalid, herror, ?_⟩
  rintro ds size ⟨b', hser, -⟩
  cases herror.symm.trans hser

/-- Two numbers. -/
def twoTree : NumpyTree someNumPy String :=
  .node "list" [.leaf (someArray .i4 [1] [1, 0, 0, 0]), .leaf (someArray .i4 [1] [2, 0, 0, 0])]

/-- Two views of a buffer, each at the place of the other. -/
def crossedTree : NumpyTree someNumPy String :=
  .node "list" [.leaf (.ofBuffer SomeDtype.i4 [1] 8), .leaf (.ofBuffer SomeDtype.i4 [1] 0)]

/-- The second one reads what the first one was stored as. -/
example : ∃ layout : LayoutTree String, buildNptreeLayout twoTree 8 = .ok layout ∧
    serializeNptree crossedTree layout (some [1, 0, 0, 0, 0, 0, 0, 0, 2, 0, 0, 0]) =
      .ok [2, 0, 0, 0, 0, 0, 0, 0, 2, 0, 0, 0] (some [2, 0, 0, 0, 0, 0, 0, 0, 2, 0, 0, 0]) :=
  ⟨_, rfl, rfl⟩

theorem matches_place {a o : ℕ} {arrs : List (Arr N)} :
    List.Forall₂ Matches arrs (place a o arrs) ↔ ∀ arr ∈ arrs, N.read arr.dtype = arr.dtype := by
  induction arrs generalizing o with
  | nil => simp [place]
  | cons arr arrs ih =>
    rw [place, List.forall₂_cons, List.forall_mem_cons, ih]
    exact and_congr_left fun _ => ⟨fun h => h.dtype.symm, fun h => ⟨h.symm, rfl⟩⟩

theorem NumPy.Documented.read_eq_iff (hN : N.Documented) (d : N.Dtype) :
    N.read d = d ↔ N.dtype (N.str d) = some d := by
  rw [hN.dtype_read, Option.some_inj]

/-- A tree can be stored under its own layout and read back with its dtypes exactly when the text of
every dtype in it is read as that dtype, whose items can be read and, for the leaves that are not
empty, cast. -/
theorem storable_iff (hN : N.Documented) {t : NumpyTree N κ} {alignment : ℤ}
    {layout : LayoutTree κ} (h : buildNptreeLayout t alignment = .ok layout) :
    (validateLayout t layout = .ok () ∧ ∃ b, serializeNptree t layout none = .ok b none ∧
      ∃ r, deserializeNptree N layout (some b) = .ok r ∧
        r.leaves.map (·.dtype) = t.leaves.map (·.dtype)) ↔
    ∀ arr ∈ t.leaves, N.dtype (N.str arr.dtype) = some arr.dtype ∧
      Usable arr.dtype arr.nbytes := by
  obtain ⟨k, -, hlaid⟩ := laid_of_build hN h
  have hreads := hlaid.reads
  have hapart := pairwise_place (Nat.two_pow_pos k) 0 t.leaves
  have hlen : bufferSize 0 (place (2 ^ k) 0 t.leaves) ≤
      (target (bufferSize 0 (place (2 ^ k) 0 t.leaves)) none).length := by simp [target]
  constructor
  · rintro ⟨hvalid, b, hser, r, hr, -⟩
    obtain ⟨hskel, hm⟩ := (validateLayout_iff hreads).1 hvalid
    have hsame := matches_place.1 hm
    rw [serializeNptree_eq hreads hskel hlen] at hser
    have hall := forall_place.1
      (usable_of_storeAll hm (readable_of_deserialize hreads hr).1 (storeAll_of_answer hser))
    intro arr harr
    have heq := hsame arr harr
    rw [← hN.read_eq_iff]
    exact ⟨heq, heq ▸ hall arr harr⟩
  · intro hall
    have hm : List.Forall₂ Matches t.leaves (place (2 ^ k) 0 t.leaves) :=
      matches_place.2 fun arr harr => (hN.read_eq_iff _).2 (hall arr harr).1
    have husable : ∀ d ∈ place (2 ^ k) 0 t.leaves, Usable d.dtype d.size :=
      forall_place.2 fun arr harr => by
        rw [(hN.read_eq_iff _).2 (hall arr harr).1]
        exact (hall arr harr).2
    have hfits := fits_of_matches hreads hapart hlen hm
    have hser := serialize_of_matches hreads husable hlaid.skeleton.symm hm hfits hlen
    obtain ⟨r, hr, hleaves, -⟩ := exists_deserialize hreads (hfits.length_stored.symm ▸ hlen)
      fun d hd => (husable d hd).readable
    refine ⟨(validateLayout_iff hreads).2 ⟨hlaid.skeleton.symm, hm⟩, _, hser, r, hr, ?_⟩
    have hdtypes := hm.flip.imp fun d arr hmatch => hmatch.dtype.symm
    rw [← List.forall₂_map_right_iff, ← List.forall₂_map_left_iff, List.forall₂_eq_eq_eq]
      at hdtypes
    rw [hleaves, List.map_map, ← hdtypes]
    rfl

theorem storable_mixedTree : ∃ layout : LayoutTree String,
    buildNptreeLayout mixedTree 8 = .ok layout ∧ validateLayout mixedTree layout = .ok () ∧
      ∃ b, serializeNptree mixedTree layout none = .ok b none ∧
        ∃ r, deserializeNptree someNumPy layout (some b) = .ok r ∧
          r.leaves.map (·.dtype) = mixedTree.leaves.map (·.dtype) := by
  have hbuild : ∃ layout : LayoutTree String, buildNptreeLayout mixedTree 8 = .ok layout :=
    ⟨_, rfl⟩
  obtain ⟨layout, hbuild⟩ := hbuild
  refine ⟨layout, hbuild, (storable_iff documented_someNumPy hbuild).2 ?_⟩
  exact List.forall_mem_cons.2 ⟨⟨rfl, by decide, fun _ => rfl⟩, List.forall_mem_cons.2
    ⟨⟨rfl, by decide, fun _ => rfl⟩,
      List.forall_mem_singleton.2 ⟨rfl, by decide, fun h => absurd rfl h⟩⟩⟩

/-- One item of two named fields. -/
def pairTree : NumpyTree someNumPy String := .leaf (someArray .pair [1] [1, 0, 0, 0, 2, 0, 0, 0])

/-- A structured array does not match its own layout, which says `|V8`, and is not read back with
its fields. -/
theorem pairTree_not_storable : ∃ (layout : LayoutTree String) (b : List UInt8)
    (r : NumpyTree someNumPy String), buildNptreeLayout pairTree 8 = .ok layout ∧
      validateLayout pairTree layout = .error (.dtypeMismatch SomeDtype.v8 SomeDtype.pair) ∧
      serializeNptree pairTree layout none = .ok b none ∧
      deserializeNptree someNumPy layout (some b) = .ok r ∧
      r.leaves.map (·.dtype) = [SomeDtype.v8] := ⟨_, _, _, rfl, rfl, rfl, rfl, rfl⟩

end Build

end NpTree
