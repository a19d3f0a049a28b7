import PyFastIpc.NpTree.RoundTrip

/-!
# Trees that do not match the layout

`serialize_nptree` compares the structures and the size of the buffer, but neither dtypes nor
shapes.  With a tree that only differs in these it fails without a trace exactly when the first
array that it cannot store comes before every array whose storing changes something (`Refuses`).
Arrays that do not view the buffer change it, so without views this is the first leaf that is not
empty in the layout.
-/

namespace NpTree

variable {N : NumPy} {κ : Type}

/-! ## What the stores leave behind -/

/-- The array is the range of the buffer that its descriptor says. -/
structure InPlace (p : Arr N × Desc N) : Prop where
  castable : p.1.Castable
  size : p.1.nbytes = p.2.size
  lies : ∀ m < p.2.size, p.1.Lies m (p.2.offset + m)

/-- The first array that is to be stored and is not in its place already cannot be stored: it cannot
be cast, or it has another size while the buffer is fixed. -/
def Refuses (fixed : Bool) (ps : List (Arr N × Desc N)) : Prop :=
  ∃ qs p rs, ps = qs ++ p :: rs ∧ (∀ q ∈ qs, q.2.size = 0 ∨ InPlace q) ∧ p.2.size ≠ 0 ∧
    (¬ p.1.Castable ∨ fixed ∧ p.1.nbytes ≠ p.2.size)

section Stores

variable {fixed : Bool} {p : Arr N × Desc N} {ps : List (Arr N × Desc N)} {b : List UInt8}

theorem storeAll_cons_of_inPlace (h : p.2.size = 0 ∨ InPlace p)
    (hin : p.2.offset + p.2.size ≤ b.length) :
    storeAll fixed (p :: ps) b = storeAll fixed ps b := by
  obtain ⟨arr, d⟩ := p
  rw [storeAll]
  split_ifs with hzero hcast hfixed
  · rfl
  · have hplace := h.resolve_left hzero
    exact absurd (hplace.size.trans (length_getSlice hin).symm) hfixed.2
  · have hplace := h.resolve_left hzero
    have hsized : Sized b.length (arr, d) := ⟨hplace.size, hin⟩
    have hsame : setSlice b d.offset d.size (arr.tobytes b) = b := by
      apply List.ext_getElem?
      intro k
      refine hsized.getElem?_run fun hle hlt => ?_
      have hlies := hplace.lies (k - d.offset) (by dsimp only at *; omega)
      dsimp only at hle hlies
      rwa [Nat.add_sub_cancel' hle] at hlies
    rw [hsame]
  · exact absurd (h.resolve_left hzero).castable hcast

/-- Without views, it is the first array that is to be stored at all. -/
theorem refuses_iff_of_owned (h : ∀ p ∈ ps, p.1.Owned) :
    Refuses false ps ↔ ∃ p, ps.find? (fun p => p.2.size ≠ 0) = some p ∧ ¬ p.1.Castable := by
  constructor
  · rintro ⟨qs, p, rs, rfl, hqs, hsize, hbad⟩
    have hcast := hbad.resolve_right fun hfixed => Bool.false_ne_true hfixed.1
    refine ⟨p, List.find?_eq_some_iff_append.2 ⟨by simpa using hsize, qs, rs, rfl, ?_⟩, hcast⟩
    intro q hq
    rcases hqs q hq with hzero | hplace
    · simp [hzero]
    · have howned := h q (List.mem_append_left _ hq)
      have hzero : q.2.size = 0 := by
        by_contra hpos
        exact howned.not_lies _ _ (hplace.lies 0 (Nat.pos_of_ne_zero hpos))
      simp [hzero]
  · rintro ⟨p, hfind, hcast⟩
    obtain ⟨hsize, qs, rs, rfl, hqs⟩ := List.find?_eq_some_iff_append.1 hfind
    exact ⟨qs, p, rs, rfl, fun q hq => .inl (by simpa using hqs q hq), by simpa using hsize,
      .inl hcast⟩

/-- Nothing was changed when an array is refused. -/
theorem storeAll_of_refuses (h : Refuses fixed ps)
    (hin : ∀ p ∈ ps, p.2.offset + p.2.size ≤ b.length) :
    ∃ e, storeAll fixed ps b = .error e b := by
  obtain ⟨qs, p, rs, rfl, hqs, hsize, hbad⟩ := h
  induction qs with
  | nil =>
    obtain ⟨arr, d⟩ := p
    have hlen : (getSlice b d.offset d.size).length = d.size :=
      length_getSlice (hin (arr, d) List.mem_cons_self)
    rw [List.nil_append, storeAll, if_neg hsize, hlen]
    split_ifs with hcast hfixed
    · exact ⟨_, rfl⟩
    · exact absurd (hbad.resolve_left (not_not.2 hcast)) hfixed
    · exact ⟨_, rfl⟩
  | cons q qs ih =>
    rw [List.cons_append, List.forall_mem_cons] at hin
    rw [List.forall_mem_cons] at hqs
    rw [List.cons_append, storeAll_cons_of_inPlace hqs.1 hin.1]
    exact ih hin.2 hqs.2

/-- What lies before all ranges stays. -/
theorem storeAll_before {i : ℕ} (hi : i < b.length) (h : ∀ p ∈ ps, i < p.2.offset) :
    ∃ b', b'[i]? = b[i]? ∧
      (storeAll fixed ps b = .ok () b' ∨ ∃ e, storeAll fixed ps b = .error e b') := by
  induction ps generalizing b with
  | nil => exact ⟨b, rfl, .inl rfl⟩
  | cons p ps ih =>
    obtain ⟨arr, d⟩ := p
    rw [List.forall_mem_cons] at h
    rw [storeAll]
    split_ifs with hzero hcast hfixed
    · exact ih hi h.2
    · exact ⟨b, rfl, .inr ⟨.resize, rfl⟩⟩
    · have hstays : (setSlice b d.offset d.size (arr.tobytes b))[i]? = b[i]? :=
        getElem?_setSlice_before h.1 hi
      have hlen : i < (setSlice b d.offset d.size (arr.tobytes b)).length := by
        rw [List.getElem?_eq_getElem hi] at hstays
        exact (List.getElem?_eq_some_iff.1 hstays).1
      rw [← hstays]
      exact ih hlen h.2
    · exact ⟨b, rfl, .inr ⟨.cast, rfl⟩⟩

/-- The first array is stored. -/
structure Accepted (fixed : Bool) (p : Arr N × Desc N) : Prop where
  size : p.2.size ≠ 0
  castable : p.1.Castable
  fits : ¬ (fixed ∧ p.1.nbytes ≠ p.2.size)

/-- The byte that the first array puts in its range stays, because all other ranges lie behind. -/
theorem Accepted.not_error (h : Accepted fixed p) (hin : p.2.offset + p.2.size ≤ b.length)
    (hbehind : ∀ q ∈ ps, p.2.offset + p.2.size ≤ q.2.offset) {i : ℕ}
    (hi : i < p.2.offset + p.2.size) {x : UInt8}
    (hx : (setSlice b p.2.offset p.2.size (p.1.tobytes b))[i]? = some x) (hne : b[i]? ≠ some x)
    (e : Error N) : storeAll fixed (p :: ps) b ≠ .error e b := by
  obtain ⟨arr, d⟩ := p
  intro he
  have hlen : (getSlice b d.offset d.size).length = d.size := length_getSlice hin
  rw [storeAll, if_neg h.size, if_neg (not_not.2 h.castable), hlen, if_neg h.fits] at he
  obtain ⟨b', hkeep, hres⟩ := storeAll_before (List.getElem?_eq_some_iff.1 hx).1
    fun q hq => hi.trans_le (hbehind q hq)
  obtain rfl : b = b' := by
    rw [he] at hres
    rcases hres with hres | ⟨e', hres⟩
    · cases hres
    · cases hres
      rfl
  exact hne (hkeep.trans hx)

/-- If the first array is stored and is not in its place, some buffer is changed. -/
theorem Accepted.exists_changed {n : ℕ} (h : Accepted fixed p) (hplace : ¬ InPlace p)
    (hview : p.1.mem = none → fixed = true) (hin : p.2.offset + p.2.size ≤ n)
    (hbehind : ∀ q ∈ ps, p.2.offset + p.2.size ≤ q.2.offset) :
    ∃ b : List UInt8, n ≤ b.length ∧ ∀ e, storeAll fixed (p :: ps) b ≠ .error e b := by
  have hsize := h.size
  by_cases hbyte : ∃ m, m < p.1.nbytes ∧ m < p.2.size ∧ ¬ p.1.Lies m (p.2.offset + m)
  · -- A byte of the array is not the one of the buffer at its place.
    obtain ⟨m, hm, hlt, hlies⟩ := hbyte
    obtain ⟨b, rfl, hdiff⟩ := Arr.exists_differs hm (show p.2.offset + m < n by omega) hlies
    have hlen : m < (p.1.tobytes b).length := by rwa [p.1.length_tobytes]
    have hstored : (setSlice b p.2.offset p.2.size (p.1.tobytes b))[p.2.offset + m]? =
        (p.1.tobytes b)[m]? := getElem?_setSlice_inside (by omega) hlen
    rw [List.getElem?_eq_getElem hlen] at hstored hdiff
    exact ⟨b, le_rfl, h.not_error hin hbehind (by omega) hstored hdiff.symm⟩
  · -- The array has no bytes, and what is behind the range moves to its place.
    push Not at hbyte
    have hne : p.1.nbytes ≠ p.2.size := fun heq =>
      hplace ⟨h.castable, heq, fun m hm => hbyte m (heq ▸ hm) hm⟩
    have howned : p.1.Owned := fun hnone => h.fits ⟨hview hnone, hne⟩
    have hnone : p.1.nbytes = 0 := by
      by_contra hpos
      exact howned.not_lies _ _ (hbyte 0 (by omega) (by omega))
    refine ⟨List.replicate (p.2.offset + 1) 0 ++ List.replicate n 1, by simp, ?_⟩
    have hnil (b : List UInt8) : p.1.tobytes b = [] :=
      List.length_eq_zero_iff.1 ((p.1.length_tobytes b).trans hnone)
    apply h.not_error (i := p.2.offset) (x := 1) (by simp; omega) hbehind (by omega)
    · rw [hnil, setSlice, List.append_nil, List.getElem?_append_right (by simp),
        List.getElem?_drop, List.getElem?_append_right (by simp; omega), List.getElem?_replicate,
        if_pos (by simp; omega)]
    · rw [List.getElem?_append_left (by simp), List.getElem?_replicate, if_pos (by omega)]
      simp

/-- When every buffer is left as it is by a failing call, an array is refused. -/
theorem refuses_of_error {n : ℕ} (hview : ∀ p ∈ ps, p.1.mem = none → fixed = true)
    (hin : ∀ p ∈ ps, p.2.offset + p.2.size ≤ n)
    (hapart : ps.Pairwise fun p q => p.2.offset + p.2.size ≤ q.2.offset)
    (h : ∀ b : List UInt8, n ≤ b.length → ∃ e, storeAll fixed ps b = .error e b) :
    Refuses fixed ps := by
  induction ps with
  | nil =>
    obtain ⟨e, he⟩ := h (List.replicate n 0) (by simp)
    cases he
  | cons p ps ih =>
    rw [List.forall_mem_cons] at hview hin
    rw [List.pairwise_cons] at hapart
    by_cases hskip : p.2.size = 0 ∨ InPlace p
    · have hrest (b : List UInt8) (hb : n ≤ b.length) :
          ∃ e, storeAll fixed ps b = .error e b := by
        obtain ⟨e, he⟩ := h b hb
        exact ⟨e, (storeAll_cons_of_inPlace hskip (hin.1.trans hb)).symm.trans he⟩
      obtain ⟨qs, q, rs, rfl, hqs, hq⟩ := ih hview.2 hin.2 hapart.2 hrest
      exact ⟨p :: qs, q, rs, rfl, List.forall_mem_cons.2 ⟨hskip, hqs⟩, hq⟩
    · obtain ⟨hsize, hplace⟩ := not_or.1 hskip
      by_cases hbad : ¬ p.1.Castable ∨ fixed ∧ p.1.nbytes ≠ p.2.size
      · exact ⟨[], p, ps, rfl, by simp, hsize, hbad⟩
      · obtain ⟨hcast, hfits⟩ := not_or.1 hbad
        have hstored : Accepted fixed p := ⟨hsize, not_not.1 hcast, hfits⟩
        obtain ⟨b, hb, hchanged⟩ := hstored.exists_changed hplace hview.1 hin.1 hapart.1
        obtain ⟨e, he⟩ := h b hb
        exact absurd he (hchanged e)

end Stores

/-! ## Failing -/

section Fail

variable [DecidableEq κ] {t t₀ : NumpyTree N κ} {layout : LayoutTree κ}

/-- A tree that does not match, or a buffer that is too small, raises and leaves the buffer as it
is, and what is returned has the length of the buffer. -/
structure FailsCleanly (t : NumpyTree N κ) (layout : LayoutTree κ) (size : ℕ)
    (buffer : Option (List UInt8)) : Prop where
  raises : validateLayout t layout ≠ .ok () ∨ (target size buffer).length < size →
    ∃ e, serializeNptree t layout buffer = .error e buffer
  length : ∀ b c, serializeNptree t layout buffer = .ok b c →
    b.length = (target size buffer).length

omit [DecidableEq κ] in
theorem view_pinned {arr : Arr N} (h : arr ∈ t.leaves) (hnone : arr.mem = none) :
    pinned t = true := List.any_eq_true.2 ⟨arr, h, by rw [hnone]; rfl⟩

theorem FailsCleanly.of_error {size : ℕ} {buffer : Option (List UInt8)}
    (h : ∃ e, serializeNptree t layout buffer = .error e buffer) :
    FailsCleanly t layout size buffer := by
  refine ⟨fun _ => h, fun b c hb => ?_⟩
  obtain ⟨e, he⟩ := h
  cases he.symm.trans hb

section Layouts

variable {ds : List (Desc N)} {buffer : Option (List UInt8)}

omit [DecidableEq κ] in
/-- The ranges of the arrays of a tree with the structure of the layout lie one behind the other. -/
theorem pairwise_zip (hreads : Reads layout.leaves ds)
    (hapart : ds.Pairwise fun d e => d.offset + d.size ≤ e.offset)
    (hskel : t.skeleton = layout.skeleton) :
    (t.leaves.zip ds).Pairwise fun p q => p.2.offset + p.2.size ≤ q.2.offset := by
  have hcount := (Nest.length_leaves_of_skeleton hskel).trans hreads.length_eq
  have hzip : (t.leaves.zip ds).map Prod.snd = ds := List.map_snd_zip hcount.ge
  rwa [← hzip, List.pairwise_map] at hapart

/-- A call that fails and leaves the caller's buffer has left the buffer that it stored to. -/
theorem storeAll_of_error (hreads : Reads layout.leaves ds)
    (hskel : t.skeleton = layout.skeleton) {b : List UInt8} (hb : bufferSize 0 ds ≤ b.length)
    (h : ∃ e, serializeNptree t layout (some b) = .error e (some b)) :
    ∃ e, storeAll (pinned t) (t.leaves.zip ds) b = .error e b := by
  obtain ⟨e, he⟩ := h
  have heq : serializeNptree t layout (some b) = _ := serializeNptree_eq hreads hskel hb
  rw [heq] at he
  change answer (some b) (storeAll (pinned t) (t.leaves.zip ds) b) = _ at he
  cases hres : storeAll (pinned t) (t.leaves.zip ds) b with
  | ok u b' =>
    rw [hres] at he
    cases he
  | error e' b' =>
    rw [hres] at he
    injection he with _ hb'
    exact ⟨e', congrArg (EStateM.Result.error e') (Option.some.inj hb')⟩

/-- If the call fails cleanly for all buffers although the tree does not match, an array is
refused. -/
theorem refuses_of_failsCleanly (hreads : Reads layout.leaves ds)
    (hapart : ds.Pairwise fun d e => d.offset + d.size ≤ e.offset)
    (hskel : t.skeleton = layout.skeleton) (hvalid : validateLayout t layout ≠ .ok ())
    (hclean : ∀ buffer, Within t buffer → FailsCleanly t layout (bufferSize 0 ds) buffer) :
    Refuses (pinned t) (t.leaves.zip ds) := by
  obtain ⟨n, hn, hwithin⟩ := exists_within t (bufferSize 0 ds)
  apply refuses_of_error (fun p hp => view_pinned (List.of_mem_zip hp).1)
    (fun p hp => (end_le_bufferSize (List.of_mem_zip hp).2).trans hn)
    (pairwise_zip hreads hapart hskel)
  intro b hb
  have hfails := hclean (some b) (hwithin b hb)
  exact storeAll_of_error hreads hskel (hn.trans hb) (hfails.raises (.inl hvalid))

/-- A tree that matches keeps the length of a buffer that is long enough. -/
theorem FailsCleanly.of_valid (hreads : Reads layout.leaves ds)
    (hapart : ds.Pairwise fun d e => d.offset + d.size ≤ e.offset)
    (hlen : bufferSize 0 ds ≤ (target (bufferSize 0 ds) buffer).length)
    (hvalid : validateLayout t layout = .ok ()) :
    FailsCleanly t layout (bufferSize 0 ds) buffer := by
  obtain ⟨hskel, hm⟩ := (validateLayout_iff hreads).1 hvalid
  refine ⟨fun hbad => absurd hbad ?_, fun b c hb => ?_⟩
  · exact not_or.2 ⟨not_not.2 hvalid, Nat.not_lt.2 hlen⟩
  · have heq : serializeNptree t layout buffer = _ := serializeNptree_eq hreads hskel hlen
    rw [heq] at hb
    have hfits := fits_of_matches hreads hapart hlen hm
    have hstored := storeAll_of_answer hb
    rw [storeAll_eq_ok _ hfits.sized (castable_of_storeAll hstored)] at hstored
    cases hstored
    exact hfits.length_stored

/-- A tree of which an array is refused leaves a buffer that is long enough as it is. -/
theorem FailsCleanly.of_refuses (hreads : Reads layout.leaves ds)
    (hskel : t.skeleton = layout.skeleton)
    (hlen : bufferSize 0 ds ≤ (target (bufferSize 0 ds) buffer).length)
    (hrefuses : Refuses (pinned t) (t.leaves.zip ds)) :
    FailsCleanly t layout (bufferSize 0 ds) buffer := by
  obtain ⟨e, he⟩ := storeAll_of_refuses (b := target (bufferSize 0 ds) buffer) hrefuses
    fun p hp => (end_le_bufferSize (List.of_mem_zip hp).2).trans hlen
  refine .of_error ⟨e, ?_⟩
  have heq : serializeNptree t layout buffer = _ := serializeNptree_eq hreads hskel hlen
  rw [heq, he]
  cases buffer <;> rfl

end Layouts

/-- `serialize_nptree` fails cleanly for all buffers that contain the views of the tree exactly when
the structure differs, the tree matches the layout, or the first array whose storing would change
something is refused. -/
theorem failsCleanly_iff (hN : N.Documented) {alignment : ℤ}
    (h : buildNptreeLayout t₀ alignment = .ok layout) (t : NumpyTree N κ) :
    ∃ (ds : List (Desc N)) (size : ℕ), Reads layout.leaves ds ∧
      calcBufferSize N layout = .ok size ∧
      ((∀ buffer, Within t buffer → FailsCleanly t layout size buffer) ↔
        t.skeleton ≠ layout.skeleton ∨ validateLayout t layout = .ok () ∨
          Refuses (pinned t) (t.leaves.zip ds)) := by
  obtain ⟨k, -, hlaid⟩ := laid_of_build hN h
  have hreads := hlaid.reads
  have hapart := pairwise_place (Nat.two_pow_pos k) 0 t₀.leaves
  generalize place (2 ^ k) 0 t₀.leaves = ds at hreads hapart
  refine ⟨ds, _, hreads, calcBufferSize_of_reads hreads, fun hclean => ?_,
    fun hcond buffer _ => ?_⟩
  · by_cases hskel : t.skeleton = layout.skeleton
    · by_cases hvalid : validateLayout t layout = .ok ()
      · exact .inr (.inl hvalid)
      · exact .inr (.inr (refuses_of_failsCleanly hreads hapart hskel hvalid hclean))
    · exact .inl hskel
  · by_cases hfail : t.skeleton ≠ layout.skeleton ∨
        (target (bufferSize 0 ds) buffer).length < bufferSize 0 ds
    · exact .of_error (serializeNptree_eq_error hreads hfail)
    · obtain ⟨hskel, hlen⟩ := not_or.1 hfail
      rcases hcond.resolve_left hskel with hvalid | hrefuses
      · exact .of_valid hreads hapart (Nat.not_lt.1 hlen) hvalid
      · exact .of_refuses hreads (not_not.1 hskel) (Nat.not_lt.1 hlen) hrefuses

/-- One number. -/
def numberTree : NumpyTree someNumPy String := .leaf (someArray .i4 [1] [7, 0, 0, 0])

/-- Two numbers. -/
def numbersTree : NumpyTree someNumPy String := .leaf (someArray .i4 [2] [1, 0, 0, 0, 2, 0, 0, 0])

/-- An array that cannot be cast leaves every buffer as it is. -/
theorem failsCleanly_dateTree : ∃ (layout : LayoutTree String) (size : ℕ),
    buildNptreeLayout numbersTree 8 = .ok layout ∧ calcBufferSize someNumPy layout = .ok size ∧
      validateLayout dateTree layout = .error (.dtypeMismatch SomeDtype.i4 SomeDtype.date) ∧
      ∀ buffer, FailsCleanly dateTree layout size buffer := by
  have hbuild : buildNptreeLayout numbersTree 8 =
      .ok (.leaf (describe (someArray .i4 [2] [1, 0, 0, 0, 2, 0, 0, 0]) 0)) := rfl
  obtain ⟨ds, size, hreads, hsize, hiff⟩ :=
    failsCleanly_iff documented_someNumPy hbuild dateTree
  have howned : ∀ arr ∈ dateTree.leaves, arr.Owned :=
    List.forall_mem_singleton.2 fun h => (by cases h)
  refine ⟨_, size, hbuild, hsize, rfl,
    fun buffer => hiff.2 (.inr (.inr ?_)) buffer (within_of_owned howned)⟩
  cases hreads with
  | cons hread hnil =>
    cases hnil
    cases hread
    refine (refuses_iff_of_owned ?_).2 ⟨_, rfl, by decide⟩
    exact List.forall_mem_singleton.2 fun h => (by cases h)

/-- A leaf that is shorter than the layout says shortens the buffer. -/
theorem numberTree_shrinks : ∃ layout : LayoutTree String,
    buildNptreeLayout numbersTree 8 = .ok layout ∧
      validateLayout numberTree layout = .error (.shapeMismatch [2] [1]) ∧
      calcBufferSize someNumPy layout = .ok 8 ∧
      serializeNptree numberTree layout (some (List.replicate 8 0)) =
        .ok [7, 0, 0, 0] (some [7, 0, 0, 0]) := ⟨_, rfl, rfl, rfl, rfl⟩

end Fail

end NpTree
