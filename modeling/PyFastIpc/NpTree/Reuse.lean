import PyFastIpc.NpTree.RoundTrip

/-!
# A buffer that is used again

Trees of one layout are stored in one buffer, one after the other.  The ranges of the layout hold
the last tree and nothing of those before it, and the bytes between them are those that the buffer
began with, so the buffer is the one that storing the last tree alone would have given
(`last_tree_stays`).  This is about a last tree that has its arrays for itself; one that views the
buffer, as `deserialize_nptree` returns it, changes with what is stored before it.
-/

namespace NpTree

variable {N : NumPy} {κ : Type}

section Ranges

variable (ds : List (Desc N)) {b b' : List UInt8}

/-- The position lies in none of the ranges. -/
def Outside (i : ℕ) : Prop :=
  ∀ d ∈ ds, i < d.offset ∨ d.offset + d.size ≤ i

/-- Buffers are equal when they are equal in the ranges and between them. -/
theorem ext_ranges
    (hin : ∀ d ∈ ds, getSlice b d.offset d.size = getSlice b' d.offset d.size)
    (hout : ∀ i, Outside ds i → b[i]? = b'[i]?) : b = b' := by
  apply List.ext_getElem?
  intro i
  by_cases hi : Outside ds i
  · exact hout i hi
  · rw [Outside, not_forall] at hi
    obtain ⟨d, hi⟩ := hi
    rw [Classical.not_imp, not_or, not_lt, not_le] at hi
    obtain ⟨hd, hle, hlt⟩ := hi
    have hk : i - d.offset < d.size := by omega
    have hread := congrArg (fun s => s[i - d.offset]?) (hin d hd)
    simp only [getElem?_getSlice hk] at hread
    rwa [Nat.add_sub_cancel' hle] at hread

end Ranges

variable [DecidableEq κ]

/-- Stores trees in one buffer, one after the other. -/
def storeTrees (layout : LayoutTree κ) (b : List UInt8) :
    List (NumpyTree N κ) → Except (Error N) (List UInt8)
  | [] => .ok b
  | t :: ts =>
    match serializeNptree t layout (some b) with
    | .ok b' _ => storeTrees layout b' ts
    | .error e _ => .error e

section Store

variable {layout : LayoutTree κ} {ds : List (Desc N)} {t : NumpyTree N κ}
  {ts : List (NumpyTree N κ)} {b b' : List UInt8}

/-- What one call leaves in the buffer. -/
structure Holds (ds : List (Desc N)) (t : NumpyTree N κ) (b b' : List UInt8) : Prop where
  length : b'.length = b.length
  outside : ∀ i, Outside ds i → b'[i]? = b[i]?
  inside : ∀ p ∈ t.leaves.zip ds, getSlice b' p.2.offset p.2.size = p.1.tobytes b

/-- The layout describes the arrays that are stored with it. -/
structure Stores (layout : LayoutTree κ) (ds : List (Desc N)) : Prop where
  reads : Reads layout.leaves ds
  apart : ds.Pairwise fun d e => d.offset + d.size ≤ e.offset
  usable : ∀ d ∈ ds, Usable d.dtype d.size

/-- The arrays of the tree do not view the buffer. -/
def OwnTree (t : NumpyTree N κ) : Prop := ∀ arr ∈ t.leaves, arr.Owned

/-- One call leaves the length and what lies between the ranges. -/
theorem Stores.serialize (hL : Stores layout ds) (ht : validateLayout t layout = .ok ())
    (hb : bufferSize 0 ds ≤ b.length) :
    ∃ b', serializeNptree t layout (some b) = .ok b' (some b') ∧ b'.length = b.length ∧
      (∀ i, Outside ds i → b'[i]? = b[i]?) ∧ (OwnTree t → Holds ds t b b') := by
  obtain ⟨hskel, hm⟩ := (validateLayout_iff hL.reads).1 ht
  have hfits := fits_of_matches hL.reads hL.apart hb hm
  have hout : ∀ i, Outside ds i → (stored (t.leaves.zip ds) b)[i]? = b[i]? := fun i hi =>
    hfits.getElem?_stored fun p hp => hi p.2 (List.of_mem_zip hp).2
  refine ⟨_, serialize_of_matches hL.reads hL.usable hskel hm hfits hb, hfits.length_stored, hout,
    fun hown => ⟨hfits.length_stored, hout, fun p hp => ?_⟩⟩
  exact hfits.getSlice_stored
    (settled_of_owned fun q hq => hown q.1 (List.of_mem_zip hq).1) hp

omit [DecidableEq κ] in
/-- The tree and the bytes between the ranges determine the buffer. -/
theorem Holds.unique {b₁ b₂ b₁' b₂' : List UInt8} (h₁ : Holds ds t b₁ b₁') (h₂ : Holds ds t b₂ b₂')
    (hown : OwnTree t) (hlen : t.leaves.length = ds.length)
    (hout : ∀ i, Outside ds i → b₁[i]? = b₂[i]?) : b₁' = b₂' := by
  apply ext_ranges ds
  · intro d hd
    obtain ⟨n, hn, rfl⟩ := List.mem_iff_getElem.1 hd
    have hp : (t.leaves[n], ds[n]) ∈ t.leaves.zip ds :=
      List.mem_iff_getElem.2 ⟨n, by simp [hn, hlen], List.getElem_zip⟩
    have hsame := (hown _ (List.of_mem_zip hp).1).tobytes_eq b₂ b₁
    exact (h₁.inside _ hp).trans (hsame.trans (h₂.inside _ hp).symm)
  · intro i hi
    rw [h₁.outside i hi, h₂.outside i hi, hout i hi]

theorem storeTrees_cons (hser : serializeNptree t layout (some b) = .ok b' (some b')) :
    storeTrees layout b (t :: ts) = storeTrees layout b' ts := by
  rw [storeTrees, hser]

/-- The trees before the last one leave no trace. -/
theorem Stores.last (hL : Stores layout ds)
    (hts : ∀ t' ∈ ts, validateLayout t' layout = .ok ()) (ht : validateLayout t layout = .ok ())
    (hown : OwnTree t) (hb : bufferSize 0 ds ≤ b.length) :
    ∃ b', storeTrees layout b (ts ++ [t]) = .ok b' ∧ Holds ds t b b' := by
  induction ts generalizing b with
  | nil =>
    obtain ⟨b', hser, -, -, hholds⟩ := hL.serialize ht hb
    exact ⟨b', storeTrees_cons hser, hholds hown⟩
  | cons t₁ ts ih =>
    rw [List.forall_mem_cons] at hts
    obtain ⟨b₁, hser, hlen, hout, -⟩ := hL.serialize hts.1 hb
    obtain ⟨b', hrest, hholds⟩ := ih hts.2 (hlen.symm ▸ hb)
    refine ⟨b', (storeTrees_cons hser).trans hrest, hholds.length.trans hlen, ?_, ?_⟩
    · intro i hi
      rw [hholds.outside i hi, hout i hi]
    · intro p hp
      rw [hholds.inside p hp]
      exact (hown _ (List.of_mem_zip hp).1).tobytes_eq b b₁

end Store

/-- After any trees of a layout were stored in a buffer, one after the other, the buffer is the one
that storing the last of them alone gives, if this one does not view it, and that tree is read from
it. -/
theorem last_tree_stays (hN : N.Documented) {t₀ : NumpyTree N κ} {alignment : ℤ}
    {layout : LayoutTree κ} (h : buildNptreeLayout t₀ alignment = .ok layout)
    (husable : ∀ arr ∈ t₀.leaves, Usable (N.read arr.dtype) arr.nbytes)
    {ts : List (NumpyTree N κ)} (hts : ∀ t' ∈ ts, validateLayout t' layout = .ok ())
    {t : NumpyTree N κ} (ht : validateLayout t layout = .ok ()) (hown : OwnTree t) {size : ℕ}
    (hsize : calcBufferSize N layout = .ok size) {b : List UInt8} (hb : size ≤ b.length) :
    ∃ b', storeTrees layout b (ts ++ [t]) = .ok b' ∧
      serializeNptree t layout (some b) = .ok b' (some b') ∧
      ∃ r, deserializeNptree N layout (some b') = .ok r ∧ SameTree b' b r t := by
  obtain ⟨k, -, hlaid⟩ := laid_of_build hN h
  have hL : Stores layout (place (2 ^ k) 0 t₀.leaves) :=
    ⟨hlaid.reads, pairwise_place (Nat.two_pow_pos k) 0 t₀.leaves, forall_place.2 husable⟩
  rw [calcBufferSize_of_reads hlaid.reads] at hsize
  obtain rfl := Except.ok.inj hsize
  obtain ⟨b', hall, hholds⟩ := hL.last hts ht hown hb
  obtain ⟨b'', hser, -, -, hholds'⟩ := hL.serialize ht hb
  obtain ⟨hskel, hm⟩ := (validateLayout_iff hL.reads).1 ht
  have heq : b'' = b' := (hholds' hown).unique hholds hown hm.length_eq fun i _ => rfl
  rw [heq] at hser
  exact ⟨b', hall, hser, deserialize_of_holds hL.reads (fun d hd => (hL.usable d hd).readable)
    hskel hm (hholds.length.symm ▸ hb) hholds.inside⟩

/-- One number below 256. -/
def counterTree (n : UInt8) : NumpyTree someNumPy String := .leaf (someArray .i4 [1] [n, 0, 0, 0])

/-- Three numbers are stored in a buffer that is one byte too long. -/
theorem last_tree_stays_counters : ∃ (layout : LayoutTree String) (b' : List UInt8),
    buildNptreeLayout (counterTree 0) 8 = .ok layout ∧
      storeTrees layout (List.replicate 5 255) [counterTree 1, counterTree 2, counterTree 3] =
        .ok b' ∧
      serializeNptree (counterTree 3) layout (some (List.replicate 5 255)) = .ok b' (some b') ∧
      ∃ r, deserializeNptree someNumPy layout (some b') = .ok r ∧
        SameTree b' (List.replicate 5 255) r (counterTree 3) := by
  have hrun : ∃ layout : LayoutTree String, buildNptreeLayout (counterTree 0) 8 = .ok layout ∧
      (∀ n, validateLayout (counterTree n) layout = .ok ()) ∧
      calcBufferSize someNumPy layout = .ok 4 := ⟨_, rfl, fun _ => rfl, rfl⟩
  obtain ⟨layout, hbuild, hvalid, hsize⟩ := hrun
  obtain ⟨b', hstays⟩ := last_tree_stays documented_someNumPy hbuild
    (List.forall_mem_singleton.2 ⟨by decide, fun _ => rfl⟩)
    (List.forall_mem_cons.2 ⟨hvalid 1, List.forall_mem_singleton.2 (hvalid 2)⟩) (hvalid 3)
    (List.forall_mem_singleton.2 (Option.some_ne_none _)) hsize (b := List.replicate 5 255)
    (by decide)
  exact ⟨layout, b', hbuild, hstays⟩

end NpTree
