import PyFastIpc.Lib.Strided
import PyFastIpc.Lib.Slices
import PyFastIpc.Lib.Text
import Mathlib.Algebra.BigOperators.Ring.List

/-!
# NumPy arrays

What `schema.py` uses of NumPy and of CPython's `memoryview`.  The dtypes are a parameter (`NumPy`):
how they are written and read, the size of an item, and which of them `memoryview` and
`np.frombuffer` take.  An array is a view of a memory with a stride for each dimension; its value is
the list of its items in C order (`Arr.elements`).

The memory is the array's own, or it is the buffer that a call is about: `np.frombuffer` gives views
of the buffer, and a caller can pass such views back.  The items of a view change with the buffer,
so everything that reads items takes the contents of the buffer as an argument.  Of what else may
have a view of the buffer nothing is known, and it is assumed not to exist: it could only keep an
assignment from changing the length of the buffer.

The definitions follow what NumPy and CPython document: `memoryview` refuses a dtype that has no
buffer format (as those of dates), and its `cast("B")` takes views of every format that are C
contiguous and have no dimension 0, or exactly one dimension; `ascontiguousarray` copies;
`np.frombuffer` refuses objects, items of size 0 and a number of bytes that is no multiple of it;
`reshape` of an array in C order wants the number of items, and copies nothing.  The products of
NumPy are those of the natural numbers here: the dimensions of an array that are not 0 have a
product below 2 ^ 63.
-/

namespace NpTree

/-- The dtypes of NumPy. -/
structure NumPy where
  Dtype : Type
  decEq : DecidableEq Dtype
  /-- `dtype.str`. -/
  str : Dtype → Text
  /-- `np.dtype(s)`, `none` where it raises `TypeError`. -/
  dtype : Text → Option Dtype
  itemsize : Dtype → ℕ
  /-- NumPy has a buffer format for the dtype, so `memoryview` takes its arrays. -/
  exported : Dtype → Bool
  hasobject : Dtype → Bool
  /-- `str(dtype)`. -/
  name : Dtype → String

attribute [instance] NumPy.decEq

/-- What NumPy documents: `dtype.str` has no tab in it, and `np.dtype` reads it as a dtype with
items of the same size. -/
structure NumPy.Documented (N : NumPy) : Prop where
  noTab : ∀ d, '\t' ∉ N.str d
  dtype_str : ∀ d, ∃ d', N.dtype (N.str d) = some d' ∧ N.itemsize d' = N.itemsize d

/-- The exceptions of the module, and those of the functions that it calls. -/
inductive Error (N : NumPy) where
  | alignment
  /-- A descriptor that does not have three fields. -/
  | unpack
  /-- `np.dtype` of a text that it does not know. -/
  | dtype (s : Text)
  /-- `int` of a text that is not a number. -/
  | int (s : Text)
  | treeStructure
  | dtypeMismatch (layout arr : N.Dtype)
  | shapeMismatch (layout arr : List ℕ)
  | bufferTooSmall
  /-- `memoryview` or its `cast`. -/
  | cast
  /-- The `BufferError` of a `bytearray` of which a view exists. -/
  | resize
  | frombuffer
  | reshape

/-- `str` of a tuple of numbers. -/
def tupleText : List ℕ → String
  | [] => "()"
  | [n] => s!"({n},)"
  | ns => "(" ++ ", ".intercalate (ns.map toString) ++ ")"

/-- The texts of the errors that the module raises itself. -/
def Error.message {N : NumPy} : Error N → Option String
  | .alignment => some "Alignment must be a positive power of two."
  | .treeStructure => some "NumpyTree structure does not match layout structure."
  | .dtypeMismatch layout arr => some s!"dtype mismatch: layout={N.name layout}, arr={N.name arr}"
  | .shapeMismatch layout arr =>
    some s!"shape mismatch: layout={tupleText layout}, arr={tupleText arr}"
  | .bufferTooSmall => some "Provided buffer is smaller than required size."
  | _ => none

/-- An array: its dtype, the size and the stride of each dimension, and where its items lie, in a
memory that no call writes or in the caller's buffer (`none`). -/
structure Arr (N : NumPy) where
  dtype : N.Dtype
  dims : List (ℕ × ℤ)
  mem : Option Memory
  base : ℕ

/-- A memory that begins with the given bytes. -/
def memoryOf (bs : List UInt8) : Memory := fun k => bs.getD k 0

namespace Arr

variable {N : NumPy} (a : Arr N) (b : List UInt8)

def shape : List ℕ := Strided.shape a.dims

def itemsize : ℕ := N.itemsize a.dtype

def nbytes : ℕ := a.shape.prod * a.itemsize

/-- The memory of the array when the buffer holds `b`. -/
def memory : Memory := a.mem.getD (memoryOf b)

/-- The bytes of each item, in C order. -/
def elements : List (List UInt8) :=
  (Strided.offsets a.dims).map fun o => (a.memory b).read ((a.base : ℤ) + o).toNat a.itemsize

/-- Where the bytes of the items lie in the memory. -/
def positions : List ℕ :=
  (Strided.offsets a.dims).flatMap fun o =>
    (List.range a.itemsize).map fun i => ((a.base : ℤ) + o).toNat + i

/-- `tobytes()`. -/
def tobytes : List UInt8 := (a.elements b).flatten

/-- `flags["C_CONTIGUOUS"]`. -/
def cContiguous : Bool := decide (0 ∈ a.shape ∨ Strided.RowMajor a.itemsize a.dims)

/-- An array in C order over the given bytes. -/
def ofBytes (d : N.Dtype) (shape : List ℕ) (bs : List UInt8) : Arr N :=
  ⟨d, Strided.rowMajor (N.itemsize d) shape, some (memoryOf bs), 0⟩

/-- An array in C order over a part of the buffer. -/
def ofBuffer (d : N.Dtype) (shape : List ℕ) (offset : ℕ) : Arr N :=
  ⟨d, Strided.rowMajor (N.itemsize d) shape, none, offset⟩

/-- The array as calls about other buffers see it. -/
def own : Arr N := { a with mem := some (a.memory b) }

/-- `np.ascontiguousarray`: a copy in C order, with at least one dimension. -/
def ascontiguousarray : Arr N :=
  ofBytes a.dtype (if a.shape = [] then [1] else a.shape) (a.tobytes b)

/-- `memoryview(arr).cast("B")`. -/
def cast : Except (Error N) (List UInt8) :=
  if N.exported a.dtype = false ∨ a.cContiguous = false ∨ a.shape.length ≠ 1 ∧ 0 ∈ a.shape then
    .error .cast
  else .ok ((a.memory b).read a.base a.nbytes)

/-- `np.frombuffer` of the `n` bytes of the buffer from `start` on. -/
def frombuffer (start n : ℕ) (d : N.Dtype) : Except (Error N) (Arr N) :=
  if N.hasobject d = true ∨ N.itemsize d = 0 ∨ n % N.itemsize d ≠ 0 then .error .frombuffer
  else .ok (ofBuffer d [n / N.itemsize d] start)

/-- `reshape(shape)` of an array in C order. -/
def reshape (shape : List ℕ) : Except (Error N) (Arr N) :=
  if a.shape.prod = shape.prod then .ok { a with dims := Strided.rowMajor a.itemsize shape }
  else .error .reshape

/-! ## The bytes of an array -/

@[simp] theorem shape_ofBytes (d : N.Dtype) (shape : List ℕ) (bs : List UInt8) :
    (ofBytes d shape bs).shape = shape := Strided.shape_rowMajor _ shape

@[simp] theorem shape_ofBuffer (d : N.Dtype) (shape : List ℕ) (offset : ℕ) :
    (ofBuffer d shape offset).shape = shape := Strided.shape_rowMajor _ shape

theorem length_elements : (a.elements b).length = a.shape.prod := by
  rw [elements, List.length_map, Strided.length_offsets]
  rfl

theorem length_of_mem_elements {a : Arr N} {b x : List UInt8} (h : x ∈ a.elements b) :
    x.length = a.itemsize := by
  obtain ⟨o, -, rfl⟩ := List.mem_map.1 h
  exact Memory.length_read _ _

theorem length_tobytes : (a.tobytes b).length = a.nbytes := by
  have hlen : (a.elements b).map List.length = List.replicate a.shape.prod a.itemsize := by
    refine List.eq_replicate_iff.2 ⟨by rw [List.length_map, a.length_elements], fun n hn => ?_⟩
    obtain ⟨x, hx, rfl⟩ := List.mem_map.1 hn
    exact length_of_mem_elements hx
  rw [tobytes, List.length_flatten, hlen, List.sum_replicate_nat]
  rfl

/-- The items are the pieces of the bytes. -/
theorem elements_eq : a.elements b =
    (List.range a.shape.prod).map fun k =>
      getSlice (a.tobytes b) (k * a.itemsize) a.itemsize := by
  rw [← a.length_elements b]
  refine List.ext_getElem (by simp) fun k hk _ => ?_
  rw [List.getElem_map, List.getElem_range]
  exact (getSlice_flatten (fun _ => length_of_mem_elements) hk).symm

/-- Arrays of one dtype and shape have the same items when they have the same bytes. -/
theorem elements_congr {a a' : Arr N} {b b' : List UInt8} (hd : a.dtype = a'.dtype)
    (hs : a.shape = a'.shape) (hb : a.tobytes b = a'.tobytes b') :
    a.elements b = a'.elements b' := by
  have hitem : a.itemsize = a'.itemsize := congrArg N.itemsize hd
  rw [a.elements_eq, a'.elements_eq, hs, hb, hitem]

theorem read_memoryOf {bs : List UInt8} {off n : ℕ} (h : off + n ≤ bs.length) :
    (memoryOf bs).read off n = getSlice bs off n := by
  refine List.ext_getElem (by rw [Memory.length_read, length_getSlice h]) fun k hk hk' => ?_
  rw [Memory.length_read] at hk
  have hslice : (getSlice bs off n)[k]? = bs[off + k]? := getElem?_getSlice hk
  rw [Memory.getElem_read]
  change bs.getD (off + k) 0 = _
  rw [List.getD_eq_getElem?_getD, ← hslice, List.getElem?_eq_getElem hk']
  rfl

variable {a b}

/-- The bytes of an array whose items lie one after the other. -/
theorem tobytes_of_rowMajor (h : Strided.RowMajor a.itemsize a.dims) :
    a.tobytes b = (a.memory b).read a.base a.nbytes := by
  rw [tobytes, elements, Strided.offsets_of_rowMajor h, List.map_map, nbytes, Memory.read_mul]
  refine congrArg List.flatten (List.map_congr_left fun k _ => ?_)
  have hoff : ((a.base : ℤ) + ((k * a.itemsize : ℕ) : ℤ)).toNat = a.base + k * a.itemsize := by
    omega
  simp only [Function.comp_apply, hoff]

theorem nbytes_ofBytes (d : N.Dtype) (shape : List ℕ) (bs : List UInt8) :
    (ofBytes d shape bs).nbytes = shape.prod * N.itemsize d := by
  rw [nbytes, shape_ofBytes]
  rfl

/-- An array over its own bytes. -/
theorem tobytes_ofBytes (d : N.Dtype) {shape : List ℕ} {bs : List UInt8}
    (h : bs.length = shape.prod * N.itemsize d) : (ofBytes d shape bs).tobytes b = bs := by
  rw [tobytes_of_rowMajor (Strided.rowMajor_rowMajor _ _), nbytes_ofBytes]
  change (memoryOf bs).read 0 _ = bs
  rw [read_memoryOf (by omega), ← h, getSlice, List.drop_zero, List.take_length]

/-- An array over a part of the buffer. -/
theorem tobytes_ofBuffer (d : N.Dtype) {shape : List ℕ} {off : ℕ}
    (h : off + shape.prod * N.itemsize d ≤ b.length) :
    (ofBuffer d shape off).tobytes b = getSlice b off (shape.prod * N.itemsize d) := by
  rw [tobytes_of_rowMajor (Strided.rowMajor_rowMajor _ _), nbytes, shape_ofBuffer]
  exact read_memoryOf h

/-- An array with a memory of its own reads the same whatever the buffer holds. -/
theorem tobytes_own (c : List UInt8) : (a.own b).tobytes c = a.tobytes b := rfl

/-! ## Copying the bytes -/

/-- The bytes of the array can be copied. -/
def Castable (a : Arr N) : Prop :=
  N.exported a.dtype = true ∧ (a.shape.length = 1 ∨ 0 ∉ a.shape)

instance (a : Arr N) : Decidable a.Castable := inferInstanceAs (Decidable (_ ∧ _))

/-- The cast gives the bytes of the items in C order. -/
theorem cast_of_contiguous (h : a.Castable) (hc : a.cContiguous = true) :
    a.cast b = .ok (a.tobytes b) := by
  have hread : (a.memory b).read a.base a.nbytes = a.tobytes b := by
    rcases of_decide_eq_true hc with hzero | hrow
    · have hnone : a.nbytes = 0 := by rw [nbytes, List.prod_eq_zero hzero, Nat.zero_mul]
      have hnil : a.tobytes b = [] := List.length_eq_zero_iff.1 (by rw [length_tobytes, hnone])
      rw [hnone, hnil, Memory.read_zero]
    · exact (tobytes_of_rowMajor hrow).symm
  have hno : ¬ (N.exported a.dtype = false ∨ a.cContiguous = false ∨
      a.shape.length ≠ 1 ∧ 0 ∈ a.shape) := by
    rintro (hex | hcont | ⟨hone, hzero⟩)
    · simp [h.1] at hex
    · simp [hc] at hcont
    · exact h.2.elim hone fun hne => hne hzero
  rw [cast, if_neg hno, hread]

theorem tobytes_ascontiguousarray (c : List UInt8) :
    (a.ascontiguousarray b).tobytes c = a.tobytes b := by
  refine tobytes_ofBytes _ ?_
  rw [length_tobytes, nbytes]
  split_ifs with hnil
  · rw [hnil]
    rfl
  · rfl

theorem shape_ascontiguousarray :
    (a.ascontiguousarray b).shape = if a.shape = [] then [1] else a.shape :=
  shape_ofBytes _ _ _

/-- The bytes that are copied for an array, whatever its memory order. -/
theorem cast_ascontiguousarray (h : a.Castable) :
    (if a.cContiguous then a else a.ascontiguousarray b).cast b = .ok (a.tobytes b) := by
  split_ifs with hc
  · exact cast_of_contiguous h hc
  · have hcopy : (a.ascontiguousarray b).Castable := by
      refine ⟨h.1, ?_⟩
      rw [shape_ascontiguousarray]
      split_ifs with hnil
      · exact .inl rfl
      · exact h.2
    have hcont : (a.ascontiguousarray b).cContiguous = true :=
      decide_eq_true (.inr (Strided.rowMajor_rowMajor _ _))
    rw [cast_of_contiguous hcopy hcont, tobytes_ascontiguousarray]

/-- No other array can be cast. -/
theorem cast_eq_error (h : ¬ a.Castable) :
    (if a.cContiguous then a else a.ascontiguousarray b).cast b = .error .cast := by
  have hno : N.exported a.dtype = false ∨ a.shape.length ≠ 1 ∧ 0 ∈ a.shape := by
    by_cases hex : N.exported a.dtype = true
    · by_contra hzero
      exact h ⟨hex, by tauto⟩
    · exact .inl (by simpa using hex)
  split_ifs with hc
  · exact if_pos (hno.imp_right .inr)
  · have hzero : 0 ∉ a.shape := fun hmem => hc (decide_eq_true (.inl hmem))
    exact if_pos (.inl (hno.resolve_right fun hz => hzero hz.2))

/-! ## Arrays and the buffer -/

/-- The array does not view the buffer. -/
def Owned (a : Arr N) : Prop := a.mem ≠ none

/-- Byte `m` of the array is byte `k` of the buffer. -/
def Lies (a : Arr N) (m k : ℕ) : Prop := a.mem = none ∧ a.positions[m]? = some k

theorem tobytes_eq_map (a : Arr N) (b : List UInt8) :
    a.tobytes b = a.positions.map (a.memory b) := by
  rw [positions, List.map_flatMap, tobytes, elements]
  refine congrArg List.flatten (List.map_congr_left fun o _ => ?_)
  rw [List.map_map]
  rfl

theorem length_positions (a : Arr N) : a.positions.length = a.nbytes := by
  rw [← a.length_tobytes [], tobytes_eq_map, List.length_map]

theorem Lies.getElem?_tobytes {m k : ℕ} (h : a.Lies m k) (b : List UInt8) :
    (a.tobytes b)[m]? = some (b.getD k 0) := by
  rw [tobytes_eq_map, List.getElem?_map, h.2, memory, h.1]
  rfl

/-- An array stays as it is when the bytes of the buffer that it reads do. -/
theorem tobytes_of_lies {b' : List UInt8} (h : ∀ m k, a.Lies m k → b'[k]? = b[k]?) :
    a.tobytes b' = a.tobytes b := by
  cases hmem : a.mem with
  | some m => simp only [tobytes_eq_map, memory, hmem, Option.getD_some]
  | none =>
    rw [tobytes_eq_map, tobytes_eq_map]
    apply List.map_congr_left
    intro k hk
    obtain ⟨m, hm⟩ := List.mem_iff_getElem?.1 hk
    simp only [memory, hmem, Option.getD_none, memoryOf, List.getD_eq_getElem?_getD,
      h m k ⟨hmem, hm⟩]

theorem Owned.not_lies (h : a.Owned) (m k : ℕ) : ¬ a.Lies m k := fun hl => h hl.1

theorem Owned.tobytes_eq (h : a.Owned) (b b' : List UInt8) : a.tobytes b' = a.tobytes b :=
  tobytes_of_lies fun m k hl => absurd hl (h.not_lies m k)

/-- A byte that is not the `k`-th one of the buffer differs from it in some buffer. -/
theorem exists_differs {m k n : ℕ} (hm : m < a.nbytes) (hk : k < n) (h : ¬ a.Lies m k) :
    ∃ b : List UInt8, b.length = n ∧ (a.tobytes b)[m]? ≠ b[k]? := by
  rw [← length_positions] at hm
  have hpos : a.positions[m]? = some a.positions[m] := List.getElem?_eq_getElem hm
  have hbyte (b : List UInt8) : (a.tobytes b)[m]? = some (a.memory b a.positions[m]) := by
    rw [tobytes_eq_map, List.getElem?_map, hpos]
    rfl
  cases hmem : a.mem with
  | some mem =>
    -- The byte is a fixed one.
    refine ⟨List.replicate n (mem a.positions[m] + 1), List.length_replicate, ?_⟩
    rw [hbyte, List.getElem?_replicate, if_pos hk, memory, hmem, Option.getD_some]
    grind
  | none =>
    have hne : a.positions[m] ≠ k := by
      rintro rfl
      exact h ⟨hmem, hpos⟩
    refine ⟨(List.replicate n 0).set k 1, by simp, ?_⟩
    rw [hbyte, List.getElem?_set_self (by simpa using hk), memory, hmem, Option.getD_none,
      memoryOf, List.getD_eq_getElem?_getD, List.getElem?_set_ne hne.symm,
      List.getElem?_replicate]
    split_ifs <;> simp

/-- Reading an array from the bytes of its items. -/
theorem reshape_frombuffer {d : N.Dtype} {shape : List ℕ} (start : ℕ)
    (hobject : N.hasobject d = false) (hitem : N.itemsize d ≠ 0) :
    (frombuffer start (shape.prod * N.itemsize d) d).bind (·.reshape shape) =
      .ok (ofBuffer d shape start) := by
  rw [frombuffer, if_neg (by simp [hobject, hitem]),
    Nat.mul_div_cancel _ (Nat.pos_of_ne_zero hitem)]
  change reshape (ofBuffer d [shape.prod] start) shape = _
  rw [reshape, shape_ofBuffer, if_pos (by simp)]
  rfl

end Arr

/-! ## Some dtypes -/

/-- Dtypes on a little-endian machine: `bool`, `int32`, `float64`, a byte-swapped `int32`, a
structured dtype of two `int32` fields, the opaque one of 8 bytes, and `datetime64[s]`. -/
inductive SomeDtype where
  | b1
  | i4
  | f8
  | swapped
  | pair
  | v8
  | date
  deriving DecidableEq

namespace SomeDtype

def str : SomeDtype → Text
  | b1 => ['|', 'b', '1']
  | i4 => ['<', 'i', '4']
  | f8 => ['<', 'f', '8']
  | swapped => ['>', 'i', '4']
  | pair | v8 => ['|', 'V', '8']
  | date => ['<', 'M', '8', '[', 's', ']']

def itemsize : SomeDtype → ℕ
  | b1 => 1
  | i4 | swapped => 4
  | f8 | pair | v8 | date => 8

def name : SomeDtype → String
  | b1 => "bool"
  | i4 => "int32"
  | f8 => "float64"
  | swapped => ">i4"
  | pair => "[('x', '<i4'), ('y', '<i4')]"
  | v8 => "|V8"
  | date => "datetime64[s]"

end SomeDtype

/-- The text of the structured dtype is read as the opaque one, and dates have no buffer format. -/
def someNumPy : NumPy where
  Dtype := SomeDtype
  decEq := inferInstance
  str := SomeDtype.str
  dtype s := [SomeDtype.b1, .i4, .f8, .swapped, .v8, .date].find? fun d => d.str = s
  itemsize := SomeDtype.itemsize
  exported d := decide (d ≠ .date)
  hasobject _ := false
  name := SomeDtype.name

theorem documented_someNumPy : someNumPy.Documented where
  noTab d := by cases d <;> decide
  dtype_str d := by
    cases d with
    | b1 => exact ⟨.b1, by decide⟩
    | i4 => exact ⟨.i4, by decide⟩
    | f8 => exact ⟨.f8, by decide⟩
    | swapped => exact ⟨.swapped, by decide⟩
    | pair | v8 => exact ⟨.v8, by decide⟩
    | date => exact ⟨.date, by decide⟩

/-- An array with the given bytes, in C order. -/
def someArray (d : SomeDtype) (shape : List ℕ) (bs : List UInt8) : Arr someNumPy :=
  .ofBytes d shape bs

end NpTree
