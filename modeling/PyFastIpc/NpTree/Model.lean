import PyFastIpc.Lib.Nest
import PyFastIpc.NpTree.Array

/-!
# Layouts of NumPy trees

The functions of `nptree/schema.py`.  A tree is a `Nest` of arrays, whose kinds are the containers
with their keys; a layout has the same skeleton, with a textual descriptor at each leaf.

What is assumed of `optree` is what it documents: `tree_structure` is the skeleton, `tree_map` calls
its function on the leaves in order, with two trees of one skeleton on the pairs of leaves at the
same place, and builds a tree of the results; the first exception ends it, and what the function
has stored by then stays.  Of a `bytearray` it is assumed that it cannot change its length while an
array is a view of it.
-/

namespace NpTree

variable {N : NumPy} {κ : Type}

abbrev NumpyTree (N : NumPy) (κ : Type) := Nest κ (Arr N)

/-- A descriptor is `"{dtype_str}\\t{dim0,dim1,...}\\t{offset}"`. -/
abbrev LayoutTree (κ : Type) := Nest κ Text

/-- What a call leaves when the value it returns is of no further use. -/
def result {σ α : Type} : EStateM.Result (Error N) σ α → Except (Error N) σ
  | .ok _ s => .ok s
  | .error e _ => .error e

/-! ## Building a layout -/

/-- The next multiple of `alignment`. -/
def alignUp (offset alignment : ℕ) : ℕ := (offset + alignment - 1) / alignment * alignment

/-- The descriptor of an array at an offset. -/
def describe (arr : Arr N) (offset : ℕ) : Text :=
  ['\t'].intercalate [N.str arr.dtype, [','].intercalate (arr.shape.map str), str offset]

/-- `_arr_desc`; the state is the running offset. -/
def arrDesc (alignment : ℕ) (arr : Arr N) : EStateM (Error N) ℕ Text := do
  let offset ← get
  set (alignUp (offset + arr.nbytes) alignment)
  return describe arr offset

/-- `tree_map` of a function on a state. -/
def buildNptreeLayout (tree : NumpyTree N κ) (alignment : ℤ) :
    Except (Error N) (LayoutTree κ) :=
  if alignment ≤ 0 ∨ alignment.toNat &&& (alignment.toNat - 1) ≠ 0 then .error .alignment
  else
    match (tree.mapM (arrDesc alignment.toNat)).run 0 with
    | .ok layout _ => .ok layout
    | .error e _ => .error e

/-! ## Reading a layout -/

/-- What a descriptor says. -/
structure Desc (N : NumPy) where
  dtype : N.Dtype
  shape : List ℕ
  offset : ℕ
  size : ℕ

/-- The numbers between commas. -/
def parseShape (shapeStr : Text) : Except (Error N) (List ℕ) :=
  if shapeStr = [] then .ok []
  else (shapeStr.splitOn ',').mapM fun s => (int s).elim (.error (.int s)) .ok

def parseArrDesc (arrDesc : Text) : Except (Error N) (Desc N) :=
  match arrDesc.splitOn '\t' with
  | [dtypeStr, shapeStr, offsetStr] => do
    let dtype ← (N.dtype dtypeStr).elim (.error (.dtype dtypeStr)) .ok
    let shape ← parseShape shapeStr
    let offset ← (int offsetStr).elim (.error (.int offsetStr)) .ok
    return ⟨dtype, shape, offset, shape.prod * N.itemsize dtype⟩
  | _ => .error .unpack

/-- The descriptor in a callback. -/
def readDesc (N : NumPy) {σ : Type} (arrDesc : Text) : EStateM (Error N) σ (Desc N) :=
  match parseArrDesc arrDesc with
  | .ok d => pure d
  | .error e => throw e

/-- `_update_max_offset`; the state is the largest end so far. -/
def updateMaxOffset (N : NumPy) (arrLayout : Text) : EStateM (Error N) ℕ Unit := do
  let d ← readDesc N arrLayout
  modify fun maxOffset => if maxOffset < d.offset + d.size then d.offset + d.size else maxOffset

def calcBufferSize (N : NumPy) (layout : LayoutTree κ) : Except (Error N) ℕ :=
  result ((layout.mapM (updateMaxOffset N)).run 0)

/-- `_check`. -/
def check (arr : Arr N) (desc : Text) : Except (Error N) Unit := do
  let d ← parseArrDesc desc
  if arr.dtype ≠ d.dtype then throw (.dtypeMismatch d.dtype arr.dtype)
  if arr.shape ≠ d.shape then throw (.shapeMismatch d.shape arr.shape)

section Functions

variable [DecidableEq κ]

/-- `tree_map` of two trees of one skeleton goes through the pairs of leaves. -/
def validateLayout (tree : NumpyTree N κ) (layout : LayoutTree κ) : Except (Error N) Unit :=
  if tree.skeleton ≠ layout.skeleton then .error .treeStructure
  else (tree.leaves.zip layout.leaves).forM fun p => check p.1 p.2

/-! ## Serialization -/

/-- What a caller can pass: the arrays that are views of the buffer lie in it, and there is none
when the call makes the buffer. -/
def Within (nptree : NumpyTree N κ) (buffer : Option (List UInt8)) : Prop :=
  ∀ arr ∈ nptree.leaves, arr.mem = none → ∃ b ∈ buffer, ∀ k ∈ arr.positions, k < b.length

/-- Some array of the tree is a view of the buffer. -/
def pinned (nptree : NumpyTree N κ) : Bool := nptree.leaves.any fun arr => arr.mem.isNone

/-- `_serialize_leaf`; the state is the buffer, which cannot change its length if it is `fixed`. -/
def serializeLeaf (fixed : Bool) (arr : Arr N) (arrLayout : Text) :
    EStateM (Error N) (List UInt8) Unit := do
  let d ← readDesc N arrLayout
  if d.size ≠ 0 then
    let buffer ← get
    match (if arr.cContiguous then arr else arr.ascontiguousarray buffer).cast buffer with
    | .ok bytes =>
      if fixed ∧ bytes.length ≠ (getSlice buffer d.offset d.size).length then throw .resize
      set (setSlice buffer d.offset d.size bytes)
    | .error e => throw e

def serializeLeaves (nptree : NumpyTree N κ) (layout : LayoutTree κ) :
    EStateM (Error N) (List UInt8) Unit :=
  (nptree.leaves.zip layout.leaves).forM fun p => serializeLeaf (pinned nptree) p.1 p.2

/-- The value is the buffer that is returned, the state the caller's buffer, if there is one. -/
def serializeNptree (nptree : NumpyTree N κ) (layout : LayoutTree κ)
    (buffer : Option (List UInt8)) :
    EStateM.Result (Error N) (Option (List UInt8)) (List UInt8) :=
  if nptree.skeleton ≠ layout.skeleton then .error .treeStructure buffer
  else
    match calcBufferSize N layout with
    | .error e => .error e buffer
    | .ok bufferSize =>
      match buffer with
      | none =>
        match (serializeLeaves nptree layout).run (List.replicate bufferSize 0) with
        | .ok _ b => .ok b none
        | .error e _ => .error e none
      | some b =>
        if b.length < bufferSize then .error .bufferTooSmall (some b)
        else
          match (serializeLeaves nptree layout).run b with
          | .ok _ b' => .ok b' (some b')
          | .error e b' => .error e (some b')

/-- `_desc_to_arr`: a view of the buffer. -/
def descToArr (N : NumPy) (buffer : List UInt8) (arrLayout : Text) : Except (Error N) (Arr N) := do
  let d ← parseArrDesc arrLayout
  let arr ← Arr.frombuffer (min d.offset buffer.length) (getSlice buffer d.offset d.size).length
    d.dtype
  arr.reshape d.shape

/-- Without a buffer the arrays are views of a new one, which nobody else has. -/
def deserializeNptree (N : NumPy) (layout : LayoutTree κ) (buffer : Option (List UInt8)) :
    Except (Error N) (NumpyTree N κ) := do
  let minBufferSize ← calcBufferSize N layout
  match buffer with
  | none =>
    let zeros := List.replicate minBufferSize 0
    let nptree ← layout.mapM (descToArr N zeros)
    return nptree.map (·.own zeros)
  | some b =>
    if b.length < minBufferSize then .error .bufferTooSmall
    else layout.mapM (descToArr N b)

end Functions

end NpTree
