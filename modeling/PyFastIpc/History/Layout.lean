import PyFastIpc.Lib.Memory
import PyFastIpc.Mutex.Model

/-!
# The layout of a history buffer

The structures of `named_history_buffer.py` over the bytes of the segment: a 128-byte header, whose
second half is the mutex of the writers, and slots of a 64-byte slot header and a payload each.  The
fields are little-endian words at the offsets that `ctypes` gives them.

| field | offset |
|---|---|
| `magic`, `meta_size`, `num_slots`, `slot_size`, `msg_idx` | 0, 8, 16, 24, 32 |
| `mutex` | 64 to 128 |
| `size`, `start_version`, `end_version` of a slot | 0, 8, 16 from its offset |

The words of the mutex are a `FutexMutex.Header` of their own; no other access reaches the bytes
from 64 to 128.
-/

/-- A byte string. -/
abbrev Bytes := List UInt8

/-- `str.encode("utf-8")`. -/
def encodeUTF8 (s : String) : Bytes := s.toUTF8.data.toList

/-- `bytes.decode("utf-8")`, `none` where it raises `UnicodeDecodeError`. -/
def decodeUTF8 (bs : Bytes) : Option String := String.fromUTF8? ⟨bs.toArray⟩

theorem decodeUTF8_encodeUTF8 (s : String) : decodeUTF8 (encodeUTF8 s) = some s := by
  have hbytes : (⟨s.toUTF8.data.toList.toArray⟩ : ByteArray) = s.toByteArray := rfl
  rw [decodeUTF8, encodeUTF8, String.fromUTF8?, hbytes, dif_pos s.isValidUTF8]
  rfl

theorem encodeUTF8_eq_nil {s : String} : encodeUTF8 s = [] ↔ s = "" := by
  constructor
  · intro h
    have hs := decodeUTF8_encodeUTF8 s
    rw [h] at hs
    exact (Option.some.inj hs).symm
  · rintro rfl
    rfl

namespace NamedHistoryBuffer

/-- The magic number, the bytes of 'PFHB'. -/
def magicPFHB : ℕ := 0x50464842

/-- `sizeof(NamedHistoryBufferHeader)`. -/
def headerSize : ℕ := 128

/-- `sizeof(SlotHeader)`. -/
def slotHeaderSize : ℕ := 64

/-! ## The fields -/

section Fields

variable (m : Memory)

def magic : ℕ := m.u64 0

def metaSize : ℕ := m.u64 8

def numSlots : ℕ := m.u64 16

def slotSize : ℕ := m.u64 24

def msgIdx : ℤ := m.i64 32

def setMagic (v : ℕ) : Memory := m.setU64 0 v

def setMetaSize (v : ℕ) : Memory := m.setU64 8 v

def setNumSlots (v : ℕ) : Memory := m.setU64 16 v

def setSlotSize (v : ℕ) : Memory := m.setU64 24 v

def setMsgIdx (v : ℤ) : Memory := m.setI64 32 v

/-- `SlotHeader.size` of the slot header at `off`. -/
def size (off : ℕ) : ℕ := m.u64 off

def setSize (off v : ℕ) : Memory := m.setU64 off v

def setStartVersion (off v : ℕ) : Memory := m.setU64 (off + 8) v

def setEndVersion (off v : ℕ) : Memory := m.setU64 (off + 16) v

def calcTotalSize : ℕ :=
  headerSize + numSlots m * (slotHeaderSize + slotSize m) + (metaSize m / 64 + 1) * 64

def calcMetaOffset : ℕ := headerSize

def calcSlotOffset (slot : ℕ) : ℕ := headerSize + slot * (slotHeaderSize + slotSize m)

end Fields

/-- The size that `create` requests. -/
def requestedSize (numSlots slotSize metaLength : ℕ) : ℕ :=
  headerSize + numSlots * (slotHeaderSize + slotSize) + (metaLength / 64 + 1) * 64

/-- A mapped segment of `size` bytes. -/
structure Segment (ι : Type*) where
  size : ℕ
  mem : Memory
  mutex : FutexMutex.Header ι

/-- The number of bytes of `buf[off : off + n]`, which Python clips at the end of the buffer. -/
def sliceLength (size off n : ℕ) : ℕ := min size (off + n) - min size off

theorem sliceLength_of_le {size off n : ℕ} (h : off + n ≤ size) : sliceLength size off n = n := by
  unfold sliceLength
  omega

/-- The exceptions of the module, and those of the buffer operations and the mutex it uses. -/
inductive Error where
  | tooLarge (dataSize slotSize : ℕ)
  | noEntries
  | invalidMagic
  /-- `ZeroDivisionError` of the slot index. -/
  | modByZero
  /-- `SlotHeader.from_buffer` behind the end of the segment. -/
  | bufferTooSmall
  /-- A slice assignment that does not fit into the segment. -/
  | lengthMismatch
  /-- `UnicodeDecodeError`. -/
  | decode
  | mutex (e : FutexMutex.Error)
  deriving DecidableEq

/-- The texts of the errors that the module raises itself. -/
def Error.message : Error → Option String
  | .tooLarge dataSize slotSize =>
    some s!"Data size {dataSize} exceeds slot size {slotSize}"
  | .noEntries => some "No entries in history buffer"
  | .invalidMagic => some "Shared memory segment has invalid magic number"
  | _ => none

/-! ## What the stores leave alone -/

/-- The header has the fields that `create` was given. -/
structure Configured (numSlots slotSize metaLength : ℕ) (m : Memory) : Prop where
  magic : magic m = magicPFHB
  metaSize : metaSize m = metaLength
  numSlots : NamedHistoryBuffer.numSlots m = numSlots
  slotSize : NamedHistoryBuffer.slotSize m = slotSize

/-- The offset of a slot when the payloads have `slotSize` bytes. -/
def slotOffset (slotSize slot : ℕ) : ℕ := headerSize + slot * (slotHeaderSize + slotSize)

/-- The slot has the size and the payload of the message `p`. -/
structure Holds (slotSize : ℕ) (m : Memory) (slot : ℕ) (p : Bytes) : Prop where
  size : size m (slotOffset slotSize slot) = p.length
  payload : m.read (slotOffset slotSize slot + slotHeaderSize) p.length = p

section Frame

variable {N S M slot slot' off : ℕ} {m : Memory} {bs p : Bytes}

theorem Configured.calcSlotOffset (h : Configured N S M m) (slot : ℕ) :
    calcSlotOffset m slot = slotOffset S slot := by
  rw [NamedHistoryBuffer.calcSlotOffset, h.slotSize, slotOffset]

/-- `create` and the attaching constructor agree on the size. -/
theorem Configured.calcTotalSize (h : Configured N S M m) :
    calcTotalSize m = requestedSize N S M := by
  rw [NamedHistoryBuffer.calcTotalSize, h.numSlots, h.slotSize, h.metaSize, requestedSize]

theorem headerSize_le_slotOffset (S slot : ℕ) : headerSize ≤ slotOffset S slot :=
  Nat.le_add_right _ _

theorem Configured.write (h : Configured N S M m) (hoff : 32 ≤ off) :
    Configured N S M (m.write off bs) where
  magic := (Memory.u64_write (.inr (.inr (.inr (by omega))))).trans h.magic
  metaSize := (Memory.u64_write (.inr (.inr (.inr (by omega))))).trans h.metaSize
  numSlots := (Memory.u64_write (.inr (.inr (.inr (by omega))))).trans h.numSlots
  slotSize := (Memory.u64_write (.inr (.inr (.inr (by omega))))).trans h.slotSize

theorem msgIdx_write (hoff : headerSize ≤ off) : msgIdx (m.write off bs) = msgIdx m := by
  unfold headerSize at hoff
  exact congrArg (fun n : ℕ => wrap64 n) (Memory.u64_write (.inr (.inr (.inr (by omega)))))

theorem msgIdx_setMsgIdx (v : ℤ) : msgIdx (setMsgIdx m v) = wrap64 v := Memory.i64_setI64 32 v

theorem slots_disjoint (h : slot ≠ slot') :
    RangesDisjoint (slotOffset S slot) (slotHeaderSize + S) (slotOffset S slot')
      (slotHeaderSize + S) := by
  rcases Nat.lt_or_gt_of_ne h with h | h
  · have hle : (slot + 1) * (slotHeaderSize + S) ≤ slot' * (slotHeaderSize + S) :=
      Nat.mul_le_mul_right _ h
    refine .inr (.inr (.inl ?_))
    rw [Nat.succ_mul] at hle
    unfold slotOffset
    omega
  · have hle : (slot' + 1) * (slotHeaderSize + S) ≤ slot * (slotHeaderSize + S) :=
      Nat.mul_le_mul_right _ h
    refine .inr (.inr (.inr ?_))
    rw [Nat.succ_mul] at hle
    unfold slotOffset
    omega

theorem Holds.write (h : Holds S m slot p) (hp : p.length ≤ S)
    (hdis : RangesDisjoint off bs.length (slotOffset S slot) (slotHeaderSize + S)) :
    Holds S (m.write off bs) slot p where
  size := by
    refine (Memory.u64_write (hdis.mono le_rfl le_rfl le_rfl ?_)).trans h.size
    unfold slotHeaderSize
    omega
  payload := by
    refine (Memory.read_write_of_disjoint (hdis.mono le_rfl le_rfl ?_ ?_)).trans h.payload
    · omega
    · omega

/-- A store into one slot leaves what another slot holds. -/
theorem Holds.write_other (h : Holds S m slot p) (hp : p.length ≤ S) (hne : slot' ≠ slot)
    (hlo : slotOffset S slot' ≤ off)
    (hhi : off + bs.length ≤ slotOffset S slot' + (slotHeaderSize + S)) :
    Holds S (m.write off bs) slot p :=
  h.write hp ((slots_disjoint hne).mono hlo hhi le_rfl le_rfl)

theorem Holds.setMsgIdx (h : Holds S m slot p) (hp : p.length ≤ S) (v : ℤ) :
    Holds S (setMsgIdx m v) slot p := by
  refine h.write hp (.inr (.inr (.inl ?_)))
  have := headerSize_le_slotOffset S slot
  unfold headerSize at this
  simp only [length_toLE]
  omega

end Frame

end NamedHistoryBuffer
