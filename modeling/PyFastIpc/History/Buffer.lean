import PyFastIpc.History.Layout
import PyFastIpc.Mutex.Alone

/-!
# The calls of a history buffer, one at a time

`create`, the attaching constructor, `publish`, `get_latest` and `get_meta` of
`named_history_buffer.py` as functions on the segment, for calls that run one after the other.  A
handle keeps nothing of the segment: every call reads the fields it needs from the header, so the
creator's handle and attached ones behave alike.
-/

namespace NamedHistoryBuffer

variable {ι : Type*}

/-- `create` on a segment of at least the requested size, with arbitrary contents; the pids and
times of its mutex calls leave no trace.  The constructor of `Mutex` stores the magic word, the
`force_release` then finds a free mutex. -/
def create (numSlots slotSize : ℕ) (metaText : String) (s : Segment ι) : Option (Segment ι) :=
  let metaEncoded := encodeUTF8 metaText
  if s.size < requestedSize numSlots slotSize metaEncoded.length then none
  else
    let mem := setMagic s.mem magicPFHB
    let mem := setMetaSize mem metaEncoded.length
    let mem := setNumSlots mem numSlots
    let mem := setSlotSize mem slotSize
    let mem := setMsgIdx mem 0
    let mem := mem.write calcMetaOffset metaEncoded
    some { s with
      mem := mem
      mutex := ⟨FutexMutex.magicMUTX, 0, s.mutex.state.store 0, 0, 0⟩ }

/-- `NamedHistoryBuffer(name)`; `none` where the segment is smaller than its header says, which the
constructor of `GuardedSharedMemory` refuses. -/
def attach (s : Segment ι) : Option (Except Error (Segment ι)) :=
  if s.size < headerSize then none
  else if magic s.mem ≠ magicPFHB then some (.error .invalidMagic)
  else if s.size < calcTotalSize s.mem then none
  else some (.ok { s with mutex := { s.mutex with magic := FutexMutex.magicMUTX } })

/-- The body of the `try` block of `publish`; the two times are the values of `monotonic_ns`.  An
exception leaves behind what was stored before it. -/
def store (data : Bytes) (startNs endNs : ℕ) (size : ℕ) (mem : Memory) :
    Except Error Unit × Memory :=
  let idx := msgIdx mem
  if numSlots mem = 0 then (.error .modByZero, mem)
  else
    let slot := (idx % numSlots mem).toNat
    let off := calcSlotOffset mem slot
    if size < off + slotHeaderSize then (.error .bufferTooSmall, mem)
    else
      let mem := setSize mem off data.length
      let mem := setStartVersion mem off startNs
      let payloadOff := calcSlotOffset mem slot + slotHeaderSize
      if sliceLength size payloadOff data.length ≠ data.length then (.error .lengthMismatch, mem)
      else
        let mem := mem.write payloadOff data
        let mem := setEndVersion mem off endNs
        (.ok (), setMsgIdx mem (msgIdx mem + 1))

/-- `publish` by the process `pid`; `none` where the mutex makes it wait. -/
def publish (pid : UInt32) (now : UInt64) (startNs endNs : ℕ) (data : Bytes) (s : Segment ι) :
    Option (Except Error Unit × Segment ι) :=
  if slotSize s.mem < data.length then
    some (.error (.tooLarge data.length (slotSize s.mem)), s)
  else
    match FutexMutex.acquireAlone pid now s.mutex with
    | none => none
    | some (.error e) => some (.error (.mutex e), s)
    | some (.ok locked) =>
      let stored := store data startNs endNs s.size s.mem
      match FutexMutex.releaseAlone pid locked with
      | none => none
      | some (.error e) =>
        some (.error (.mutex e), { s with mem := stored.2, mutex := locked })
      | some (.ok unlocked) => some (stored.1, { s with mem := stored.2, mutex := unlocked })

/-- `get_latest`. -/
def getLatest (s : Segment ι) : Except Error Bytes :=
  let idx := msgIdx s.mem
  if idx = 0 then .error .noEntries
  else if numSlots s.mem = 0 then .error .modByZero
  else
    let slot := ((idx - 1) % numSlots s.mem).toNat
    let off := calcSlotOffset s.mem slot
    if s.size < off + slotHeaderSize then .error .bufferTooSmall
    else
      let payloadOff := calcSlotOffset s.mem slot + slotHeaderSize
      .ok (s.mem.read payloadOff (sliceLength s.size payloadOff (size s.mem off)))

/-- `get_meta`. -/
def getMeta (s : Segment ι) : Except Error String :=
  let metaBytes := s.mem.read calcMetaOffset (sliceLength s.size calcMetaOffset (metaSize s.mem))
  match decodeUTF8 metaBytes with
  | some text => .ok text
  | none => .error .decode

end NamedHistoryBuffer
