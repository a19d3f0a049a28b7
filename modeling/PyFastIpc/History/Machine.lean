import PyFastIpc.History.Buffer

/-!
# The history buffer under concurrency

The accesses of `publish`, `get_latest` and `get_meta` one by one, for processes that have a handle
each.  The body of the `try` block of `publish` and the body of `get_latest` are chains of accesses
(`Stage`, `Look`) that fill registers; the calls of the writer mutex are the steps of `FutexMutex`.

| program point | next access |
|---|---|
| `check` | the load of `slot_size` before the mutex is taken |
| `acquiring`, `releasing` | the next one of `acquire` or `release` |
| `body k r` | access `k` of the `try` block |
| `latest k v` | access `k` of `get_latest` |
| `metaSize`, `metaCopy` | the load of `meta_size` and the copy of the metadata |
-/

namespace NamedHistoryBuffer

open FutexMutex (Procs)

/-- The results of a call. -/
inductive Ret where
  | none
  | bytes (b : Bytes)
  | text (s : String)
  | raised (e : Error)
  deriving DecidableEq

/-! ## The accesses of `publish` -/

/-- The accesses of the `try` block, in order.  `locate` and `relocate` load `slot_size` for the
offset of the slot, `loadNext` and `storeNext` are those of `msg_idx += 1`. -/
inductive Stage where
  | loadIdx
  | loadNumSlots
  | locate
  | storeSize
  | storeStart
  | relocate
  | storePayload
  | storeEnd
  | loadNext
  | storeNext
  deriving DecidableEq

/-- The local variables of `publish`. -/
structure Regs where
  data : Bytes
  id : ℤ
  slot : ℕ
  off : ℕ
  payloadOff : ℕ
  idx : ℤ
  deriving DecidableEq

/-- The registers when the mutex has been acquired. -/
def Regs.start (data : Bytes) : Regs := ⟨data, 0, 0, 0, 0, 0⟩

/-- The access after this one. -/
def Stage.next : Stage → Option Stage
  | .loadIdx => some .loadNumSlots
  | .loadNumSlots => some .locate
  | .locate => some .storeSize
  | .storeSize => some .storeStart
  | .storeStart => some .relocate
  | .relocate => some .storePayload
  | .storePayload => some .storeEnd
  | .storeEnd => some .loadNext
  | .loadNext => some .storeNext
  | .storeNext => none

/-- One access of the `try` block on a segment of `size` bytes; `now` is the value of
`monotonic_ns`. -/
def access (now size : ℕ) (m : Memory) (r : Regs) : Stage → Except Error (Regs × Memory)
  | .loadIdx => .ok ({ r with id := msgIdx m }, m)
  | .loadNumSlots =>
    if numSlots m = 0 then .error .modByZero
    else .ok ({ r with slot := (r.id % numSlots m).toNat }, m)
  | .locate =>
    if size < calcSlotOffset m r.slot + slotHeaderSize then .error .bufferTooSmall
    else .ok ({ r with off := calcSlotOffset m r.slot }, m)
  | .storeSize => .ok (r, setSize m r.off r.data.length)
  | .storeStart => .ok (r, setStartVersion m r.off now)
  | .relocate => .ok ({ r with payloadOff := calcSlotOffset m r.slot + slotHeaderSize }, m)
  | .storePayload =>
    if sliceLength size r.payloadOff r.data.length ≠ r.data.length then .error .lengthMismatch
    else .ok (r, m.write r.payloadOff r.data)
  | .storeEnd => .ok (r, setEndVersion m r.off now)
  | .loadNext => .ok ({ r with idx := msgIdx m }, m)
  | .storeNext => .ok (r, setMsgIdx m (r.idx + 1))

/-! ## The accesses of `get_latest` -/

/-- The accesses of `get_latest`, in order. -/
inductive Look where
  | loadIdx
  | loadNumSlots
  | locate
  | relocate
  | loadSize
  | copy
  deriving DecidableEq

/-- The local variables of `get_latest`; `n` is the length of the slice that it copies. -/
structure View where
  idx : ℤ
  slot : ℕ
  off : ℕ
  payloadOff : ℕ
  n : ℕ
  deriving DecidableEq

def View.start : View := ⟨0, 0, 0, 0, 0⟩

/-- The access after this one. -/
def Look.next : Look → Option Look
  | .loadIdx => some .loadNumSlots
  | .loadNumSlots => some .locate
  | .locate => some .relocate
  | .relocate => some .loadSize
  | .loadSize => some .copy
  | .copy => none

/-- One access of `get_latest` on a segment of `segSize` bytes, up to the copy. -/
def look (segSize : ℕ) (m : Memory) (v : View) : Look → Except Error View
  | .loadIdx => if msgIdx m = 0 then .error .noEntries else .ok { v with idx := msgIdx m }
  | .loadNumSlots =>
    if numSlots m = 0 then .error .modByZero
    else .ok { v with slot := ((v.idx - 1) % numSlots m).toNat }
  | .locate =>
    if segSize < calcSlotOffset m v.slot + slotHeaderSize then .error .bufferTooSmall
    else .ok { v with off := calcSlotOffset m v.slot }
  | .relocate => .ok { v with payloadOff := calcSlotOffset m v.slot + slotHeaderSize }
  | .loadSize => .ok { v with n := sliceLength segSize v.payloadOff (size m v.off) }
  | .copy => .ok v

/-! ## Processes -/

/-- Program points. -/
inductive Pc where
  /-- Outside any call; the result of the last one. -/
  | idle (last : Option Ret)
  | check (data : Bytes)
  | acquiring (data : Bytes)
  | body (k : Stage) (r : Regs)
  /-- In the `finally` block, with the exception to be raised after it. -/
  | releasing (pending : Option Error)
  | latest (k : Look) (v : View)
  | metaSize
  | metaCopy (n : ℕ)
  deriving DecidableEq

/-- The methods a process can call. -/
inductive Call where
  | publish (data : Bytes)
  | getLatest
  | getMeta
  deriving DecidableEq

/-- A publish call of process `who` whose message has the number `id`. -/
structure Entry (ι : Type*) where
  id : ℤ
  who : ι
  data : Bytes
  deriving DecidableEq

/-- A process: its program point and its thread of mutex calls.  No step reads the other two, which
are about its current or last `get_latest`: how many messages were published when it began, and
whose size it loaded. -/
structure Proc (ι : Type*) where
  pc : Pc
  mx : FutexMutex.Thread
  since : ℕ
  seen : Option (Entry ι)

/-- The segment, and histories that no step reads: the publishes in the order in which they took the
mutex, those that have incremented the index, and for each slot whose size and whose payload was
stored in it last. -/
structure Shared (ι : Type*) where
  seg : Segment ι
  order : List (ι × Bytes)
  done : List (Entry ι)
  sized : ℕ → Option (Entry ι)
  held : ℕ → Option (Entry ι)

namespace Proc

variable {ι : Type*}

/-- A process that has not called anything yet. -/
def fresh : Proc ι := ⟨.idle none, .fresh, 0, none⟩

def goto (p : Proc ι) (pc : Pc) : Proc ι := { p with pc := pc }

/-- The process calls `f` when `n` messages have been published. -/
def begin (p : Proc ι) (n : ℕ) : Call → Proc ι
  | .publish data => p.goto (.check data)
  | .getLatest => { p with pc := .latest .loadIdx .start, since := n }
  | .getMeta => p.goto .metaSize

/-- The process calls `acquire`. -/
def enter (p : Proc ι) (data : Bytes) : Proc ι :=
  { p with pc := .acquiring data, mx := p.mx.begin .acquire }

/-- The process calls `release` in the `finally` block. -/
def leave (p : Proc ι) (pending : Option Error) : Proc ι :=
  { p with pc := .releasing pending, mx := p.mx.begin .release }

/-- The process after an access of the `try` block. -/
def advance (p : Proc ι) (r : Regs) : Option Stage → Proc ι
  | some k => p.goto (.body k r)
  | none => p.leave none

end Proc

inductive Move (ι : Type*) where
  | call (f : Call)
  /-- The next load or copy outside the `try` block. -/
  | next
  /-- The next access of the `try` block; `monotonic_ns` gives `now` if it is called. -/
  | access (now : ℕ)
  /-- A step of a mutex call. -/
  | mutex (m : FutexMutex.Move ι)
  deriving DecidableEq

/-- Where `publish` goes on after a step of `acquire`. -/
def afterAcquire (data : Bytes) : FutexMutex.Pc → Pc
  | .idle (some (.raised e)) => .idle (some (.raised (.mutex e)))
  | .idle _ => .body .loadIdx (.start data)
  | _ => .acquiring data

/-- Where `publish` goes on after a step of `release`. -/
def afterRelease (pending : Option Error) : FutexMutex.Pc → Pc
  | .idle (some (.raised e)) => .idle (some (.raised (.mutex e)))
  | .idle _ =>
    match pending with
    | none => .idle (some .none)
    | some e => .idle (some (.raised e))
  | _ => .releasing pending

section Step

variable {ι : Type*} [DecidableEq ι]

/-- The histories after an access of the `try` block. -/
def Shared.record (sh : Shared ι) (i : ι) (r : Regs) : Stage → Shared ι
  | .storeSize => { sh with sized := Function.update sh.sized r.slot (some ⟨r.id, i, r.data⟩) }
  | .storePayload => { sh with held := Function.update sh.held r.slot (some ⟨r.id, i, r.data⟩) }
  | .storeNext => { sh with done := sh.done ++ [⟨r.id, i, r.data⟩] }
  | _ => sh

/-- The order after a step of `acquire` from `t` to `t'`. -/
def Shared.enter (sh : Shared ι) (i : ι) (data : Bytes) (t t' : FutexMutex.Thread) : Shared ι :=
  if t.taken = false ∧ t'.taken = true then { sh with order := sh.order ++ [(i, data)] } else sh

def Shared.setMem (sh : Shared ι) (m : Memory) : Shared ι :=
  { sh with seg := { sh.seg with mem := m } }

def Shared.setMutex (sh : Shared ι) (h : FutexMutex.Header ι) : Shared ι :=
  { sh with seg := { sh.seg with mutex := h } }

/-- Whose size a reader knows after an access of `get_latest`. -/
def Proc.look (p : Proc ι) (sh : Shared ι) (v : View) : Look → Option (Entry ι)
  | .loadSize => sh.sized v.slot
  | _ => p.seen

/-- The loads and copies outside the `try` block. -/
def nextLoad (sh : Shared ι) (p : Proc ι) : Option (Proc ι) :=
  match p.pc with
  | .check data =>
    if slotSize sh.seg.mem < data.length then
      some (p.goto (.idle (some (.raised (.tooLarge data.length (slotSize sh.seg.mem))))))
    else some (p.enter data)
  | .latest k v =>
    match k.next with
    | some k' =>
      match look sh.seg.size sh.seg.mem v k with
      | .ok v' => some { p with pc := .latest k' v', seen := p.look sh v k }
      | .error e => some (p.goto (.idle (some (.raised e))))
    | none => some (p.goto (.idle (some (.bytes (sh.seg.mem.read v.payloadOff v.n)))))
  | .metaSize =>
    some (p.goto (.metaCopy (sliceLength sh.seg.size calcMetaOffset (metaSize sh.seg.mem))))
  | .metaCopy n =>
    match decodeUTF8 (sh.seg.mem.read calcMetaOffset n) with
    | some text => some (p.goto (.idle (some (.text text))))
    | none => some (p.goto (.idle (some (.raised .decode))))
  | _ => none

/-- One atomic step of process `i` with the given pid. -/
def step (i : ι) (pid : UInt32) (m : Move ι) (sh : Shared ι) (p : Proc ι) :
    Option (Shared ι × Proc ι) :=
  match m, p.pc with
  | .call f, .idle _ => some (sh, p.begin sh.done.length f)
  | .next, _ => (nextLoad sh p).map fun p' => (sh, p')
  | .access now, .body k r =>
    match access now sh.seg.size sh.seg.mem r k with
    | .ok (r', mem) => some ((sh.setMem mem).record i r' k, p.advance r' k.next)
    | .error e => some (sh, p.leave (some e))
  | .mutex n, .acquiring data =>
    (FutexMutex.step i pid n sh.seg.mutex p.mx).map fun u =>
      ((sh.setMutex u.1).enter i data p.mx u.2,
        { p with pc := afterAcquire data u.2.pc, mx := u.2 })
  | .mutex n, .releasing pending =>
    (FutexMutex.step i pid n sh.seg.mutex p.mx).map fun u =>
      (sh.setMutex u.1, { p with pc := afterRelease pending u.2.pc, mx := u.2 })
  | _, _ => none

end Step

variable {ι : Type*}

abbrev State (ι : Type*) := Config ι (Shared ι) (Proc ι)

/-- A buffer as `create` leaves it, with no call made yet. -/
structure Created (numSlots slotSize metaLength : ℕ) (c : State ι) : Prop where
  configured : Configured numSlots slotSize metaLength c.shared.seg.mem
  room : requestedSize numSlots slotSize metaLength ≤ c.shared.seg.size
  msgIdx : msgIdx c.shared.seg.mem = 0
  mutex : c.shared.seg.mutex.state = Futex.zero ∧ c.shared.seg.mutex.ownerPid = 0
  histories : c.shared.order = [] ∧ c.shared.done = [] ∧ (∀ s, c.shared.sized s = none) ∧
    ∀ s, c.shared.held s = none
  locals : ∀ i, c.locals i = .fresh

/-- Processes with handles on one history buffer. -/
def system [DecidableEq ι] (P : Procs ι) (numSlots slotSize metaLength : ℕ) :
    Transition (State ι) (ι × Move ι) where
  Init := Created numSlots slotSize metaLength
  step := Config.interleave fun i => step i (P.pid i)

end NamedHistoryBuffer
