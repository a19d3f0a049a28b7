import PyFastIpc.History.Steps
import PyFastIpc.History.Ring

/-!
# Creating a history buffer while others attach to it

`NamedHistoryBuffer.create` and the attaching constructor one access at a time, on a new segment
that is mapped at its full size.  `create` stores the magic number first, so an attaching
constructor can pass its check at any time after that.  A process whose constructor has returned
calls the methods.

| program point | next access |
|---|---|
| `create s` | store `s` of `create`, at `force` the next one of `force_release` |
| `check` | the magic check of the attaching constructor |
| `loadNumSlots`, `loadSlotSize`, `loadMetaSize` | the loads of `calc_total_size` |
| `map` | none, the segment is mapped again |
| `recheck`, `mutexInit` | the magic check and the `Mutex(...)` of `_attach` |
| `ret` | none, the constructor returns |

The zeros that `create` copies over the mutex are one store, as the payload of a message is.
-/

namespace NamedHistoryBuffer.Creation

open FutexMutex (Procs)

variable {ι : Type*}

/-- The stores of `create`, in order; `force` are those of `force_release`. -/
inductive Store where
  | magic
  | metaSize
  | numSlots
  | slotSize
  | msgIdx
  | wipe
  | mutexMagic
  | force
  | metaCopy
  deriving DecidableEq

/-- Program points of the constructors. -/
inductive Ctor where
  | create (s : Store)
  | check
  | loadNumSlots
  | loadSlotSize (numSlots : ℕ)
  | loadMetaSize (numSlots slotSize : ℕ)
  | map (total : ℕ)
  | recheck
  | mutexInit
  | ret
  | done
  /-- The constructor raised; no error of the module if the segment was too small. -/
  | failed (e : Option Error)
  deriving DecidableEq

/-- What `create` is called with. -/
structure Params where
  numSlots : ℕ
  slotSize : ℕ
  metaEncoded : Bytes

/-- What a store of `create` does to the bytes. -/
def Store.mem (A : Params) (m : Memory) : Store → Memory
  | .magic => setMagic m magicPFHB
  | .metaSize => setMetaSize m A.metaEncoded.length
  | .numSlots => setNumSlots m A.numSlots
  | .slotSize => setSlotSize m A.slotSize
  | .msgIdx => setMsgIdx m 0
  | .metaCopy => m.write calcMetaOffset A.metaEncoded
  | .wipe | .mutexMagic | .force => m

/-- What it does to the mutex. -/
def Store.header (h : FutexMutex.Header ι) : Store → FutexMutex.Header ι
  | .wipe => ⟨0, 0, h.state.store 0, 0, 0⟩
  | .mutexMagic => { h with magic := FutexMutex.magicMUTX }
  | _ => h

/-- `create` calls `force_release` when it has constructed the mutex. -/
def Store.call (p : Proc ι) : Store → Proc ι
  | .mutexMagic => { p with mx := p.mx.begin .forceRelease }
  | _ => p

/-- What follows a store, if it is not one of `force_release`. -/
def Store.next : Store → Ctor
  | .magic => .create .metaSize
  | .metaSize => .create .numSlots
  | .numSlots => .create .slotSize
  | .slotSize => .create .msgIdx
  | .msgIdx => .create .wipe
  | .wipe => .create .mutexMagic
  | .mutexMagic => .create .force
  | .force => .create .force
  | .metaCopy => .recheck

/-- The metadata is copied when `force_release` has returned. -/
def afterForce : FutexMutex.Pc → Ctor
  | .idle _ => .create .metaCopy
  | _ => .create .force

/-- A process: its constructor, and its methods. -/
structure Process (ι : Type*) where
  ctor : Ctor
  proc : Proc ι

/-- The buffer, and the byte ranges that publishes have stored into slots, which no step reads. -/
structure Traced (ι : Type*) where
  base : Shared ι
  written : List (ℕ × ℕ)

/-- The range of a slot that an access of the `try` block stores into. -/
def range (r : Regs) : Stage → List (ℕ × ℕ)
  | .storeSize => [(r.off, 8)]
  | .storeStart => [(r.off + 8, 8)]
  | .storePayload => [(r.payloadOff, r.data.length)]
  | .storeEnd => [(r.off + 16, 8)]
  | _ => []

/-- The range that a step of a method from `before` to `after` stores into. -/
def rangeOf (before after : Pc) : List (ℕ × ℕ) :=
  match before, after with
  | .body _ _, .releasing (some _) => []
  | .body k r, _ => range r k
  | _, _ => []

inductive Move (ι : Type*) where
  /-- The next access of the constructor. -/
  | ctor
  /-- The next one of the `force_release` of `create`. -/
  | force (m : FutexMutex.Move ι)
  /-- A step of a method. -/
  | method (m : NamedHistoryBuffer.Move ι)
  deriving DecidableEq

/-- The accesses of the attaching constructor up to its `Mutex(...)`. -/
def attachNext (size : ℕ) (m : Memory) : Ctor → Option Ctor
  | .check => some (if magic m = magicPFHB then .loadNumSlots else .failed (some .invalidMagic))
  | .loadNumSlots => some (.loadSlotSize (numSlots m))
  | .loadSlotSize n => some (.loadMetaSize n (slotSize m))
  | .loadMetaSize n s => some (.map (requestedSize n s (metaSize m)))
  | .map total => some (if size < total then .failed none else .recheck)
  | .recheck => some (if magic m = magicPFHB then .mutexInit else .failed (some .invalidMagic))
  | .ret => some .done
  | _ => none

section Step

variable [DecidableEq ι]

def Traced.setSegment (t : Traced ι) (m : Memory) (h : FutexMutex.Header ι) : Traced ι :=
  { t with base := { t.base with seg := { t.base.seg with mem := m, mutex := h } } }

/-- One atomic step of process `i`. -/
def step (A : Params) (i : ι) (pid : UInt32) (m : Move ι) (t : Traced ι) (q : Process ι) :
    Option (Traced ι × Process ι) :=
  match m, q.ctor with
  | .ctor, .create s =>
    if s = .force then none
    else some (t.setSegment (s.mem A t.base.seg.mem) (s.header t.base.seg.mutex),
      ⟨s.next, s.call q.proc⟩)
  | .force n, .create .force =>
    (FutexMutex.step i pid n t.base.seg.mutex q.proc.mx).map fun u =>
      (t.setSegment t.base.seg.mem u.1, ⟨afterForce u.2.pc, { q.proc with mx := u.2 }⟩)
  | .ctor, .mutexInit =>
    some (t.setSegment t.base.seg.mem { t.base.seg.mutex with magic := FutexMutex.magicMUTX },
      { q with ctor := .ret })
  | .ctor, _ => (attachNext t.base.seg.size t.base.seg.mem q.ctor).map fun c =>
      (t, { q with ctor := c })
  | .method n, .done =>
    (NamedHistoryBuffer.step i pid n t.base q.proc).map fun u =>
      (⟨u.1, t.written ++ rangeOf q.proc.pc u.2.pc⟩, { q with proc := u.2 })
  | _, _ => none

/-- The effects of one step. -/
inductive Effect (A : Params) (i : ι) (pid : UInt32) (m : Move ι) (t : Traced ι)
    (q : Process ι) : Traced ι → Process ι → Prop
  | store (s : Store) (hs : s ≠ .force) (hpc : q.ctor = .create s) :
      Effect A i pid m t q (t.setSegment (s.mem A t.base.seg.mem) (s.header t.base.seg.mutex))
        ⟨s.next, s.call q.proc⟩
  | force (n : FutexMutex.Move ι) (h : FutexMutex.Header ι) (mx : FutexMutex.Thread)
      (hpc : q.ctor = .create .force)
      (he : FutexMutex.Effect i pid n t.base.seg.mutex q.proc.mx h mx) :
      Effect A i pid m t q (t.setSegment t.base.seg.mem h)
        ⟨afterForce mx.pc, { q.proc with mx := mx }⟩
  | mutexInit (hpc : q.ctor = .mutexInit) :
      Effect A i pid m t q
        (t.setSegment t.base.seg.mem { t.base.seg.mutex with magic := FutexMutex.magicMUTX })
        { q with ctor := .ret }
  | attach (x : Ctor) (hx : attachNext t.base.seg.size t.base.seg.mem q.ctor = some x) :
      Effect A i pid m t q t { q with ctor := x }
  | method (n : NamedHistoryBuffer.Move ι) (sh : Shared ι) (p : Proc ι) (hm : m = .method n)
      (hpc : q.ctor = .done) (hs : NamedHistoryBuffer.step i pid n t.base q.proc = some (sh, p)) :
      Effect A i pid m t q ⟨sh, t.written ++ rangeOf q.proc.pc p.pc⟩ { q with proc := p }

theorem effect_of_step {A : Params} {i : ι} {pid : UInt32} {m : Move ι} {t t' : Traced ι}
    {q q' : Process ι} (hs : step A i pid m t q = some (t', q')) : Effect A i pid m t q t' q' := by
  unfold step at hs
  split at hs
  next s hpc =>
    split_ifs at hs with hforce
    obtain ⟨rfl, rfl⟩ := by simpa using hs
    exact .store s hforce hpc
  next n hpc =>
    obtain ⟨⟨h, mx⟩, hn, heq⟩ := Option.map_eq_some_iff.1 hs
    obtain ⟨rfl, rfl⟩ := by simpa using heq
    exact .force n h mx hpc (FutexMutex.effect_of_step hn)
  next hpc =>
    obtain ⟨rfl, rfl⟩ := by simpa using hs
    exact .mutexInit hpc
  next =>
    obtain ⟨x, hx, heq⟩ := Option.map_eq_some_iff.1 hs
    obtain ⟨rfl, rfl⟩ := by simpa using heq
    exact .attach x hx
  next n hpc =>
    obtain ⟨⟨sh, p⟩, hn, heq⟩ := Option.map_eq_some_iff.1 hs
    obtain ⟨rfl, rfl⟩ := by simpa using heq
    exact .method n sh p rfl hpc hn
  next => cases hs

end Step

abbrev State (ι : Type*) := Config ι (Traced ι) (Process ι)

/-- A new segment of the requested size reads as zeros, and no constructor has made an access. -/
structure Fresh (A : Params) (creator : ι) (c : State ι) : Prop where
  size : requestedSize A.numSlots A.slotSize A.metaEncoded.length ≤ c.shared.base.seg.size
  mem : c.shared.base.seg.mem = fun _ => 0
  mutex : c.shared.base.seg.mutex = ⟨0, 0, Futex.zero, 0, 0⟩
  histories : c.shared.base.done = [] ∧ c.shared.written = []
  creating : c.locals creator = ⟨.create .magic, .fresh⟩
  attaching : ∀ i, i ≠ creator → c.locals i = ⟨.check, .fresh⟩

/-- Process `creator` creates the buffer, the other ones attach to it. -/
def system [DecidableEq ι] (P : Procs ι) (A : Params) (creator : ι) :
    Transition (State ι) (ι × Move ι) where
  Init := Fresh A creator
  step := Config.interleave fun i => step A i (P.pid i)

theorem effect_of_system_step [DecidableEq ι] {P : Procs ι} {A : Params} {creator : ι}
    {c c' : State ι} {a : ι × Move ι} (hs : (system P A creator).step c a = some c') :
    ∃ t q, Effect A a.1 (P.pid a.1) a.2 c.shared (c.locals a.1) t q ∧
      c' = ⟨t, Function.update c.locals a.1 q⟩ := by
  change Config.interleave (fun i => step A i (P.pid i)) c a = some c' at hs
  obtain ⟨t, q, hstep, rfl⟩ := Config.interleave_eq_some hs
  exact ⟨t, q, effect_of_step hstep, rfl⟩

/-- All stores of `create`, in order. -/
def Store.all : List Store :=
  [.magic, .metaSize, .numSlots, .slotSize, .msgIdx, .wipe, .mutexMagic, .force, .metaCopy]

/-- One after the other they make the segment of `create`; `force_release` finds a free mutex. -/
theorem created_of_stores (A : Params) (s : Segment ι) :
    (⟨s.size, Store.all.foldl (fun m x => x.mem A m) s.mem,
      Store.all.foldl (fun h x => x.header h) s.mutex⟩ : Segment ι) =
      s.created A.numSlots A.slotSize A.metaEncoded := rfl

end NamedHistoryBuffer.Creation
