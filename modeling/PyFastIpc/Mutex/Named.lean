import PyFastIpc.Mutex.Owner

/-!
# The constructor of the named mutex

`NamedMutex.__init__` on a segment that is mapped at its full size.  `Mutex(...)` stores the magic
word.  The constructor that created the segment then calls `force_release` and fills the 64 bytes
with zeros; the others return.  The words of the fill are zeroed one by one, in any order.

| program point | next access |
|---|---|
| `init` | the magic store of `Mutex(...)` |
| `force` | the next access of `force_release` |
| `zero` | the store of 0 to one of the remaining words |
| `ret` | none, the constructor returns |

A process whose constructor has returned calls the methods of the mutex.
-/

namespace NamedMutex

open FutexMutex

/-- The words of the header that the fill can reach separately. -/
inductive Word where
  | magic
  | flags
  | state
  | ownerPid
  | lastAcquiredNs
  deriving DecidableEq

def Word.all : Finset Word := {.magic, .flags, .state, .ownerPid, .lastAcquiredNs}

/-- Program points of `__init__`. -/
inductive Ctor where
  | init
  | force
  | zero (todo : Finset Word)
  | ret
  | done
  deriving DecidableEq

/-- A process: its constructor, and its thread of mutex calls. -/
structure Proc where
  ctor : Ctor
  mx : Thread

/-- A process that has mapped the segment. -/
def Proc.fresh : Proc := ⟨.init, .fresh⟩

inductive Move (ι : Type*) where
  /-- The next step of the constructor, with no choice left. -/
  | ctor
  /-- The fill zeroes this word next. -/
  | zero (w : Word)
  /-- A step of a mutex method. -/
  | mutex (m : FutexMutex.Move ι)
  deriving DecidableEq

section Step

variable {ι : Type*}

def zeroWord (h : Header ι) : Word → Header ι
  | .magic => { h with magic := 0 }
  | .flags => { h with flags := 0 }
  | .state => { h with state := h.state.store 0 }
  | .ownerPid => { h with ownerPid := 0 }
  | .lastAcquiredNs => { h with lastAcquiredNs := 0 }

/-- The fill follows when `force_release` has returned. -/
def afterForce (p : Pc) : Ctor :=
  match p with
  | .idle _ => .zero Word.all
  | _ => .force

/-- The constructor returns when no word is left. -/
def fillFrom (todo : Finset Word) : Ctor := if todo = ∅ then .ret else .zero todo

variable [DecidableEq ι]

/-- One atomic step of process `i` with the given pid, when `creator` created the segment. -/
def step (creator i : ι) (pid : UInt32) (m : Move ι) (h : Header ι) (p : Proc) :
    Option (Header ι × Proc) :=
  match m, p.ctor with
  | .ctor, .init =>
    some ({ h with magic := magicMUTX },
      if i = creator then ⟨.force, p.mx.begin .forceRelease⟩ else { p with ctor := .ret })
  | .mutex m, .force =>
    (FutexMutex.step i pid m h p.mx).map fun r => (r.1, ⟨afterForce r.2.pc, r.2⟩)
  | .zero w, .zero todo =>
    if w ∈ todo then some (zeroWord h w, { p with ctor := fillFrom (todo.erase w) }) else none
  | .ctor, .ret => some (h, { p with ctor := .done })
  | .mutex m, .done => (FutexMutex.step i pid m h p.mx).map fun r => (r.1, { p with mx := r.2 })
  | _, _ => none

/-- The effects of one step. -/
inductive Effect (creator i : ι) (pid : UInt32) (m : Move ι) (h : Header ι) (p : Proc) :
    Header ι → Proc → Prop
  | attach (hm : m = .ctor) (hi : i ≠ creator) (hpc : p.ctor = .init) :
      Effect creator i pid m h p { h with magic := magicMUTX } { p with ctor := .ret }
  | create (hm : m = .ctor) (hi : i = creator) (hpc : p.ctor = .init) :
      Effect creator i pid m h p { h with magic := magicMUTX } ⟨.force, p.mx.begin .forceRelease⟩
  | force (n : FutexMutex.Move ι) (h' : Header ι) (t : Thread) (hm : m = .mutex n)
      (hpc : p.ctor = .force) (he : FutexMutex.Effect i pid n h p.mx h' t) :
      Effect creator i pid m h p h' ⟨afterForce t.pc, t⟩
  | zero (w : Word) (todo : Finset Word) (hm : m = .zero w) (hpc : p.ctor = .zero todo)
      (hw : w ∈ todo) :
      Effect creator i pid m h p (zeroWord h w) { p with ctor := fillFrom (todo.erase w) }
  | ret (hm : m = .ctor) (hpc : p.ctor = .ret) :
      Effect creator i pid m h p h { p with ctor := .done }
  | method (n : FutexMutex.Move ι) (h' : Header ι) (t : Thread) (hm : m = .mutex n)
      (hpc : p.ctor = .done) (he : FutexMutex.Effect i pid n h p.mx h' t) :
      Effect creator i pid m h p h' { p with mx := t }

theorem effect_of_step {creator i : ι} {pid : UInt32} {m : Move ι} {h h' : Header ι} {p p' : Proc}
    (hs : step creator i pid m h p = some (h', p')) : Effect creator i pid m h p h' p' := by
  unfold step at hs
  split at hs
  next hpc =>
    by_cases hi : i = creator
    · obtain ⟨rfl, rfl⟩ := by simpa [hi] using hs
      exact .create rfl hi hpc
    · obtain ⟨rfl, rfl⟩ := by simpa [hi] using hs
      exact .attach rfl hi hpc
  next n hpc =>
    obtain ⟨⟨hd, t⟩, hn, heq⟩ := Option.map_eq_some_iff.1 hs
    obtain ⟨rfl, rfl⟩ := by simpa using heq
    exact .force n hd t rfl hpc (FutexMutex.effect_of_step hn)
  next w todo hpc =>
    split_ifs at hs with hw
    obtain ⟨rfl, rfl⟩ := by simpa using hs
    exact .zero w todo rfl hpc hw
  next hpc =>
    obtain ⟨rfl, rfl⟩ := by simpa using hs
    exact .ret rfl hpc
  next n hpc =>
    obtain ⟨⟨hd, t⟩, hn, heq⟩ := Option.map_eq_some_iff.1 hs
    obtain ⟨rfl, rfl⟩ := by simpa using heq
    exact .method n hd t rfl hpc (FutexMutex.effect_of_step hn)
  next => simp at hs

end Step

variable {ι : Type*}

abbrev State (ι : Type*) := Config ι (Header ι) Proc

/-- A new segment reads as zeros, and no constructor has started on it. -/
def start : State ι := ⟨⟨0, 0, Futex.zero, 0, 0⟩, fun _ => .fresh⟩

/-- Processes that construct and then use one named mutex; `creator` is the one whose
`GuardedSharedMemory` created the segment. -/
def system [DecidableEq ι] (P : Procs ι) (creator : ι) : Transition (State ι) (ι × Move ι) where
  Init c := c = start
  step := Config.interleave fun i => step creator i (P.pid i)

theorem effect_of_system_step [DecidableEq ι] {P : Procs ι} {creator : ι} {c c' : State ι}
    {a : ι × Move ι} (hs : (system P creator).step c a = some c') :
    ∃ hd p, Effect creator a.1 (P.pid a.1) a.2 c.shared (c.locals a.1) hd p ∧
      c' = ⟨hd, Function.update c.locals a.1 p⟩ := by
  change Config.interleave (fun i => step creator i (P.pid i)) c a = some c' at hs
  obtain ⟨hd, p, hstep, rfl⟩ := Config.interleave_eq_some hs
  exact ⟨hd, p, effect_of_step hstep, rfl⟩

end NamedMutex
