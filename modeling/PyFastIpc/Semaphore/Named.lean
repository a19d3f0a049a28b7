import PyFastIpc.Semaphore.Steps

/-!
# The constructor of the named semaphore

`NamedSemaphore.__init__` on a segment that is mapped at its full size: `Semaphore(...)` stores the
magic word, and then the initial count if it is not `None`, which `NamedSemaphore` passes on only
in the process that created the segment.

| program point | next access |
|---|---|
| `init` | the magic store |
| `store` | the store of the initial count |

A process whose constructor has returned calls the methods of the semaphore.
-/

namespace NamedSemaphore

open FutexSemaphore

/-- Program points of `__init__`; `failed` is the `OverflowError` of an initial count out of
range. -/
inductive Ctor where
  | init
  | store (v : UInt32)
  | done
  | failed
  deriving DecidableEq

/-- What follows the magic store, for the `initial` that `Semaphore` is given. -/
def afterMagic : Option ℤ → Ctor
  | none => .done
  | some n => if 0 ≤ n ∧ n ≤ 0xFFFFFFFF then .store (UInt32.ofNat n.toNat) else .failed

/-- A process: its constructor and its thread of semaphore calls.  No step reads the tokens that
its posts have added and the count that the store of its constructor replaced. -/
structure Proc where
  ctor : Ctor
  sem : Thread
  added : ℕ
  found : UInt32

/-- A process that has mapped the segment. -/
def Proc.fresh : Proc := ⟨.init, .fresh, 0, 0⟩

/-- The tokens that the next step adds if it is a CAS of the add loop and succeeds. -/
def casAmount : Pc → ℕ
  | .addCas add _ _ => add.toNat
  | _ => 0

/-- A failed CAS goes back to the load. -/
def retrying : Pc → Bool
  | .addLoad _ => true
  | _ => false

/-- The tokens that a step from `t` to `t'` adds. -/
def addedBy (t t' : Thread) : ℕ := if retrying t'.pc then 0 else casAmount t.pc

inductive Move (ι : Type*) where
  /-- The next step of the constructor. -/
  | ctor
  /-- A step of a semaphore method. -/
  | sem (m : FutexSemaphore.Move ι)
  deriving DecidableEq

variable {ι : Type*}

section Step

variable [DecidableEq ι]

/-- One atomic step of process `i` with the given pid and `initial` argument, when `creator`
created the segment. -/
def step (creator i : ι) (pid : UInt32) (initial : Option ℤ) (m : Move ι) (h : Header ι)
    (p : Proc) : Option (Header ι × Proc) :=
  match m, p.ctor with
  | .ctor, .init =>
    some ({ h with magic := magicSEMA },
      { p with ctor := afterMagic (if i = creator then initial else none) })
  | .ctor, .store v =>
    some ({ h with count := h.count.store v }, { p with ctor := .done, found := h.count.word })
  | .sem n, .done =>
    (FutexSemaphore.step i pid n h p.sem).map fun r =>
      (r.1, { p with sem := r.2, added := p.added + addedBy p.sem r.2 })
  | _, _ => none

/-- The effects of one step. -/
inductive Effect (creator i : ι) (pid : UInt32) (initial : Option ℤ) (m : Move ι) (h : Header ι)
    (p : Proc) : Header ι → Proc → Prop
  | magic (hpc : p.ctor = .init) :
      Effect creator i pid initial m h p { h with magic := magicSEMA }
        { p with ctor := afterMagic (if i = creator then initial else none) }
  | store (v : UInt32) (hm : m = .ctor) (hpc : p.ctor = .store v) :
      Effect creator i pid initial m h p { h with count := h.count.store v }
        { p with ctor := .done, found := h.count.word }
  | method (n : FutexSemaphore.Move ι) (h' : Header ι) (t : Thread) (hpc : p.ctor = .done)
      (he : FutexSemaphore.Effect i pid n h p.sem h' t) :
      Effect creator i pid initial m h p h' { p with sem := t, added := p.added + addedBy p.sem t }

theorem effect_of_step {creator i : ι} {pid : UInt32} {initial : Option ℤ} {m : Move ι}
    {h h' : Header ι} {p p' : Proc} (hs : step creator i pid initial m h p = some (h', p')) :
    Effect creator i pid initial m h p h' p' := by
  unfold step at hs
  split at hs
  next hpc =>
    obtain ⟨rfl, rfl⟩ := by simpa using hs
    exact .magic hpc
  next v hpc =>
    obtain ⟨rfl, rfl⟩ := by simpa using hs
    exact .store v rfl hpc
  next n hpc =>
    obtain ⟨⟨hd, t⟩, hn, heq⟩ := Option.map_eq_some_iff.1 hs
    obtain ⟨rfl, rfl⟩ := by simpa using heq
    exact .method n hd t hpc (FutexSemaphore.effect_of_step hn)
  next => simp at hs

end Step

abbrev State (ι : Type*) := Config ι (Header ι) Proc

/-- A new segment reads as zeros, and no constructor has started on it. -/
def start : State ι := ⟨⟨0, 0, Futex.zero, 0, 0⟩, fun _ => .fresh⟩

/-- Processes that construct and then use one named semaphore, each with its own `initial`. -/
def system [DecidableEq ι] (creator : ι) (pid : ι → UInt32) (initial : ι → Option ℤ) :
    Transition (State ι) (ι × Move ι) where
  Init c := c = start
  step := Config.interleave fun i => step creator i (pid i) (initial i)

theorem effect_of_system_step [DecidableEq ι] {creator : ι} {pid : ι → UInt32}
    {initial : ι → Option ℤ} {c c' : State ι} {a : ι × Move ι}
    (hs : (system creator pid initial).step c a = some c') :
    ∃ hd p, Effect creator a.1 (pid a.1) (initial a.1) a.2 c.shared (c.locals a.1) hd p ∧
      c' = ⟨hd, Function.update c.locals a.1 p⟩ := by
  change Config.interleave (fun i => step creator i (pid i) (initial i)) c a = some c' at hs
  obtain ⟨hd, p, hstep, rfl⟩ := Config.interleave_eq_some hs
  exact ⟨hd, p, effect_of_step hstep, rfl⟩

end NamedSemaphore
