import PyFastIpc.Lib.CInt
import PyFastIpc.Lib.Threads
import PyFastIpc.Lib.Futex

/-!
# The futex mutex

The 64-byte mutex header and the atomic steps of the `Mutex` methods of `_primitives.c`.  Each
load, compare-and-swap, exchange, store, `FUTEX_WAIT` and `FUTEX_WAKE` is one step; the local
computation up to the next shared access belongs to the step before it.

The four acquire entry points are copies of one algorithm, so they share one definition, `Acquire`,
whose fields are what they differ in: whether the owner word is checked first, the number of spin
attempts, whether the slow path is entered at all, whether the wait has a timeout, and the result.

| program point | next access |
|---|---|
| `loadOwner` | the owner load of `acquire` |
| `cas` | the strong CAS 0 → 1 on the state word |
| `spinLoad`, `spinCas` | load and weak CAS of one spin attempt |
| `xchg` | the exchange with 2 |
| `futexWait`, `inWait` | `FUTEX_WAIT(state, 2)` and the time inside it |
| `storeOwner`, `storeLastNs` | the two stores after the lock was taken |
| `relLoad`, `relXchg`, `relOwner`, `relWake` | the steps of `release` |
| `forceXchg` | the exchange of `force_release`, which goes on at `relOwner` |
-/

namespace FutexMutex

/-- `MUTEX_MAGIC`, the bytes of 'MUTX'. -/
def magicMUTX : UInt32 := 0x4D555458

/-- The words of the mutex header; the state word is a futex. -/
structure Header (ι : Type*) where
  magic : UInt32
  flags : UInt32
  state : Futex ι
  ownerPid : UInt32
  lastAcquiredNs : UInt64

/-- The `RuntimeError`s of the module. -/
inductive Error where
  | notOwned
  | alreadyOwned
  deriving DecidableEq

def Error.message : Error → String
  | .notOwned => "cannot release a mutex not owned by this process"
  | .alreadyOwned => "cannot re-acquire a mutex already owned by this process"

/-- Results of a call: a bool, the mutex itself (`__enter__`), `None`, a `RuntimeError`, or the
`OverflowError` of an argument that does not fit into its C type. -/
inductive Ret where
  | bool (b : Bool)
  | self
  | none
  | raised (e : Error)
  | overflow
  deriving DecidableEq

/-- The call gave `False` or raised. -/
def Ret.failed : Ret → Bool
  | .bool b => !b
  | .raised _ | .overflow => true
  | _ => false

/-- What distinguishes the acquire entry points. -/
structure Acquire where
  /-- Load the owner word first and raise if it is the caller's pid. -/
  ownerCheck : Bool
  /-- Number of load/weak-CAS attempts after the first CAS. -/
  spin : ℤ
  /-- Return `False` instead of entering the exchange loop. -/
  giveUp : Bool
  /-- A timeout is passed to `FUTEX_WAIT`. -/
  timed : Bool
  /-- A successful call returns the mutex itself, not `True`. -/
  returnsSelf : Bool
  deriving DecidableEq

def Acquire.ret (a : Acquire) : Ret := if a.returnsSelf then .self else .bool true

def tryAcquire : Acquire :=
  { ownerCheck := false, spin := 0, giveUp := true, timed := false, returnsSelf := false }

def acquireFast : Acquire :=
  { ownerCheck := true, spin := 0, giveUp := false, timed := false, returnsSelf := false }

def acquireNs (timeoutNs spin : ℤ) : Acquire :=
  { ownerCheck := false, spin := spin, giveUp := timeoutNs == 0, timed := decide (0 < timeoutNs),
    returnsSelf := false }

def enter : Acquire :=
  { ownerCheck := false, spin := 16, giveUp := false, timed := false, returnsSelf := true }

/-- Program points. -/
inductive Pc where
  /-- Outside any call; the result of the last one. -/
  | idle (last : Option Ret)
  | loadOwner (a : Acquire)
  | cas (a : Acquire)
  | spinLoad (a : Acquire) (k : ℕ)
  | spinCas (a : Acquire) (k : ℕ)
  | xchg (a : Acquire)
  | futexWait (a : Acquire)
  /-- Asleep while in the sleep queue of the state word, woken once removed from it. -/
  | inWait (a : Acquire)
  | storeOwner (a : Acquire)
  | storeLastNs (a : Acquire)
  | relLoad
  | relXchg
  | forceXchg
  /-- Whether the exchange gave back 2. -/
  | relOwner (contended : Bool)
  | relWake
  deriving DecidableEq

/-- The first access of an acquire call. -/
def Acquire.entry (a : Acquire) : Pc := if a.ownerCheck then .loadOwner a else .cas a

/-- Spin attempt `k`, or what follows the spin loop when `k` attempts are enough. -/
def Acquire.spinFrom (a : Acquire) (k : ℕ) : Pc :=
  if (k : ℤ) < a.spin then .spinLoad a k
  else if a.giveUp then .idle (some (.bool false))
  else .xchg a

/-- The methods a thread can call; `acquire_ns` takes any Python ints. -/
inductive Call where
  | acquire
  | acquireNs (timeoutNs spin : ℤ)
  | tryAcquire
  | enter
  | release
  | forceRelease
  deriving DecidableEq

/-- The arguments of the call are values of their C types. -/
def Call.Fits : Call → Prop
  | .acquireNs timeoutNs spin => CInt.Fits 64 timeoutNs ∧ CInt.Fits 32 spin
  | _ => True

def Call.entry : Call → Pc
  | .acquire => acquireFast.entry
  | .acquireNs timeoutNs spin =>
    match CInt.signed 64 timeoutNs, CInt.signed 32 spin with
    | some timeoutNs, some spin => (FutexMutex.acquireNs timeoutNs spin).entry
    | _, _ => .idle (some .overflow)
  | .tryAcquire => FutexMutex.tryAcquire.entry
  | .enter => FutexMutex.enter.entry
  | .release => .relLoad
  | .forceRelease => .forceXchg

/-- The call gives the lock up, or is meant to. -/
def Call.releases : Call → Bool
  | .release | .forceRelease => true
  | _ => false

/-- A thread's program point, and three flags that no step reads: `taken` (it took the state word
from 0 and has not executed the exchange of its release), `held` (an acquire call returned
successfully and no release was called since) and `tookBefore` (`taken` when the current or last
call began). -/
structure Thread where
  pc : Pc
  taken : Bool
  held : Bool
  tookBefore : Bool
  deriving DecidableEq

namespace Thread

/-- A thread that has not called anything yet. -/
def fresh : Thread := ⟨.idle none, false, false, false⟩

def goto (t : Thread) (pc : Pc) : Thread := { t with pc := pc }

def begin (t : Thread) (f : Call) : Thread :=
  { pc := f.entry, taken := t.taken, held := t.held && !f.releases, tookBefore := t.taken }

def take (t : Thread) (a : Acquire) : Thread := { t with pc := .storeOwner a, taken := true }

def succeed (t : Thread) (r : Ret) : Thread := { t with pc := .idle (some r), held := true }

def drop (t : Thread) (prev : UInt32) : Thread :=
  { t with pc := .relOwner (decide (prev = 2)), taken := false }

end Thread

/-- What the scheduler, the clock and the kernel decide about a step. -/
inductive Move (ι : Type*) where
  | call (f : Call)
  /-- The next access, with no choice left. -/
  | next
  /-- The weak CAS fails spuriously. -/
  | weakFail
  /-- The time stamp is stored. -/
  | stamp (now : UInt64)
  /-- `FUTEX_WAKE` makes these threads runnable. -/
  | wake (who : Finset ι)
  /-- `FUTEX_WAIT` ends with `ETIMEDOUT`. -/
  | timeout
  /-- `FUTEX_WAIT` ends with `EINTR`. -/
  | signal
  deriving DecidableEq

section Step

variable {ι : Type*} [DecidableEq ι]

/-- The accesses whose outcome the shared state determines. -/
def next (i : ι) (pid : UInt32) (h : Header ι) (t : Thread) : Option (Header ι × Thread) :=
  match t.pc with
  | .loadOwner a =>
    if h.ownerPid = pid then some (h, t.goto (.idle (some (.raised .alreadyOwned))))
    else some (h, t.goto (.cas a))
  | .cas a =>
    if h.state.word = 0 then some ({ h with state := h.state.store 1 }, t.take a)
    else some (h, t.goto (a.spinFrom 0))
  | .spinLoad a k =>
    if h.state.word = 0 then some (h, t.goto (.spinCas a k))
    else some (h, t.goto (a.spinFrom (k + 1)))
  | .spinCas a k =>
    if h.state.word = 0 then some ({ h with state := h.state.store 1 }, t.take a)
    else some (h, t.goto (a.spinFrom (k + 1)))
  | .xchg a =>
    if h.state.word = 0 then some ({ h with state := h.state.store 2 }, t.take a)
    else some ({ h with state := h.state.store 2 }, t.goto (.futexWait a))
  | .futexWait a =>
    match h.state.wait i 2 with
    | some s => some ({ h with state := s }, t.goto (.inWait a))
    | none => some (h, t.goto (.xchg a))
  | .inWait a => if i ∈ h.state.sleepers then none else some (h, t.goto (.xchg a))
  | .storeOwner a => some ({ h with ownerPid := pid }, t.goto (.storeLastNs a))
  | .relLoad =>
    if h.ownerPid = pid then some (h, t.goto .relXchg)
    else some (h, t.goto (.idle (some (.raised .notOwned))))
  | .relXchg | .forceXchg => some ({ h with state := h.state.store 0 }, t.drop h.state.word)
  | .relOwner contended =>
    some ({ h with ownerPid := 0 }, t.goto (if contended then .relWake else .idle (some .none)))
  | _ => none

/-- One atomic step of thread `i`, whose process has pid `pid`. -/
def step (i : ι) (pid : UInt32) (m : Move ι) (h : Header ι) (t : Thread) :
    Option (Header ι × Thread) :=
  match m, t.pc with
  | .call f, .idle _ => some (h, t.begin f)
  | .next, _ => next i pid h t
  | .weakFail, .spinCas a k => some (h, t.goto (a.spinFrom (k + 1)))
  | .stamp now, .storeLastNs a => some ({ h with lastAcquiredNs := now }, t.succeed a.ret)
  | .wake who, .relWake =>
    (h.state.wake 1 who).map fun s => ({ h with state := s }, t.goto (.idle (some .none)))
  | .timeout, .inWait a =>
    if a.timed then
      (h.state.leave i).map fun s => ({ h with state := s }, t.goto (.idle (some (.bool false))))
    else none
  | .signal, .inWait a =>
    (h.state.leave i).map fun s =>
      ({ h with state := s }, t.goto (if a.timed then .idle (some (.bool false)) else .xchg a))
  | _, _ => none

end Step

variable {ι : Type*}

/-- The processes of the threads: `getpid()` is never 0. -/
structure Procs (ι : Type*) where
  pid : ι → UInt32
  pid_ne_zero : ∀ i, pid i ≠ 0

/-- No other thread runs in the process of `i`. -/
def Procs.Alone (P : Procs ι) (i : ι) : Prop := ∀ j, j ≠ i → P.pid j ≠ P.pid i

abbrev State (ι : Type*) := Config ι (Header ι) Thread

/-- The words that the calls read are zero, and no call was made yet. -/
def Fresh (c : State ι) : Prop :=
  c.shared.state = Futex.zero ∧ c.shared.ownerPid = 0 ∧ ∀ i, c.locals i = .fresh

/-- The zeroed header, before any call. -/
def start : State ι := ⟨⟨0, 0, Futex.zero, 0, 0⟩, fun _ => .fresh⟩

theorem fresh_start : Fresh (start : State ι) := ⟨rfl, rfl, fun _ => rfl⟩

/-- Threads that share one mutex header. -/
def system [DecidableEq ι] (P : Procs ι) : Transition (State ι) (ι × Move ι) where
  Init := Fresh
  step := Config.interleave fun i => step i (P.pid i)

end FutexMutex
