import PyFastIpc.Lib.Threads
import PyFastIpc.Lib.Futex

/-!
# The named event

`NamedEvent` of `named_event.py` over the `FutexWord` of `_primitives.c`: the 4-byte word and the
atomic steps of `set`, `clear`, `wait` and `is_set`.  `wait` passes the result of `FutexWord_wait`
on, and that is `True` exactly when `FUTEX_WAIT` returns 0.

| program point | next access |
|---|---|
| `setStore`, `setWake` | the store of 1 and the `FUTEX_WAKE(word, 0x7FFFFFFF)` of `set` |
| `clearStore` | the store of 0 of `clear` |
| `futexWait`, `inWait` | `FUTEX_WAIT(word, 0)` and the time inside it |
| `load` | the load of `is_set` |
-/

namespace NamedEvent

/-- Results of a call; `overflow` is the `OverflowError` of a timeout outside `long long`. -/
inductive Ret where
  | bool (b : Bool)
  | none
  | overflow
  deriving DecidableEq

/-- Program points. -/
inductive Pc where
  /-- Outside any call; the result of the last one. -/
  | idle (last : Option Ret)
  | setStore
  | setWake
  | clearStore
  /-- Whether a timeout is passed to `FUTEX_WAIT`. -/
  | futexWait (timed : Bool)
  /-- Asleep while in the sleep queue of the word, woken once removed from it. -/
  | inWait (timed : Bool)
  | load
  deriving DecidableEq

/-- The methods a thread can call. -/
inductive Call where
  | set
  | clear
  | wait (timeoutNs : ℤ)
  | isSet
  deriving DecidableEq

def Call.entry : Call → Pc
  | .set => .setStore
  | .clear => .clearStore
  | .wait timeoutNs =>
    if -2 ^ 63 ≤ timeoutNs ∧ timeoutNs < 2 ^ 63 then .futexWait (decide (0 ≤ timeoutNs))
    else .idle (some .overflow)
  | .isSet => .load

/-- The count that `set` passes to `FUTEX_WAKE`. -/
def wakeAll : ℕ := 0x7FFFFFFF

/-- A thread's program point, and histories that no step reads: its current or last call, whether
some `FUTEX_WAIT` of that call found the word nonzero, whether the last `FUTEX_WAIT` of that call
found it 0 and ended by a timeout or a signal, the number of times the thread fell asleep, and who
was asleep, in which of their sleeps, at the store of the thread's current or last `set`. -/
structure Thread (ι : Type*) where
  pc : Pc
  called : Option Call
  sawSet : Bool
  cut : Bool
  sleeps : ℕ
  caught : Finset (ι × ℕ)

namespace Thread

variable {ι : Type*}

/-- A thread that has not called anything yet. -/
def fresh : Thread ι := ⟨.idle none, none, false, false, 0, ∅⟩

def goto (t : Thread ι) (pc : Pc) : Thread ι := { t with pc := pc }

def begin (t : Thread ι) (f : Call) : Thread ι :=
  { t with pc := f.entry, called := some f, sawSet := false, cut := false }

/-- `FUTEX_WAIT` has queued the thread. -/
def sleep (t : Thread ι) (timed : Bool) : Thread ι :=
  { t with pc := .inWait timed, cut := false, sleeps := t.sleeps + 1 }

/-- `FUTEX_WAIT` ends with `EAGAIN`, and `FutexWord_wait` returns `False`. -/
def again (t : Thread ι) : Thread ι :=
  { t with pc := .idle (some (.bool false)), sawSet := true, cut := false }

/-- The sleep ends by a timeout or a signal. -/
def interrupt (t : Thread ι) (pc : Pc) : Thread ι := { t with pc := pc, cut := true }

/-- The store of `set`, while the given threads sleep. -/
def catching (t : Thread ι) (asleep : Finset (ι × ℕ)) : Thread ι :=
  { t with pc := .setWake, caught := asleep }

end Thread

/-- What the scheduler and the kernel decide about a step. -/
inductive Move (ι : Type*) where
  | call (f : Call)
  /-- The next access, with no choice left. -/
  | next
  /-- `FUTEX_WAKE` makes these threads runnable. -/
  | wake (who : Finset ι)
  /-- `FUTEX_WAIT` ends with `ETIMEDOUT`. -/
  | timeout
  /-- `FUTEX_WAIT` ends with `EINTR`. -/
  | signal
  deriving DecidableEq

section Step

variable {ι : Type*} [DecidableEq ι]

/-- The accesses whose outcome the shared state determines; `asleep` are the sleepers, each with
the number of its sleep. -/
def next (i : ι) (asleep : Finset (ι × ℕ)) (f : Futex ι) (t : Thread ι) :
    Option (Futex ι × Thread ι) :=
  match t.pc with
  | .setStore => some (f.store 1, t.catching asleep)
  | .clearStore => some (f.store 0, t.goto (.idle (some .none)))
  | .futexWait timed =>
    match f.wait i 0 with
    | some f' => some (f', t.sleep timed)
    | none => some (f, t.again)
  | .inWait _ => if i ∈ f.sleepers then none else some (f, t.goto (.idle (some (.bool true))))
  | .load => some (f, t.goto (.idle (some (.bool (decide (f.word ≠ 0))))))
  | _ => none

/-- One atomic step of thread `i`. -/
def step (i : ι) (asleep : Finset (ι × ℕ)) (m : Move ι) (f : Futex ι) (t : Thread ι) :
    Option (Futex ι × Thread ι) :=
  match m, t.pc with
  | .call c, .idle _ => some (f, t.begin c)
  | .next, _ => next i asleep f t
  | .wake who, .setWake => (f.wake wakeAll who).map fun f' => (f', t.goto (.idle (some .none)))
  | .timeout, .inWait timed =>
    if timed then
      (f.leave i).map fun f' => (f', t.interrupt (.idle (some (.bool false))))
    else none
  | .signal, .inWait timed =>
    (f.leave i).map fun f' =>
      (f', t.interrupt (if timed then .idle (some (.bool false)) else .futexWait timed))
  | _, _ => none

end Step

variable {ι : Type*}

abbrev State (ι : Type*) := Config ι (Futex ι) (Thread ι)

/-- The sleepers, each with the number of its current sleep. -/
def State.asleep [DecidableEq ι] (c : State ι) : Finset (ι × ℕ) :=
  c.shared.sleepers.image fun j => (j, (c.locals j).sleeps)

/-- Nobody sleeps, and no call was made yet. -/
def Fresh (c : State ι) : Prop := c.shared.sleepers = ∅ ∧ ∀ i, c.locals i = .fresh

/-- An event with the given word, before any call. -/
def start (word : UInt32) : State ι := ⟨⟨word, ∅⟩, fun _ => .fresh⟩

theorem fresh_start (word : UInt32) : Fresh (start word : State ι) := ⟨rfl, fun _ => rfl⟩

/-- Threads that share one event. -/
def system [DecidableEq ι] : Transition (State ι) (ι × Move ι) where
  Init := Fresh
  step c a := Config.interleave (fun i => step i c.asleep) c a

end NamedEvent
