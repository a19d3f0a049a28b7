import PyFastIpc.Lib.CInt
import PyFastIpc.Lib.Threads
import PyFastIpc.Lib.Futex

/-!
# The futex semaphore

The 64-byte semaphore header and the atomic steps of `post`, `post1` and `wait` of `_primitives.c`,
one shared access per step.

| program point | next access |
|---|---|
| `peek` | the count load of `semaphore_add_tokens` when nothing is added |
| `addLoad`, `addCas` | load and weak CAS of the add loop |
| `wake` | the `FUTEX_WAKE` of `semaphore_wake_waiters` |
| `spinLoad`, `spinCas` | load and weak CAS of one attempt to take a token |
| `futexWait`, `inWait` | `FUTEX_WAIT(count, 0)` and the time inside it |
| `storeLastPid`, `storeLastNs` | the two stores after a token was taken |

The two CAS points carry the checks that were made on the loaded value, so that the sum and the
difference they store cannot wrap.
-/

namespace FutexSemaphore

/-- `SEM_MAGIC`, the bytes of 'SEMA'. -/
def magicSEMA : UInt32 := 0x53454D41

/-- The words of the semaphore header; the count is a futex. -/
structure Header (ι : Type*) where
  magic : UInt32
  flags : UInt32
  count : Futex ι
  lastPid : UInt32
  lastAcquiredNs : UInt64

/-- The `OverflowError`s of `post`. -/
inductive Error where
  | outOfRange
  | countOverflow
  deriving DecidableEq

def Error.message : Error → String
  | .outOfRange => "semaphore increment out of range"
  | .countOverflow => "semaphore count overflow"

/-- Results of a call: a bool, `None`, an error of `post`, or the `OverflowError` of an argument
that does not fit into its C type. -/
inductive Ret where
  | bool (b : Bool)
  | none
  | raised (e : Error)
  | overflow
  deriving DecidableEq

/-- The arguments of a `wait` call, as its loop uses them. -/
structure Wait where
  blocking : Bool
  /-- A timeout is passed to `FUTEX_WAIT`. -/
  timed : Bool
  spin : ℤ
  deriving DecidableEq

/-- Program points. -/
inductive Pc where
  /-- Outside any call; the result of the last one. -/
  | idle (last : Option Ret)
  | peek
  | addLoad (add : UInt32)
  | addCas (add cur : UInt32) (room : cur.toNat + add.toNat < 2 ^ 32)
  | wake (add : UInt32)
  | spinLoad (w : Wait) (k : ℕ)
  | spinCas (w : Wait) (k : ℕ) (v : UInt32) (pos : v ≠ 0)
  | futexWait (w : Wait)
  /-- Asleep while in the sleep queue of the count, woken once removed from it. -/
  | inWait (w : Wait)
  | storeLastPid
  | storeLastNs

/-- Spin attempt `k`, or what follows the spin loop when `k` attempts are enough. -/
def Wait.spinFrom (w : Wait) (k : ℕ) : Pc :=
  if (k : ℤ) < w.spin then .spinLoad w k
  else if w.blocking then .futexWait w
  else .idle (some (.bool false))

/-- `INT_MAX`. -/
def intMax : ℕ := 2 ^ 31 - 1

/-- The number of waiters that `semaphore_wake_waiters` wakes after adding to a count of 0. -/
def wakeCount (add : UInt32) : ℕ :=
  let n := if intMax < add.toNat then intMax else add.toNat
  if n ≤ 0 then intMax else n

/-- The guard of `semaphore_add_tokens`, `cur > UINT32_MAX - add`. -/
def overflows (cur add : UInt32) : Prop := 0xFFFFFFFF - add < cur

instance (cur add : UInt32) : Decidable (overflows cur add) :=
  inferInstanceAs (Decidable (_ < _))

theorem toNat_max_sub (add : UInt32) : (0xFFFFFFFF - add).toNat = 2 ^ 32 - 1 - add.toNat := by
  have hadd := add.toNat_lt
  rw [UInt32.toNat_sub_of_le _ _ (UInt32.le_iff_toNat_le.2 (by simp; omega))]
  rfl

/-- The guard lets through exactly the sums that fit into 32 bits. -/
theorem overflows_iff (cur add : UInt32) : overflows cur add ↔ 2 ^ 32 ≤ cur.toNat + add.toNat := by
  have hadd := add.toNat_lt
  rw [overflows, UInt32.lt_iff_toNat_lt, toNat_max_sub]
  omega

theorem room_of_not_overflows {cur add : UInt32} (h : ¬ overflows cur add) :
    cur.toNat + add.toNat < 2 ^ 32 := by
  rw [overflows_iff] at h
  omega

/-- The methods a thread can call, with any Python ints. -/
inductive Call where
  | post (n : ℤ)
  | post1
  | wait (blocking : Bool) (timeoutNs spin : ℤ)
  deriving DecidableEq

/-- The arguments of the call are values of their C types. -/
def Call.Fits : Call → Prop
  | .wait _ timeoutNs spin => CInt.Fits 64 timeoutNs ∧ CInt.Fits 32 spin
  | _ => True

instance (f : Call) : Decidable f.Fits :=
  match f with
  | .wait _ timeoutNs spin =>
    inferInstanceAs (Decidable (CInt.Fits 64 timeoutNs ∧ CInt.Fits 32 spin))
  | .post _ | .post1 => isTrue trivial

/-- `semaphore_add_tokens`. -/
def addTokens (add : UInt32) : Pc := if add = 0 then .peek else .addLoad add

def Call.entry : Call → Pc
  | .post n =>
    if 0xFFFFFFFF < CInt.parseK n then .idle (some (.raised .outOfRange))
    else addTokens (CInt.parseK n).toUInt32
  | .post1 => addTokens 1
  | .wait blocking timeoutNs spin =>
    match CInt.signed 64 timeoutNs, CInt.signed 32 spin with
    | some timeoutNs, some spin =>
      Wait.spinFrom { blocking := blocking, timed := decide (0 ≤ timeoutNs), spin := spin } 0
    | _, _ => .idle (some .overflow)

theorem Call.entry_wait {blocking : Bool} {timeoutNs spin : ℤ} (ht : CInt.Fits 64 timeoutNs)
    (hs : CInt.Fits 32 spin) : (Call.wait blocking timeoutNs spin).entry =
      Wait.spinFrom { blocking := blocking, timed := decide (0 ≤ timeoutNs), spin := spin } 0 := by
  simp only [Call.entry, CInt.signed, if_pos ht, if_pos hs]

/-- A `wait` begins its loop, or its arguments do not fit and it raises. -/
theorem Call.entry_wait_cases (blocking : Bool) (timeoutNs spin : ℤ) :
    (Call.wait blocking timeoutNs spin).entry =
        Wait.spinFrom { blocking := blocking, timed := decide (0 ≤ timeoutNs), spin := spin } 0 ∨
      ¬ (Call.wait blocking timeoutNs spin).Fits ∧
        (Call.wait blocking timeoutNs spin).entry = .idle (some .overflow) := by
  by_cases hfit : (Call.wait blocking timeoutNs spin).Fits
  · exact .inl (Call.entry_wait hfit.1 hfit.2)
  · refine .inr ⟨hfit, ?_⟩
    simp only [Call.entry]
    split
    next t s ht hs =>
      exact absurd ⟨(CInt.signed_eq_some_iff.1 ht).1, (CInt.signed_eq_some_iff.1 hs).1⟩ hfit
    · rfl

/-- The number of tokens the caller asks to add. -/
def Call.arg : Call → ℤ
  | .post n => n
  | .post1 => 1
  | .wait _ _ _ => 0

/-- A thread's program point, and accounts that no step reads: the argument of the current or last
call, the tokens added and taken by all calls of the thread, and those by its current or last
call. -/
structure Thread where
  pc : Pc
  arg : ℤ
  posted : ℤ
  taken : ℤ
  addedNow : ℤ
  takenNow : ℤ

namespace Thread

/-- A thread that has not called anything yet. -/
def fresh : Thread := ⟨.idle none, 0, 0, 0, 0, 0⟩

def goto (t : Thread) (pc : Pc) : Thread := { t with pc := pc }

def begin (t : Thread) (f : Call) : Thread :=
  { t with pc := f.entry, arg := f.arg, addedNow := 0, takenNow := 0 }

def add (t : Thread) (pc : Pc) : Thread :=
  { t with pc := pc, posted := t.posted + t.arg, addedNow := t.addedNow + t.arg }

def take (t : Thread) : Thread :=
  { t with pc := .storeLastPid, taken := t.taken + 1, takenNow := t.takenNow + 1 }

end Thread

/-- What the scheduler, the clock and the kernel decide about a step. -/
inductive Move (ι : Type*) where
  | call (f : Call)
  /-- The next access, with no choice left. -/
  | next
  /-- The weak CAS fails spuriously. -/
  | weakFail
  /-- The time stamp is stored. -/
  | stamp (now : UInt64)
  /-- `FUTEX_WAKE` makes these threads runnable. -/
  | wake (who : Finset ι)
  /-- `FUTEX_WAIT` ends with `ETIMEDOUT`. -/
  | timeout
  /-- `FUTEX_WAIT` ends with `EINTR`. -/
  | signal
  deriving DecidableEq

section Step

variable {ι : Type*} [DecidableEq ι]

/-- The accesses whose outcome the shared state determines. -/
def next (i : ι) (pid : UInt32) (h : Header ι) (t : Thread) : Option (Header ι × Thread) :=
  match t.pc with
  | .peek => some (h, t.goto (.idle (some .none)))
  | .addLoad add =>
    if hov : overflows h.count.word add then
      some (h, t.goto (.idle (some (.raised .countOverflow))))
    else some (h, t.goto (.addCas add h.count.word (room_of_not_overflows hov)))
  | .addCas add cur _ =>
    if h.count.word = cur then
      some ({ h with count := h.count.store (cur + add) },
        t.add (if cur = 0 then .wake add else .idle (some .none)))
    else some (h, t.goto (.addLoad add))
  | .spinLoad w k =>
    if hpos : h.count.word ≠ 0 then some (h, t.goto (.spinCas w k h.count.word hpos))
    else some (h, t.goto (w.spinFrom (k + 1)))
  | .spinCas w k v _ =>
    if h.count.word = v then some ({ h with count := h.count.store (v - 1) }, t.take)
    else some (h, t.goto (w.spinFrom (k + 1)))
  | .futexWait w =>
    match h.count.wait i 0 with
    | some s => some ({ h with count := s }, t.goto (.inWait w))
    | none => some (h, t.goto (w.spinFrom 0))
  | .inWait w => if i ∈ h.count.sleepers then none else some (h, t.goto (w.spinFrom 0))
  | .storeLastPid => some ({ h with lastPid := pid }, t.goto .storeLastNs)
  | _ => none

/-- One atomic step of thread `i`, whose process has pid `pid`. -/
def step (i : ι) (pid : UInt32) (m : Move ι) (h : Header ι) (t : Thread) :
    Option (Header ι × Thread) :=
  match m, t.pc with
  | .call f, .idle _ => some (h, t.begin f)
  | .next, _ => next i pid h t
  | .weakFail, .addCas add _ _ => some (h, t.goto (.addLoad add))
  | .weakFail, .spinCas w k _ _ => some (h, t.goto (w.spinFrom (k + 1)))
  | .stamp now, .storeLastNs =>
    some ({ h with lastAcquiredNs := now }, t.goto (.idle (some (.bool true))))
  | .wake who, .wake add =>
    (h.count.wake (wakeCount add) who).map fun s =>
      ({ h with count := s }, t.goto (.idle (some .none)))
  | .timeout, .inWait w =>
    if w.timed then
      (h.count.leave i).map fun s => ({ h with count := s }, t.goto (.idle (some (.bool false))))
    else none
  | .signal, .inWait w =>
    (h.count.leave i).map fun s => ({ h with count := s }, t.goto (w.spinFrom 0))
  | _, _ => none

end Step

variable {ι : Type*}

abbrev State (ι : Type*) := Config ι (Header ι) Thread

/-- The count is `c₀`, nobody sleeps, and no call was made yet. -/
def Fresh (c₀ : UInt32) (c : State ι) : Prop :=
  c.shared.count = ⟨c₀, ∅⟩ ∧ ∀ i, c.locals i = .fresh

/-- A header with initial count `c₀`, before any call. -/
def start (c₀ : UInt32) : State ι := ⟨⟨magicSEMA, 0, ⟨c₀, ∅⟩, 0, 0⟩, fun _ => .fresh⟩

theorem fresh_start (c₀ : UInt32) : Fresh c₀ (start c₀ : State ι) := ⟨rfl, fun _ => rfl⟩

/-- Threads with the given pids that share one semaphore header. -/
def system [DecidableEq ι] (pid : ι → UInt32) (c₀ : UInt32) :
    Transition (State ι) (ι × Move ι) where
  Init := Fresh c₀
  step := Config.interleave fun i => step i (pid i)

end FutexSemaphore
