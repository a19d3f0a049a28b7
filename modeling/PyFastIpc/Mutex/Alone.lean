import PyFastIpc.Mutex.Model

/-!
# Mutex calls that run alone

`acquire` and `release` as functions on the header, for a caller whose steps no other thread
interrupts.  Their result is `none` where another thread is needed: an `acquire` of a locked mutex
waits for its holder, and a `release` of a contended one wakes a waiter.-/

namespace FutexMutex

variable {ι : Type*}

/-- `acquire` of the process `pid`, `now` being the time that it records. -/
def acquireAlone (pid : UInt32) (now : UInt64) (h : Header ι) : Option (Except Error (Header ι)) :=
  if h.ownerPid = pid then some (.error .alreadyOwned)
  else if h.state.word = 0 then
    some (.ok { h with state := h.state.store 1, ownerPid := pid, lastAcquiredNs := now })
  else none

/-- `release` of the process `pid`. -/
def releaseAlone (pid : UInt32) (h : Header ι) : Option (Except Error (Header ι)) :=
  if h.ownerPid ≠ pid then some (.error .notOwned)
  else if h.state.word = 2 then none
  else some (.ok { h with state := h.state.store 0, ownerPid := 0 })

/-- An `acquire` of a free mutex followed by a `release`. -/
theorem releaseAlone_of_acquireAlone {pid : UInt32} {now : UInt64} {h h' : Header ι}
    (ha : acquireAlone pid now h = some (.ok h')) :
    releaseAlone pid h' =
      some (.ok { h with state := h.state.store 0, ownerPid := 0, lastAcquiredNs := now }) := by
  unfold acquireAlone at ha
  split_ifs at ha with howner hfree
  · cases ha
  · cases ha
    simp [releaseAlone, Futex.store]

end FutexMutex
