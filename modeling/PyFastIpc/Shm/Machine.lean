import PyFastIpc.Lib.Threads
import PyFastIpc.Shm.Fs

/-!
# The system calls of the constructor and of `close`

One file-system call per step; closing file descriptors, sleeping and unmapping touch nothing that
is shared.  `k` is the number of attempts left after the current one.

| program point | next call |
|---|---|
| `makedirs` | `os.makedirs` |
| `openShm`, `createShm` | `shm_open(O_RDWR)`, `shm_open(O_CREAT\|O_EXCL)` |
| `ftruncate` | `os.ftruncate` |
| `fstat`, `mmap` | `os.fstat` and the size check, `mmap.mmap` |
| `undo` | the `shm_unlink` of the `except` branch |
| `writePid` | the creation of the pid file |
| `cleanup`, `cleanupUnlink` | `os.listdir` and the unlinks of `_cleanup_dead_pids` |
| `removePid`, `scan` | `_remove_pid_file`, the `os.listdir` of `_has_other_alive_pids` |
| `unlink`, `rmdir` | `shm_unlink`, `os.rmdir` |
-/

namespace GuardedSharedMemory

/-- Program points. -/
inductive Pc where
  /-- Before a constructor, or after `close`. -/
  | idle
  | makedirs
  | openShm (k : ℕ)
  | createShm (k : ℕ)
  | ftruncate (k seg : ℕ)
  | fstat (k seg : ℕ) (created : Bool)
  | mmap (k : ℕ) (h : Mapping)
  | undo (k : ℕ)
  | writePid (h : Mapping)
  /-- The constructor has returned, `close` was not called. -/
  | opened (h : Mapping)
  | raised (e : Error)
  | cleanup
  | cleanupUnlink (todo : Finset ℕ)
  | removePid
  | scan
  | unlink
  | rmdir
  deriving DecidableEq

/-- A process: its program point, and the arguments of its current or last constructor. -/
structure Proc where
  pc : Pc
  req : Request
  deriving DecidableEq

def Proc.goto (p : Proc) (pc : Pc) : Proc := { p with pc := pc }

/-- The next attempt, when `k` are left. -/
def Request.attempt (r : Request) : ℕ → Pc
  | 0 => .raised (.attemptsExhausted r.maxAttempts)
  | k + 1 => .openShm k

/-- The `except` branch for a `ValueError` of an attempt that has the segment open. -/
def Request.fail (r : Request) (k : ℕ) (created : Bool) : Pc :=
  if created then .undo k else r.attempt k

def cleanupFrom (todo : Finset ℕ) : Pc := if todo = ∅ then .removePid else .cleanupUnlink todo

inductive Move where
  | construct (r : Request)
  | close
  /-- The next call, with no choice left. -/
  | next
  /-- The cleanup loop comes to the file of this pid. -/
  | cleanup (pid : ℕ)
  deriving DecidableEq

/-- The calls whose outcome the file system determines. -/
def next (alive : ℕ → Bool) (pid : ℕ) (fs : Fs) (p : Proc) : Option (Fs × Proc) :=
  match p.pc with
  | .makedirs => some (fs.makedirs, p.goto (p.req.attempt p.req.rounds))
  | .openShm k =>
    match fs.link with
    | some seg => some (fs, p.goto (.fstat k seg false))
    | none => some (fs, p.goto (if p.req.attachOnly then .raised .noShmFound else .createShm k))
  | .createShm k =>
    match fs.link with
    | some _ => some (fs, p.goto (p.req.attempt k))
    | none => some (fs.create, p.goto (.ftruncate k fs.count))
  | .ftruncate k seg => some (fs.ftruncate seg p.req.size, p.goto (.fstat k seg true))
  | .fstat k seg created =>
    if fs.size seg < p.req.size then some (fs, p.goto (p.req.fail k created))
    else some (fs, p.goto (.mmap k ⟨seg, fs.size seg, created⟩))
  | .mmap k h =>
    if fs.size h.seg < h.size then some (fs, p.goto (p.req.fail k h.created))
    else some (fs, p.goto (.writePid h))
  | .undo k => some (fs.shmUnlink, p.goto (p.req.attempt k))
  | .writePid h =>
    match fs.writePid pid with
    | some fs' => some (fs', p.goto (.opened h))
    | none => some (fs, p.goto (.raised .pidDirMissing))
  | .cleanup => some (fs, p.goto (cleanupFrom (fs.listPids.filter fun q => alive q = false)))
  | .removePid => some (fs.unlinkPid pid, p.goto .scan)
  | .scan =>
    some (fs, p.goto (if ∃ q ∈ fs.listPids, q ≠ pid ∧ alive q = true then .idle else .unlink))
  | .unlink => some (fs.shmUnlink, p.goto .rmdir)
  | .rmdir => some (fs.rmdir, p.goto .idle)
  | _ => none

/-- One system call of a process; `alive` is what `os.kill(pid, 0)` tells. -/
def step (alive : ℕ → Bool) (pid : ℕ) (m : Move) (fs : Fs) (p : Proc) : Option (Fs × Proc) :=
  match m, p.pc with
  | .construct r, .idle => some (fs, ⟨.makedirs, r⟩)
  -- on a handle whose constructor raised, by `__del__` or at exit
  | .close, .opened _ | .close, .raised _ => some (fs, p.goto .cleanup)
  | .next, _ => next alive pid fs p
  | .cleanup q, .cleanupUnlink todo =>
    if q ∈ todo then some (fs.unlinkPid q, p.goto (cleanupFrom (todo.erase q))) else none
  | _, _ => none

variable {ι : Type*}

abbrev State (ι : Type*) := Config ι Fs Proc

/-- Processes with the given pids that use one name. -/
def system [DecidableEq ι] (alive : ℕ → Bool) (pid : ι → ℕ) (Init : State ι → Prop) :
    Transition (State ι) (ι × Move) where
  Init := Init
  step := Config.interleave fun i => step alive (pid i)

/-- Nobody has called the constructor yet. -/
def Unused (c : State ι) : Prop := ∀ i, (c.locals i).pc = .idle

/-- The name is not linked and has no pid directory. -/
def unused : State ι := ⟨⟨none, fun _ => 0, 0, none⟩, fun _ => ⟨.idle, request 0⟩⟩

theorem unused_unused : Unused (unused : State ι) := fun _ => rfl

/-- The pids of small runs. -/
def pids : Tid → ℕ
  | .a => 1
  | .b => 2
  | .c => 3

theorem injective_pids : Function.Injective pids := by decide

/-! ## Groups of program points -/

/-- The segment that a constructor has open, or that its handle maps. -/
def Pc.segment : Pc → Option ℕ
  | .ftruncate _ seg | .fstat _ seg _ => some seg
  | .mmap _ h | .writePid h | .opened h => some h.seg
  | _ => none

/-- The constructor created that segment. -/
def Pc.hasCreated : Pc → Bool
  | .ftruncate _ _ => true
  | .fstat _ _ created => created
  | .mmap _ h | .writePid h | .opened h => h.created
  | _ => false

/-- Between the calls of the constructor that make the pid directory and the pid file. -/
def Pc.unregistered : Pc → Bool
  | .openShm _ | .createShm _ | .ftruncate _ _ | .fstat _ _ _ | .mmap _ _ | .undo _ | .writePid _ =>
    true
  | _ => false

/-- A constructor has returned a handle on which `close` was not called. -/
def Pc.returned (p : Pc) : Prop := ∃ h, p = .opened h

instance (p : Pc) : Decidable p.returned :=
  match p with
  | .opened h => isTrue ⟨h, rfl⟩
  | .idle | .makedirs | .openShm _ | .createShm _ | .ftruncate _ _ | .fstat _ _ _ | .mmap _ _
  | .undo _ | .writePid _ | .raised _ | .cleanup | .cleanupUnlink _ | .removePid | .scan | .unlink
  | .rmdir => isFalse nofun

/-- Inside `close`. -/
def Pc.closing : Pc → Bool
  | .cleanup | .cleanupUnlink _ | .removePid | .scan | .unlink | .rmdir => true
  | _ => false

end GuardedSharedMemory
