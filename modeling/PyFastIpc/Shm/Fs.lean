import Mathlib.Data.Finset.Basic
import Mathlib.Logic.Function.Basic

/-!
# What the processes share under one name

The segment that is linked under the name, the sizes of all segments created under it, and the pid
directory, with the system calls of `GuardedSharedMemory` as functions on them.  A segment stays
usable by whoever maps it after the name was unlinked, so segments are numbered and never removed.
The contents of segments play no role here.
-/

namespace GuardedSharedMemory

/-- The pid directory: the pids that have a file in it, and the names of all other files, none of
which is read as a number.  A name that `isdigit()` accepts but that `int()` or `os.kill` refuses,
such as '²' or a number beyond the range of pids, would make the listing raise; no process of the
module writes one, and here it counts as one of the other files. -/
structure Dir where
  pids : Finset ℕ
  others : Finset String
  deriving DecidableEq

def Dir.empty : Dir := ⟨∅, ∅⟩

/-- The file-system state of one name; `count` segments were created under it so far. -/
structure Fs where
  link : Option ℕ
  size : ℕ → ℕ
  count : ℕ
  dir : Option Dir

namespace Fs

variable (fs : Fs)

/-- `os.makedirs(..., exist_ok=True)`. -/
def makedirs : Fs := { fs with dir := some (fs.dir.getD .empty) }

/-- `shm_open` with `O_CREAT | O_EXCL` of an unlinked name: a new segment of size 0. -/
def create : Fs :=
  { fs with
    link := some fs.count, size := Function.update fs.size fs.count 0, count := fs.count + 1 }

def ftruncate (seg n : ℕ) : Fs := { fs with size := Function.update fs.size seg n }

/-- `shm_unlink`; a missing name is ignored. -/
def shmUnlink : Fs := { fs with link := none }

/-- Creates the file of a pid; `none` when the directory is missing. -/
def writePid (pid : ℕ) : Option Fs :=
  fs.dir.map fun d => { fs with dir := some { d with pids := insert pid d.pids } }

/-- `os.unlink` of the file of a pid; a missing file is ignored. -/
def unlinkPid (pid : ℕ) : Fs :=
  { fs with dir := fs.dir.map fun d => { d with pids := d.pids.erase pid } }

/-- The pids that `os.listdir` shows; a missing directory reads as an empty one. -/
def listPids : Finset ℕ := (fs.dir.getD .empty).pids

/-- `os.rmdir`; it fails silently when the directory is missing or not empty. -/
def rmdir : Fs := if fs.dir = some .empty then { fs with dir := none } else fs

/-! ## What the calls do to the pids listed -/

@[simp] theorem listPids_makedirs : fs.makedirs.listPids = fs.listPids := rfl

@[simp] theorem listPids_create : fs.create.listPids = fs.listPids := rfl

@[simp] theorem listPids_ftruncate (seg n : ℕ) : (fs.ftruncate seg n).listPids = fs.listPids := rfl

@[simp] theorem listPids_shmUnlink : fs.shmUnlink.listPids = fs.listPids := rfl

@[simp] theorem listPids_unlinkPid (pid : ℕ) :
    (fs.unlinkPid pid).listPids = fs.listPids.erase pid := by
  unfold listPids unlinkPid
  cases fs.dir <;> simp [Dir.empty]

theorem listPids_of_writePid {pid : ℕ} {fs' : Fs} (h : fs.writePid pid = some fs') :
    fs'.listPids = insert pid fs.listPids := by
  obtain ⟨d, hd, rfl⟩ := Option.map_eq_some_iff.1 h
  simp [listPids, hd]

@[simp] theorem listPids_rmdir : fs.rmdir.listPids = fs.listPids := by
  unfold rmdir
  split_ifs with hd
  · simp [listPids, hd]
  · rfl

@[simp] theorem link_rmdir : fs.rmdir.link = fs.link := by
  unfold rmdir
  split_ifs <;> rfl

@[simp] theorem size_rmdir : fs.rmdir.size = fs.size := by
  unfold rmdir
  split_ifs <;> rfl

/-! ## Directories without other files -/

/-- The directory holds nothing but pid files. -/
def OnlyPids : Prop := ∀ d, fs.dir = some d → d.others = ∅

variable {fs}

theorem OnlyPids.getD (h : fs.OnlyPids) : (fs.dir.getD .empty).others = ∅ := by
  cases hdir : fs.dir with
  | none => rfl
  | some d => exact h d hdir

theorem OnlyPids.makedirs (h : fs.OnlyPids) : fs.makedirs.OnlyPids := by
  rintro d hd
  obtain rfl : fs.dir.getD .empty = d := Option.some.inj hd
  exact h.getD

theorem OnlyPids.of_writePid (h : fs.OnlyPids) {pid : ℕ} {fs' : Fs}
    (hwrite : fs.writePid pid = some fs') : fs'.OnlyPids := by
  obtain ⟨d', hd', rfl⟩ := Option.map_eq_some_iff.1 hwrite
  rintro d hd
  obtain rfl : { d' with pids := insert pid d'.pids } = d := Option.some.inj hd
  exact h d' hd'

theorem OnlyPids.unlinkPid (h : fs.OnlyPids) (pid : ℕ) : (fs.unlinkPid pid).OnlyPids := by
  rintro d hd
  obtain ⟨d', hd', rfl⟩ := Option.map_eq_some_iff.1 hd
  exact h d' hd'

theorem OnlyPids.rmdir (h : fs.OnlyPids) : fs.rmdir.OnlyPids := by
  unfold Fs.rmdir
  split_ifs
  · exact fun d hd => by cases hd
  · exact h

/-- Such a directory is removed when it lists no pid. -/
theorem OnlyPids.dir_rmdir (h : fs.OnlyPids) (hlist : fs.listPids = ∅) : fs.rmdir.dir = none := by
  unfold Fs.rmdir
  split_ifs with hempty
  · rfl
  · cases hdir : fs.dir with
    | none => rfl
    | some d =>
      have hothers : d.others = ∅ := h d hdir
      have hpids : d.pids = ∅ := by simpa [listPids, hdir] using hlist
      have hd : d = .empty := by rw [Dir.empty, ← hpids, ← hothers]
      exact absurd (hdir.trans (congrArg some hd)) hempty

end Fs

/-! ## Arguments and errors -/

inductive Error where
  | sizeNotPositive
  | emptyName
  | slashInName
  | noShmFound
  | attemptsExhausted (maxAttempts : ℤ)
  /-- The `FileNotFoundError` of the pid file. -/
  | pidDirMissing
  deriving DecidableEq

def Error.message (name : String) : Error → String
  | .sizeNotPositive => "size must be a positive integer"
  | .emptyName => "name must be a non-empty string"
  | .slashInName => "name cannot contain '/' characters"
  | .noShmFound => s!"Shared memory segment '{name}' does not exist"
  | .attemptsExhausted maxAttempts =>
    s!"Failed to attach/create shm '{name}' after {maxAttempts} attempts"
  | .pidDirMissing => "No such file or directory"

/-- The checked arguments of the constructor. -/
structure Request where
  size : ℕ
  size_pos : 0 < size
  attachOnly : Bool
  maxAttempts : ℤ
  deriving DecidableEq

/-- The number of rounds of a loop over `range(max_attempts)`. -/
def Request.rounds (r : Request) : ℕ := r.maxAttempts.toNat

/-- The checks of the constructor. -/
def Request.check (name : String) (size : ℤ) (attachOnly : Bool) (maxAttempts : ℤ) :
    Except Error Request :=
  if hsize : size ≤ 0 then .error .sizeNotPositive
  else if name = "" then .error .emptyName
  else if name.contains '/' then .error .slashInName
  else .ok ⟨size.toNat, by omega, attachOnly, maxAttempts⟩

theorem Request.le_rounds (r : Request) {n : ℕ} (hn : 0 < n) :
    n ≤ r.rounds ↔ (n : ℤ) ≤ r.maxAttempts := by
  unfold Request.rounds
  omega

/-- A request for `n + 1` bytes with the default arguments. -/
def request (n : ℕ) : Request :=
  { size := n + 1, size_pos := n.succ_pos, attachOnly := false, maxAttempts := 128 }

/-- A segment as a constructor has mapped it. -/
structure Mapping where
  seg : ℕ
  size : ℕ
  created : Bool
  deriving DecidableEq

end GuardedSharedMemory
