import PyFastIpc.Lib.Transition
import PyFastIpc.Shm.Fs
import Mathlib.Data.List.Basic

/-!
# Handles, one call at a time

The constructor and `close` as functions, for histories in which the calls do not overlap; the
module `Solo` shows that they are the runs of one process of the machine without interleaving.  A
process has any number of handles, and a forked child has copies of its parent's, with the pid of
the process that constructed them.  `os.kill(pid, 0)` tells exactly the dead from the others.
-/

namespace GuardedSharedMemory

/-! ## The constructor -/

/-- How an attempt ends. -/
inductive Attempt where
  | mapped (h : Mapping)
  | retry
  | raised (e : Error)

/-- An attempt from `os.fstat` on. -/
def mapSegment (r : Request) (fs : Fs) (seg : ℕ) (created : Bool) : Attempt × Fs :=
  if fs.size seg < r.size then (.retry, if created then fs.shmUnlink else fs)
  else (.mapped ⟨seg, fs.size seg, created⟩, fs)

def attempt (r : Request) (fs : Fs) : Attempt × Fs :=
  match fs.link with
  | some seg => mapSegment r fs seg false
  | none =>
    if r.attachOnly then (.raised .noShmFound, fs)
    else mapSegment r (fs.create.ftruncate fs.count r.size) fs.count true

/-- The attempt loop, with `k` attempts left. -/
def attempts (r : Request) : ℕ → Fs → Except Error Mapping × Fs
  | 0, fs => (.error (.attemptsExhausted r.maxAttempts), fs)
  | k + 1, fs =>
    match attempt r fs with
    | (.mapped h, fs') => (.ok h, fs')
    | (.raised e, fs') => (.error e, fs')
    | (.retry, fs') => attempts r k fs'

/-- `__init__` of a process with the given pid. -/
def init (r : Request) (pid : ℕ) (fs : Fs) : Except Error Mapping × Fs :=
  match attempts r r.rounds fs.makedirs with
  | (.ok h, fs') =>
    match fs'.writePid pid with
    | some fs'' => (.ok h, fs'')
    | none => (.error .pidDirMissing, fs')
  | (.error e, fs') => (.error e, fs')

/-! ## Closing -/

/-- A `GuardedSharedMemory` object in the memory of the process `proc`. -/
structure Handle where
  proc : ℕ
  pid : ℕ
  size : ℕ
  created : Bool
  /-- The segment that is mapped, if any. -/
  mmap : Option ℕ
  closed : Bool
  unlinked : Bool
  deriving DecidableEq

/-- The object that a constructor leaves behind. -/
def Handle.new (r : Request) (pid : ℕ) : Except Error Mapping → Handle
  | .ok h => ⟨pid, pid, h.size, h.created, some h.seg, false, false⟩
  | .error _ => ⟨pid, pid, r.size, false, none, false, false⟩

/-- Constructed and not closed. -/
def Handle.isOpen (h : Handle) : Bool := !h.closed && h.mmap.isSome

def cleanupDeadPids (alive : ℕ → Bool) (fs : Fs) : Fs :=
  { fs with dir := fs.dir.map fun d => { d with pids := d.pids.filter fun q => alive q = true } }

def hasOtherAlivePids (alive : ℕ → Bool) (pid : ℕ) (fs : Fs) : Bool :=
  decide (∃ q ∈ fs.listPids, q ≠ pid ∧ alive q = true)

namespace Handle

variable (h : Handle)

def unlink (fs : Fs) : Handle × Fs :=
  if h.unlinked then (h, fs) else ({ h with unlinked := true }, fs.shmUnlink)

/-- `detach`, and the closed flag.  Nobody holds a view of `buf` by then: while one is exported,
`memoryview.release` raises a `BufferError`, and the handle is not closed. -/
def finish : Handle := { h with mmap := none, closed := true }

def close (alive : ℕ → Bool) (fs : Fs) : Handle × Fs :=
  if h.closed then (h, fs)
  else
    let fs := (cleanupDeadPids alive fs).unlinkPid h.pid
    if hasOtherAlivePids alive h.pid fs then (h.finish, fs)
    else
      let r := h.unlink fs
      (r.1.finish, r.2.rmdir)

end Handle

/-! ## What the two calls do -/

section Init

variable (r : Request) (pid : ℕ) (fs : Fs)

/-- A new segment has the requested size. -/
theorem attempt_create (hlink : fs.link = none) (hattach : r.attachOnly = false) :
    attempt r fs = (.mapped ⟨fs.count, r.size, true⟩, fs.create.ftruncate fs.count r.size) := by
  simp [attempt, hlink, hattach, mapSegment, Fs.ftruncate]

/-- The loop fails and changes nothing, or attaches to the linked segment, or creates one. -/
theorem attempts_spec (k : ℕ) :
    (∃ e, attempts r k fs = (.error e, fs)) ∨
    (∃ seg, fs.link = some seg ∧ attempts r k fs = (.ok ⟨seg, fs.size seg, false⟩, fs)) ∨
    fs.link = none ∧ attempts r k fs =
      (.ok ⟨fs.count, r.size, true⟩, fs.create.ftruncate fs.count r.size) := by
  induction k with
  | zero => exact .inl ⟨_, rfl⟩
  | succ k ih =>
    cases hlink : fs.link with
    | some seg =>
      by_cases hsize : fs.size seg < r.size
      · -- every attempt fails in the same way
        have hattempt : attempt r fs = (.retry, fs) := by simp [attempt, hlink, mapSegment, hsize]
        rw [attempts, hattempt]
        simpa [hlink] using ih
      · have hattempt : attempt r fs = (.mapped ⟨seg, fs.size seg, false⟩, fs) := by
          simp [attempt, hlink, mapSegment, hsize]
        rw [attempts, hattempt]
        exact .inr (.inl ⟨seg, rfl, rfl⟩)
    | none =>
      cases hattach : r.attachOnly with
      | true =>
        have hattempt : attempt r fs = (.raised .noShmFound, fs) := by
          simp [attempt, hlink, hattach]
        rw [attempts, hattempt]
        exact .inl ⟨_, rfl⟩
      | false =>
        rw [attempts, attempt_create r fs hlink hattach]
        exact .inr (.inr ⟨rfl, rfl⟩)

/-- A constructor that got its mapping registers its pid. -/
theorem init_of_mapped {h : Mapping} {fs' : Fs}
    (hok : attempts r r.rounds fs.makedirs = (.ok h, fs')) (hdir : fs'.dir = fs.makedirs.dir) :
    ∃ fs'' d, init r pid fs = (.ok h, fs'') ∧ fs''.link = fs'.link ∧
      fs''.listPids = insert pid fs.listPids ∧ fs''.dir = some d ∧
      d.others = (fs.dir.getD .empty).others := by
  obtain ⟨d, hd⟩ : ∃ d, d = fs.dir.getD .empty := ⟨_, rfl⟩
  have hwrite : fs'.writePid pid =
      some { fs' with dir := some { d with pids := insert pid d.pids } } := by
    simp [Fs.writePid, hdir, Fs.makedirs, hd]
  have hlist : fs'.listPids = fs.listPids := by
    rw [Fs.listPids, hdir]
    rfl
  refine ⟨{ fs' with dir := some { d with pids := insert pid d.pids } },
    { d with pids := insert pid d.pids }, ?_, rfl, ?_, rfl, by rw [← hd]⟩
  · rw [init, hok]
    simp only [hwrite]
  · rw [← hlist]
    exact Fs.listPids_of_writePid fs' hwrite

/-- The constructor fails and leaves at most the directory behind, or it returns a mapping of the
linked segment, which is the one that was linked before if there was one, and registers the pid. -/
theorem init_spec :
    (∃ e, init r pid fs = (.error e, fs.makedirs)) ∨
    ∃ h fs', init r pid fs = (.ok h, fs') ∧ fs'.link = some h.seg ∧
      (fs.link = none ∨ fs.link = some h.seg) ∧ fs'.listPids = insert pid fs.listPids ∧
      ∃ d, fs'.dir = some d ∧ d.others = (fs.dir.getD .empty).others := by
  rcases attempts_spec r fs.makedirs r.rounds with ⟨e, he⟩ | ⟨seg, hlink, he⟩ | ⟨hlink, he⟩
  · exact .inl ⟨e, by rw [init, he]⟩
  · obtain ⟨fs', d, hinit, hlink', hlist, hd⟩ := init_of_mapped r pid fs he rfl
    exact .inr ⟨_, fs', hinit, hlink'.trans hlink, .inr hlink, hlist, d, hd⟩
  · obtain ⟨fs', d, hinit, hlink', hlist, hd⟩ := init_of_mapped r pid fs he rfl
    exact .inr ⟨_, fs', hinit, hlink', .inl hlink, hlist, d, hd⟩

end Init

section Close

variable (alive : ℕ → Bool) (pid : ℕ) (fs : Fs)

@[simp] theorem listPids_cleanupDeadPids :
    (cleanupDeadPids alive fs).listPids = fs.listPids.filter fun q => alive q = true := by
  unfold Fs.listPids cleanupDeadPids
  cases fs.dir <;> simp [Dir.empty]

theorem hasOtherAlivePids_iff :
    hasOtherAlivePids alive pid fs = true ↔ ∃ q ∈ fs.listPids, q ≠ pid ∧ alive q = true := by
  simp [hasOtherAlivePids]

/-- The cleanup and the removal of the own file leave the other alive pids. -/
theorem hasOtherAlivePids_cleaned :
    hasOtherAlivePids alive pid ((cleanupDeadPids alive fs).unlinkPid pid) =
      hasOtherAlivePids alive pid fs := by
  rw [Bool.eq_iff_iff, hasOtherAlivePids_iff, hasOtherAlivePids_iff]
  simp only [Fs.listPids_unlinkPid, listPids_cleanupDeadPids, Finset.mem_erase, Finset.mem_filter]
  exact exists_congr fun q => by tauto

variable {alive pid fs} {h : Handle}

theorem Handle.close_of_closed (hc : h.closed = true) : h.close alive fs = (h, fs) := by
  simp [close, hc]

theorem Handle.close_of_others (hc : h.closed = false)
    (hothers : hasOtherAlivePids alive h.pid fs = true) :
    h.close alive fs = (h.finish, (cleanupDeadPids alive fs).unlinkPid h.pid) := by
  simp [close, hc, hasOtherAlivePids_cleaned, hothers]

theorem Handle.close_of_last (hc : h.closed = false) (hu : h.unlinked = false)
    (hothers : hasOtherAlivePids alive h.pid fs = false) :
    h.close alive fs = ({ h with mmap := none, closed := true, unlinked := true },
      ((cleanupDeadPids alive fs).unlinkPid h.pid).shmUnlink.rmdir) := by
  simp [close, hc, hasOtherAlivePids_cleaned, hothers, unlink, hu, finish]

theorem Handle.pid_close (h : Handle) :
    (h.close alive fs).1.pid = h.pid ∧ (h.close alive fs).1.proc = h.proc := by
  unfold close unlink
  dsimp only
  split_ifs <;> exact ⟨rfl, rfl⟩

theorem Handle.listPids_close (hc : h.closed = false) :
    (h.close alive fs).2.listPids = (fs.listPids.filter fun q => alive q = true).erase h.pid := by
  unfold close unlink
  rw [if_neg (by simp [hc])]
  dsimp only
  split_ifs <;> simp

theorem onlyPids_cleaned (hfs : fs.OnlyPids) (pid : ℕ) :
    ((cleanupDeadPids alive fs).unlinkPid pid).OnlyPids := by
  refine Fs.OnlyPids.unlinkPid (fun d hd => ?_) pid
  obtain ⟨d', hd', rfl⟩ := Option.map_eq_some_iff.1 hd
  exact hfs d' hd'

theorem Handle.onlyPids_close (hfs : fs.OnlyPids) : (h.close alive fs).2.OnlyPids := by
  have hcleaned : ((cleanupDeadPids alive fs).unlinkPid h.pid).OnlyPids :=
    onlyPids_cleaned hfs h.pid
  unfold close unlink
  dsimp only
  split_ifs
  · exact hfs
  · exact hcleaned
  · exact hcleaned.rmdir
  · exact Fs.OnlyPids.rmdir hcleaned

/-- The last close removes the directory when no pid is left in it. -/
theorem Handle.dir_close (hc : h.closed = false) (hu : h.unlinked = false)
    (hothers : hasOtherAlivePids alive h.pid fs = false) (hfs : fs.OnlyPids)
    (hlist : (h.close alive fs).2.listPids = ∅) : (h.close alive fs).2.dir = none := by
  rw [close_of_last hc hu hothers] at hlist ⊢
  rw [Fs.listPids_rmdir] at hlist
  exact Fs.OnlyPids.dir_rmdir (onlyPids_cleaned hfs h.pid) hlist

theorem Handle.closed_close (hc : h.closed = false) : (h.close alive fs).1.closed = true := by
  unfold close
  rw [if_neg (by simp [hc])]
  dsimp only
  split_ifs <;> rfl

end Close

/-! ## Histories -/

/-- The files of the name, the pids that have died, and all objects ever constructed or inherited
by a fork. -/
structure World where
  fs : Fs
  dead : Finset ℕ
  handles : List Handle

/-- `_alive`, by `os.kill(pid, 0)`: a process that has died is gone for it, its parent has reaped
it. -/
def World.alive (w : World) (q : ℕ) : Bool := decide (q ∉ w.dead)

inductive Event where
  | construct (pid : ℕ) (r : Request)
  /-- `close` on the `k`-th object. -/
  | close (k : ℕ)
  | fork (parent child : ℕ)
  | die (pid : ℕ)
  deriving DecidableEq

namespace World

variable (w : World)

def construct (pid : ℕ) (r : Request) : World :=
  let res := init r pid w.fs
  { w with fs := res.2, handles := w.handles ++ [.new r pid res.1] }

def close (k : ℕ) (h : Handle) : World :=
  let res := h.close w.alive w.fs
  { w with fs := res.2, handles := w.handles.set k res.1 }

/-- The child starts with copies of its parent's objects. -/
def fork (parent child : ℕ) : World :=
  { w with
    handles := w.handles ++
      (w.handles.filter fun h => h.proc = parent).map fun h => { h with proc := child } }

/-- One event, executed atomically. -/
def step : Event → Option World
  | .construct pid r => if w.alive pid then some (w.construct pid r) else none
  | .close k =>
    match w.handles[k]? with
    | some h => if w.alive h.proc then some (w.close k h) else none
    | none => none
  | .fork parent child =>
    -- the child is a new process
    if w.alive parent ∧ w.alive child ∧ child ≠ parent ∧ ∀ h ∈ w.handles, h.proc ≠ child then
      some (w.fork parent child)
    else none
  | .die pid => if w.alive pid then some { w with dead := insert pid w.dead } else none

variable {w}

theorem close_of_closed {k : ℕ} {h : Handle} (hk : w.handles[k]? = some h) (hc : h.closed = true) :
    w.close k h = w := by
  obtain ⟨hlt, rfl⟩ := List.getElem?_eq_some_iff.1 hk
  simp [World.close, Handle.close_of_closed hc]

theorem step_close_eq_some {k : ℕ} {w' : World} (hs : w.step (.close k) = some w') :
    ∃ h, w.handles[k]? = some h ∧ w.alive h.proc = true ∧ w' = w.close k h := by
  simp only [step] at hs
  split at hs
  next h hk =>
    split_ifs at hs with halive
    exact ⟨h, hk, halive, (Option.some.inj hs).symm⟩
  next => cases hs

/-- Histories that start in a state satisfying `Init`. -/
def system (Init : World → Prop) : Transition World Event where
  Init := Init
  step := step

end World

end GuardedSharedMemory
