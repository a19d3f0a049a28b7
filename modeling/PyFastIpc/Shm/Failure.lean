import PyFastIpc.Shm.Handles
import Mathlib.Data.Finset.Lattice.Fold
import Mathlib.Order.Lattice.Nat

/-!
# A constructor that fails

The constructor of `GuardedSharedMemory` when its system calls raise, with the descriptors that it
opens, and the finaliser of the object that it leaves half-built.  No other process takes a step.
The constructor of `Handles` is the case in which nothing is raised (`tryInit_quiet`).

`failed_construct_iff` has the exact condition under which a failed constructor leaves no trace.
Four things can go wrong: an `attach_only` call raises before it closes its descriptor, a segment
that `ftruncate` has refused stays linked with size 0, and the finaliser, which runs the whole
`close` for an object that never had a pid file, removes the file of another handle of the process
and unlinks the segment.
-/

namespace GuardedSharedMemory

/-! ## System calls that raise -/

/-- The calls of an attempt that can raise an exception of their own; no other process steps in
between, so `shm_open` raises `FileNotFoundError` for a missing name only, and no
`FileExistsError`. -/
inductive Fault where
  | shmOpen
  /-- `shm_open` with `O_CREAT | O_EXCL`. -/
  | shmCreate
  /-- The `OSError` or `OverflowError` of a size that is refused. -/
  | ftruncate
  | fstat
  | mmapValueError
  /-- Any other exception of `mmap`. -/
  | mmap
  deriving DecidableEq

/-- What goes wrong in one attempt: the call that raises when it is made, and whether `time.sleep`
raises, as for a negative `backoff_base`. -/
structure Trouble where
  fault : Option Fault
  sleep : Bool
  deriving DecidableEq

/-- Nothing goes wrong. -/
def Trouble.quiet : Trouble := ⟨none, false⟩

/-- The exceptions of the constructor: its own, and the one of `time.sleep`. -/
inductive Failure where
  | error (e : Error)
  | sleep
  deriving DecidableEq

/-- The files of the name, and the open descriptors of the process. -/
structure Kernel where
  fs : Fs
  fds : Finset ℕ

namespace Kernel

variable (k : Kernel)

/-- A number for a new descriptor.  Which free number it is plays no role. -/
def freeFd : ℕ := k.fds.sup id + 1

/-- The state with the new descriptor, and other files. -/
def openFd (fs : Fs) : Kernel := ⟨fs, insert k.freeFd k.fds⟩

/-- The clean-up of an attempt: closes the descriptor, and unlinks the name if `created` was set. -/
def discard (created : Bool) (fd : Option ℕ) : Kernel :=
  match fd with
  | none => k
  | some fd => ⟨if created then k.fs.shmUnlink else k.fs, k.fds.erase fd⟩

theorem freeFd_notMem : k.freeFd ∉ k.fds := by
  intro h
  have hle : k.freeFd ≤ k.fds.sup id := Finset.le_sup (f := id) h
  unfold freeFd at hle
  omega

/-- A descriptor that was opened and closed. -/
theorem discard_openFd (fs : Fs) (created : Bool) :
    (k.openFd fs).discard created (some k.freeFd) =
      ⟨if created then fs.shmUnlink else fs, k.fds⟩ := by
  rw [discard, openFd, Finset.erase_insert k.freeFd_notMem]

theorem fds_openFd_ne (fs : Fs) : (k.openFd fs).fds ≠ k.fds := by
  intro h
  have hmem : k.freeFd ∈ k.fds := h ▸ Finset.mem_insert_self _ _
  exact k.freeFd_notMem hmem

end Kernel

/-! ## The constructor -/

/-- How an attempt ends. -/
inductive Tried where
  | mapped (h : Mapping)
  | retry
  | raised (e : Failure)
  deriving DecidableEq

/-- `except (FileNotFoundError, FileExistsError, ValueError)`. -/
def afterValueError (t : Trouble) (created : Bool) (fd : Option ℕ) (k : Kernel) : Tried × Kernel :=
  (if t.sleep then .raised .sleep else .retry, k.discard created fd)

/-- `except Exception`. -/
def afterException (r : Request) (created : Bool) (fd : Option ℕ) (k : Kernel) : Tried × Kernel :=
  if r.attachOnly then (.raised (.error .noShmFound), k) else (.retry, k.discard created fd)

/-- An attempt from `os.fstat` on. -/
def tryMap (r : Request) (t : Trouble) (seg : ℕ) (created : Bool) (fd : ℕ) (k : Kernel) :
    Tried × Kernel :=
  if t.fault = some .fstat then afterException r created (some fd) k
  else if k.fs.size seg < r.size then afterValueError t created (some fd) k
  else if t.fault = some .mmapValueError then afterValueError t created (some fd) k
  else if t.fault = some .mmap then afterException r created (some fd) k
  else (.mapped ⟨seg, k.fs.size seg, created⟩, k)

def tryAttempt (r : Request) (t : Trouble) (k : Kernel) : Tried × Kernel :=
  if t.fault = some .shmOpen then afterException r false none k
  else
    match k.fs.link with
    | some seg => tryMap r t seg false k.freeFd (k.openFd k.fs)
    | none =>
      if r.attachOnly then (.raised (.error .noShmFound), k)
      else if t.fault = some .shmCreate then afterException r false none k
      else if t.fault = some .ftruncate then
        -- `created` is not set yet
        afterException r false (some k.freeFd) (k.openFd k.fs.create)
      else
        tryMap r t k.fs.count true k.freeFd (k.openFd (k.fs.create.ftruncate k.fs.count r.size))

/-- The attempt loop, with `n` attempts left. -/
def tryAttempts (r : Request) : ℕ → (ℕ → Trouble) → Kernel → Except Failure Mapping × Kernel
  | 0, _, k => (.error (.error (.attemptsExhausted r.maxAttempts)), k)
  | n + 1, t, k =>
    match tryAttempt r (t 0) k with
    | (.mapped h, k') => (.ok h, k')
    | (.raised e, k') => (.error e, k')
    | (.retry, k') => tryAttempts r n (fun j => t (j + 1)) k'

/-- `__init__` with checked arguments, of a process with the given pid. -/
def tryInit (r : Request) (pid : ℕ) (t : ℕ → Trouble) (k : Kernel) :
    Except Failure Mapping × Kernel :=
  match tryAttempts r r.rounds t { k with fs := k.fs.makedirs } with
  | (.ok h, k') =>
    match k'.fs.writePid pid with
    | some fs => (.ok h, { k' with fs := fs })
    | none => (.error (.error .pidDirMissing), k')
  | (.error e, k') => (.error e, k')

/-- The arguments of the constructor. -/
structure Args where
  name : String
  size : ℤ
  attachOnly : Bool
  maxAttempts : ℤ
  tryCleanupOnExit : Bool

def Args.check (a : Args) : Except Error Request :=
  Request.check a.name a.size a.attachOnly a.maxAttempts

/-- `__del__` of an object whose constructor has failed after the checks. -/
def del (a : Args) (r : Request) (pid : ℕ) (alive : ℕ → Bool) (k : Kernel) : Kernel :=
  if a.tryCleanupOnExit then
    let halfBuilt := Handle.new r pid (.error (.attemptsExhausted r.maxAttempts))
    { k with fs := (halfBuilt.close alive k.fs).2 }
  else k

/-- A constructor call of the process `pid`, followed by the `__del__` of the object if it fails.
An object refused by the checks has no attributes, so its `__del__` raises at once. -/
def construct (a : Args) (pid : ℕ) (alive : ℕ → Bool) (t : ℕ → Trouble) (k : Kernel) :
    Except Failure Mapping × Kernel :=
  match a.check with
  | .error e => (.error (.error e), k)
  | .ok r =>
    match tryInit r pid t k with
    | (.ok h, k') => (.ok h, k')
    | (.error e, k') => (.error e, del a r pid alive k')

/-! ## Without faults -/

section Quiet

variable (r : Request) (pid : ℕ) (k : Kernel)

theorem tryMap_quiet (seg : ℕ) (created : Bool) (fs : Fs) :
    tryMap r .quiet seg created k.freeFd (k.openFd fs) =
      match mapSegment r fs seg created with
      | (.mapped h, fs') => (.mapped h, k.openFd fs')
      | (.retry, fs') => (.retry, ⟨fs', k.fds⟩)
      | (.raised e, fs') => (.raised (.error e), ⟨fs', k.fds⟩) := by
  have hsize : (k.openFd fs).fs.size seg = fs.size seg := rfl
  unfold tryMap mapSegment
  rw [if_neg (by simp [Trouble.quiet]), hsize]
  by_cases hsmall : fs.size seg < r.size
  · rw [if_pos hsmall, if_pos hsmall, afterValueError, Kernel.discard_openFd]
    rfl
  · rw [if_neg hsmall, if_neg hsmall, if_neg (by simp [Trouble.quiet]),
      if_neg (by simp [Trouble.quiet])]

theorem tryAttempt_quiet :
    tryAttempt r .quiet k =
      match attempt r k.fs with
      | (.mapped h, fs') => (.mapped h, k.openFd fs')
      | (.retry, fs') => (.retry, ⟨fs', k.fds⟩)
      | (.raised e, fs') => (.raised (.error e), ⟨fs', k.fds⟩) := by
  unfold tryAttempt attempt
  rw [if_neg (by simp [Trouble.quiet])]
  cases hlink : k.fs.link with
  | some seg => exact tryMap_quiet r k seg false k.fs
  | none =>
    dsimp only
    by_cases hattach : r.attachOnly = true
    · rw [if_pos hattach, if_pos hattach]
    · rw [if_neg hattach, if_neg hattach, if_neg (by simp [Trouble.quiet]),
        if_neg (by simp [Trouble.quiet])]
      exact tryMap_quiet r k k.fs.count true _

theorem tryAttempts_quiet (n : ℕ) :
    (tryAttempts r n (fun _ => .quiet) k).2.fs = (attempts r n k.fs).2 ∧
      ((tryAttempts r n (fun _ => .quiet) k).1 = (attempts r n k.fs).1.mapError .error) := by
  induction n generalizing k with
  | zero => exact ⟨rfl, rfl⟩
  | succ n ih =>
    rw [tryAttempts, attempts, tryAttempt_quiet]
    rcases attempt r k.fs with ⟨h | _ | e, fs'⟩
    · exact ⟨rfl, rfl⟩
    · exact ih ⟨fs', k.fds⟩
    · exact ⟨rfl, rfl⟩

/-- When nothing is raised the constructor is the one of `Handles`. -/
theorem tryInit_quiet :
    (tryInit r pid (fun _ => .quiet) k).2.fs = (init r pid k.fs).2 ∧
      (tryInit r pid (fun _ => .quiet) k).1 = (init r pid k.fs).1.mapError .error := by
  obtain ⟨hfs, hres⟩ := tryAttempts_quiet r { k with fs := k.fs.makedirs } r.rounds
  unfold tryInit init
  rcases ht : tryAttempts r r.rounds (fun _ => .quiet) { k with fs := k.fs.makedirs } with
    ⟨res, k'⟩
  rcases ha : attempts r r.rounds k.fs.makedirs with ⟨res', fs'⟩
  rw [ht, ha] at hfs hres
  obtain rfl : k'.fs = fs' := hfs
  obtain rfl : res = res'.mapError .error := hres
  cases res' with
  | error e => exact ⟨rfl, rfl⟩
  | ok h =>
    dsimp only [Except.mapError]
    cases k'.fs.writePid pid <;> exact ⟨rfl, rfl⟩

end Quiet

/-! ## What an attempt leaves behind -/

/-- One of the first `n` attempts has the trouble `P`, and those before it have trouble `Q`. -/
def Until (P Q : Trouble → Prop) (n : ℕ) (t : ℕ → Trouble) : Prop :=
  ∃ j < n, P (t j) ∧ ∀ i < j, Q (t i)

/-- An attempt on a linked segment raises what `except Exception` catches, with its descriptor
open. -/
def Abandons (small : Prop) (t : Trouble) : Prop :=
  t.fault = some .fstat ∨ ¬ small ∧ t.fault = some .mmap

/-- An attempt of an `attach_only` call that, unless it does that, can be followed by another. -/
def Waits (t : Trouble) : Prop := t.fault ≠ some .shmOpen ∧ t.sleep = false

/-- An attempt that creates a segment leaves it linked. -/
def Strands (t : Trouble) : Prop := t.fault = some .ftruncate

/-- An attempt to create a segment that, unless it does that, can be followed by another. -/
def Repeats (t : Trouble) : Prop := ¬ (t.fault = some .mmapValueError ∧ t.sleep = true)

theorem not_until_zero {P Q : Trouble → Prop} {t : ℕ → Trouble} : ¬ Until P Q 0 t := by
  rintro ⟨j, hj, -⟩
  omega

theorem until_succ {P Q : Trouble → Prop} {n : ℕ} {t : ℕ → Trouble} :
    Until P Q (n + 1) t ↔ P (t 0) ∨ Q (t 0) ∧ Until P Q n fun j => t (j + 1) := by
  constructor
  · rintro ⟨j, hj, hP, hQ⟩
    cases j with
    | zero => exact .inl hP
    | succ j => exact .inr ⟨hQ 0 j.succ_pos, j, by omega, hP, fun i hi => hQ (i + 1) (by omega)⟩
  · rintro (hP | ⟨hQ0, j, hj, hP, hQ⟩)
    · exact ⟨0, n.succ_pos, hP, fun i hi => absurd hi (Nat.not_lt_zero i)⟩
    · refine ⟨j + 1, by omega, hP, fun i hi => ?_⟩
      cases i with
      | zero => exact hQ0
      | succ i => exact hQ i (by omega)

/-- The outcomes of an attempt on a linked segment. -/
inductive Attached (r : Request) (small : Prop) (t : Trouble) (k : Kernel) :
    Tried × Kernel → Prop
  | mapped (h : Mapping) (k' : Kernel) (hdir : k'.fs.dir = k.fs.dir) :
      Attached r small t k (.mapped h, k')
  | retry (hgo : r.attachOnly = true → ¬ Abandons small t ∧ Waits t) :
      Attached r small t k (.retry, k)
  | raised (e : Failure) (hstop : r.attachOnly = true → ¬ Abandons small t ∧ ¬ Waits t) :
      Attached r small t k (.raised e, k)
  | abandoned (e : Failure) (hattach : r.attachOnly = true) (h : Abandons small t) :
      Attached r small t k (.raised e, k.openFd k.fs)

section Attempts

variable {r : Request} {t : Trouble} {k k' : Kernel} {seg n : ℕ} {e : Failure}

/-- The clean-up of an attempt on a linked segment. -/
theorem attached_afterValueError {small : Prop} (hno : ¬ Abandons small t)
    (hopen : t.fault ≠ some .shmOpen) :
    Attached r small t k (afterValueError t false (some k.freeFd) (k.openFd k.fs)) := by
  rw [afterValueError, Kernel.discard_openFd, if_neg Bool.false_ne_true]
  by_cases hsleep : t.sleep = true
  · rw [if_pos hsleep]
    exact .raised _ fun _ => ⟨hno, fun hw => by simp [hw.2] at hsleep⟩
  · rw [if_neg hsleep]
    exact .retry fun _ => ⟨hno, hopen, Bool.eq_false_iff.2 hsleep⟩

theorem attached_afterException {small : Prop} (h : Abandons small t) :
    Attached r small t k (afterException r false (some k.freeFd) (k.openFd k.fs)) := by
  unfold afterException
  by_cases hattach : r.attachOnly = true
  · rw [if_pos hattach]
    exact .abandoned _ hattach h
  · rw [if_neg hattach, Kernel.discard_openFd, if_neg Bool.false_ne_true]
    exact .retry fun ha => absurd ha hattach

theorem tryAttempt_attached (hlink : k.fs.link = some seg) :
    Attached r (k.fs.size seg < r.size) t k (tryAttempt r t k) := by
  unfold tryAttempt
  by_cases hopen : t.fault = some .shmOpen
  · rw [if_pos hopen, afterException]
    by_cases hattach : r.attachOnly = true
    · rw [if_pos hattach]
      exact .raised _ fun _ => ⟨by simp [Abandons, hopen], fun hw => hw.1 hopen⟩
    · rw [if_neg hattach]
      exact .retry fun ha => absurd ha hattach
  · rw [if_neg hopen, hlink]
    dsimp only
    unfold tryMap
    by_cases hstat : t.fault = some .fstat
    · rw [if_pos hstat]
      exact attached_afterException (.inl hstat)
    · rw [if_neg hstat]
      by_cases hsmall : k.fs.size seg < r.size
      · have hno : ¬ Abandons (k.fs.size seg < r.size) t := by
          rintro (h | h)
          · exact hstat h
          · exact h.1 hsmall
        rw [if_pos (show (k.openFd k.fs).fs.size seg < r.size from hsmall)]
        exact attached_afterValueError hno hopen
      · rw [if_neg (show ¬ (k.openFd k.fs).fs.size seg < r.size from hsmall)]
        by_cases hvalue : t.fault = some .mmapValueError
        · rw [if_pos hvalue]
          exact attached_afterValueError (by simp [Abandons, hvalue]) hopen
        · rw [if_neg hvalue]
          by_cases hmmap : t.fault = some .mmap
          · rw [if_pos hmmap]
            exact attached_afterException (.inr ⟨hsmall, hmmap⟩)
          · rw [if_neg hmmap]
            exact .mapped _ _ rfl

/-- A loop that fails on a linked segment changes no file, and leaves a descriptor open if and only
if an attempt was abandoned. -/
theorem tryAttempts_attached {t : ℕ → Trouble} (hlink : k.fs.link = some seg)
    (h : tryAttempts r n t k = (.error e, k')) :
    k'.fs = k.fs ∧ (k'.fds = k.fds ↔
      ¬ (r.attachOnly = true ∧ Until (Abandons (k.fs.size seg < r.size)) Waits n t)) := by
  induction n generalizing t with
  | zero =>
    obtain rfl := (Prod.mk.inj h).2
    exact ⟨rfl, fun _ hu => not_until_zero hu.2, fun _ => rfl⟩
  | succ n ih =>
    rw [tryAttempts] at h
    have hfirst := tryAttempt_attached (r := r) (t := t 0) hlink
    rcases htry : tryAttempt r (t 0) k with ⟨_ | _ | e', k₁⟩
    · rw [htry] at h
      cases (Prod.mk.inj h).1
    · rw [htry] at h hfirst
      cases hfirst with
      | retry hgo =>
        obtain ⟨hfs, hfds⟩ := ih h
        refine ⟨hfs, hfds.trans (not_congr (and_congr_right fun hattach => ?_))⟩
        obtain ⟨hno, hwaits⟩ := hgo hattach
        rw [until_succ]
        exact ⟨fun hu => .inr ⟨hwaits, hu⟩, fun hu => (hu.resolve_left hno).2⟩
    · rw [htry] at h hfirst
      obtain rfl := (Prod.mk.inj h).2
      cases hfirst with
      | raised e hstop =>
        refine ⟨rfl, fun _ => ?_, fun _ => rfl⟩
        rintro ⟨hattach, hu⟩
        obtain ⟨hno, hwaits⟩ := hstop hattach
        rcases until_succ.1 hu with h0 | ⟨h0, -⟩
        · exact hno h0
        · exact hwaits h0
      | abandoned e hattach habandons =>
        refine ⟨rfl, fun hfds => absurd hfds (k.fds_openFd_ne k.fs), fun hno => ?_⟩
        exact absurd ⟨hattach, until_succ.2 (.inl habandons)⟩ hno

/-- The outcomes of an attempt on a name that is not linked. -/
inductive Creating (r : Request) (t : Trouble) (k : Kernel) : Tried × Kernel → Prop
  | mapped (h : Mapping) (k' : Kernel) (hdir : k'.fs.dir = k.fs.dir) :
      Creating r t k (.mapped h, k')
  | retry (fs : Fs) (hlink : fs.link = none) (hdir : fs.dir = k.fs.dir)
      (hgo : r.attachOnly = false → ¬ Strands t ∧ Repeats t) :
      Creating r t k (.retry, ⟨fs, k.fds⟩)
  | raised (e : Failure) (fs : Fs) (hlink : fs.link = none) (hdir : fs.dir = k.fs.dir)
      (hstop : r.attachOnly = false → ¬ Strands t ∧ ¬ Repeats t) :
      Creating r t k (.raised e, ⟨fs, k.fds⟩)
  | stranded (hattach : r.attachOnly = false) (h : Strands t) :
      Creating r t k (.retry, ⟨k.fs.create, k.fds⟩)

/-- An attempt that ends before it has created a segment. -/
theorem creating_afterException {f : Fault} (hlink : k.fs.link = none) (hf : t.fault = some f)
    (hne : f ≠ .ftruncate ∧ f ≠ .mmapValueError) :
    Creating r t k (afterException r false none k) := by
  have hgo : ¬ Strands t ∧ Repeats t := by
    constructor
    · intro h
      exact hne.1 (Option.some.inj (hf.symm.trans h))
    · intro h
      exact hne.2 (Option.some.inj (hf.symm.trans h.1))
  unfold afterException
  by_cases hattach : r.attachOnly = true
  · rw [if_pos hattach]
    exact .raised _ k.fs hlink rfl fun hno => by simp [hattach] at hno
  · rw [if_neg hattach]
    exact .retry k.fs hlink rfl fun _ => hgo

/-- From `os.fstat` on, the segment that the attempt has created is unlinked when it fails. -/
theorem creating_tryMap (hattach : r.attachOnly = false) (hno : ¬ Strands t) {fs : Fs}
    (hsize : fs.size seg = r.size) (hdir : fs.dir = k.fs.dir) :
    Creating r t k (tryMap r t seg true k.freeFd (k.openFd fs)) := by
  have hunlinked (created : Bool) (hcreated : created = true) :
      (k.openFd fs).discard created (some k.freeFd) = ⟨fs.shmUnlink, k.fds⟩ := by
    rw [Kernel.discard_openFd, if_pos hcreated]
  have hexception (hrep : Repeats t) :
      Creating r t k (afterException r true (some k.freeFd) (k.openFd fs)) := by
    rw [afterException, if_neg (by simp [hattach]), hunlinked true rfl]
    exact .retry _ rfl hdir fun _ => ⟨hno, hrep⟩
  unfold tryMap
  by_cases hstat : t.fault = some .fstat
  · rw [if_pos hstat]
    exact hexception (by simp [Repeats, hstat])
  · rw [if_neg hstat, if_neg (show ¬ (k.openFd fs).fs.size seg < r.size from hsize.not_lt)]
    by_cases hvalue : t.fault = some .mmapValueError
    · rw [if_pos hvalue, afterValueError, hunlinked true rfl]
      by_cases hsleep : t.sleep = true
      · rw [if_pos hsleep]
        exact .raised _ _ rfl hdir fun _ => ⟨hno, fun hrep => hrep ⟨hvalue, hsleep⟩⟩
      · rw [if_neg hsleep]
        exact .retry _ rfl hdir fun _ => ⟨hno, fun h => hsleep h.2⟩
    · rw [if_neg hvalue]
      by_cases hmmap : t.fault = some .mmap
      · rw [if_pos hmmap]
        exact hexception (by simp [Repeats, hmmap])
      · rw [if_neg hmmap]
        exact .mapped _ _ hdir

theorem tryAttempt_creating (hlink : k.fs.link = none) : Creating r t k (tryAttempt r t k) := by
  unfold tryAttempt
  by_cases hopen : t.fault = some .shmOpen
  · rw [if_pos hopen]
    exact creating_afterException hlink hopen (by decide)
  · rw [if_neg hopen, hlink]
    dsimp only
    by_cases hattach : r.attachOnly = true
    · rw [if_pos hattach]
      exact .raised _ k.fs hlink rfl fun hno => by simp [hattach] at hno
    · have hnew : r.attachOnly = false := Bool.eq_false_iff.2 hattach
      rw [if_neg hattach]
      by_cases hcreate : t.fault = some .shmCreate
      · rw [if_pos hcreate]
        exact creating_afterException hlink hcreate (by decide)
      · rw [if_neg hcreate]
        by_cases htruncate : t.fault = some .ftruncate
        · rw [if_pos htruncate, afterException, if_neg hattach, Kernel.discard_openFd,
            if_neg Bool.false_ne_true]
          exact .stranded hnew htruncate
        · rw [if_neg htruncate]
          exact creating_tryMap hnew htruncate (Function.update_self _ _ _) rfl

/-- A loop that fails on a name that was not linked closes its descriptors, and leaves the name
linked if and only if a segment was stranded. -/
theorem tryAttempts_creating {t : ℕ → Trouble} (hlink : k.fs.link = none)
    (h : tryAttempts r n t k = (.error e, k')) :
    k'.fds = k.fds ∧ k'.fs.dir = k.fs.dir ∧ (k'.fs.link = none ↔
      ¬ (r.attachOnly = false ∧ Until Strands Repeats n t)) := by
  induction n generalizing t k with
  | zero =>
    obtain rfl := (Prod.mk.inj h).2
    exact ⟨rfl, rfl, fun _ hu => not_until_zero hu.2, fun _ => hlink⟩
  | succ n ih =>
    rw [tryAttempts] at h
    have hfirst := tryAttempt_creating (r := r) (t := t 0) hlink
    rcases htry : tryAttempt r (t 0) k with ⟨_ | _ | e', k₁⟩
    · rw [htry] at h
      cases (Prod.mk.inj h).1
    · rw [htry] at h hfirst
      cases hfirst with
      | retry fs hlink' hdir hgo =>
        obtain ⟨hfds, hdir', hlinked⟩ := ih hlink' h
        refine ⟨hfds, hdir'.trans hdir, hlinked.trans (not_congr (and_congr_right fun hnew => ?_))⟩
        obtain ⟨hno, hrep⟩ := hgo hnew
        rw [until_succ]
        exact ⟨fun hu => .inr ⟨hrep, hu⟩, fun hu => (hu.resolve_left hno).2⟩
      | stranded hattach hstrands =>
        -- the following attempts find a segment of size 0
        obtain ⟨hfs, hfds⟩ := tryAttempts_attached (k := ⟨k.fs.create, k.fds⟩) rfl h
        refine ⟨hfds.2 fun hu => by simp [hattach] at hu, by rw [hfs]; rfl, ?_⟩
        rw [hfs]
        constructor
        · intro hnone
          cases hnone
        · intro hno
          exact absurd ⟨hattach, until_succ.2 (.inl hstrands)⟩ hno
    · rw [htry] at h hfirst
      obtain rfl := (Prod.mk.inj h).2
      cases hfirst with
      | raised e fs hlink' hdir hstop =>
        refine ⟨rfl, hdir, fun _ => ?_, fun _ => hlink'⟩
        rintro ⟨hnew, hu⟩
        obtain ⟨hno, hrep⟩ := hstop hnew
        rcases until_succ.1 hu with h0 | ⟨h0, -⟩
        · exact hno h0
        · exact hrep h0

/-- No attempt touches the pid directory. -/
theorem dir_tryAttempt (r : Request) (t : Trouble) (k : Kernel) :
    (tryAttempt r t k).2.fs.dir = k.fs.dir := by
  cases hlink : k.fs.link with
  | some seg =>
    have hspec := tryAttempt_attached (r := r) (t := t) hlink
    generalize tryAttempt r t k = u at hspec
    cases hspec with
    | mapped h k' hdir => exact hdir
    | _ => rfl
  | none =>
    have hspec := tryAttempt_creating (r := r) (t := t) hlink
    generalize tryAttempt r t k = u at hspec
    cases hspec with
    | mapped h k' hdir => exact hdir
    | retry fs _ hdir => exact hdir
    | raised e fs _ hdir => exact hdir
    | stranded _ _ => rfl

theorem dir_tryAttempts (r : Request) (n : ℕ) (t : ℕ → Trouble) (k : Kernel) :
    (tryAttempts r n t k).2.fs.dir = k.fs.dir := by
  induction n generalizing t k with
  | zero => rfl
  | succ n ih =>
    have hfirst := dir_tryAttempt r (t 0) k
    rw [tryAttempts]
    rcases htry : tryAttempt r (t 0) k with ⟨_ | _ | e', k₁⟩ <;> rw [htry] at hfirst
    · exact hfirst
    · exact (ih _ k₁).trans hfirst
    · exact hfirst

/-- The loop is the only part of the constructor that fails. -/
theorem tryAttempts_of_tryInit {pid : ℕ} {t : ℕ → Trouble}
    (h : tryInit r pid t k = (.error e, k')) :
    tryAttempts r r.rounds t { k with fs := k.fs.makedirs } = (.error e, k') := by
  have hdir := dir_tryAttempts r r.rounds t { k with fs := k.fs.makedirs }
  unfold tryInit at h
  rcases ht : tryAttempts r r.rounds t { k with fs := k.fs.makedirs } with ⟨res, k₁⟩
  rw [ht] at h hdir
  cases res with
  | error e' => exact h
  | ok m =>
    have hwrite : ∃ fs, k₁.fs.writePid pid = some fs := by
      simp [Fs.writePid, show k₁.fs.dir = _ from hdir, Fs.makedirs]
    obtain ⟨fs, hfs⟩ := hwrite
    simp only [hfs] at h
    cases (Prod.mk.inj h).1

/-- What a loop that fails leaves behind. -/
structure Failed (r : Request) (t : ℕ → Trouble) (k k' : Kernel) : Prop where
  listPids : k'.fs.listPids = k.fs.listPids
  size : ∀ seg, k.fs.link = some seg → k'.fs.size seg = k.fs.size seg
  link : k'.fs.link = k.fs.link ↔
    ¬ (r.attachOnly = false ∧ k.fs.link = none ∧ Until Strands Repeats r.rounds t)
  fds : k'.fds = k.fds ↔ ¬ (r.attachOnly = true ∧ ∃ seg, k.fs.link = some seg ∧
    Until (Abandons (k.fs.size seg < r.size)) Waits r.rounds t)

theorem failed_of_tryInit {pid : ℕ} {t : ℕ → Trouble} (h : tryInit r pid t k = (.error e, k')) :
    Failed r t k k' := by
  have hloop := tryAttempts_of_tryInit h
  have hdir := dir_tryAttempts r r.rounds t { k with fs := k.fs.makedirs }
  rw [hloop] at hdir
  have hlist : k'.fs.listPids = k.fs.makedirs.listPids :=
    congrArg (fun d : Option Dir => (d.getD .empty).pids) hdir
  cases hlink : k.fs.link with
  | some seg =>
    have hmade : k.fs.makedirs.link = some seg := hlink
    obtain ⟨hfs, hfds⟩ := tryAttempts_attached (k := { k with fs := k.fs.makedirs }) hmade hloop
    refine ⟨hlist, fun s _ => ?_, ?_, ?_⟩
    · rw [hfs]
      rfl
    · refine ⟨fun _ hu => ?_, fun _ => ?_⟩
      · rw [hlink] at hu
        cases hu.2.1
      · rw [hfs]
        rfl
    · refine hfds.trans (not_congr (and_congr_right fun _ => ?_))
      constructor
      · intro hu
        exact ⟨seg, hlink, hu⟩
      · rintro ⟨s, hs, hu⟩
        obtain rfl : seg = s := Option.some.inj (hlink.symm.trans hs)
        exact hu
  | none =>
    have hmade : k.fs.makedirs.link = none := hlink
    obtain ⟨hfds, -, hlinked⟩ :=
      tryAttempts_creating (k := { k with fs := k.fs.makedirs }) hmade hloop
    refine ⟨hlist, fun s hs => ?_, ?_, ?_⟩
    · rw [hlink] at hs
      cases hs
    · rw [hlink]
      refine hlinked.trans (not_congr (and_congr_right fun _ => ?_))
      exact ⟨fun hu => ⟨rfl, hu⟩, fun hu => hu.2⟩
    · refine ⟨fun _ hu => ?_, fun _ => hfds⟩
      obtain ⟨-, s, hs, -⟩ := hu
      rw [hlink] at hs
      cases hs

end Attempts

/-! ## The finaliser -/

theorem size_close (h : Handle) (alive : ℕ → Bool) (fs : Fs) :
    (h.close alive fs).2.size = fs.size := by
  have hcleaned : ((cleanupDeadPids alive fs).unlinkPid h.pid).size = fs.size := rfl
  unfold Handle.close Handle.unlink
  dsimp only
  split_ifs
  · rfl
  · exact hcleaned
  · exact (Fs.size_rmdir _).trans hcleaned
  · exact (Fs.size_rmdir _).trans hcleaned

section Del

variable {a : Args} {r : Request} {pid : ℕ} {alive : ℕ → Bool} {k : Kernel}

theorem del_of_not_cleanup (h : a.tryCleanupOnExit = false) : del a r pid alive k = k := by
  rw [del, if_neg (by simp [h])]

theorem fds_del : (del a r pid alive k).fds = k.fds := by
  unfold del
  split_ifs <;> rfl

theorem size_del : (del a r pid alive k).fs.size = k.fs.size := by
  unfold del
  split_ifs
  · exact size_close _ _ _
  · rfl

theorem listPids_del (h : a.tryCleanupOnExit = true) :
    (del a r pid alive k).fs.listPids =
      (k.fs.listPids.filter fun q => alive q = true).erase pid := by
  rw [del, if_pos h]
  exact Handle.listPids_close rfl

/-- The finaliser unlinks the name unless another live process has a pid file. -/
theorem link_del (h : a.tryCleanupOnExit = true) :
    (del a r pid alive k).fs.link =
      if hasOtherAlivePids alive pid k.fs = true then k.fs.link else none := by
  rw [del, if_pos h]
  dsimp only
  split_ifs with hothers
  · rw [Handle.close_of_others rfl hothers]
    rfl
  · rw [Handle.close_of_last rfl rfl (Bool.eq_false_iff.2 hothers), Fs.link_rmdir]
    rfl

end Del

/-! ## No trace -/

/-- The arguments that the checks refuse. -/
def Args.Refused (a : Args) : Prop := a.size ≤ 0 ∨ a.name = "" ∨ a.name.contains '/' = true

theorem Args.check_cases (a : Args) :
    (a.Refused ∧ ∃ e, a.check = .error e) ∨
      ¬ a.Refused ∧ ∃ r, a.check = .ok r ∧ (r.size : ℤ) = a.size ∧ r.attachOnly = a.attachOnly ∧
        r.maxAttempts = a.maxAttempts := by
  unfold Args.check Request.check Args.Refused
  split_ifs with hsize hname hslash
  · exact .inl ⟨.inl hsize, _, rfl⟩
  · exact .inl ⟨.inr (.inl hname), _, rfl⟩
  · exact .inl ⟨.inr (.inr hslash), _, rfl⟩
  · exact .inr ⟨by tauto, _, rfl, Int.toNat_of_nonneg (by omega), rfl, rfl⟩

/-- What was there before the call is there afterwards: the linked segment with its size, the pid
files of the open handles, and the open descriptors. -/
structure NoTrace (w : World) (k k' : Kernel) : Prop where
  link : k'.fs.link = k.fs.link
  size : ∀ seg, k.fs.link = some seg → k'.fs.size seg = k.fs.size seg
  pids : ∀ h ∈ w.handles, h.isOpen = true → w.alive h.proc = true →
    (h.pid ∈ k'.fs.listPids ↔ h.pid ∈ k.fs.listPids)
  fds : k'.fds = k.fds

/-- The conditions under which a failed constructor leaves no trace. -/
structure Harmless (w : World) (a : Args) (pid : ℕ) (t : ℕ → Trouble) : Prop where
  /-- No `attach_only` attempt on the linked segment raises in `fstat`, or in `mmap` other than by a
  `ValueError`. -/
  closes : a.attachOnly = true → ∀ seg, w.fs.link = some seg →
    ¬ Until (Abandons ((w.fs.size seg : ℤ) < a.size)) Waits a.maxAttempts.toNat t
  /-- No `ftruncate` of a new segment raises, unless the finaliser unlinks it. -/
  truncates : a.attachOnly = false → w.fs.link = none →
    Until Strands Repeats a.maxAttempts.toNat t →
      a.tryCleanupOnExit = true ∧ hasOtherAlivePids w.alive pid w.fs = false
  /-- The finaliser does not unlink a segment that was linked before. -/
  unlinks : a.tryCleanupOnExit = true → hasOtherAlivePids w.alive pid w.fs = false →
    w.fs.link = none
  /-- Nor does it remove the pid file of an open handle. -/
  pids : a.tryCleanupOnExit = true → ∀ h ∈ w.handles, h.isOpen = true → w.alive h.proc = true →
    h.pid ∈ w.fs.listPids → h.pid ≠ pid ∧ w.alive h.pid = true

section NoTrace

variable {w : World} {a : Args} {r : Request} {pid : ℕ} {t : ℕ → Trouble} {fds : Finset ℕ}
  {k : Kernel}

theorem hasOtherAlivePids_congr {alive : ℕ → Bool} {fs fs' : Fs}
    (h : fs'.listPids = fs.listPids) :
    hasOtherAlivePids alive pid fs' = hasOtherAlivePids alive pid fs := by
  unfold hasOtherAlivePids
  rw [h]

theorem Failed.link_del_iff (hf : Failed r t ⟨w.fs, fds⟩ k) (hattach : r.attachOnly = a.attachOnly)
    (hmax : r.rounds = a.maxAttempts.toNat) :
    (del a r pid w.alive k).fs.link = w.fs.link ↔
      (a.attachOnly = false → w.fs.link = none → Until Strands Repeats a.maxAttempts.toNat t →
        a.tryCleanupOnExit = true ∧ hasOtherAlivePids w.alive pid w.fs = false) ∧
      (a.tryCleanupOnExit = true → hasOtherAlivePids w.alive pid w.fs = false →
        w.fs.link = none) := by
  have hlink := hf.link
  rw [hattach, hmax] at hlink
  have hothers : hasOtherAlivePids w.alive pid k.fs = hasOtherAlivePids w.alive pid w.fs :=
    hasOtherAlivePids_congr hf.listPids
  cases hclean : a.tryCleanupOnExit with
  | false =>
    rw [del_of_not_cleanup hclean]
    refine hlink.trans ⟨fun hno => ⟨fun h₁ h₂ h₃ => absurd ⟨h₁, h₂, h₃⟩ hno, fun h => ?_⟩, ?_⟩
    · cases h
    · rintro ⟨hno, -⟩ ⟨h₁, h₂, h₃⟩
      exact Bool.false_ne_true (hno h₁ h₂ h₃).1
  | true =>
    rw [link_del hclean, hothers]
    cases hother : hasOtherAlivePids w.alive pid w.fs with
    | true =>
      rw [if_pos rfl]
      refine hlink.trans ⟨fun hno => ⟨fun h₁ h₂ h₃ => absurd ⟨h₁, h₂, h₃⟩ hno, fun _ h => ?_⟩, ?_⟩
      · cases h
      · rintro ⟨hno, -⟩ ⟨h₁, h₂, h₃⟩
        exact Bool.false_ne_true (hno h₁ h₂ h₃).2.symm
    | false =>
      rw [if_neg Bool.false_ne_true]
      constructor
      · intro hnone
        exact ⟨fun _ _ _ => ⟨rfl, rfl⟩, fun _ _ => hnone.symm⟩
      · rintro ⟨-, hunlinks⟩
        exact (hunlinks rfl rfl).symm

theorem Failed.pids_del_iff (hf : Failed r t ⟨w.fs, fds⟩ k) {q : ℕ} :
    (q ∈ (del a r pid w.alive k).fs.listPids ↔ q ∈ w.fs.listPids) ↔
      (a.tryCleanupOnExit = true → q ∈ w.fs.listPids → q ≠ pid ∧ w.alive q = true) := by
  have hlist : k.fs.listPids = w.fs.listPids := hf.listPids
  cases hclean : a.tryCleanupOnExit with
  | false =>
    rw [del_of_not_cleanup hclean, hlist]
    simp
  | true =>
    rw [listPids_del hclean, hlist, Finset.mem_erase, Finset.mem_filter]
    constructor
    · intro hiff _ hq
      obtain ⟨hne, -, halive⟩ := hiff.2 hq
      exact ⟨hne, halive⟩
    · intro hkeep
      refine ⟨fun hq => hq.2.1, fun hq => ?_⟩
      obtain ⟨hne, halive⟩ := hkeep rfl hq
      exact ⟨hne, hq, halive⟩

theorem Failed.fds_del_iff (hf : Failed r t ⟨w.fs, fds⟩ k) (hsize : (r.size : ℤ) = a.size)
    (hattach : r.attachOnly = a.attachOnly) (hmax : r.rounds = a.maxAttempts.toNat) :
    (del a r pid w.alive k).fds = fds ↔
      (a.attachOnly = true → ∀ seg, w.fs.link = some seg →
        ¬ Until (Abandons ((w.fs.size seg : ℤ) < a.size)) Waits a.maxAttempts.toNat t) := by
  have hsmall (seg : ℕ) : ((w.fs.size seg : ℤ) < a.size) = (w.fs.size seg < r.size) := by
    rw [← hsize]
    exact propext Int.ofNat_lt
  rw [fds_del]
  refine hf.fds.trans ?_
  rw [hattach, hmax]
  simp only [hsmall, not_and, not_exists]

theorem noTrace_iff (hf : Failed r t ⟨w.fs, fds⟩ k) (hsize : (r.size : ℤ) = a.size)
    (hattach : r.attachOnly = a.attachOnly) (hmax : r.rounds = a.maxAttempts.toNat) :
    NoTrace w ⟨w.fs, fds⟩ (del a r pid w.alive k) ↔ Harmless w a pid t := by
  constructor
  · intro h
    obtain ⟨htruncates, hunlinks⟩ := (hf.link_del_iff hattach hmax).1 h.link
    refine ⟨(hf.fds_del_iff hsize hattach hmax).1 h.fds, htruncates, hunlinks,
      fun hclean o ho hopen halive => ?_⟩
    exact hf.pids_del_iff.1 (h.pids o ho hopen halive) hclean
  · intro h
    refine ⟨(hf.link_del_iff hattach hmax).2 ⟨h.truncates, h.unlinks⟩, fun seg hseg => ?_,
      fun o ho hopen halive => ?_, (hf.fds_del_iff hsize hattach hmax).2 h.closes⟩
    · exact (congrFun size_del seg).trans (hf.size seg hseg)
    · exact hf.pids_del_iff.2 fun hclean => h.pids hclean o ho hopen halive

/-- A constructor that fails, at whatever point, leaves no trace after the `__del__` of its object
if and only if its arguments were refused or it was harmless. -/
theorem failed_construct_iff (w : World) (fds : Finset ℕ) (a : Args) (pid : ℕ) (t : ℕ → Trouble)
    {e : Failure} {k' : Kernel}
    (h : construct a pid w.alive t ⟨w.fs, fds⟩ = (.error e, k')) :
    NoTrace w ⟨w.fs, fds⟩ k' ↔ a.Refused ∨ Harmless w a pid t := by
  unfold construct at h
  rcases a.check_cases with ⟨hrefused, e', hcheck⟩ | ⟨haccepted, r, hcheck, hsize, hattach, hmax⟩
  · rw [hcheck] at h
    obtain rfl := (Prod.mk.inj h).2
    exact ⟨fun _ => .inl hrefused, fun _ => ⟨rfl, fun _ _ => rfl, fun _ _ _ _ => .rfl, rfl⟩⟩
  · rw [hcheck] at h
    dsimp only at h
    rcases hinit : tryInit r pid t ⟨w.fs, fds⟩ with ⟨m | m, k⟩
    · rw [hinit] at h
      obtain rfl := (Prod.mk.inj h).2
      rw [noTrace_iff (failed_of_tryInit hinit) hsize hattach (congrArg Int.toNat hmax)]
      exact ⟨.inr, fun hor => hor.resolve_left haccepted⟩
    · rw [hinit] at h
      cases (Prod.mk.inj h).1

end NoTrace

/-- Process 1 has an open handle on a segment of 10 bytes. -/
def owned : World := (⟨⟨none, fun _ => 0, 0, none⟩, ∅, []⟩ : World).construct 1 (request 9)

/-- A request for 100 bytes with the default arguments. -/
def larger : Args := ⟨"x", 100, false, 128, true⟩

theorem check_larger : larger.check = .ok (request 99) := by
  simp [Args.check, Request.check, larger, request]

/-- The call of another process fails and leaves no trace. -/
theorem failed_construct_iff_owned :
    NoTrace owned ⟨owned.fs, {0, 1, 2}⟩
      (construct larger 2 owned.alive (fun _ => .quiet) ⟨owned.fs, {0, 1, 2}⟩).2 := by
  have hfails : (construct larger 2 owned.alive (fun _ => .quiet) ⟨owned.fs, {0, 1, 2}⟩).1 =
      .error (.error (.attemptsExhausted 128)) := by
    rw [construct, check_larger]
    decide +kernel
  refine (failed_construct_iff owned {0, 1, 2} larger 2 _ (Prod.ext hfails rfl)).2 (.inr ?_)
  constructor
  · exact fun h => absurd h (by decide)
  · exact fun _ h => absurd h (by decide)
  · exact fun _ h => absurd h (by decide +kernel)
  · exact fun _ => by decide +kernel

/-- A second call of process 1 fails because the segment is too small, and its finaliser removes the
pid file of the open handle and unlinks the segment. -/
theorem failed_construct_unlinks :
    (¬ ∀ (w : World) fds a pid t e k', construct a pid w.alive t ⟨w.fs, fds⟩ = (.error e, k') →
      NoTrace w ⟨w.fs, fds⟩ k') ∧
    (construct larger 1 owned.alive (fun _ => .quiet) ⟨owned.fs, ∅⟩).1 =
      .error (.error (.attemptsExhausted 128)) ∧
    (construct larger 1 owned.alive (fun _ => .quiet) ⟨owned.fs, ∅⟩).2.fs.link = none := by
  have hfails : (construct larger 1 owned.alive (fun _ => .quiet) ⟨owned.fs, ∅⟩).1 =
      .error (.error (.attemptsExhausted 128)) := by
    rw [construct, check_larger]
    decide +kernel
  have hlink : (construct larger 1 owned.alive (fun _ => .quiet) ⟨owned.fs, ∅⟩).2.fs.link =
      none := by
    rw [construct, check_larger]
    decide +kernel
  refine ⟨fun h => ?_, hfails, hlink⟩
  have htrace := (h owned ∅ larger 1 (fun _ => .quiet) _ _ (Prod.ext hfails rfl)).link
  rw [hlink] at htrace
  cases htrace

end GuardedSharedMemory
