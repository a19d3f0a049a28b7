import PyFastIpc.Shm.Steps
import PyFastIpc.Shm.Handles

/-!
# Calls that do not overlap

When only one process makes system calls, its constructor does what `init` says and its `close`
what `Handle.close` says, in whatever order the cleanup meets the files of the dead.  So the events
of a `World` are runs of the machine without interleaving.

`rest` is what the calls still ahead come to; every call of the process preserves it.
-/

namespace GuardedSharedMemory

/-! ## What is still ahead -/

/-- The loop after an attempt that has left `k` others. -/
def resume (r : Request) (k : ℕ) : Attempt × Fs → Except Error Mapping × Fs
  | (.mapped h, fs) => (.ok h, fs)
  | (.raised e, fs) => (.error e, fs)
  | (.retry, fs) => attempts r k fs

/-- The constructor after its loop. -/
def register (pid : ℕ) : Except Error Mapping × Fs → Except Error Mapping × Fs
  | (.ok h, fs) =>
    match fs.writePid pid with
    | some fs' => (.ok h, fs')
    | none => (.error .pidDirMissing, fs)
  | (.error e, fs) => (.error e, fs)

/-- Where a constructor leaves the files and the process. -/
def outcome : Except Error Mapping × Fs → Fs × Pc
  | (.ok h, fs) => (fs, .opened h)
  | (.error e, fs) => (fs, .raised e)

/-- `os.unlink` of the files of all these pids. -/
def Fs.unlinkPids (fs : Fs) (todo : Finset ℕ) : Fs :=
  { fs with dir := fs.dir.map fun d => { d with pids := d.pids \ todo } }

/-- `close` from the listing of the other pids on. -/
def leave (alive : ℕ → Bool) (pid : ℕ) (fs : Fs) : Fs :=
  if hasOtherAlivePids alive pid fs then fs else fs.shmUnlink.rmdir

/-- What the calls of a process come to when nobody else makes any. -/
def rest (alive : ℕ → Bool) (pid : ℕ) (fs : Fs) (p : Proc) : Fs × Pc :=
  let r := p.req
  match p.pc with
  | .makedirs => outcome (init r pid fs)
  | .openShm k => outcome (register pid (attempts r (k + 1) fs))
  | .createShm k =>
    outcome <| register pid <|
      match fs.link with
      | some _ => attempts r k fs
      | none => resume r k (mapSegment r (fs.create.ftruncate fs.count r.size) fs.count true)
  | .ftruncate k seg =>
    outcome (register pid (resume r k (mapSegment r (fs.ftruncate seg r.size) seg true)))
  | .fstat k seg created => outcome (register pid (resume r k (mapSegment r fs seg created)))
  | .mmap k h =>
    outcome <| register pid <|
      if fs.size h.seg < h.size then attempts r k (if h.created then fs.shmUnlink else fs)
      else (.ok h, fs)
  | .undo k => outcome (register pid (attempts r k fs.shmUnlink))
  | .writePid h => outcome (register pid (.ok h, fs))
  | .cleanup => (leave alive pid ((cleanupDeadPids alive fs).unlinkPid pid), .idle)
  | .cleanupUnlink todo => (leave alive pid ((fs.unlinkPids todo).unlinkPid pid), .idle)
  | .removePid => (leave alive pid (fs.unlinkPid pid), .idle)
  | .scan => (leave alive pid fs, .idle)
  | .unlink => (fs.shmUnlink.rmdir, .idle)
  | .rmdir => (fs.rmdir, .idle)
  | .idle => (fs, .idle)
  | .opened h => (fs, .opened h)
  | .raised e => (fs, .raised e)

section Rest

variable {alive : ℕ → Bool} {pid : ℕ} {fs fs' : Fs} {p p' : Proc} (r : Request)

theorem init_eq_register :
    init r pid fs = register pid (attempts r r.rounds fs.makedirs) := by
  unfold init register
  rcases attempts r r.rounds fs.makedirs with ⟨_ | _, _⟩ <;> rfl

theorem attempts_succ (k : ℕ) (fs : Fs) : attempts r (k + 1) fs = resume r k (attempt r fs) := by
  rw [attempts]
  rcases attempt r fs with ⟨_ | _ | _, _⟩ <;> rfl

theorem resume_mapSegment (k seg : ℕ) (created : Bool) (fs : Fs) :
    resume r k (mapSegment r fs seg created) =
      if fs.size seg < r.size then attempts r k (if created then fs.shmUnlink else fs)
      else (.ok ⟨seg, fs.size seg, created⟩, fs) := by
  unfold mapSegment
  split_ifs <;> rfl

theorem Fs.unlinkPids_empty (fs : Fs) : fs.unlinkPids ∅ = fs := by
  cases hdir : fs.dir <;> cases fs <;> simp_all [Fs.unlinkPids]

/-- The files of a set of pids can be removed one by one. -/
theorem Fs.unlinkPids_erase (fs : Fs) {todo : Finset ℕ} {q : ℕ} (hq : q ∈ todo) :
    (fs.unlinkPid q).unlinkPids (todo.erase q) = fs.unlinkPids todo := by
  unfold Fs.unlinkPid Fs.unlinkPids
  cases fs.dir with
  | none => rfl
  | some d =>
    have hpids : d.pids.erase q \ todo.erase q = d.pids \ todo := by
      ext x
      simp only [Finset.mem_sdiff, Finset.mem_erase]
      by_cases hx : x = q
      · simp [hx, hq]
      · simp [hx]
    simp [hpids]

/-- The cleanup removes the files of the dead. -/
theorem cleanupDeadPids_eq (alive : ℕ → Bool) (fs : Fs) :
    cleanupDeadPids alive fs = fs.unlinkPids (fs.listPids.filter fun q => alive q = false) := by
  unfold cleanupDeadPids Fs.unlinkPids Fs.listPids
  cases fs.dir with
  | none => rfl
  | some d =>
    have hpids : d.pids.filter (fun q => alive q = true) =
        d.pids \ d.pids.filter fun q => alive q = false := by
      ext x
      simp only [Finset.mem_sdiff, Finset.mem_filter]
      cases alive x <;> simp
    simp [hpids]

theorem close_eq_leave {g : Handle} (hc : g.closed = false) (hu : g.unlinked = false) :
    (g.close alive fs).2 = leave alive g.pid ((cleanupDeadPids alive fs).unlinkPid g.pid) := by
  rw [leave, hasOtherAlivePids_cleaned]
  cases hothers : hasOtherAlivePids alive g.pid fs with
  | true =>
    rw [Handle.close_of_others hc hothers]
    rfl
  | false =>
    rw [Handle.close_of_last hc hu hothers]
    rfl

/-! ## One call -/

theorem rest_attempt (alive : ℕ → Bool) (pid : ℕ) (fs : Fs) (p : Proc) (k : ℕ) :
    rest alive pid fs (p.goto (p.req.attempt k)) =
      outcome (register pid (attempts p.req k fs)) := by
  cases k <;> rfl

theorem rest_fail (alive : ℕ → Bool) (pid : ℕ) (fs : Fs) (p : Proc) (k : ℕ) (created : Bool) :
    rest alive pid fs (p.goto (p.req.fail k created)) =
      outcome (register pid (attempts p.req k (if created then fs.shmUnlink else fs))) := by
  cases created with
  | true => rfl
  | false => exact rest_attempt alive pid fs p k

theorem rest_cleanupFrom (alive : ℕ → Bool) (pid : ℕ) (fs : Fs) (p : Proc) (todo : Finset ℕ) :
    rest alive pid fs (p.goto (cleanupFrom todo)) =
      (leave alive pid ((fs.unlinkPids todo).unlinkPid pid), .idle) := by
  unfold cleanupFrom
  split_ifs with h
  · rw [h, Fs.unlinkPids_empty]
    rfl
  · rfl

theorem rest_of_next (hs : next alive pid fs p = some (fs', p')) :
    rest alive pid fs' p' = rest alive pid fs p := by
  unfold next at hs
  cases hpc : p.pc with
  | makedirs =>
    obtain ⟨rfl, rfl⟩ := by simpa [hpc] using hs
    rw [rest_attempt]
    simp only [rest, hpc, init_eq_register]
  | openShm k =>
    simp only [hpc] at hs
    simp only [rest.eq_def alive pid fs p, hpc, attempts_succ]
    cases hlink : fs.link with
    | some seg =>
      obtain ⟨rfl, rfl⟩ := by simpa [hlink] using hs
      simp [attempt, hlink, rest, Proc.goto]
    | none =>
      obtain ⟨rfl, rfl⟩ := by simpa [hlink] using hs
      split_ifs with hattach
      · simp [attempt, hlink, hattach, rest, Proc.goto, resume, register, outcome]
      · simp [attempt, hlink, hattach, rest, Proc.goto]
  | createShm k =>
    simp only [hpc] at hs
    cases hlink : fs.link with
    | some seg =>
      obtain ⟨rfl, rfl⟩ := by simpa [hlink] using hs
      rw [rest_attempt]
      simp [rest, hpc, hlink]
    | none =>
      obtain ⟨rfl, rfl⟩ := by simpa [hlink] using hs
      simp [rest, hpc, hlink, Proc.goto]
  | ftruncate k seg =>
    obtain ⟨rfl, rfl⟩ := by simpa [hpc] using hs
    simp [rest, hpc, Proc.goto]
  | fstat k seg created =>
    simp only [hpc] at hs
    simp only [rest.eq_def alive pid fs p, hpc, resume_mapSegment]
    by_cases hsize : fs.size seg < p.req.size
    · obtain ⟨rfl, rfl⟩ := by simpa [hsize] using hs
      rw [if_pos hsize]
      exact rest_fail alive pid fs p k created
    · obtain ⟨rfl, rfl⟩ := by simpa [hsize] using hs
      simp [hsize, rest, Proc.goto]
  | mmap k h =>
    simp only [hpc] at hs
    simp only [rest.eq_def alive pid fs p, hpc]
    by_cases hsize : fs.size h.seg < h.size
    · obtain ⟨rfl, rfl⟩ := by simpa [hsize] using hs
      rw [if_pos hsize]
      exact rest_fail alive pid fs p k h.created
    · obtain ⟨rfl, rfl⟩ := by simpa [hsize] using hs
      rw [if_neg hsize]
      rfl
  | undo k =>
    obtain ⟨rfl, rfl⟩ := by simpa [hpc] using hs
    rw [rest_attempt]
    simp only [rest, hpc]
  | writePid h =>
    simp only [hpc] at hs
    cases hd : fs.writePid pid <;> obtain ⟨rfl, rfl⟩ := by simpa [hd] using hs
    all_goals simp [rest, hpc, Proc.goto, register, hd, outcome]
  | cleanup =>
    obtain ⟨rfl, rfl⟩ := by simpa [hpc] using hs
    rw [rest_cleanupFrom, ← cleanupDeadPids_eq]
    simp only [rest, hpc]
  | removePid =>
    obtain ⟨rfl, rfl⟩ := by simpa [hpc] using hs
    simp [rest, hpc, Proc.goto]
  | scan =>
    simp only [hpc, Option.some.injEq, Prod.mk.injEq, ← hasOtherAlivePids_iff] at hs
    obtain ⟨rfl, rfl⟩ := hs
    simp only [rest.eq_def alive pid fs p, hpc, leave]
    split_ifs <;> rfl
  | unlink =>
    obtain ⟨rfl, rfl⟩ := by simpa [hpc] using hs
    simp [rest, hpc, Proc.goto]
  | rmdir =>
    obtain ⟨rfl, rfl⟩ := by simpa [hpc] using hs
    simp [rest, hpc, Proc.goto]
  | idle | opened h | raised e | cleanupUnlink todo => simp [hpc] at hs

/-- Inside the constructor or `close`. -/
def Pc.inCall (q : Pc) : Bool := q.constructing || q.closing

theorem rest_of_step {m : Move} (hp : p.pc.inCall = true)
    (hs : step alive pid m fs p = some (fs', p')) :
    rest alive pid fs' p' = rest alive pid fs p := by
  unfold step at hs
  split at hs
  next r hpc => simp [hpc, Pc.inCall, Pc.constructing, Pc.unregistered, Pc.closing] at hp
  next h hpc => simp [hpc, Pc.inCall, Pc.constructing, Pc.unregistered, Pc.closing] at hp
  next e hpc => simp [hpc, Pc.inCall, Pc.constructing, Pc.unregistered, Pc.closing] at hp
  next => exact rest_of_next hs
  next q todo hpc =>
    split_ifs at hs with hq
    obtain ⟨rfl, rfl⟩ := by simpa using hs
    rw [rest_cleanupFrom, Fs.unlinkPids_erase fs hq]
    simp only [rest, hpc]
  next => cases hs

/-- Nothing is ahead outside the calls. -/
theorem rest_of_outside (hp : p.pc.inCall = false) : rest alive pid fs p = (fs, p.pc) := by
  cases hpc : p.pc with
  | idle | opened h | raised e => simp only [rest, hpc]
  | _ => simp [hpc, Pc.inCall, Pc.constructing, Pc.unregistered, Pc.closing] at hp

end Rest

/-! ## Calls come to an end -/

/-- A bound on the calls of `close` that are still ahead. -/
def Pc.closeLeft (fs : Fs) : Pc → ℕ
  | .cleanup => fs.listPids.card + 5
  | .cleanupUnlink todo => todo.card + 4
  | .removePid => 4
  | .scan => 3
  | .unlink => 2
  | .rmdir => 1
  | _ => 0

/-- A bound on the calls still ahead. -/
def Proc.left (fs : Fs) (p : Proc) : ℕ := p.callsLeft + p.pc.closeLeft fs

theorem closeLeft_cleanupFrom (fs : Fs) (todo : Finset ℕ) :
    (cleanupFrom todo).closeLeft fs ≤ todo.card + 4 := by
  unfold cleanupFrom
  split_ifs
  · exact Nat.le_add_left 4 _
  · exact le_rfl

theorem callsLeft_cleanupFrom (todo : Finset ℕ) (n : ℕ) : (cleanupFrom todo).callsLeft n = 0 := by
  unfold cleanupFrom
  split_ifs <;> rfl

theorem cleanupFrom_ne (todo : Finset ℕ) : cleanupFrom todo ≠ .cleanupUnlink ∅ := by
  unfold cleanupFrom
  split_ifs with h
  · exact fun hq => by cases hq
  · exact fun hq => h (Pc.cleanupUnlink.inj hq)

/-- Some call of `close` is possible and brings it nearer to its end. -/
theorem step_closing (alive : ℕ → Bool) (pid : ℕ) (fs : Fs) {p : Proc}
    (hp : p.pc.closing = true) (hne : p.pc ≠ .cleanupUnlink ∅) :
    ∃ m fs' q, step alive pid m fs p = some (fs', p.goto q) ∧ q ≠ .cleanupUnlink ∅ ∧
      q.callsLeft p.req.rounds = 0 ∧ q.closeLeft fs' < p.pc.closeLeft fs := by
  cases hpc : p.pc with
  | cleanup =>
    let dead := fs.listPids.filter fun q => alive q = false
    refine ⟨.next, fs, cleanupFrom dead, by simp only [step, next, hpc, dead], cleanupFrom_ne dead,
      callsLeft_cleanupFrom dead _, ?_⟩
    have hcard : dead.card ≤ fs.listPids.card := Finset.card_filter_le _ _
    have hleft := closeLeft_cleanupFrom fs dead
    show (cleanupFrom dead).closeLeft fs < fs.listPids.card + 5
    omega
  | cleanupUnlink todo =>
    obtain ⟨q, hq⟩ : todo.Nonempty := by
      rw [Finset.nonempty_iff_ne_empty]
      rintro rfl
      exact hne hpc
    refine ⟨.cleanup q, fs.unlinkPid q, cleanupFrom (todo.erase q), by simp [step, hpc, hq],
      cleanupFrom_ne _, callsLeft_cleanupFrom _ _, ?_⟩
    have hcard := Finset.card_erase_lt_of_mem hq
    have hleft := closeLeft_cleanupFrom (fs.unlinkPid q) (todo.erase q)
    show (cleanupFrom (todo.erase q)).closeLeft (fs.unlinkPid q) < todo.card + 4
    omega
  | removePid =>
    exact ⟨.next, fs.unlinkPid pid, .scan, by simp only [step, next, hpc], by simp, rfl,
      by simp [Pc.closeLeft]⟩
  | scan =>
    refine ⟨.next, fs, if ∃ q ∈ fs.listPids, q ≠ pid ∧ alive q = true then .idle else .unlink,
      by simp only [step, next, hpc], ?_, ?_, ?_⟩ <;> split_ifs <;>
      simp [Pc.callsLeft, Pc.closeLeft]
  | unlink =>
    exact ⟨.next, fs.shmUnlink, .rmdir, by simp only [step, next, hpc], by simp, rfl,
      by simp [Pc.closeLeft]⟩
  | rmdir =>
    exact ⟨.next, fs.rmdir, .idle, by simp only [step, next, hpc], by simp, rfl,
      by simp [Pc.closeLeft]⟩
  | _ => simp [hpc, Pc.closing] at hp

theorem Pc.constructs.closing {q : Pc} (hq : q.constructs) : q.closing = false := by
  rcases hq with hq | ⟨h, rfl⟩ | ⟨e, rfl⟩
  · cases q <;> simp [Pc.constructing, Pc.unregistered, Pc.closing] at hq ⊢
  · rfl
  · rfl

theorem closeLeft_of_not_closing {q : Pc} (hq : q.closing = false) (fs : Fs) :
    q.closeLeft fs = 0 := by
  cases q <;> simp [Pc.closing, Pc.closeLeft] at hq ⊢

/-- Inside a call, some call is possible and brings the process nearer to its end. -/
theorem step_inCall (alive : ℕ → Bool) (pid : ℕ) (fs : Fs) {p : Proc}
    (hp : p.pc.inCall = true) (hne : p.pc ≠ .cleanupUnlink ∅) :
    ∃ m fs' p', step alive pid m fs p = some (fs', p') ∧ p'.pc ≠ .cleanupUnlink ∅ ∧
      p'.left fs' < p.left fs := by
  rcases Bool.or_eq_true_iff.1 hp with hcon | hclose
  · obtain ⟨fs', q, hs, hless⟩ := next_constructing alive pid fs hcon
    have hq : q.closing = false := (constructs_of_effect (effect_of_step hs) hcon).closing
    have hzero := closeLeft_of_not_closing hq fs'
    refine ⟨.next, fs', p.goto q, hs, ?_, ?_⟩
    · rintro rfl
      cases hq
    · show q.callsLeft p.req.rounds + q.closeLeft fs' <
        p.pc.callsLeft p.req.rounds + p.pc.closeLeft fs
      omega
  · obtain ⟨m, fs', q, hs, hq, hcalls, hless⟩ := step_closing alive pid fs hclose hne
    refine ⟨m, fs', p.goto q, hs, hq, ?_⟩
    show q.callsLeft p.req.rounds + q.closeLeft fs' <
      p.pc.callsLeft p.req.rounds + p.pc.closeLeft fs
    omega

/-! ## Runs of one process -/

section Run

variable {ι : Type*} [DecidableEq ι] {alive : ℕ → Bool} {pid : ι → ℕ} {c c' : State ι} {i : ι}

/-- Process `i` goes on with its call. -/
def Only (i : ι) (c : State ι) (a : ι × Move) : Prop := a.1 = i ∧ (c.locals i).pc.inCall = true

theorem rest_of_reach (h : (system alive pid (· = c)).Reach (Only i) c') :
    rest alive (pid i) c'.shared (c'.locals i) = rest alive (pid i) c.shared (c.locals i) := by
  refine h.invariant (fun d => rest alive (pid i) d.shared (d.locals i) =
    rest alive (pid i) c.shared (c.locals i)) (fun d hd => by rw [hd]) ?_
  rintro d ⟨j, m⟩ d' - hd ⟨rfl, hin⟩ hs
  obtain ⟨fs, p, hstep, rfl⟩ := system_step_eq_some hs
  rw [← hd]
  simpa using rest_of_step hin hstep

/-- A constructor that runs alone to its end does what `init` says. -/
theorem init_of_alone (hpc : (c.locals i).pc = .makedirs)
    (h : (system alive pid (· = c)).Reach (Only i) c') (hend : (c'.locals i).pc.inCall = false) :
    (c'.shared, (c'.locals i).pc) = outcome (init (c.locals i).req (pid i) c.shared) := by
  have hout : rest alive (pid i) c'.shared (c'.locals i) = (c'.shared, (c'.locals i).pc) :=
    rest_of_outside hend
  rw [← hout, rest_of_reach h]
  simp only [rest, hpc]

/-- A `close` that runs alone to its end does what `Handle.close` says of a handle that was not
closed before. -/
theorem close_of_alone (hpc : (c.locals i).pc = .cleanup)
    (h : (system alive pid (· = c)).Reach (Only i) c') (hend : (c'.locals i).pc.inCall = false)
    {g : Handle} (hpid : g.pid = pid i) (hc : g.closed = false) (hu : g.unlinked = false) :
    (c'.shared, (c'.locals i).pc) = ((g.close alive c.shared).2, .idle) := by
  have hout : rest alive (pid i) c'.shared (c'.locals i) = (c'.shared, (c'.locals i).pc) :=
    rest_of_outside hend
  rw [← hout, rest_of_reach h, close_eq_leave hc hu, hpid]
  simp only [rest, hpc]

/-- A process that runs alone comes to the end of its call. -/
theorem exists_end (hne : (c.locals i).pc ≠ .cleanupUnlink ∅) :
    ∃ c', (system alive pid (· = c)).Reach (Only i) c' ∧ (c'.locals i).pc.inCall = false := by
  have hstart : (system alive pid (· = c)).Reach (Only i) c := .init rfl
  refine hstart.progress (fun d => (d.locals i).pc ≠ .cleanupUnlink ∅)
    (fun d => (d.locals i).pc.inCall = false) (fun d => (d.locals i).left d.shared) ?_ hne
  intro d hd hin
  rw [Bool.not_eq_false] at hin
  obtain ⟨m, fs, p, hs, hp, hless⟩ := step_inCall alive (pid i) d.shared hin hd
  refine ⟨(i, m), ⟨fs, Function.update d.locals i p⟩, ⟨rfl, hin⟩,
    Config.interleave_of_step (fun i => step alive (pid i)) hs, ?_, ?_⟩
  · simpa using hp
  · simpa using hless

end Run

end GuardedSharedMemory
