import PyFastIpc.Shm.Machine

/-!
# What one system call of a process can do

`Effect` lists the effects of a step; invariants are proved by cases on it.  `next_constructing`
says that a constructor is never stuck and comes nearer to its end with each call.
-/

namespace GuardedSharedMemory

/-- The constructor starts over, or gives up. -/
def Pc.retries (r : Request) (q : Pc) : Prop :=
  (∃ k, q = .openShm k ∨ q = .createShm k) ∨ q = .raised (.attemptsExhausted r.maxAttempts) ∨
    r.attachOnly = true ∧ q = .raised .noShmFound

theorem retries_attempt (r : Request) (k : ℕ) : (r.attempt k).retries r := by
  cases k with
  | zero => exact .inr (.inl rfl)
  | succ k => exact .inl ⟨k, .inl rfl⟩

/-- The effects of one step of a process. -/
inductive Effect (alive : ℕ → Bool) (pid : ℕ) (m : Move) (fs : Fs) (p : Proc) : Fs → Proc → Prop
  | construct (r : Request) (hm : m = .construct r) (hpc : p.pc = .idle) :
      Effect alive pid m fs p fs ⟨.makedirs, r⟩
  | close (hm : m = .close) (hpc : (∃ h, p.pc = .opened h) ∨ ∃ e, p.pc = .raised e) :
      Effect alive pid m fs p fs (p.goto .cleanup)
  | makedirs (q : Pc) (hpc : p.pc = .makedirs) (hq : q.retries p.req) :
      Effect alive pid m fs p fs.makedirs (p.goto q)
  | retry (q : Pc) (hpc : p.pc.unregistered = true) (hown : p.pc.hasCreated = false)
      (hq : q.retries p.req) : Effect alive pid m fs p fs (p.goto q)
  | attach (k seg : ℕ) (hpc : p.pc = .openShm k) (hlink : fs.link = some seg) :
      Effect alive pid m fs p fs (p.goto (.fstat k seg false))
  | create (k : ℕ) (hpc : p.pc = .createShm k) (hlink : fs.link = none) :
      Effect alive pid m fs p fs.create (p.goto (.ftruncate k fs.count))
  | ftruncate (k seg : ℕ) (hpc : p.pc = .ftruncate k seg) :
      Effect alive pid m fs p (fs.ftruncate seg p.req.size) (p.goto (.fstat k seg true))
  | fstat (k seg : ℕ) (created : Bool) (hpc : p.pc = .fstat k seg created)
      (hsize : p.req.size ≤ fs.size seg) :
      Effect alive pid m fs p fs (p.goto (.mmap k ⟨seg, fs.size seg, created⟩))
  | mmap (k : ℕ) (h : Mapping) (hpc : p.pc = .mmap k h) :
      Effect alive pid m fs p fs (p.goto (.writePid h))
  | spoil (k : ℕ) (hpc : (∃ seg, p.pc = .fstat k seg true ∧ fs.size seg < p.req.size) ∨
      ∃ h, p.pc = .mmap k h ∧ h.created = true ∧ fs.size h.seg < h.size) :
      Effect alive pid m fs p fs (p.goto (.undo k))
  | undo (k : ℕ) (hpc : p.pc = .undo k) :
      Effect alive pid m fs p fs.shmUnlink (p.goto (p.req.attempt k))
  | writePid (h : Mapping) (fs' : Fs) (hpc : p.pc = .writePid h) (hd : fs.writePid pid = some fs') :
      Effect alive pid m fs p fs' (p.goto (.opened h))
  | missing (h : Mapping) (hpc : p.pc = .writePid h) (hd : fs.dir = none) :
      Effect alive pid m fs p fs (p.goto (.raised .pidDirMissing))
  | list (hpc : p.pc = .cleanup) :
      Effect alive pid m fs p fs
        (p.goto (cleanupFrom (fs.listPids.filter fun q => alive q = false)))
  | sweep (q : ℕ) (todo : Finset ℕ) (hpc : p.pc = .cleanupUnlink todo) (hq : q ∈ todo) :
      Effect alive pid m fs p (fs.unlinkPid q) (p.goto (cleanupFrom (todo.erase q)))
  | removePid (hpc : p.pc = .removePid) :
      Effect alive pid m fs p (fs.unlinkPid pid) (p.goto .scan)
  | scan (q : Pc) (hpc : p.pc = .scan)
      (hq : q = if ∃ q ∈ fs.listPids, q ≠ pid ∧ alive q = true then .idle else .unlink) :
      Effect alive pid m fs p fs (p.goto q)
  | unlink (hm : m = .next) (hpc : p.pc = .unlink) :
      Effect alive pid m fs p fs.shmUnlink (p.goto .rmdir)
  | rmdir (hm : m = .next) (hpc : p.pc = .rmdir) : Effect alive pid m fs p fs.rmdir (p.goto .idle)

section Inversion

variable {alive : ℕ → Bool} {pid : ℕ} {m : Move} {fs fs' : Fs} {p p' : Proc}

theorem effect_of_next (hs : next alive pid fs p = some (fs', p')) :
    Effect alive pid .next fs p fs' p' := by
  unfold next at hs
  cases hpc : p.pc with
  | makedirs =>
    obtain ⟨rfl, rfl⟩ := by simpa [hpc] using hs
    exact .makedirs _ hpc (retries_attempt _ _)
  | openShm k =>
    simp only [hpc] at hs
    cases hlink : fs.link with
    | some seg =>
      obtain ⟨rfl, rfl⟩ := by simpa [hlink] using hs
      exact .attach k seg hpc hlink
    | none =>
      obtain ⟨rfl, rfl⟩ := by simpa [hlink] using hs
      refine .retry _ (by rw [hpc]; rfl) (by rw [hpc]; rfl) ?_
      split_ifs with ha
      · exact .inr (.inr ⟨ha, rfl⟩)
      · exact .inl ⟨k, .inr rfl⟩
  | createShm k =>
    simp only [hpc] at hs
    cases hlink : fs.link with
    | some seg =>
      obtain ⟨rfl, rfl⟩ := by simpa [hlink] using hs
      exact .retry _ (by rw [hpc]; rfl) (by rw [hpc]; rfl) (retries_attempt _ _)
    | none =>
      obtain ⟨rfl, rfl⟩ := by simpa [hlink] using hs
      exact .create k hpc hlink
  | ftruncate k seg =>
    obtain ⟨rfl, rfl⟩ := by simpa [hpc] using hs
    exact .ftruncate k seg hpc
  | fstat k seg created =>
    simp only [hpc] at hs
    split_ifs at hs with hsize <;> obtain ⟨rfl, rfl⟩ := by simpa using hs
    · cases created with
      | true => exact .spoil k (.inl ⟨seg, hpc, hsize⟩)
      | false => exact .retry _ (by rw [hpc]; rfl) (by rw [hpc]; rfl) (retries_attempt _ _)
    · exact .fstat k seg created hpc (Nat.le_of_not_lt hsize)
  | mmap k h =>
    simp only [hpc] at hs
    split_ifs at hs with hsize <;> obtain ⟨rfl, rfl⟩ := by simpa using hs
    · cases hc : h.created with
      | true => exact .spoil k (.inr ⟨h, hpc, hc, hsize⟩)
      | false => exact .retry _ (by rw [hpc]; rfl) (by rw [hpc]; exact hc) (retries_attempt _ _)
    · exact .mmap k h hpc
  | undo k =>
    obtain ⟨rfl, rfl⟩ := by simpa [hpc] using hs
    exact .undo k hpc
  | writePid h =>
    simp only [hpc] at hs
    cases hd : fs.writePid pid with
    | some fs₁ =>
      obtain ⟨rfl, rfl⟩ := by simpa [hd] using hs
      exact .writePid h _ hpc hd
    | none =>
      obtain ⟨rfl, rfl⟩ := by simpa [hd] using hs
      exact .missing h hpc (by simpa [Fs.writePid] using hd)
  | cleanup =>
    obtain ⟨rfl, rfl⟩ := by simpa [hpc] using hs
    exact .list hpc
  | removePid =>
    obtain ⟨rfl, rfl⟩ := by simpa [hpc] using hs
    exact .removePid hpc
  | scan =>
    simp only [hpc, Option.some.injEq, Prod.mk.injEq] at hs
    obtain ⟨rfl, rfl⟩ := hs
    exact .scan _ hpc rfl
  | unlink =>
    obtain ⟨rfl, rfl⟩ := by simpa [hpc] using hs
    exact .unlink rfl hpc
  | rmdir =>
    obtain ⟨rfl, rfl⟩ := by simpa [hpc] using hs
    exact .rmdir rfl hpc
  | idle | opened h | raised e | cleanupUnlink todo => simp [hpc] at hs

theorem effect_of_step (hs : step alive pid m fs p = some (fs', p')) :
    Effect alive pid m fs p fs' p' := by
  unfold step at hs
  split at hs
  next r hpc =>
    obtain ⟨rfl, rfl⟩ := by simpa using hs
    exact .construct r rfl hpc
  next h hpc =>
    obtain ⟨rfl, rfl⟩ := by simpa using hs
    exact .close rfl (.inl ⟨h, hpc⟩)
  next e hpc =>
    obtain ⟨rfl, rfl⟩ := by simpa using hs
    exact .close rfl (.inr ⟨e, hpc⟩)
  next => exact effect_of_next hs
  next q todo hpc =>
    split_ifs at hs with hq
    obtain ⟨rfl, rfl⟩ := by simpa using hs
    exact .sweep q todo hpc hq
  next => simp at hs

end Inversion

/-! ## Progress of a constructor -/

/-- Inside the constructor. -/
def Pc.constructing : Pc → Bool
  | .makedirs => true
  | p => p.unregistered

/-- A bound on the calls that a constructor still makes. -/
def Pc.callsLeft (maxAttempts : ℕ) : Pc → ℕ
  | .makedirs => 7 * maxAttempts + 2
  | .openShm k => 7 * k + 8
  | .createShm k => 7 * k + 7
  | .ftruncate k _ => 7 * k + 6
  | .fstat k _ _ => 7 * k + 5
  | .mmap k _ => 7 * k + 4
  | .undo k => 7 * k + 3
  | .writePid _ => 1
  | _ => 0

def Proc.callsLeft (p : Proc) : ℕ := p.pc.callsLeft p.req.rounds

theorem callsLeft_attempt (r : Request) (k : ℕ) :
    (r.attempt k).callsLeft r.rounds ≤ 7 * k + 1 := by
  cases k with
  | zero => simp [Request.attempt, Pc.callsLeft]
  | succ k =>
    simp only [Request.attempt, Pc.callsLeft]
    omega

theorem callsLeft_fail (r : Request) (k : ℕ) (created : Bool) :
    (r.fail k created).callsLeft r.rounds ≤ 7 * k + 3 := by
  have hattempt := callsLeft_attempt r k
  unfold Request.fail
  split_ifs
  · rfl
  · omega

/-- Every call of a constructor brings it nearer to its end. -/
theorem next_constructing (alive : ℕ → Bool) (pid : ℕ) (fs : Fs) {p : Proc}
    (hp : p.pc.constructing = true) :
    ∃ fs' q, step alive pid .next fs p = some (fs', p.goto q) ∧
      q.callsLeft p.req.rounds < p.pc.callsLeft p.req.rounds := by
  have hattempt := callsLeft_attempt p.req
  have hfail := callsLeft_fail p.req
  cases hpc : p.pc with
  | makedirs =>
    exact ⟨fs.makedirs, p.req.attempt p.req.rounds, by simp [step, next, hpc],
      Nat.lt_succ_of_le (hattempt _)⟩
  | openShm k =>
    cases hlink : fs.link with
    | some seg =>
      exact ⟨fs, .fstat k seg false, by simp [step, next, hpc, hlink], by simp [Pc.callsLeft]⟩
    | none =>
      refine ⟨fs, if p.req.attachOnly then .raised .noShmFound else .createShm k,
        by simp [step, next, hpc, hlink], ?_⟩
      split_ifs <;> simp [Pc.callsLeft]
  | createShm k =>
    cases hlink : fs.link with
    | some seg =>
      exact ⟨fs, p.req.attempt k, by simp [step, next, hpc, hlink],
        lt_of_le_of_lt (hattempt k) (by simp [Pc.callsLeft])⟩
    | none =>
      exact ⟨fs.create, .ftruncate k fs.count, by simp [step, next, hpc, hlink],
        by simp [Pc.callsLeft]⟩
  | ftruncate k seg =>
    exact ⟨fs.ftruncate seg p.req.size, .fstat k seg true, by simp [step, next, hpc],
      by simp [Pc.callsLeft]⟩
  | fstat k seg created =>
    by_cases hsize : fs.size seg < p.req.size
    · exact ⟨fs, p.req.fail k created, by simp [step, next, hpc, hsize],
        lt_of_le_of_lt (hfail k created) (by simp [Pc.callsLeft])⟩
    · exact ⟨fs, .mmap k ⟨seg, fs.size seg, created⟩, by simp [step, next, hpc, hsize],
        by simp [Pc.callsLeft]⟩
  | mmap k h =>
    by_cases hsize : fs.size h.seg < h.size
    · exact ⟨fs, p.req.fail k h.created, by simp [step, next, hpc, hsize],
        lt_of_le_of_lt (hfail k h.created) (by simp [Pc.callsLeft])⟩
    · exact ⟨fs, .writePid h, by simp [step, next, hpc, hsize], by simp [Pc.callsLeft]⟩
  | undo k =>
    exact ⟨fs.shmUnlink, p.req.attempt k, by simp [step, next, hpc],
      lt_of_le_of_lt (hattempt k) (by simp [Pc.callsLeft])⟩
  | writePid h =>
    cases hd : fs.writePid pid with
    | some fs' => exact ⟨fs', .opened h, by simp [step, next, hpc, hd], by simp [Pc.callsLeft]⟩
    | none =>
      exact ⟨fs, .raised .pidDirMissing, by simp [step, next, hpc, hd], by simp [Pc.callsLeft]⟩
  | idle | opened h | raised e | cleanup | cleanupUnlink todo | removePid | scan | unlink | rmdir =>
    simp [hpc, Pc.constructing, Pc.unregistered] at hp

/-- The constructor is still running, or it has returned or raised. -/
def Pc.constructs (p : Pc) : Prop := p.constructing = true ∨ p.returned ∨ ∃ e, p = .raised e

theorem Pc.retries.constructs {r : Request} {q : Pc} (h : q.retries r) : q.constructs := by
  rcases h with ⟨k, rfl | rfl⟩ | rfl | ⟨-, rfl⟩
  · exact .inl rfl
  · exact .inl rfl
  · exact .inr (.inr ⟨_, rfl⟩)
  · exact .inr (.inr ⟨_, rfl⟩)

theorem constructs_of_effect {alive : ℕ → Bool} {pid : ℕ} {m : Move} {fs fs' : Fs} {p p' : Proc}
    (he : Effect alive pid m fs p fs' p') (hp : p.pc.constructing = true) : p'.pc.constructs := by
  cases he with
  | makedirs q hpc hq => exact hq.constructs
  | retry q hpc hown hq => exact hq.constructs
  | undo k hpc => exact (retries_attempt _ k).constructs
  | writePid h fs' hpc hd => exact .inr (.inl ⟨h, rfl⟩)
  | missing h hpc hd => exact .inr (.inr ⟨_, rfl⟩)
  | close hm hpc =>
    rcases hpc with ⟨h, hpc⟩ | ⟨e, hpc⟩ <;> simp [hpc, Pc.constructing, Pc.unregistered] at hp
  | attach | create | ftruncate | fstat | mmap | spoil | construct => exact .inl rfl
  | list hpc | sweep _ _ hpc _ | removePid hpc | scan _ hpc _ | unlink _ hpc | rmdir _ hpc =>
    simp [hpc, Pc.constructing, Pc.unregistered] at hp

/-! ## Steps of the system -/

variable {ι : Type*} [DecidableEq ι]

theorem system_step_eq_some {alive : ℕ → Bool} {pid : ι → ℕ} {Init : State ι → Prop}
    {c c' : State ι} {a : ι × Move} (hs : (system alive pid Init).step c a = some c') :
    ∃ fs p, step alive (pid a.1) a.2 c.shared (c.locals a.1) = some (fs, p) ∧
      c' = ⟨fs, Function.update c.locals a.1 p⟩ := by
  change Config.interleave (fun i => step alive (pid i)) c a = some c' at hs
  exact Config.interleave_eq_some hs

theorem effect_of_system_step {alive : ℕ → Bool} {pid : ι → ℕ} {Init : State ι → Prop}
    {c c' : State ι} {a : ι × Move} (hs : (system alive pid Init).step c a = some c') :
    ∃ fs p, Effect alive (pid a.1) a.2 c.shared (c.locals a.1) fs p ∧
      c' = ⟨fs, Function.update c.locals a.1 p⟩ := by
  obtain ⟨fs, p, hstep, rfl⟩ := system_step_eq_some hs
  exact ⟨fs, p, effect_of_step hstep, rfl⟩

end GuardedSharedMemory
