import PyFastIpc.Lib.Lock
import PyFastIpc.Mutex.Steps

/-!
# Mutual exclusion

The mutex implements the ideal lock: `Implements P c h` relates a state of the mutex to the
thread `h` that has the lock, and every step of the mutex is a step of the ideal lock or none
(`Implements.step`).  The state word is nonzero exactly while some thread has the lock, and the
owner word can only name a single-threaded process that has the lock or is about to clear it.

Threads may call any method except `force_release` at any time, with one promise: a thread that
shares its process with others calls `release` only while it has the lock (`Disciplined`).
-/

namespace FutexMutex

variable {ι : Type*}

/-- What is known about thread `i` when `h` has the lock and the owner word is `owner`. -/
structure ThreadInv (P : Procs ι) (h : Option ι) (owner : UInt32) (i : ι) (t : Thread) : Prop where
  taken_iff : t.taken = true ↔ h = some i
  inside : t.pc.inside = true → t.taken = true
  leaving : t.pc.leaving = true → t.taken = false
  held : t.held = true → t.taken = true ∧ t.pc.passing = false
  trying : t.pc.trying = true → t.taken = t.tookBefore
  releasing : t.pc = .relLoad → P.Alone i ∨ t.taken = true
  owner : P.Alone i → owner = P.pid i → t.taken = true ∨ ∃ b, t.pc = .relOwner b

theorem ThreadInv.frame {P : Procs ι} {h h' : Option ι} {owner owner' : UInt32} {j : ι}
    {t : Thread} (hinv : ThreadInv P h owner j t) (hh : h = some j ↔ h' = some j)
    (ho : P.Alone j → owner' = P.pid j → owner = P.pid j) : ThreadInv P h' owner' j t :=
  { hinv with
    taken_iff := hinv.taken_iff.trans hh
    owner := fun ha he => hinv.owner ha (ho ha he) }

/-- The mutex state `c` implements the ideal lock state `h`. -/
structure Implements (P : Procs ι) (c : State ι) (h : Option ι) : Prop where
  word : c.shared.state.word ≠ 0 ↔ h ≠ none
  thread : ∀ i, ThreadInv P h c.shared.ownerPid i (c.locals i)

/-- The promise of the callers: no `force_release`, and no `release` of a lock that another thread
of the same process may have. -/
def Disciplined (P : Procs ι) (c : State ι) (a : ι × Move ι) : Prop :=
  a.2 ≠ .call .forceRelease ∧
    (a.2 = .call .release → P.Alone a.1 ∨ (c.locals a.1).taken = true)

theorem Implements.agrees {P : Procs ι} {c : State ι} {h : Option ι} (hi : Implements P c h) :
    Lock.Agrees h fun i => (c.locals i).taken :=
  fun i => (hi.thread i).taken_iff

theorem Implements.fresh {P : Procs ι} {c : State ι} (hc : Fresh c) : Implements P c none := by
  obtain ⟨hstate, howner, hlocals⟩ := hc
  refine ⟨by simp [hstate, Futex.zero], fun i => ?_⟩
  rw [hlocals, howner]
  exact {
    taken_iff := by simp [Thread.fresh]
    inside := fun hc => by simp [Thread.fresh, Pc.inside] at hc
    leaving := fun _ => rfl
    held := fun hc => by simp [Thread.fresh] at hc
    trying := fun _ => rfl
    releasing := fun hc => by simp [Thread.fresh] at hc
    owner := fun _ ho => absurd ho.symm (P.pid_ne_zero i) }

theorem Implements.eq_none_of_free {P : Procs ι} {c : State ι} {h : Option ι}
    (hi : Implements P c h) (hfree : ∀ j, (c.locals j).taken = false) : h = none := by
  by_contra hne
  obtain ⟨j, hj⟩ := hi.agrees.exists_iff.2 hne
  simp [hfree j] at hj

/-- The lock is not disturbed by a header write that leaves the state word as it is, and the owner
word as it is or 0. -/
theorem Implements.write {P : Procs ι} {c : State ι} {h : Option ι} (hi : Implements P c h)
    {hd : Header ι} (hword : hd.state.word = c.shared.state.word)
    (howner : hd.ownerPid = c.shared.ownerPid ∨ hd.ownerPid = 0) :
    Implements P ⟨hd, c.locals⟩ h where
  word := by simpa [hword] using hi.word
  thread i := (hi.thread i).frame .rfl fun _ ho => by
    rcases howner with he | he
    · rwa [he] at ho
    · exact absurd (he.symm.trans ho).symm (P.pid_ne_zero i)

section Step

variable {P : Procs ι} {h : Option ι} {i : ι} {hd hd' : Header ι} {t t' : Thread}

/-- A step that keeps the `taken` and `held` flags and moves between points of the search. -/
theorem ThreadInv.goto {p : Pc} {owner : UInt32} (hinv : ThreadInv P h owner i t)
    (hfrom : t.pc.trying = true) (hp : p.trying = true ∧ p.passing = false) :
    ThreadInv P h owner i (t.goto p) where
  taken_iff := hinv.taken_iff
  inside hc := by simp_all [Thread.goto, Pc.inside_of_trying hp.1]
  leaving hc := by simp_all [Thread.goto, Pc.leaving_of_trying hp.1]
  held hc := ⟨(hinv.held hc).1, hp.2⟩
  trying _ := hinv.trying hfrom
  releasing hc := by
    obtain rfl : p = .relLoad := hc
    simp [Pc.passing] at hp
  owner ha ho := by
    rcases hinv.owner ha ho with ht | ⟨b, hpc⟩
    · exact .inl ht
    · simp [hpc, Pc.trying] at hfrom

/-- A successful acquisition is an `acquire` of the ideal lock. -/
theorem ThreadInv.take {owner : UInt32} (hinv : ThreadInv P none owner i t) (a : Acquire) :
    ThreadInv P (some i) owner i (t.take a) := by
  have hfree : t.taken = false := by
    have := hinv.taken_iff
    simpa using this
  have hheld : t.held = false := by
    have := hinv.held
    simp_all
  constructor <;> simp [Thread.take, Pc.inside, Pc.leaving, Pc.trying, hheld]

/-- The exchange of a release is a `release` of the ideal lock when the thread had it. -/
theorem ThreadInv.drop {owner : UInt32} (hinv : ThreadInv P h owner i t) (prev : UInt32)
    (hpass : t.pc.passing = true) : ThreadInv P none owner i (t.drop prev) := by
  have hheld : t.held = false := by
    have := hinv.held
    simp_all
  constructor <;> simp [Thread.drop, Pc.inside, Pc.leaving, Pc.trying, hheld]

/-- The rest of a release, after its exchange. -/
theorem ThreadInv.leave {p : Pc} {owner owner' : UInt32} (hinv : ThreadInv P h owner i t)
    (hfrom : t.pc.leaving = true) (hp : p.inside = false ∧ p.trying = false)
    (ho : P.Alone i → owner' ≠ P.pid i) : ThreadInv P h owner' i (t.goto p) where
  taken_iff := hinv.taken_iff
  inside hc := by simp [Thread.goto, hp.1] at hc
  leaving _ := hinv.leaving hfrom
  held hc := by
    have := (hinv.held hc).1
    simp [hinv.leaving hfrom] at this
  trying hc := by simp [Thread.goto, hp.2] at hc
  releasing hc := by
    obtain rfl : p = .relLoad := hc
    simp [Pc.trying] at hp
  owner ha he := absurd he (ho ha)

theorem ThreadInv.begin {owner : UInt32} (hinv : ThreadInv P h owner i t) (f : Call)
    (hpc : ∃ r, t.pc = .idle r) (hrel : f = .release → P.Alone i ∨ t.taken = true) :
    ThreadInv P h owner i (t.begin f) where
  taken_iff := hinv.taken_iff
  inside hc := by simp [Thread.begin, f.inside_entry] at hc
  leaving hc := by simp [Thread.begin, f.leaving_entry] at hc
  held hc := by
    obtain ⟨hheld, hf⟩ : t.held = true ∧ f.releases = false := by simpa [Thread.begin] using hc
    exact ⟨(hinv.held hheld).1, f.passing_entry.trans hf⟩
  trying _ := rfl
  releasing hc := hrel (Call.eq_release_of_entry hc)
  owner ha ho := by
    obtain ⟨r, hpc⟩ := hpc
    rcases hinv.owner ha ho with ht | ⟨b, hp⟩
    · exact .inl ht
    · simp [hpc] at hp

end Step

variable [DecidableEq ι]

/-- A step of the search for the lock that does not take it. -/
theorem Implements.search {P : Procs ι} {c : State ι} {h : Option ι} (hI : Implements P c h) {i : ι}
    {hd : Header ι} {p : Pc} (hfrom : (c.locals i).pc.trying = true)
    (hp : p.trying = true ∧ p.passing = false)
    (hword : hd.state.word ≠ 0 ↔ c.shared.state.word ≠ 0)
    (howner : hd.ownerPid = c.shared.ownerPid) :
    Implements P ⟨hd, Function.update c.locals i ((c.locals i).goto p)⟩ h where
  word := hword.trans hI.word
  thread := by
    rw [howner]
    exact Config.forall_update _ ((hI.thread i).goto hfrom hp) fun j _ => hI.thread j

/-- Every step of the mutex is a step of the ideal lock or leaves it alone. -/
theorem Implements.step {P : Procs ι} {c : State ι} {h : Option ι} (hI : Implements P c h) {i : ι}
    {m : Move ι} {hd : Header ι} {t : Thread}
    (he : Effect i (P.pid i) m c.shared (c.locals i) hd t)
    (hrel : m = .call .release → P.Alone i ∨ (c.locals i).taken = true)
    (hforce : (c.locals i).pc = .forceXchg → h = none ∨ h = some i) :
    ∃ h', (h' = h ∨ ∃ e, Lock.step h e = some h') ∧
      Implements P ⟨hd, Function.update c.locals i t⟩ h' := by
  have hi := hI.thread i
  -- the other threads, when the step leaves the owner word alone
  have hothers (j : ι) (_ : j ≠ i) := hI.thread j
  cases he with
  | call f hm hpc =>
    refine ⟨h, .inl rfl, hI.word, Config.forall_update _ (hi.begin f hpc ?_) hothers⟩
    rintro rfl
    exact hrel hm
  | refused a hpc howner =>
    exact ⟨h, .inl rfl, hI.search (by rw [hpc]; rfl) ⟨rfl, rfl⟩ .rfl rfl⟩
  | passed a hpc =>
    exact ⟨h, .inl rfl, hI.search (by rw [hpc]; rfl) ⟨rfl, rfl⟩ .rfl rfl⟩
  | take a v hpc hv hmark hfree =>
    obtain rfl : h = none := by
      by_contra hne
      exact hI.word.2 hne hfree
    refine ⟨some i, .inr ⟨.acquire i, rfl⟩, by simpa using hv,
      Config.forall_update _ (hi.take a) fun j hj => (hI.thread j).frame ?_ fun _ => id⟩
    simp [Ne.symm hj]
  | probe p hpc hp =>
    exact ⟨h, .inl rfl, hI.search (Pc.trying_of_probing hpc) hp .rfl rfl⟩
  | mark a hpc hbusy =>
    exact ⟨h, .inl rfl, hI.search (by rw [hpc]; rfl) ⟨rfl, rfl⟩ (by simp [hbusy]) rfl⟩
  | sleep a hpc hword =>
    exact ⟨h, .inl rfl, hI.search (by rw [hpc]; rfl) ⟨rfl, rfl⟩ .rfl rfl⟩
  | again a hpc hword =>
    exact ⟨h, .inl rfl, hI.search (by rw [hpc]; rfl) ⟨rfl, rfl⟩ .rfl rfl⟩
  | woken a hpc hout =>
    exact ⟨h, .inl rfl, hI.search (by rw [hpc]; rfl) ⟨rfl, rfl⟩ .rfl rfl⟩
  | leave a p hpc hin hp =>
    exact ⟨h, .inl rfl, hI.search (by rw [hpc]; rfl) hp .rfl rfl⟩
  | storeOwner a hpc =>
    have htaken : (c.locals i).taken = true := hi.inside (by rw [hpc]; rfl)
    refine ⟨h, .inl rfl, hI.word, Config.forall_update _ ?_ fun j hj => (hI.thread j).frame .rfl ?_⟩
    · exact {
        taken_iff := hi.taken_iff
        inside := fun _ => htaken
        leaving := fun hc => by simp [Thread.goto, Pc.leaving] at hc
        held := fun hc => by simpa [hpc, Pc.passing] using (hi.held hc).2
        trying := fun hc => by simp [Thread.goto, Pc.trying] at hc
        releasing := fun hc => by simp [Thread.goto] at hc
        owner := fun _ _ => .inl htaken }
    · exact fun ha ho => absurd ho (ha i hj.symm)
  | storeLastNs a now hpc =>
    have htaken : (c.locals i).taken = true := hi.inside (by rw [hpc]; rfl)
    refine ⟨h, .inl rfl, hI.word, Config.forall_update _ ?_ hothers⟩
    exact {
      taken_iff := hi.taken_iff
      inside := fun _ => htaken
      leaving := fun hc => by simp [Thread.succeed, Pc.leaving] at hc
      held := fun _ => ⟨htaken, rfl⟩
      trying := fun hc => by simp [Thread.succeed, Pc.trying, failed_ret] at hc
      releasing := fun hc => by simp [Thread.succeed] at hc
      owner := fun _ _ => .inl htaken }
  | disowned hpc howner =>
    exact ⟨h, .inl rfl, hI.search (by rw [hpc]; rfl) ⟨rfl, rfl⟩ .rfl rfl⟩
  | owned hpc howner =>
    have htaken : (c.locals i).taken = true := by
      rcases hi.releasing hpc with ha | ht
      · simpa [hpc] using hi.owner ha howner
      · exact ht
    refine ⟨h, .inl rfl, hI.word, Config.forall_update _ ?_ hothers⟩
    exact {
      taken_iff := hi.taken_iff
      inside := fun _ => htaken
      leaving := fun hc => by simp [Thread.goto, Pc.leaving] at hc
      held := fun hc => by simpa [hpc, Pc.passing] using (hi.held hc).2
      trying := fun hc => by simp [Thread.goto, Pc.trying] at hc
      releasing := fun hc => by simp [Thread.goto] at hc
      owner := fun _ _ => .inl htaken }
  | drop hpc =>
    have hholder : h = none ∨ h = some i := by
      rcases hpc with hpc | hpc
      · exact .inr (hi.taken_iff.1 (hi.inside (by rw [hpc]; rfl)))
      · exact hforce hpc
    have hpass : (c.locals i).pc.passing = true := by
      rcases hpc with hpc | hpc <;> rw [hpc] <;> rfl
    refine ⟨none, ?_, by simp, Config.forall_update _ (hi.drop _ hpass) fun j hj =>
      (hI.thread j).frame ?_ fun _ => id⟩
    · rcases hholder with rfl | rfl
      · exact .inl rfl
      · exact .inr ⟨.release i, by simp [Lock.step]⟩
    · rcases hholder with rfl | rfl
      · exact .rfl
      · simp [Ne.symm hj]
  | clearOwner contended p hpc hp =>
    have hself : ThreadInv P h 0 i ((c.locals i).goto p) := by
      refine hi.leave (by rw [hpc]; rfl) ?_ fun _ => (P.pid_ne_zero i).symm
      rw [hp]
      split_ifs <;> exact ⟨rfl, rfl⟩
    refine ⟨h, .inl rfl, hI.word, Config.forall_update _ hself fun j _ => ?_⟩
    exact (hI.thread j).frame .rfl fun _ ho => absurd ho.symm (P.pid_ne_zero j)
  | wake s who hpc hs =>
    have hword : s.word = c.shared.state.word := Futex.wake_word hs
    refine ⟨h, .inl rfl, by simpa [hword] using hI.word,
      Config.forall_update _ (hi.leave (by rw [hpc]; rfl) ⟨rfl, rfl⟩ fun ha ho => ?_) hothers⟩
    have htaken : (c.locals i).taken = false := hi.leaving (by rw [hpc]; rfl)
    simpa [hpc, htaken] using hi.owner ha ho

/-- The mutex is a forward simulation of the ideal lock. -/
theorem simulation (P : Procs ι) :
    Transition.Simulation (system P) (Disciplined P) Lock.system fun c h =>
      Implements P c h ∧ ∀ i, (c.locals i).pc ≠ .forceXchg where
  init c hc := by
    refine ⟨none, rfl, .fresh hc, fun i => ?_⟩
    rw [hc.2.2]
    simp [Thread.fresh]
  step c a c' h hR hok hs := by
    obtain ⟨hI, hforce⟩ := hR
    obtain ⟨hd, t, he, rfl⟩ := effect_of_system_step hs
    have hforce' : ∀ j, (Function.update c.locals a.1 t j).pc ≠ .forceXchg :=
      Config.forall_update (fun _ (t : Thread) => t.pc ≠ .forceXchg)
        (fun hpc => hok.1 (he.eq_forceRelease hpc)) fun j _ => hforce j
    obtain ⟨h', hh | ⟨e, hh⟩, hI'⟩ := hI.step he hok.2 fun hpc => absurd hpc (hforce a.1)
    · subst hh
      exact .inl ⟨hI', hforce'⟩
    · exact .inr ⟨e, h', hh, hI', hforce'⟩

theorem exists_implements {P : Procs ι} {c : State ι} (h : (system P).Reach (Disciplined P) c) :
    ∃ h, Implements P c h := by
  obtain ⟨h, -, hI, -⟩ := (simulation P).reach h
  exact ⟨h, hI⟩

/-- Mutual exclusion and no leaked lock: the state word is nonzero exactly while a thread has
taken it and not given it back, at most one thread has, so at most one is in its critical section;
a call that returns `False` or raises leaves the caller's possession of the lock as it was; and a
single-threaded process that does not have the lock cannot release it. -/
theorem mutual_exclusion (P : Procs ι) {c : State ι} (h : (system P).Reach (Disciplined P) c) :
    (c.shared.state.word ≠ 0 ↔ ∃ i, (c.locals i).taken = true) ∧
    (∀ i j, (c.locals i).taken = true → (c.locals j).taken = true → i = j) ∧
    (∀ i j, (c.locals i).held = true → (c.locals j).held = true → i = j) ∧
    (∀ i r, (c.locals i).pc = .idle (some r) → r.failed = true →
      (c.locals i).taken = (c.locals i).tookBefore) ∧
    (∀ i, P.Alone i → (c.locals i).pc = .relLoad → (c.locals i).taken = false →
      ∀ m hd t, step i (P.pid i) m c.shared (c.locals i) = some (hd, t) →
        hd = c.shared ∧ t.pc = .idle (some (.raised .notOwned))) := by
  obtain ⟨h, hI⟩ := exists_implements h
  have hagree := hI.agrees
  refine ⟨hI.word.trans hagree.exists_iff.symm, fun i j => hagree.unique, fun i j hi hj => ?_,
    fun i r hpc hr => ?_, fun i halone hpc htaken m hd t hs => ?_⟩
  · exact hagree.unique ((hI.thread i).held hi).1 ((hI.thread j).held hj).1
  · exact (hI.thread i).trying (by rw [hpc]; exact hr)
  · have howner : c.shared.ownerPid ≠ P.pid i := fun ho => by
      simpa [hpc, htaken] using (hI.thread i).owner halone ho
    cases m with
    | next =>
      obtain ⟨rfl, rfl⟩ := by simpa [step, next, hpc, howner] using hs
      exact ⟨rfl, rfl⟩
    | _ => simp [step, hpc] at hs

/-- Single-threaded processes. -/
def procs : Procs Tid where
  pid
    | .a => 1
    | .b => 2
    | .c => 3
  pid_ne_zero i := by cases i <;> decide

instance (P : Procs ι) [Fintype ι] (i : ι) : Decidable (P.Alone i) :=
  inferInstanceAs (Decidable (∀ j, j ≠ i → P.pid j ≠ P.pid i))

instance (P : Procs ι) [Fintype ι] (c : State ι) (a : ι × Move ι) : Decidable (Disciplined P c a) :=
  inferInstanceAs (Decidable (_ ∧ _))

/-- Process `a` has the lock and process `b` is asleep in `acquire`. -/
def contended : State Tid :=
  (system procs).exec (Disciplined procs) start
    [(.a, .call .tryAcquire), (.a, .next), (.a, .next), (.a, .stamp 5), (.b, .call .acquire),
      (.b, .next), (.b, .next), (.b, .next), (.b, .next)]

theorem mutual_exclusion_contended :
    (contended.locals .b).pc = .inWait acquireFast ∧ contended.shared.state.word = 2 ∧
      ∀ i j, (contended.locals i).held = true → (contended.locals j).held = true → i = j :=
  ⟨by decide +kernel, by decide +kernel,
    (mutual_exclusion procs (.exec _ (.init fresh_start))).2.2.1⟩

end FutexMutex
