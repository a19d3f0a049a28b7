import PyFastIpc.Mutex.Wakeup

/-!
# Recovery after a crash

One process may die at any step: its remaining steps never run, and if it was asleep it leaves the
queue.  `force_release` then frees the lock, but it wakes a sleeper only if the state word
is still 2.  A releaser that dies between its exchange and its wake has already set the word to 0,
and a woken waiter that dies before its exchange has used the wake up; in both cases the sleepers
are left asleep (`force_release_strands`).

`force_release_recovers_iff` has the exact condition on the state that `force_release` finds, and
shows that the processes whose death breaks it are those that had promised to act for the sleepers.
-/

namespace FutexMutex

variable {ι : Type*}

/-- A mutex and the process that has died, if any. -/
structure Crash (ι : Type*) where
  mutex : State ι
  dead : Option ι

inductive CrashMove (ι : Type*) where
  /-- A step of a live process. -/
  | run (a : ι × Move ι)
  /-- The process dies. -/
  | crash (i : ι)
  deriving DecidableEq

section System

variable [DecidableEq ι]

/-- The kernel takes a dead process off the queue. -/
def State.bury (c : State ι) (i : ι) : State ι :=
  { c with shared :=
    { c.shared with state := { c.shared.state with sleepers := c.shared.state.sleepers.erase i } } }

/-- One step of a live process, or the death of the first process to die. -/
def Crash.step (P : Procs ι) (s : Crash ι) : CrashMove ι → Option (Crash ι)
  | .run a =>
    if s.dead = some a.1 then none
    else ((system P).step s.mutex a).map fun c => { s with mutex := c }
  | .crash i => if s.dead = none then some ⟨s.mutex.bury i, some i⟩ else none

/-- Threads that share one mutex header, one of which may die. -/
def crashSystem (P : Procs ι) : Transition (Crash ι) (CrashMove ι) where
  Init s := Fresh s.mutex ∧ s.dead = none
  step s a := s.step P a

/-- A complete `force_release` of thread `k`, with no step of another thread in between; `who` is
what its `FUTEX_WAKE` would make runnable. -/
def forceRelease (P : Procs ι) (k : ι) (who : Finset ι) (c : State ι) : Option (State ι) := do
  let called ← (system P).step c (k, .call .forceRelease)
  let exchanged ← (system P).step called (k, .next)
  let cleared ← (system P).step exchanged (k, .next)
  match (cleared.locals k).pc with
  | .relWake => (system P).step cleared (k, .wake who)
  | _ => some cleared

/-- After a complete `force_release` of `k` the two words are 0, and a sleeper was made runnable if
there was one. -/
def Recovers (P : Procs ι) (k : ι) (c : State ι) : Prop :=
  ∀ who c', forceRelease P k who c = some c' →
    c'.shared.state.word = 0 ∧ c'.shared.ownerPid = 0 ∧
    (c.shared.state.sleepers.Nonempty →
      ∃ j ∈ c.shared.state.sleepers, j ∉ c'.shared.state.sleepers)

end System

/-- No live process has the lock or is inside a call, except asleep. -/
def Crash.Quiet (s : Crash ι) : Prop :=
  ∀ i, s.dead ≠ some i → (s.mutex.locals i).taken = false ∧
    ((∃ r, (s.mutex.locals i).pc = .idle r) ∨ i ∈ s.mutex.shared.state.sleepers)

variable [DecidableEq ι]

/-- What a `force_release` does to a mutex whose word is 2, and to any other. -/
theorem forceRelease_eq {P : Procs ι} {k : ι} {who : Finset ι} {c : State ι}
    (hk : ∃ r, (c.locals k).pc = .idle r) :
    forceRelease P k who c =
      if c.shared.state.word = 2 then
        ((c.shared.state.store 0).wake 1 who).map fun f =>
          ⟨{ c.shared with state := f, ownerPid := 0 }, Function.update c.locals k
            ((((c.locals k).begin .forceRelease).drop c.shared.state.word).goto
              (.idle (some .none)))⟩
      else some ⟨{ c.shared with state := c.shared.state.store 0, ownerPid := 0 },
        Function.update c.locals k
          ((((c.locals k).begin .forceRelease).drop c.shared.state.word).goto
            (.idle (some .none)))⟩ := by
  let t := (c.locals k).begin .forceRelease
  have hcall : (system P).step c (k, .call .forceRelease) =
      some ⟨c.shared, Function.update c.locals k t⟩ := system_step_call hk
  have hxchg : (system P).step ⟨c.shared, Function.update c.locals k t⟩ (k, .next) =
      some ⟨{ c.shared with state := c.shared.state.store 0 },
        Function.update c.locals k (t.drop c.shared.state.word)⟩ :=
    Config.interleave_update (fun i => step i (P.pid i)) rfl
  have hclear : (system P).step ⟨{ c.shared with state := c.shared.state.store 0 },
      Function.update c.locals k (t.drop c.shared.state.word)⟩ (k, .next) =
      some ⟨{ c.shared with state := c.shared.state.store 0, ownerPid := 0 },
        Function.update c.locals k ((t.drop c.shared.state.word).goto
          (if decide (c.shared.state.word = 2) then .relWake else .idle (some .none)))⟩ :=
    Config.interleave_update (fun i => step i (P.pid i)) rfl
  rw [forceRelease, hcall, Option.bind_eq_bind, Option.bind_some, hxchg, Option.bind_some, hclear,
    Option.bind_some]
  simp only [Function.update_self, Thread.goto, decide_eq_true_eq]
  split_ifs with h2
  · change Config.interleave (fun i => step i (P.pid i)) _ (k, .wake who) = _
    simp only [Config.interleave, step, Function.update_self, Function.update_idem,
      Option.map_map, Function.comp_def, Thread.goto]
    rfl
  · rfl

theorem exists_forceRelease (P : Procs ι) {k : ι} {c : State ι}
    (hk : ∃ r, (c.locals k).pc = .idle r) : ∃ who c', forceRelease P k who c = some c' := by
  obtain ⟨who, hsub, hcard⟩ := Finset.exists_subset_card_eq
    (min_le_right 1 c.shared.state.sleepers.card)
  refine ⟨who, ?_⟩
  rw [forceRelease_eq hk]
  split_ifs with h2
  · exact ⟨_, by rw [Futex.wake, if_pos ⟨hsub, hcard⟩]; rfl⟩
  · exact ⟨_, rfl⟩

/-- `force_release` frees the lock in any case. -/
theorem words_of_forceRelease {P : Procs ι} {k : ι} {who : Finset ι} {c c' : State ι}
    (hk : ∃ r, (c.locals k).pc = .idle r) (h : forceRelease P k who c = some c') :
    c'.shared.state.word = 0 ∧ c'.shared.ownerPid = 0 := by
  rw [forceRelease_eq hk] at h
  split_ifs at h with h2
  · obtain ⟨f, hf, rfl⟩ := Option.map_eq_some_iff.1 h
    exact ⟨Futex.wake_word hf, rfl⟩
  · obtain rfl := Option.some.inj h
    exact ⟨rfl, rfl⟩

theorem recovers_iff {P : Procs ι} {k : ι} {c : State ι} (hk : ∃ r, (c.locals k).pc = .idle r) :
    Recovers P k c ↔ c.shared.state.sleepers = ∅ ∨ c.shared.state.word = 2 := by
  constructor
  · intro hrec
    by_contra! hno
    obtain ⟨hne, h2⟩ := hno
    obtain ⟨-, -, hwoken⟩ := hrec ∅ _ (by rw [forceRelease_eq hk, if_neg h2])
    obtain ⟨j, hj, hout⟩ := hwoken hne
    exact hout hj
  · intro hcond who c' h
    refine ⟨(words_of_forceRelease hk h).1, (words_of_forceRelease hk h).2, fun hne => ?_⟩
    have h2 := hcond.resolve_left hne.ne_empty
    rw [forceRelease_eq hk, if_pos h2] at h
    obtain ⟨f, hf, rfl⟩ := Option.map_eq_some_iff.1 h
    rcases Futex.wake_progress hf one_pos with hempty | hwoken
    · obtain ⟨j, hj⟩ := hne
      exact ⟨j, hj, by simp [hempty]⟩
    · exact hwoken

/-- Sleepers are inside their wait and alive, and somebody, dead or alive, has promised to act for
them. -/
structure CrashInv (s : Crash ι) : Prop where
  wait : SleepersWait s.mutex
  promised : Promised s.mutex
  buried : ∀ d, s.dead = some d → d ∉ s.mutex.shared.state.sleepers

theorem CrashInv.run {P : Procs ι} {s : Crash ι} {c : State ι} {a : ι × Move ι} (hI : CrashInv s)
    (hlive : s.dead ≠ some a.1) (hs : (system P).step s.mutex a = some c) :
    CrashInv { s with mutex := c } := by
  obtain ⟨hd, t, he, rfl⟩ := effect_of_system_step hs
  refine ⟨hI.wait.step he, hI.promised.step hI.wait he, fun d hdead hin => ?_⟩
  have hda : d ≠ a.1 := by
    rintro rfl
    exact hlive hdead
  rcases he.sleepers with hsub | ⟨hins, -⟩
  · exact hI.buried d hdead (hsub hin)
  · rw [show hd.state.sleepers = _ from hins, Finset.mem_insert] at hin
    exact hI.buried d hdead (hin.resolve_left hda)

theorem CrashInv.bury {s : Crash ι} (hI : CrashInv s) (i : ι) :
    CrashInv ⟨s.mutex.bury i, some i⟩ where
  wait j hj := hI.wait j (Finset.mem_of_mem_erase hj)
  promised hne := by
    rcases hI.promised (hne.mono (Finset.erase_subset _ _)) with h2 | ⟨j, hj⟩
    · exact .inl h2
    · exact .inr ⟨j, hj.mono fun _ _ hout hin => hout (Finset.mem_of_mem_erase hin)⟩
  buried d hd := by
    obtain rfl := Option.some.inj hd
    exact Finset.notMem_erase _ _

theorem crashInv_of_reach {P : Procs ι} {ok : Crash ι → CrashMove ι → Prop} {s : Crash ι}
    (h : (crashSystem P).Reach ok s) : CrashInv s := by
  refine h.invariant CrashInv (fun s hs => ?_) fun s a s' _ hI _ hs => ?_
  · obtain ⟨hfresh, hdead⟩ : Fresh s.mutex ∧ s.dead = none := hs
    have hempty : s.mutex.shared.state.sleepers = ∅ := by
      rw [hfresh.1]
      rfl
    exact ⟨by simp [SleepersWait, hempty], by simp [Promised, hempty], by simp [hdead]⟩
  · change s.step P a = some s' at hs
    cases a with
    | run a =>
      rw [Crash.step] at hs
      split_ifs at hs with hlive
      obtain ⟨c, hc, rfl⟩ := Option.map_eq_some_iff.1 hs
      exact hI.run hlive hc
    | crash i =>
      rw [Crash.step] at hs
      split_ifs at hs
      obtain rfl := Option.some.inj hs
      exact hI.bury i

/-- After a crash, `force_release` of a live process frees the lock, and it recovers exactly if no
process is asleep or the state word is still 2.  When everything has come to rest and it does not
recover, the dead process had a wake to issue, or was about to exchange the word with 2. -/
theorem force_release_recovers_iff (P : Procs ι) {s : Crash ι}
    (h : (crashSystem P).Reach (fun _ _ => True) s) {d k : ι} (hdead : s.dead = some d)
    (hk : ∃ r, (s.mutex.locals k).pc = .idle r) :
    (∃ who c', forceRelease P k who s.mutex = some c') ∧
    (∀ who c', forceRelease P k who s.mutex = some c' →
      c'.shared.state.word = 0 ∧ c'.shared.ownerPid = 0) ∧
    (Recovers P k s.mutex ↔
      s.mutex.shared.state.sleepers = ∅ ∨ s.mutex.shared.state.word = 2) ∧
    (s.Quiet → ¬ Recovers P k s.mutex →
      (s.mutex.locals d).wakePending ∨
        ∃ a, (s.mutex.locals d).pc = .xchg a ∨ (s.mutex.locals d).pc = .inWait a) := by
  refine ⟨exists_forceRelease P hk, fun who c' => words_of_forceRelease hk, recovers_iff hk,
    fun hquiet hno => ?_⟩
  have hI := crashInv_of_reach h
  rw [recovers_iff hk, not_or] at hno
  obtain ⟨i, hi⟩ := (hI.promised (Finset.nonempty_iff_ne_empty.2 hno.1)).resolve_left hno.2
  have hid : i = d := by
    by_contra hne
    refine not_promises (hI.wait i) (hquiet i fun h => hne ?_).2 hi
    exact Option.some.inj (h.symm.trans hdead)
  subst hid
  rcases hi with hwake | ⟨a, hx | ⟨hw, -⟩⟩
  · exact .inl hwake
  · exact .inr ⟨a, .inl hx⟩
  · exact .inr ⟨a, .inr hw⟩

/-- Process `a` has the lock, and process `b` sleeps in `acquire`. -/
def waitingRun : List (CrashMove Tid) :=
  [.run (.a, .call .tryAcquire), .run (.a, .next), .run (.a, .next), .run (.a, .stamp 5),
    .run (.b, .call .acquire), .run (.b, .next), .run (.b, .next), .run (.b, .next),
    .run (.b, .next)]

/-- No process has died, and the mutex is fresh. -/
def crashStart : Crash Tid := ⟨start, none⟩

/-- The holder `a` has died. -/
def orphaned : Crash Tid :=
  (crashSystem procs).exec (fun _ _ => True) crashStart (waitingRun ++ [.crash .a])

theorem force_release_recovers_iff_orphaned :
    orphaned.mutex.shared.state.sleepers = {.b} ∧ Recovers procs .c orphaned.mutex :=
  ⟨by decide +kernel, (force_release_recovers_iff procs (.exec _ (.init ⟨fresh_start, rfl⟩))
    (d := .a) (by decide +kernel) ⟨none, by decide +kernel⟩).2.2.1.2 (.inr (by decide +kernel))⟩

/-- Process `a` has died in `release`, before its wake. -/
def stranding : Crash Tid :=
  (crashSystem procs).exec (fun _ _ => True) crashStart
    (waitingRun ++ [.run (.a, .call .release), .run (.a, .next), .run (.a, .next), .crash .a])

/-- `force_release` leaves process `b` asleep on a free mutex. -/
theorem force_release_strands :
    (¬ ∀ s, (crashSystem procs).Reach (fun _ _ => True) s → ∀ d k, s.dead = some d → s.Quiet →
      k ≠ d → (∃ r, (s.mutex.locals k).pc = .idle r) → Recovers procs k s.mutex) ∧
    stranding.mutex.shared.state.word = 0 ∧ stranding.mutex.shared.state.sleepers = {.b} := by
  have hidle : (stranding.mutex.locals .c).pc = .idle none := by decide +kernel
  have hasleep : stranding.mutex.shared.state.sleepers = {.b} := by decide +kernel
  refine ⟨fun hall => ?_, by decide +kernel, hasleep⟩
  have hrec := hall stranding (.exec _ (.init ⟨fresh_start, rfl⟩)) .a .c (by decide +kernel) ?_
    (by decide) ⟨none, hidle⟩
  · rcases (recovers_iff ⟨none, hidle⟩).1 hrec with hempty | h2
    · simp [hasleep] at hempty
    · exact absurd h2 (by decide +kernel)
  · intro i hi
    cases i with
    | a => exact absurd (by decide +kernel) hi
    | b => exact ⟨by decide +kernel, .inr (by decide +kernel)⟩
    | c => exact ⟨by decide +kernel, .inl ⟨none, hidle⟩⟩

end FutexMutex
