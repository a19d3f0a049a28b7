import PyFastIpc.Mutex.Calls
import PyFastIpc.Mutex.Workers
import Mathlib.Algebra.Order.BigOperators.Group.Finset
import Mathlib.Data.Prod.Lex

/-!
# Workers come to an end

Every run of workers is finite: a step brings its worker closer to the end of its jobs
(`Worker.left`), or it is a step of the search for the lock, which comes closer to its sleep
(`Pc.effort`), and a search becomes longer only by a step of the first kind.  A state in which no
worker can go on has no sleeper, because nobody sleeps while the state word is 0, so there all
workers are over or a `release` of the holder has raised (`workers_terminate`).

The second happens in no run in which no late owner store falls into another process's possession of
the lock, and once the owner word does not name its recorded holder the workers do not all come to
their ends any more (`finishes_iff`).
-/

namespace MutexWorkers

open FutexMutex

/-! ## The measure -/

def Stage.left {δ : Type*} : Stage δ → ℕ
  | .outside => 0
  | .entered _ => 3
  | .loaded _ _ => 2
  | .stored => 1

/-- The steps that a worker has before it, a search for the lock counted as one. -/
def Worker.left {δ : Type*} (w : Worker δ) : ℕ :=
  12 * w.todo.length + w.stage.left + w.thread.pc.left w.thread.held

variable {ι δ : Type*}

def State.left [Fintype ι] (c : State ι δ) : ℕ := c.shared.setbacks + ∑ i, (c.locals i).left

variable [DecidableEq ι]

def State.effort [Fintype ι] (c : State ι δ) : ℕ :=
  ∑ i, (c.locals i).thread.pc.effort c.shared.object.state i

section Measure

variable {i : ι} {pid : UInt32} {sh sh' : Shared ι δ} {w w' : Worker δ}

/-- A step brings the worker closer to its end, or uses up a signal, or goes on with a search. -/
theorem Effect.left (he : Effect i pid sh w sh' w')
    (hheld : w.thread.held = true → ∃ r, w.thread.pc = .idle r) :
    w'.left + sh'.setbacks < w.left + sh.setbacks ∨
      w'.left + sh'.setbacks = w.left + sh.setbacks ∧ ∃ m, m ≠ .signal ∧
        Onward i m sh.object w.thread sh'.object w'.thread := by
  cases he with
  | acquire job rest hidle hraised hheld htodo =>
    left
    have hentry : (w.thread.begin job.call).pc.left (w.thread.begin job.call).held ≤ 8 := by
      rcases Call.seeking_entry job.locks with ⟨a, ha⟩ | ⟨-, hover⟩
      · exact (Pc.left_of_seeking ha _).le
      · rw [show (w.thread.begin job.call).pc = .idle (some .overflow) from hover, Pc.left]
        split_ifs <;> decide
    simp only [Worker.left, htodo, Stage.left, List.length_cons]
    omega
  | release hidle hheld hstage =>
    left
    obtain ⟨r, hidle⟩ := hidle
    simp [Worker.left, hstage, Stage.left, Thread.begin, Call.entry, Pc.left, hidle, hheld]
  | mutex m k h t hm hk hs =>
    rcases left_of_step hm hheld hs with hless | honward
    · left
      simp only [Worker.left]
      omega
    · rcases hk with ⟨hne, rfl⟩ | ⟨-, hk⟩
      · refine .inr ⟨?_, m, hne, honward⟩
        simp only [Worker.left, honward.left]
      · left
        simp only [Worker.left, honward.left]
        omega
  | load job hheld hstage | store job v hstage =>
    left
    simp [Worker.left, hstage, Stage.left]

/-- The measure of a run: the steps left, and then the searches. -/
def State.measure [Fintype ι] (c : State ι δ) : ℕ ×ₗ ℕ := toLex (c.left, c.effort)

theorem State.measure_lt [Fintype ι] {c : State ι δ} (he : Effect i pid c.shared (c.locals i) sh w)
    (hheld : (c.locals i).thread.held = true → ∃ r, (c.locals i).thread.pc = .idle r) :
    State.measure ⟨sh, Function.update c.locals i w⟩ < c.measure := by
  have hsum := Config.sum_update c.locals i w Worker.left
  rw [State.measure, State.measure, Prod.Lex.toLex_lt_toLex]
  simp only [State.left]
  rcases he.left hheld with hless | ⟨heq, m, hne, honward⟩
  · left
    omega
  · have hself := honward.less hne
    refine .inr ⟨by omega, Finset.sum_lt_sum (fun j _ => ?_) ⟨i, Finset.mem_univ i, ?_⟩⟩
    · exact Config.forall_update (fun j (w : Worker δ) => w.thread.pc.effort sh.object.state j ≤
        (c.locals j).thread.pc.effort c.shared.object.state j) hself.le
        (fun j hj => Pc.effort_mono honward.word (honward.others j hj) _) j
    · dsimp only
      rwa [Function.update_self]

end Measure

/-! ## Where workers can stand -/

/-- The points at which a thread has the lock although it is neither on its way into its critical
section nor in it: the owner check of its release, also after it has failed. -/
def keeping : Pc → Bool
  | .relLoad | .idle (some (.raised .notOwned)) => true
  | _ => false

/-- What the program point says about the possession of the lock. -/
def owns (t : Thread) : Bool := t.pc.inside || t.held || keeping t.pc

/-- The call of the worker's job got an argument that does not fit into its C type. -/
def Worker.Rejected (w : Worker δ) : Prop :=
  w.thread.pc = .idle (some .overflow) ∧ ∃ job, w.stage = .entered job ∧ ¬ job.call.Fits

/-- The worker does nothing any more, and does not have the lock. -/
def Worker.Over (w : Worker δ) : Prop := w.Finished ∨ w.Rejected

def Over (c : State ι δ) : Prop := ∀ i, (c.locals i).Over

/-- What is known about one worker, whatever the others do. -/
structure WorkerInv (w : Worker δ) : Prop where
  held : w.thread.held = true → ∃ r, w.thread.pc = .idle (some r) ∧ r.failed = false
  taken : w.thread.taken = owns w.thread
  outside : w.stage = .outside →
    w.thread.held = false ∧ (w.thread.pc.releasing = true ∨ ∃ r, w.thread.pc = .idle r)
  overflow : w.thread.pc = .idle (some .overflow) → w.Rejected

theorem WorkerInv.idle {w : Worker δ} (hw : WorkerInv w) (h : w.thread.held = true) :
    ∃ r, w.thread.pc = .idle r := by
  obtain ⟨r, hpc, -⟩ := hw.held h
  exact ⟨_, hpc⟩

theorem WorkerInv.not_raised {w : Worker δ} (hw : WorkerInv w) (h : w.thread.held = true) :
    raised w.thread.pc = false := by
  obtain ⟨r, hpc, hr⟩ := hw.held h
  cases r with
  | raised e => cases hr
  | overflow => cases hr
  | _ => rw [hpc]; rfl

theorem WorkerInv.held_eq_false {w : Worker δ} (hw : WorkerInv w)
    (h : ∀ r, w.thread.pc ≠ .idle r) : w.thread.held = false := by
  by_contra hne
  obtain ⟨r, hpc⟩ := hw.idle (by simpa using hne)
  exact h r hpc

theorem owns_of_seeking {a : Acquire} {t : Thread} (h : t.pc.seeking a = true) :
    owns t = t.held := by
  cases hp : t.pc <;> simp_all [owns, Pc.inside, keeping, Pc.seeking]

theorem owns_begin (t : Thread) {f : Call} (hf : f.releases = false) :
    owns (t.begin f) = (t.begin f).held := by
  rcases Call.seeking_entry hf with ⟨a, ha⟩ | ⟨-, hover⟩
  · exact owns_of_seeking (t := t.begin f) ha
  · rw [owns, show (t.begin f).pc = .idle (some .overflow) from hover]
    simp [Pc.inside, keeping]

section Step

variable {i : ι} {pid : UInt32} {sh sh' : Shared ι δ} {w w' : Worker δ}

theorem owns_of_step {m : Move ι} {h h' : Header ι} {t t' : Thread} (hm : ∀ f, m ≠ .call f)
    (hheld : t.held = false) (htaken : t.taken = owns t)
    (hs : FutexMutex.step i pid m h t = some (h', t')) : t'.taken = owns t' := by
  have hsearch (a : Acquire) (hseek : t.pc.seeking a = true) : t'.taken = owns t' := by
    have hfree : t.taken = false := htaken.trans ((owns_of_seeking hseek).trans hheld)
    cases search_step hseek hs with
    | take ht => rw [ht]; rfl
    | refused hpc ht | gaveUp ha ht =>
      rw [ht]
      simp [owns, Thread.goto, Pc.inside, keeping, hheld, hfree]
    | go p hp ht hword hothers hless =>
      rw [ht]
      exact hfree.trans ((owns_of_seeking (t := t.goto p) hp).trans hheld).symm
  cases FutexMutex.effect_of_step hs with
  | call f hcall hpc => exact absurd hcall (hm f)
  | take a v hpc hv hmark hfree =>
    obtain ⟨b, hb⟩ := Pc.seeking_of_grabbing hpc
    exact hsearch b hb
  | probe p hpc hp =>
    obtain ⟨b, hb⟩ := Pc.seeking_of_probing hpc
    exact hsearch b hb
  | refused a hpc | passed a hpc | mark a hpc | sleep a hpc | again a hpc | woken a hpc
  | leave a p hpc => exact hsearch a (by rw [hpc]; exact decide_eq_true rfl)
  | clearOwner contended p hpc hp =>
    subst hp
    cases contended <;> simpa [owns, Thread.goto, Pc.inside, keeping, hpc] using htaken
  | drop hpc => simp [owns, Thread.drop, Pc.inside, keeping, hheld]
  | storeLastNs a now hpc => simpa [owns, Thread.succeed, Pc.inside, keeping, hpc] using htaken
  | storeOwner a hpc | disowned hpc | owned hpc | wake s who hpc =>
    simpa [owns, Thread.goto, Pc.inside, keeping, hpc] using htaken

theorem releasing_step {m : Move ι} {h h' : Header ι} {t t' : Thread}
    (hm : ∀ f, m ≠ .call f) (hs : FutexMutex.step i pid m h t = some (h', t'))
    (hpc : t.pc.releasing = true ∨ ∃ r, t.pc = .idle r) :
    t'.pc.releasing = true ∨ ∃ r, t'.pc = .idle r := by
  rcases hpc with hpc | ⟨r, hpc⟩
  · rcases release_step (FutexMutex.effect_of_step hs) hpc with h | ⟨r, h⟩
    · exact .inl h
    · exact .inr ⟨some r, h⟩
  · exact absurd hpc (not_idle_of_step hm hs r)

theorem WorkerInv.step (hw : WorkerInv w) (he : Effect i pid sh w sh' w') : WorkerInv w' := by
  cases he with
  | acquire job rest hidle hraised hheld htodo =>
    have hheld' : (w.thread.begin job.call).held = false := by simp [Thread.begin, hheld]
    refine ⟨fun h => ?_, ?_, (fun h => by cases h), fun hover => ⟨hover, job, rfl, ?_⟩⟩
    · rw [hheld'] at h
      cases h
    · refine (hw.taken.trans ?_).trans ((owns_begin w.thread job.locks).trans hheld').symm
      -- outside its calls a worker that has raised nothing has the lock if it holds it
      obtain ⟨r, hidle⟩ := hidle
      rw [hidle] at hraised
      cases r with
      | none => simp [owns, hidle, Pc.inside, keeping, hheld]
      | some r =>
        cases r with
        | raised e => cases hraised
        | _ => simp [owns, hidle, Pc.inside, keeping, hheld]
    · rcases Call.seeking_entry job.locks with ⟨a, ha⟩ | ⟨hfits, -⟩
      · exact absurd hover (Pc.ne_idle_of_seeking (p := job.call.entry) ha _)
      · exact hfits
  | release hidle hheld hstage =>
    have htaken : w.thread.taken = true := by simp [hw.taken, owns, hheld]
    have howns : owns (w.thread.begin .release) = true := Bool.or_true _
    exact ⟨fun h => by simp [Thread.begin, Call.releases] at h, htaken.trans howns.symm,
      (fun _ => ⟨by simp [Thread.begin, Call.releases], .inl rfl⟩), fun h => by cases h⟩
  | mutex m k h t hm hk hs =>
    have hheld : w.thread.held = false := hw.held_eq_false (not_idle_of_step hm hs)
    have hheld' := returned_of_held hm hs hheld
    refine ⟨fun ht => ?_, owns_of_step hm hheld hw.taken hs, fun hstage => ?_, fun hover => ?_⟩
    · obtain ⟨a, hpc, -⟩ := hheld' ht
      exact ⟨_, hpc, failed_ret a⟩
    · have hrel := (hw.outside hstage).2
      refine ⟨?_, releasing_step hm hs hrel⟩
      by_contra hne
      obtain ⟨a, -, hpc⟩ := hheld' (by simpa using hne)
      simp [hpc, Pc.releasing] at hrel
    · exact absurd hover (ne_overflow_of_step hm hs)
  | load job hheld hstage =>
    refine ⟨hw.held, hw.taken, (fun h => by cases h), fun hover => ?_⟩
    obtain ⟨r, hpc, hr⟩ := hw.held hheld
    obtain rfl : r = .overflow := by simpa using hpc.symm.trans hover
    cases hr
  | store job v hstage =>
    refine ⟨hw.held, hw.taken, (fun h => by cases h), fun hover => ?_⟩
    obtain ⟨-, job', hentered, -⟩ := hw.overflow hover
    cases hstage.symm.trans hentered

end Step

variable {P : Procs ι} {work : ι → List (Job δ)} {d : δ} {c : State ι δ}
  {ok : State ι δ → ι × Act ι → Prop}

theorem workerInv_of_reach (h : (system P work d).Reach ok c) (i : ι) : WorkerInv (c.locals i) := by
  refine h.invariant (fun c => ∀ i, WorkerInv (c.locals i)) (fun c hc i => ?_)
    (fun c a c' _ hw _ hs => ?_) i
  · rw [hc.locals]
    exact ⟨(fun h => by cases h), rfl, (fun _ => ⟨rfl, .inr ⟨_, rfl⟩⟩), fun h => by cases h⟩
  · obtain ⟨sh, w, he, rfl⟩ := effect_of_system_step hs
    exact Config.forall_update (fun _ (w : Worker δ) => WorkerInv w) ((hw a.1).step he)
      fun j _ => hw j

/-! ## Exceptions -/

/-- What an exception says about the owner word, the processes being single-threaded. -/
structure Raised (P : Procs ι) (c : State ι δ) : Prop where
  owned : ∀ i, (c.locals i).thread.pc ≠ .idle (some (.raised .alreadyOwned))
  lost : ∀ i, (c.locals i).thread.pc = .idle (some (.raised .notOwned)) →
    c.shared.object.ownerPid ≠ P.pid i

section Raised

variable {i : ι} {sh : Shared ι δ} {w : Worker δ}

/-- After a step of worker `i` its last call has raised: it had raised before, or the step was one
of the two owner checks. -/
theorem Effect.raised_cases {e : Error} (he : Effect i (P.pid i) c.shared (c.locals i) sh w)
    (hpc : w.thread.pc = .idle (some (.raised e))) :
    (w.thread = (c.locals i).thread ∧ sh.object = c.shared.object) ∨
      (∃ a, (c.locals i).thread.pc = .loadOwner a) ∧ c.shared.object.ownerPid = P.pid i ∨
      e = .notOwned ∧ sh.object.ownerPid ≠ P.pid i := by
  cases he with
  | acquire job rest hidle hraised hheld htodo =>
    have hentry : job.call.entry = .idle (some (.raised e)) := hpc
    rcases Call.seeking_entry job.locks with ⟨a, ha⟩ | ⟨-, hover⟩
    · exact absurd hentry (Pc.ne_idle_of_seeking ha _)
    · cases hover.symm.trans hentry
  | release hidle hheld hstage => cases hpc
  | mutex m k h t hm hk hs =>
    obtain ⟨rfl, hcase⟩ := raised_of_step hm hs hpc
    exact .inr hcase
  | load job hheld hstage | store job v hstage => exact .inl ⟨rfl, rfl⟩

omit [DecidableEq ι] in
/-- The owner check of `acquire` does not find the pid of a worker that does not have the lock. -/
theorem ne_pid_of_loadOwner {o : Option ι} (halone : P.Alone i) (hI : Implements P c.mutex o)
    (hw : WorkerInv (c.locals i)) {a : Acquire} (hpc : (c.locals i).thread.pc = .loadOwner a) :
    c.shared.object.ownerPid ≠ P.pid i := by
  intro howner
  have hseek : (c.locals i).thread.pc.seeking a = true := by rw [hpc]; exact decide_eq_true rfl
  have hheld := hw.held_eq_false (Pc.ne_idle_of_seeking hseek)
  have hfree : (c.locals i).thread.taken = false :=
    hw.taken.trans ((owns_of_seeking hseek).trans hheld)
  rcases (hI.thread i).owner halone howner with htaken | ⟨b, hrel⟩
  · exact absurd (hfree.symm.trans htaken) (by decide)
  · exact absurd (hpc.symm.trans hrel) (by simp)

theorem Raised.step {o : Option ι} (hinj : Function.Injective P.pid) (hR : Raised P c)
    (hw : WorkerInv (c.locals i)) (hI : Implements P c.mutex o)
    (he : Effect i (P.pid i) c.shared (c.locals i) sh w) :
    Raised P ⟨sh, Function.update c.locals i w⟩ := by
  constructor
  · refine Config.forall_update (fun _ (w : Worker δ) => w.thread.pc ≠ _) (fun hpc => ?_)
      fun j _ => hR.owned j
    rcases he.raised_cases hpc with ⟨hthread, -⟩ | ⟨⟨a, hload⟩, howner⟩ | ⟨hne, -⟩
    · exact hR.owned i (hthread ▸ hpc)
    · exact ne_pid_of_loadOwner (alone_of_injective hinj i) hI hw hload howner
    · cases hne
  · refine Config.forall_update (fun j (w : Worker δ) => w.thread.pc = _ →
      sh.object.ownerPid ≠ P.pid j) (fun hpc => ?_) fun j hj hpc => ?_
    · rcases he.raised_cases hpc with ⟨hthread, hheader⟩ | ⟨⟨a, hload⟩, howner⟩ | ⟨-, howner⟩
      · rw [hheader]
        exact hR.lost i (hthread ▸ hpc)
      · exact absurd howner (ne_pid_of_loadOwner (alone_of_injective hinj i) hI hw hload)
      · exact howner
    · have hlost := hR.lost j hpc
      rcases he.mutex_step with ⟨hheader, -⟩ | ⟨m, hs, -⟩
      · rwa [hheader]
      · rcases ownerPid_cases (FutexMutex.effect_of_step hs) with ho | ho | ho <;> rw [ho]
        · exact hlost
        · exact fun heq => hj (hinj heq).symm
        · exact (P.pid_ne_zero j).symm

end Raised

theorem raised_of_reach (hinj : Function.Injective P.pid) (h : (system P work d).Reach ok c) :
    Raised P c := by
  refine h.invariant (Raised P) (fun c hc => ?_) fun c a c' hr hR _ hs => ?_
  · constructor <;> intro i hpc <;> simp [hc.locals, Thread.fresh] at hpc
  · obtain ⟨sh, w, he, rfl⟩ := effect_of_system_step hs
    obtain ⟨o, hI⟩ :=
      exists_implements ((mutex_reach hr).mono fun _ _ => disciplined_of_releasesOwn)
    exact hR.step hinj (workerInv_of_reach hr a.1) hI he

/-! ## Going on -/

/-- If the step is the owner store of a release, no worker has the lock with its pid recorded. -/
def OwnerSafe (c : State ι δ) (a : ι × Act ι) : Prop :=
  (c.locals a.1).thread.pc.clearsOwner = true → ∀ j, (c.locals j).thread.recorded = false

/-- The `release` of a worker that has the lock has raised. -/
def Abandoned (c : State ι δ) : Prop :=
  ∃ i, (c.locals i).thread.pc = .idle (some (.raised .notOwned)) ∧
    (c.locals i).thread.taken = true

section Enabled

variable {i : ι} {pid : UInt32} {sh : Shared ι δ} {w : Worker δ}

theorem step_client {act : Clients.Act (Move ι)} {sh₁ : Clients.Shared (Header ι)} {w₁ : Worker δ}
    (hs : Clients.step (object i pid) program act sh.toShared w = some (sh₁, w₁)) :
    step i pid (.client act) sh w = some ({ sh with toShared := sh₁ }, w₁) := by
  rw [step, hs]
  rfl

variable (pid) in
/-- A worker that does not sleep and whose calls have raised nothing but an `OverflowError` can go
on until it is over. -/
theorem exists_step_of_awake (hw : WorkerInv w)
    (hraised : raised w.thread.pc = true → w.Rejected) (hawake : i ∉ sh.object.state.sleepers) :
    w.Over ∨ ∃ act s, step i pid act sh w = some s := by
  by_cases hover : w.Rejected
  · exact .inl (.inr hover)
  replace hraised : raised w.thread.pc = false := by simpa using mt hraised hover
  by_cases hidle : ∃ r, w.thread.pc = .idle r
  · by_cases hheld : w.thread.held = true
    · right
      cases hstage : w.stage with
      | outside => exact absurd hheld (by simp [(hw.outside hstage).1])
      | entered job => exact ⟨.load, _, by simp only [step, hstage, hheld, if_true]; rfl⟩
      | loaded job v => exact ⟨.store, _, by simp only [step, hstage]; rfl⟩
      | stored =>
        have hnext : w.nextCall = some (.release, fun t => ⟨t, .outside, w.todo⟩) := by
          simp [Worker.nextCall, hraised, hheld, hstage]
        exact ⟨.call, _, step_client (Clients.step_call hidle hnext)⟩
    · rw [Bool.not_eq_true] at hheld
      cases htodo : w.todo with
      | nil => exact .inl (.inl ⟨hidle, hraised, hheld, htodo⟩)
      | cons job rest =>
        have hnext : w.nextCall = some (job.call, fun t => ⟨t, .entered job, rest⟩) := by
          simp [Worker.nextCall, hraised, hheld, htodo]
        exact .inr ⟨.call, _, step_client (Clients.step_call hidle hnext)⟩
  · obtain ⟨m, s, hm, hne, hs⟩ := exists_step_of_busy pid (not_exists.1 hidle) hawake
    have hset : (interface ι).setback m = false := by cases m <;> first | rfl | exact absurd rfl hne
    exact .inr ⟨.mutex m, _, step_client (Clients.step_access hm hset hs)⟩

end Enabled

theorem Worker.Over.idle {w : Worker δ} (hover : w.Over) : ∃ r, w.thread.pc = .idle r := by
  rcases hover with hfin | ⟨hpc, -⟩
  · exact hfin.idle
  · exact ⟨_, hpc⟩

theorem Worker.Over.taken {w : Worker δ} (hover : w.Over) (hw : WorkerInv w) :
    w.thread.taken = false := by
  rw [hw.taken]
  rcases hover with hfin | ⟨hpc, -⟩
  · obtain ⟨r, hidle⟩ := hfin.idle
    have hraised := hfin.returned
    rw [hidle] at hraised
    cases r with
    | none => simp [owns, hidle, Pc.inside, keeping, hfin.released]
    | some r =>
      cases r with
      | raised e => cases hraised
      | _ => simp [owns, hidle, Pc.inside, keeping, hfin.released]
  · have hheld : w.thread.held = false := by
      by_contra hne
      obtain ⟨r, hidle, hr⟩ := hw.held (by simpa using hne)
      obtain rfl : r = .overflow := by simpa [hpc, eq_comm] using hidle
      cases hr
    simp [owns, hpc, Pc.inside, keeping, hheld]

omit [DecidableEq ι] in
theorem taken_of_asleep {i : ι} (hS : SleepersWait c.mutex) (hw : WorkerInv (c.locals i))
    (hin : i ∈ c.shared.object.state.sleepers) : (c.locals i).thread.taken = false := by
  obtain ⟨a, hpc⟩ := hS i hin
  have hseek : (c.locals i).thread.pc.seeking a = true := by
    rw [show (c.locals i).thread.pc = .inWait a from hpc]
    exact decide_eq_true rfl
  rw [hw.taken, owns_of_seeking hseek]
  exact hw.held_eq_false (Pc.ne_idle_of_seeking hseek)

/-- Workers that have raised nothing but `OverflowError`s can go on until they are all over, and
without an owner store that falls into another worker's possession of the lock. -/
theorem exists_safe_step (h : (system P work d).Reach ok c)
    (hraised : ∀ i, raised (c.locals i).thread.pc = true → (c.locals i).Rejected) :
    Over c ∨ ∃ a c', OwnerSafe c a ∧ (system P work d).step c a = some c' := by
  have hw := workerInv_of_reach h
  have hr := mutex_reach h
  obtain ⟨o, hI⟩ := exists_implements (hr.mono fun _ _ => disciplined_of_releasesOwn)
  obtain ⟨hS, hP⟩ := promised_of_reach hr
  have hstep {i : ι} {act : Act ι} {s : Shared ι δ × Worker δ}
      (hs : step i (P.pid i) act c.shared (c.locals i) = some s) :
      ∃ c', (system P work d).step c (i, act) = some c' :=
    ⟨_, Config.interleave_of_step (fun i => step i (P.pid i)) hs⟩
  -- the worker that has the lock can go on
  have howner (j : ι) (htaken : (c.locals j).thread.taken = true) :
      ∃ a c', OwnerSafe c a ∧ (system P work d).step c a = some c' := by
    have hawake : j ∉ c.shared.object.state.sleepers := fun hin => by
      simp [taken_of_asleep hS (hw j) hin] at htaken
    rcases exists_step_of_awake (P.pid j) (hw j) (hraised j) hawake with hover | ⟨act, s, hs⟩
    · simp [hover.taken (hw j)] at htaken
    · obtain ⟨c', hs⟩ := hstep hs
      refine ⟨(j, act), c', fun hclear => ?_, hs⟩
      have hleaving : (c.locals j).thread.pc.leaving = true := by
        cases hpc : (c.locals j).thread.pc <;> simp_all [Pc.clearsOwner, Pc.leaving]
      exact absurd (((hI.thread j).leaving hleaving).symm.trans htaken) (by decide)
  by_cases hfree : ∀ j, (c.locals j).thread.taken = false
  · by_cases hquiet : ∀ i, i ∈ c.shared.object.state.sleepers ∨ (c.locals i).Over
    · -- nobody sleeps while the state word is 0
      have hzero : c.shared.object.state.word = 0 := by
        by_contra hne
        exact hI.word.1 hne (hI.eq_none_of_free hfree)
      have hempty : c.shared.object.state.sleepers = ∅ := by
        by_contra hne
        rcases hP (Finset.nonempty_iff_ne_empty.2 hne) with h2 | ⟨i, hi⟩
        · rw [show c.mutex.shared.state.word = 0 from hzero] at h2
          cases h2
        · refine not_promises (hS i) ?_ hi
          rcases hquiet i with hin | hover
          · exact .inr hin
          · exact .inl hover.idle
      exact .inl fun i => (hquiet i).resolve_left (by simp [hempty])
    · obtain ⟨i, hi⟩ := not_forall.1 hquiet
      obtain ⟨hawake, hover⟩ := not_or.1 hi
      obtain ⟨act, s, hs⟩ := (exists_step_of_awake (P.pid i) (hw i) (hraised i)
        hawake).resolve_left hover
      obtain ⟨c', hs⟩ := hstep hs
      refine .inr ⟨(i, act), c', fun _ j => ?_, hs⟩
      by_contra hrec
      have htaken := Thread.taken_of_recorded (by simpa using hrec)
      simp [hfree j] at htaken
  · obtain ⟨j, hj⟩ := not_forall.1 hfree
    exact .inr (howner j (by simpa using hj))

/-- A worker that has raised does nothing any more. -/
theorem Effect.ne_raised {i : ι} {pid : UInt32} {sh : Shared ι δ} {w : Worker δ}
    (he : Effect i pid c.shared (c.locals i) sh w) (hw : WorkerInv (c.locals i))
    (hS : Serial work d c) (e : Error) :
    (c.locals i).thread.pc ≠ .idle (some (.raised e)) := by
  intro hpc
  have hraised : raised (c.locals i).thread.pc = true := by rw [hpc]; rfl
  have hfree : (c.locals i).thread.held = false := by
    by_contra hne
    simp [hw.not_raised (by simpa using hne)] at hraised
  cases he with
  | acquire job rest hidle hnot hheld htodo => simp [hnot] at hraised
  | release hidle hheld hstage | load job hheld hstage => simp [hheld] at hfree
  | mutex m k h t hm hk hs => exact not_idle_of_step hm hs _ hpc
  | store job v hstage =>
    have hheld := hS.busy i (by rw [hstage]; rfl)
    simp [hheld] at hfree

theorem WorkerInv.taken_of_notOwned {w : Worker δ} (hw : WorkerInv w)
    (hpc : w.thread.pc = .idle (some (.raised .notOwned))) : w.thread.taken = true := by
  rw [hw.taken]
  simp [owns, hpc, keeping]

omit [DecidableEq ι] in
/-- Of the `RuntimeError`s only that of `release` occurs. -/
theorem Raised.cases (hR : Raised P c) {i : ι} (h : raised (c.locals i).thread.pc = true) :
    (c.locals i).thread.pc = .idle (some (.raised .notOwned)) ∨
      (c.locals i).thread.pc = .idle (some .overflow) := by
  cases hpc : (c.locals i).thread.pc with
  | idle r =>
    match r, hpc with
    | some (.raised .alreadyOwned), hpc => exact absurd hpc (hR.owned i)
    | some (.raised .notOwned), _ => exact .inl rfl
    | some .overflow, _ => exact .inr rfl
    | none, hpc | some (.bool _), hpc | some .self, hpc | some .none, hpc =>
      simp [hpc, raised] at h
  | _ => simp [hpc, raised] at h

/-- A worker whose `release` has not raised has raised because of an argument. -/
theorem rejected_of_raised (hinj : Function.Injective P.pid) (h : (system P work d).Reach ok c)
    {i : ι} (hi : raised (c.locals i).thread.pc = true)
    (hrelease : (c.locals i).thread.pc ≠ .idle (some (.raised .notOwned))) :
    (c.locals i).Rejected :=
  (workerInv_of_reach h i).overflow (((raised_of_reach hinj h).cases hi).resolve_left hrelease)

/-- An abandoned lock stays so. -/
theorem Abandoned.step {a : ι × Act ι} {c' : State ι δ} (h : (system P work d).Reach ok c)
    (hA : Abandoned c) (hs : (system P work d).step c a = some c') : Abandoned c' := by
  obtain ⟨i, hpc, htaken⟩ := hA
  obtain ⟨sh, w, he, rfl⟩ := effect_of_system_step hs
  have hne : i ≠ a.1 := by
    rintro rfl
    exact he.ne_raised (workerInv_of_reach h a.1) (serial_of_reach h) _ hpc
  refine ⟨i, ?_⟩
  dsimp only
  rw [Function.update_of_ne hne]
  exact ⟨hpc, htaken⟩

/-- Workers whose arguments all fit are over only when they have finished. -/
theorem finished_of_over (hfit : ∀ i, ∀ job ∈ work i, job.call.Fits)
    (h : (system P work d).Reach ok c) (hover : Over c) : Finished c := by
  intro i
  rcases hover i with hfin | ⟨-, job, hstage, hnot⟩
  · exact hfin
  · have hmem : job ∈ work i :=
      ((serial_of_reach h).order i).subset (by simp [hstage, Stage.job])
    exact absurd (hfit i job hmem) hnot

/-- Worker `b` takes the lock between the exchange and the owner store of the release of `a`. -/
def overtaking : List (Tid × Act Tid) :=
  [(.a, .call), (.a, .mutex .next), (.a, .mutex .next), (.a, .mutex .next), (.a, .mutex (.stamp 5)),
    (.a, .load), (.a, .store), (.a, .call), (.a, .mutex .next), (.a, .mutex .next), (.b, .call),
    (.b, .mutex .next), (.b, .mutex .next), (.b, .mutex .next), (.b, .mutex (.stamp 6))]

def overtaken : State Tid ℕ :=
  (system procs twice 0).exec (fun _ _ => True) (unused twice) overtaking

section Lost

variable {m : FutexMutex.State ι} {o : Option ι} {i : ι} {mv : Move ι} {hd : Header ι} {t : Thread}

/-- Once the owner word does not name its recorded holder it never does again: its release raises,
and nobody else stores that pid. -/
theorem lost_step (hinj : Function.Injective P.pid) (hI : Implements P m o)
    (hforce : (m.locals i).pc ≠ .forceXchg) (hlost : ¬ OwnerRecorded P m)
    (he : FutexMutex.Effect i (P.pid i) mv m.shared (m.locals i) hd t) :
    ¬ OwnerRecorded P ⟨hd, Function.update m.locals i t⟩ := by
  simp only [OwnerRecorded, not_forall] at hlost ⊢
  obtain ⟨j, hrec, hne⟩ := hlost
  have htaken := Thread.taken_of_recorded hrec
  refine ⟨j, ?_⟩
  by_cases hj : j = i
  · subst hj
    rw [Function.update_self]
    -- the holder keeps its mark as long as it neither takes the word nor lets go of it
    have key (hpc : ∀ a, t.pc ≠ .storeOwner a) (hx : t.pc ≠ .relXchg)
        (ht : t.taken = (m.locals j).taken) (howner : hd.ownerPid = m.shared.ownerPid) :
        ∃ _ : t.recorded = true, ¬ hd.ownerPid = P.pid j := by
      refine ⟨?_, by rwa [howner]⟩
      rw [htaken] at ht
      cases hp : t.pc <;> simp_all [Thread.recorded]
    cases he with
    | call f hm hpc =>
      have hstores := f.storesOwner_entry
      have hin := f.inside_entry
      refine key (fun a ha => ?_) (fun hx => ?_) rfl rfl
      · rw [show f.entry = .storeOwner a from ha] at hstores
        cases hstores
      · rw [show f.entry = .relXchg from hx] at hin
        cases hin
    | take a v hpc hv hmark hfree =>
      exact absurd hfree (hI.word.2 (hI.agrees.exists_iff.1 ⟨j, htaken⟩))
    | probe p hpc hp | leave a p hpc hin hp =>
      have hout := Pc.inside_of_trying hp.1
      refine key (fun a ha => ?_) (fun hx => ?_) rfl rfl
      · rw [show p = .storeOwner a from ha] at hout
        cases hout
      · rw [show p = .relXchg from hx] at hout
        cases hout
    | storeOwner a hpc => simp [Thread.recorded, hpc] at hrec
    | owned hpc howner => exact absurd howner hne
    | drop hpc =>
      rcases hpc with hpc | hpc
      · simp [Thread.recorded, hpc] at hrec
      · exact absurd hpc hforce
    | clearOwner contended p hpc hp | wake s who hpc hs =>
      simp [(hI.thread j).leaving (by rw [hpc]; rfl)] at htaken
    | refused a hpc | passed a hpc | mark a hpc | sleep a hpc | again a hpc | woken a hpc
    | storeLastNs a now hpc | disowned hpc =>
      exact key (by simp [Thread.goto, Thread.succeed]) (by simp [Thread.goto, Thread.succeed])
        rfl rfl
  · rw [Function.update_of_ne hj]
    refine ⟨hrec, ?_⟩
    rcases ownerPid_cases he with ho | ho | ho <;> rw [ho]
    · exact hne
    · exact fun heq => hj (hinj heq).symm
    · exact (P.pid_ne_zero j).symm

end Lost

/-- The owner word names the recorded holder after a step that is no late owner store. -/
theorem ownerRecorded_step {a : ι × Act ι} {c' : State ι δ} (h : (system P work d).Reach ok c)
    (hown : OwnerRecorded P c.mutex) (hsafe : OwnerSafe c a)
    (hs : (system P work d).step c a = some c') : OwnerRecorded P c'.mutex := by
  obtain ⟨sh, w, he, rfl⟩ := effect_of_system_step hs
  obtain ⟨o, hI⟩ := exists_implements ((mutex_reach h).mono fun _ _ => disciplined_of_releasesOwn)
  rw [State.mutex_update]
  rcases he.mutex_step with ⟨hheader, hthread⟩ | ⟨m, hstep, -⟩
  · rw [hheader, hthread, Function.update_eq_self]
    exact hown
  · exact hown.step hI (FutexMutex.effect_of_step hstep) hsafe

theorem not_ownerRecorded_step {a : ι × Act ι} {c' : State ι δ} (hinj : Function.Injective P.pid)
    (h : (system P work d).Reach ok c) (hlost : ¬ OwnerRecorded P c.mutex)
    (hs : (system P work d).step c a = some c') : ¬ OwnerRecorded P c'.mutex := by
  obtain ⟨sh, w, he, rfl⟩ := effect_of_system_step hs
  obtain ⟨o, -, hI, hforce⟩ :=
    (simulation P).reach ((mutex_reach h).mono fun _ _ => disciplined_of_releasesOwn)
  rw [State.mutex_update]
  rcases he.mutex_step with ⟨hheader, hthread⟩ | ⟨m, hstep, -⟩
  · rw [hheader, hthread, Function.update_eq_self]
    exact hlost
  · exact lost_step hinj hI (hforce a.1) hlost (FutexMutex.effect_of_step hstep)

/-- Where the owner word is right, the workers get to their ends. -/
theorem inevitable_of_ownerRecorded [Fintype ι] (hinj : Function.Injective P.pid)
    (h : (system P work d).Reach (fun _ _ => True) c) (hown : OwnerRecorded P c.mutex) :
    (system P work d).Inevitable OwnerSafe Over c := by
  refine Transition.Inevitable.measure
    (fun c => (system P work d).Reach (fun _ _ => True) c ∧ OwnerRecorded P c.mutex)
    State.measure (fun c hI hdone => ?_) (fun c a c' hI _ hok hs => ?_) ⟨h, hown⟩
  · have hraised (i : ι) (hi : raised (c.locals i).thread.pc = true) : (c.locals i).Rejected := by
      apply rejected_of_raised hinj hI.1 hi
      intro hpc
      have htaken := (workerInv_of_reach hI.1 i).taken_of_notOwned hpc
      have hrec := hI.2 i (by simp [State.mutex, Thread.recorded, htaken, hpc])
      exact absurd hrec ((raised_of_reach hinj hI.1).lost i hpc)
    obtain ⟨a, c', hok, hs⟩ := (exists_safe_step hI.1 hraised).resolve_left hdone
    exact ⟨a, c', hok, hs⟩
  · have hI' := ownerRecorded_step hI.1 hI.2 hok hs
    obtain ⟨sh, w, he, rfl⟩ := effect_of_system_step hs
    exact ⟨⟨.step a hI.1 trivial hs, hI'⟩,
      State.measure_lt he (workerInv_of_reach hI.1 a.1).idle⟩

/-- The owner word is right when the workers can get to their ends: once it is wrong, it stays so,
and the worker that has the lock keeps it. -/
theorem ownerRecorded_of_over (hinj : Function.Injective P.pid)
    (h : (system P work d).Reach (fun _ _ => True) c) {c' : State ι δ}
    (hc' : ((system P work d).startAt c).Reach (fun _ _ => True) c') (hover : Over c') :
    OwnerRecorded P c.mutex := by
  by_contra hlost
  have hboth : (system P work d).Reach (fun _ _ => True) c' ∧ ¬ OwnerRecorded P c'.mutex := by
    apply hc'.invariant
      (fun c' => (system P work d).Reach (fun _ _ => True) c' ∧ ¬ OwnerRecorded P c'.mutex)
    · rintro _ rfl
      exact ⟨h, hlost⟩
    · exact fun c₁ a c₂ _ hI _ hs =>
        ⟨.step a hI.1 trivial hs, not_ownerRecorded_step hinj hI.1 hI.2 hs⟩
  apply hboth.2
  intro i hrec
  have htaken := Thread.taken_of_recorded hrec
  rw [show (c'.mutex.locals i).taken = (c'.locals i).thread.taken from rfl,
    (hover i).taken (workerInv_of_reach hboth.1 i)] at htaken
  cases htaken

/-- The workers can still all get to their ends exactly as long as the owner word is the pid of the
worker that has the lock with its pid recorded, and then they do, whatever the schedule, unless a
late owner store erases it.  A worker ends when it has finished, or when it got an argument that
does not fit into its C type. -/
theorem finishes_iff [Fintype ι] (P : Procs ι) (hinj : Function.Injective P.pid)
    (work : ι → List (Job δ)) (d : δ) {c : State ι δ}
    (h : (system P work d).Reach (fun _ _ => True) c) :
    (OwnerRecorded P c.mutex ↔
      ∃ c', ((system P work d).startAt c).Reach (fun _ _ => True) c' ∧ Over c') ∧
    (OwnerRecorded P c.mutex → (system P work d).Inevitable OwnerSafe Over c) ∧
    ((∀ i, ∀ job ∈ work i, job.call.Fits) →
      ∀ c', ((system P work d).startAt c).Reach (fun _ _ => True) c' → Over c' → Finished c') := by
  refine ⟨⟨fun hown => ?_, fun hfinish => ?_⟩, inevitable_of_ownerRecorded hinj h,
    fun hfit c' hc' => finished_of_over hfit (h.trans hc')⟩
  · obtain ⟨c', hc', hover⟩ := (inevitable_of_ownerRecorded hinj h hown).exists_reach
    exact ⟨c', hc'.mono fun _ _ _ => trivial, hover⟩
  · obtain ⟨c', hc', hover⟩ := hfinish
    exact ownerRecorded_of_over hinj h hc' hover

instance [Fintype ι] (P : Procs ι) (m : FutexMutex.State ι) : Decidable (OwnerRecorded P m) :=
  inferInstanceAs (Decidable (∀ i, (m.locals i).recorded = true → m.shared.ownerPid = P.pid i))

/-- The owner store of `a` has erased the pid of `b`. -/
def erased : State Tid ℕ :=
  (system procs twice 0).exec (fun _ _ => True) overtaken [(.a, .mutex .next)]

theorem finishes_iff_erased :
    ¬ ∃ c, ((system procs twice 0).startAt erased).Reach (fun _ _ => True) c ∧ Over c :=
  (finishes_iff procs injective_procs twice 0 (c := erased)
    (.exec _ (.exec overtaking (.init (fresh_unused twice))))).1.not.1 (by decide +kernel)

end MutexWorkers
