import PyFastIpc.Lib.Clients
import PyFastIpc.Lib.Log
import PyFastIpc.Mutex.Search

/-!
# Workers that share data under the mutex

A worker has a list of jobs.  For each it takes the lock with one of the acquire calls, loads the
shared data, stores them changed and releases the lock; if the call gives `False` it goes on with
the next job, and an exception ends it.  The load and the store are steps of their own, so two
workers that were in their critical sections together would lose an update.

The workers are clients of the mutex of `Mutex/Model.lean`: `State.mutex` forgets the data, and a
step of a worker is a step of the mutex or leaves it alone (`mutex_reach`).  A worker whose call got
an argument that does not fit into its C type stops there.  So the critical
sections take effect one after the other (`sections_serialise`), and workers that wait for the lock
do each of their jobs once (`jobs_done_once`).
-/

namespace MutexWorkers

open FutexMutex Log

/-- The last call raised. -/
def raised : Pc → Bool
  | .idle (some (.raised _)) | .idle (some .overflow) => true
  | _ => false

/-- The calls of the mutex; a signal is a setback. -/
@[simps] def interface (ι : Type*) : Clients.Interface Call (Move ι) Thread where
  call := .call
  called
    | .call f => some f
    | _ => none
  called_eq_some m f := by cases m <;> simp
  setback
    | .signal => true
    | _ => false
  begin f t := t.begin f
  idle t := ∃ r, t.pc = .idle r
  raised t := raised t.pc
  idle_of_raised t h := by cases hpc : t.pc <;> simp_all [raised]

/-- The mutex as thread `i` sees it, whose process has pid `pid`. -/
def object {ι : Type*} [DecidableEq ι] (i : ι) (pid : UInt32) :
    Clients.Object (interface ι) (Header ι) where
  step := FutexMutex.step i pid
  step_call f h t s := by
    cases hpc : t.pc with
    | idle r => simp [FutexMutex.step, hpc, eq_comm]
    | _ => simp [FutexMutex.step, hpc]

/-- One pass through the lock: the call that takes it, and what is done to the data under it. -/
structure Job (δ : Type*) where
  call : Call
  locks : call.releases = false
  update : δ → δ

/-- Where a worker stands in its job. -/
inductive Stage (δ : Type*) where
  /-- Before the first job, or in the release of the last one or after it. -/
  | outside
  /-- The lock is being taken for the job, was taken, or was not given. -/
  | entered (job : Job δ)
  | loaded (job : Job δ) (v : δ)
  | stored

structure Worker (δ : Type*) where
  thread : Thread
  stage : Stage δ
  todo : List (Job δ)

/-- The header and the data.  `log` has the jobs whose store was executed, in that order; no step
reads it.  At most `setbacks` more waits end by a signal. -/
structure Shared (ι δ : Type*) extends Clients.Shared (Header ι) where
  data : δ
  log : List (ι × Job δ)

inductive Act (ι : Type*) where
  /-- A step of the worker as a client of the mutex. -/
  | client (act : Clients.Act (Move ι))
  | load
  | store
  deriving DecidableEq

/-- The worker makes its next call. -/
abbrev Act.call {ι : Type*} : Act ι := .client .call

/-- A step of the call. -/
abbrev Act.mutex {ι : Type*} (m : Move ι) : Act ι := .client (.access m)

section Step

variable {ι δ : Type*} [DecidableEq ι]

/-- The next call of a worker: the release of the lock that it holds, or the call of the next
job. -/
def Worker.nextCall (w : Worker δ) : Option (Call × (Thread → Worker δ)) :=
  if raised w.thread.pc then none
  else if w.thread.held then
    match w.stage with
    | .stored => some (.release, fun t => ⟨t, .outside, w.todo⟩)
    | _ => none
  else
    match w.todo with
    | [] => none
    | job :: rest => some (job.call, fun t => ⟨t, .entered job, rest⟩)

/-- The two calls that a worker makes. -/
theorem Worker.nextCall_eq_some {w : Worker δ} {f : Call} {g : Thread → Worker δ}
    (h : w.nextCall = some (f, g)) :
    (w.thread.held = true ∧ w.stage = .stored ∧ f = .release ∧
      g = fun t => ⟨t, .outside, w.todo⟩) ∨
    ∃ job rest, raised w.thread.pc = false ∧ w.thread.held = false ∧ w.todo = job :: rest ∧
      f = job.call ∧ g = fun t => ⟨t, .entered job, rest⟩ := by
  unfold nextCall at h
  split_ifs at h with hraised hheld <;> split at h
  next hstage =>
    obtain ⟨rfl, rfl⟩ := Prod.mk.inj (Option.some.inj h)
    exact .inl ⟨hheld, hstage, rfl, rfl⟩
  next => cases h
  next => cases h
  next job rest htodo =>
    obtain ⟨rfl, rfl⟩ := Prod.mk.inj (Option.some.inj h)
    exact .inr ⟨job, rest, by simpa using hraised, by simpa using hheld, htodo, rfl, rfl⟩

def program : Clients.Program Call Thread (Worker δ) where
  thread := Worker.thread
  next := Worker.nextCall
  resume w t := { w with thread := t }
  thread_next w f g h t := by
    rcases Worker.nextCall_eq_some h with ⟨-, -, -, rfl⟩ | ⟨job, rest, -, -, -, -, rfl⟩ <;> rfl
  thread_resume _ _ := rfl

/-- One atomic step of worker `i`, whose process has pid `pid`. -/
def step (i : ι) (pid : UInt32) (act : Act ι) (sh : Shared ι δ) (w : Worker δ) :
    Option (Shared ι δ × Worker δ) :=
  match act with
  | .client act => (Clients.step (object i pid) program act sh.toShared w).map fun r =>
      ({ sh with toShared := r.1 }, r.2)
  | .load =>
    match w.stage with
    | .entered job =>
      if w.thread.held then some (sh, { w with stage := .loaded job sh.data }) else none
    | _ => none
  | .store =>
    match w.stage with
    | .loaded job v =>
      some ({ sh with data := job.update v, log := sh.log ++ [(i, job)] },
        { w with stage := .stored })
    | _ => none

end Step

variable {ι δ : Type*}

abbrev State (ι δ : Type*) := Config ι (Shared ι δ) (Worker δ)

/-- The workers have their jobs before them, and the mutex was not used yet. -/
structure Fresh (work : ι → List (Job δ)) (d : δ) (c : State ι δ) : Prop where
  state : c.shared.object.state = Futex.zero
  owner : c.shared.object.ownerPid = 0
  data : c.shared.data = d
  log : c.shared.log = []
  locals : ∀ i, c.locals i = ⟨.fresh, .outside, work i⟩

/-- Workers with the jobs `work` on data that are `d` at first. -/
def system [DecidableEq ι] (P : Procs ι) (work : ι → List (Job δ)) (d : δ) :
    Transition (State ι δ) (ι × Act ι) where
  Init := Fresh work d
  step := Config.interleave fun i => step i (P.pid i)

/-! ## What one step can do -/

section Effect

variable [DecidableEq ι]

/-- The effects of one step of worker `i`. -/
inductive Effect (i : ι) (pid : UInt32) (sh : Shared ι δ) (w : Worker δ) :
    Shared ι δ → Worker δ → Prop
  | acquire (job : Job δ) (rest : List (Job δ)) (hidle : ∃ r, w.thread.pc = .idle r)
      (hraised : raised w.thread.pc = false) (hheld : w.thread.held = false)
      (htodo : w.todo = job :: rest) :
      Effect i pid sh w sh ⟨w.thread.begin job.call, .entered job, rest⟩
  | release (hidle : ∃ r, w.thread.pc = .idle r) (hheld : w.thread.held = true)
      (hstage : w.stage = .stored) :
      Effect i pid sh w sh ⟨w.thread.begin .release, .outside, w.todo⟩
  | mutex (m : Move ι) (k : ℕ) (h : Header ι) (t : Thread) (hm : ∀ f, m ≠ .call f)
      (hk : m ≠ .signal ∧ k = sh.setbacks ∨ m = .signal ∧ k + 1 = sh.setbacks)
      (hs : FutexMutex.step i pid m sh.object w.thread = some (h, t)) :
      Effect i pid sh w { sh with object := h, setbacks := k } { w with thread := t }
  | load (job : Job δ) (hheld : w.thread.held = true) (hstage : w.stage = .entered job) :
      Effect i pid sh w sh { w with stage := .loaded job sh.data }
  | store (job : Job δ) (v : δ) (hstage : w.stage = .loaded job v) :
      Effect i pid sh w { sh with data := job.update v, log := sh.log ++ [(i, job)] }
        { w with stage := .stored }

variable {i : ι} {pid : UInt32} {act : Act ι} {sh sh' : Shared ι δ} {w w' : Worker δ}

theorem effect_of_step (hs : step i pid act sh w = some (sh', w')) : Effect i pid sh w sh' w' := by
  unfold step at hs
  split at hs
  next act =>
    obtain ⟨⟨sh₁, w₁⟩, hstep, heq⟩ := Option.map_eq_some_iff.1 hs
    obtain ⟨rfl, rfl⟩ := Prod.mk.inj heq
    cases Clients.effect_of_step hstep with
    | call f g hidle hnext =>
      rcases Worker.nextCall_eq_some hnext with ⟨hheld, hstage, rfl, rfl⟩ |
        ⟨job, rest, hraised, hheld, htodo, rfl, rfl⟩
      · exact .release hidle hheld hstage
      · exact .acquire job rest hidle hraised hheld htodo
    | access m k h t hm hk hmove =>
      refine .mutex m k h t hm ?_ hmove
      cases m <;> simpa using hk
  next =>
    split at hs
    next job hstage =>
      split_ifs at hs with hheld
      obtain ⟨rfl, rfl⟩ := by simpa using hs
      exact .load job hheld hstage
    next => simp at hs
  next =>
    split at hs
    next job v hstage =>
      obtain ⟨rfl, rfl⟩ := by simpa using hs
      exact .store job v hstage
    next => simp at hs

theorem effect_of_system_step {P : Procs ι} {work : ι → List (Job δ)} {d : δ} {c c' : State ι δ}
    {a : ι × Act ι} (hs : (system P work d).step c a = some c') :
    ∃ sh w, Effect a.1 (P.pid a.1) c.shared (c.locals a.1) sh w ∧
      c' = ⟨sh, Function.update c.locals a.1 w⟩ := by
  change Config.interleave (fun i => step i (P.pid i)) c a = some c' at hs
  obtain ⟨sh, w, hstep, rfl⟩ := Config.interleave_eq_some hs
  exact ⟨sh, w, effect_of_step hstep, rfl⟩

/-- A step of a worker is a step of the mutex, with a call that keeps its callers' promise, or
leaves the mutex alone. -/
theorem Effect.mutex_step (he : Effect i pid sh w sh' w') :
    (sh'.object = sh.object ∧ w'.thread = w.thread) ∨
      ∃ m, FutexMutex.step i pid m sh.object w.thread = some (sh'.object, w'.thread) ∧
        ∀ f, m = .call f → f.releases = false ∨ f = .release ∧ w.thread.held = true := by
  have hcall (f : Call) (hidle : ∃ r, w.thread.pc = .idle r) :
      FutexMutex.step i pid (.call f) sh.object w.thread = some (sh.object, w.thread.begin f) :=
    ((object i pid).step_call f sh.object w.thread _).2 ⟨hidle, rfl⟩
  cases he with
  | acquire job rest hidle hraised hheld htodo =>
    refine .inr ⟨.call job.call, hcall job.call hidle, fun f hf => .inl ?_⟩
    obtain rfl := Move.call.inj hf
    exact job.locks
  | release hidle hheld hstage =>
    refine .inr ⟨.call .release, hcall .release hidle, fun f hf => .inr ⟨?_, hheld⟩⟩
    exact (Move.call.inj hf).symm
  | mutex m k h t hm hk hs => exact .inr ⟨m, hs, fun f hf => absurd hf (hm f)⟩
  | load job hheld hstage => exact .inl ⟨rfl, rfl⟩
  | store job v hstage => exact .inl ⟨rfl, rfl⟩

end Effect

/-! ## The mutex of the workers -/

/-- The mutex that the workers share, without the data. -/
def State.mutex (c : State ι δ) : FutexMutex.State ι :=
  ⟨c.shared.object, fun i => (c.locals i).thread⟩

variable [DecidableEq ι] {P : Procs ι} {work : ι → List (Job δ)} {d : δ} {c : State ι δ}
  {ok : State ι δ → ι × Act ι → Prop}

theorem State.mutex_update (sh : Shared ι δ) (l : ι → Worker δ) (i : ι) (w : Worker δ) :
    State.mutex ⟨sh, Function.update l i w⟩ =
      ⟨sh.object, Function.update (fun j => (l j).thread) i w.thread⟩ :=
  Clients.threads_update (P := program) sh.toShared l i w

/-- The workers keep the promise of the callers of the mutex. -/
theorem mutex_reach (h : (system P work d).Reach ok c) :
    (FutexMutex.system P).Reach ReleasesOwn c.mutex := by
  refine h.invariant (fun c => (FutexMutex.system P).Reach ReleasesOwn c.mutex) (fun c hc => ?_)
    fun c a c' _ hr _ hs => ?_
  · exact .init ⟨hc.state, hc.owner, fun i => congrArg Worker.thread (hc.locals i)⟩
  · obtain ⟨sh, w, he, rfl⟩ := effect_of_system_step hs
    rw [State.mutex_update]
    rcases he.mutex_step with ⟨hheader, hthread⟩ | ⟨m, hstep, hcall⟩
    · rw [hheader, hthread, Function.update_eq_self]
      exact hr
    · refine .step (a.1, m) hr ⟨?_, ?_⟩
        (Config.interleave_of_step (fun i => FutexMutex.step i (P.pid i)) hstep)
      · intro hforce
        rcases hcall _ hforce with hrel | ⟨hrel, -⟩ <;> cases hrel
      · intro hrelease
        obtain ⟨o, hI⟩ := exists_implements (hr.mono fun _ _ => disciplined_of_releasesOwn)
        rcases hcall _ hrelease with hrel | ⟨-, hheld⟩
        · cases hrel
        · exact ((hI.thread a.1).held hheld).1

/-- Two workers never hold the lock together. -/
theorem held_unique (h : (system P work d).Reach ok c) {i j : ι}
    (hi : (c.locals i).thread.held = true) (hj : (c.locals j).thread.held = true) : i = j := by
  obtain ⟨o, hI⟩ := exists_implements ((mutex_reach h).mono fun _ _ => disciplined_of_releasesOwn)
  exact hI.agrees.unique ((hI.thread i).held hi).1 ((hI.thread j).held hj).1

/-! ## One critical section after the other -/

/-- The worker is between its load and its release. -/
def Stage.busy : Stage δ → Bool
  | .loaded _ _ | .stored => true
  | _ => false

/-- The job that the worker has begun and whose store was not executed. -/
def Stage.job : Stage δ → List (Job δ)
  | .entered job | .loaded job _ => [job]
  | _ => []

/-- What the critical sections have done. -/
structure Serial (work : ι → List (Job δ)) (d : δ) (c : State ι δ) : Prop where
  data : c.shared.data = replay Job.update d c.shared.log
  busy : ∀ i, (c.locals i).stage.busy = true → (c.locals i).thread.held = true
  loaded : ∀ i job v, (c.locals i).stage = .loaded job v → v = c.shared.data
  order : ∀ i, (doneBy i c.shared.log ++ (c.locals i).stage.job ++ (c.locals i).todo).Sublist
    (work i)

theorem Serial.fresh (hc : Fresh work d c) : Serial work d c where
  data := by rw [hc.data, hc.log]; rfl
  busy i hb := by simp [hc.locals, Stage.busy] at hb
  loaded i job v hl := by simp [hc.locals] at hl
  order i := by simp [hc.log, hc.locals, Stage.job]

/-- A held lock is let go only by a call. -/
theorem held_of_step {i : ι} {pid : UInt32} {m : Move ι} {h h' : Header ι} {t t' : Thread}
    (hm : ∀ f, m ≠ .call f) (he : FutexMutex.Effect i pid m h t h' t') (hheld : t.held = true) :
    t'.held = true := by
  cases he with
  | call f hcall hpc => exact absurd hcall (hm f)
  | storeLastNs a now hpc => rfl
  | _ => exact hheld

section Step

variable {i : ι} {pid : UInt32} {sh : Shared ι δ} {w : Worker δ}

theorem Serial.order_step (hS : Serial work d c) (he : Effect i pid c.shared (c.locals i) sh w) :
    ∀ j, (doneBy j sh.log ++ (Function.update c.locals i w j).stage.job ++
      (Function.update c.locals i w j).todo).Sublist (work j) := by
  refine Config.forall_update (fun j (w : Worker δ) =>
    (doneBy j sh.log ++ w.stage.job ++ w.todo).Sublist (work j)) ?_ fun j hj => ?_
  · have horder := hS.order i
    cases he with
    | acquire job rest hidle hraised hheld htodo =>
      -- a job that was not given the lock is dropped
      rw [htodo, List.append_assoc] at horder
      rw [List.append_assoc]
      exact ((List.sublist_append_right _ _).append_left _).trans horder
    | release hidle hheld hstage => simpa [hstage, Stage.job] using horder
    | mutex m k h t hm hk hs => exact horder
    | load job hheld hstage => simpa [hstage, Stage.job] using horder
    | store job v hstage => simpa [hstage, Stage.job] using horder
  · cases he with
    | store job v hstage =>
      rw [doneBy_append_of_ne hj.symm]
      exact hS.order j
    | _ => exact hS.order j

theorem Serial.step (hS : Serial work d c)
    (hunique : ∀ j, (c.locals i).thread.held = true → (c.locals j).thread.held = true → i = j)
    (he : Effect i pid c.shared (c.locals i) sh w) :
    Serial work d ⟨sh, Function.update c.locals i w⟩ := by
  have hbusy : w.stage.busy = true → w.thread.held = true := fun hb => by
    cases he with
    | acquire job rest hidle hraised hheld htodo | release hidle hheld hstage => cases hb
    | mutex m k h t hm hk hs =>
      exact held_of_step hm (FutexMutex.effect_of_step hs) (hS.busy i hb)
    | load job hheld hstage => exact hheld
    | store job v hstage => exact hS.busy i (by rw [hstage]; rfl)
  refine ⟨?_, Config.forall_update (fun _ (w : Worker δ) => w.stage.busy = true →
    w.thread.held = true) hbusy fun j _ => hS.busy j, ?_, hS.order_step he⟩
  · cases he with
    | store job v hstage =>
      obtain rfl := hS.loaded i job v hstage
      simp [hS.data]
    | _ => exact hS.data
  · refine Config.forall_update (fun _ (w : Worker δ) => ∀ job v, w.stage = .loaded job v →
      v = sh.data) ?_ fun j hj => ?_
    · cases he with
      | mutex m k h t hm hk hs => exact hS.loaded i
      | load job hheld hstage =>
        rintro _ _ ⟨⟩
        rfl
      | _ => exact nofun
    · cases he with
      | store job v hstage =>
        -- the other worker would be in its critical section too
        intro job' v' hl
        refine absurd (hunique j (hS.busy i ?_) (hS.busy j ?_)).symm hj
        · rw [hstage]
          rfl
        · rw [hl]
          rfl
      | _ => exact hS.loaded j

end Step

theorem serial_of_reach (h : (system P work d).Reach ok c) : Serial work d c := by
  refine h.invariant (Serial work d) (fun c hc => .fresh hc) fun c a c' hr hS _ hs => ?_
  obtain ⟨sh, w, he, rfl⟩ := effect_of_system_step hs
  exact hS.step (fun j => held_unique hr) he

/-- The critical sections take effect one after the other, whatever acquire calls the workers use
and whoever shares a process: the data are what the jobs that were stored make of the first data in
some order, nobody holds a value that is out of date, and each worker's jobs were done in the order
of its list, none of them twice. -/
theorem sections_serialise (P : Procs ι) (work : ι → List (Job δ)) (d : δ) {c : State ι δ}
    (h : (system P work d).Reach (fun _ _ => True) c) :
    c.shared.data = replay Job.update d c.shared.log ∧
    (∀ i job v, (c.locals i).stage = .loaded job v → v = c.shared.data) ∧
    ∀ i, (doneBy i c.shared.log ++ (c.locals i).stage.job ++ (c.locals i).todo).Sublist (work i) :=
  have hS := serial_of_reach h
  ⟨hS.data, hS.loaded, hS.order⟩

/-- Adds 1 to a counter, with `acquire()`. -/
def increment : Job ℕ := ⟨.acquire, rfl, (· + 1)⟩

/-- Workers `a` and `b` have one job each. -/
def twice : Tid → List (Job ℕ)
  | .a | .b => [increment]
  | .c => []

def unused (work : Tid → List (Job ℕ)) : State Tid ℕ :=
  ⟨⟨⟨⟨0, 0, Futex.zero, 0, 0⟩, 0⟩, 0, []⟩, fun i => ⟨.fresh, .outside, work i⟩⟩

theorem fresh_unused (work : Tid → List (Job ℕ)) : Fresh work 0 (unused work) :=
  ⟨rfl, rfl, rfl, rfl, fun _ => rfl⟩

/-- Worker `b` sleeps while `a` is in its critical section, and is woken by the release. -/
def takingTurns : List (Tid × Act Tid) :=
  [(.a, .call), (.a, .mutex .next), (.a, .mutex .next), (.a, .mutex .next), (.a, .mutex (.stamp 5)),
    (.a, .load), (.b, .call), (.b, .mutex .next), (.b, .mutex .next), (.b, .mutex .next),
    (.b, .mutex .next), (.a, .store), (.a, .call), (.a, .mutex .next), (.a, .mutex .next),
    (.a, .mutex .next), (.a, .mutex (.wake {.b})), (.b, .mutex .next), (.b, .mutex .next),
    (.b, .mutex .next), (.b, .mutex (.stamp 6)), (.b, .load), (.b, .store), (.b, .call),
    (.b, .mutex .next), (.b, .mutex .next), (.b, .mutex .next), (.b, .mutex (.wake ∅))]

/-- Worker `b` has loaded the counter. -/
def midway : State Tid ℕ :=
  (system procs twice 0).exec (fun _ _ => True) (unused twice) (takingTurns.take 22)

theorem sections_serialise_midway :
    midway.shared.data = 1 ∧ ∀ job v, (midway.locals .b).stage = .loaded job v → v = 1 := by
  have hdata : midway.shared.data = 1 := by decide +kernel
  obtain ⟨-, hloaded, -⟩ := sections_serialise procs twice 0
    (.exec (takingTurns.take 22) (.init (fresh_unused twice)))
  exact ⟨hdata, fun job v hl => (hloaded .b job v hl).trans hdata⟩

/-! ## Workers that wait for the lock -/

/-- The call of the job waits for the lock. -/
def Job.Blocking (job : Job δ) : Prop := ∃ e : Entry, e.call = some job.call

/-- The call of a job that waits for the lock is under way, has got the lock or has raised. -/
def Worker.Underway (w : Worker δ) : Prop :=
  ∀ job, w.stage = .entered job → job.Blocking →
    (∃ a : Acquire, a.Endless ∧
      (w.thread.pc.seeking a = true ∨ w.thread.pc.entering a = true)) ∨
    w.thread.held = true ∨ raised w.thread.pc = true

/-- The worker is in no call and has nothing left to do. -/
structure Worker.Finished (w : Worker δ) : Prop where
  idle : ∃ r, w.thread.pc = .idle r
  returned : raised w.thread.pc = false
  released : w.thread.held = false
  todo : w.todo = []

def Finished (c : State ι δ) : Prop := ∀ i, (c.locals i).Finished

section Underway

variable {i : ι} {pid : UInt32} {sh sh' : Shared ι δ} {w w' : Worker δ}

theorem Worker.Underway.step (hw : w.Underway) (he : Effect i pid sh w sh' w') : w'.Underway := by
  cases he with
  | acquire job rest hidle hraised hheld htodo =>
    rintro _ ⟨⟩ ⟨e, he⟩
    exact .inl ⟨e.how, e.endless, .inl (Entry.seeking_entry he)⟩
  | mutex m k h t hm hk hs =>
    intro job hstage hblock
    have heffect := FutexMutex.effect_of_step hs
    rcases hw job hstage hblock with ⟨a, ha, hseek | henter⟩ | hheld | hraised
    · cases search_step hseek hs with
      | take ht => exact .inl ⟨a, ha, .inr (by rw [ht]; exact decide_eq_true rfl)⟩
      | refused hpc ht => exact .inr (.inr (by rw [ht]; rfl))
      | gaveUp hgive ht =>
        rw [ha.1, ha.2] at hgive
        simp at hgive
      | go p hp ht hword hothers hless => exact .inl ⟨a, ha, .inl (by rw [ht]; exact hp)⟩
    · cases heffect with
      | storeOwner b hpc =>
        obtain rfl : b = a := by simpa [hpc, Pc.entering] using henter
        exact .inl ⟨b, ha, .inr (decide_eq_true rfl)⟩
      | storeLastNs b now hpc => exact .inr (.inl rfl)
      | call f hcall hpc => exact absurd hcall (hm f)
      | take b v hpc hv hmark hfree =>
        cases hp : w.thread.pc <;> simp_all [Pc.grabbing, Pc.entering]
      | probe p hpc hp => cases hq : w.thread.pc <;> simp_all [Pc.probing, Pc.entering]
      | drop hpc => rcases hpc with hpc | hpc <;> simp [hpc, Pc.entering] at henter
      | refused b hpc | passed b hpc | mark b hpc | sleep b hpc | again b hpc | woken b hpc
      | leave b p hpc | disowned hpc | owned hpc | clearOwner b p hpc | wake s who hpc =>
        simp [hpc, Pc.entering] at henter
    · exact .inr (.inl (held_of_step hm heffect hheld))
    · cases hpc : w.thread.pc with
      | idle r => exact absurd hpc (not_idle_of_step hm hs r)
      | _ => simp [hpc, raised] at hraised
  | release hidle hheld hstage | load job hheld hstage | store job v hstage =>
    exact fun _ h _ => by cases h

/-- Between two calls no job is in hand. -/
theorem Worker.Underway.job_eq_nil (hw : w.Underway)
    (hbusy : w.stage.busy = true → w.thread.held = true)
    (hblock : ∀ job ∈ w.stage.job, job.Blocking) (hidle : ∃ r, w.thread.pc = .idle r)
    (hraised : raised w.thread.pc = false) (hheld : w.thread.held = false) :
    w.stage.job = [] := by
  cases hstage : w.stage with
  | outside | stored => rfl
  | loaded job v =>
    have hb := hbusy (by rw [hstage]; rfl)
    simp [hheld] at hb
  | entered job =>
    obtain ⟨r, hidle⟩ := hidle
    rcases hw job hstage (hblock job (by simp [hstage, Stage.job])) with ⟨a, -, h | h⟩ | h | h
    · simp [hidle, Pc.seeking] at h
    · simp [hidle, Pc.entering] at h
    · simp [hheld] at h
    · simp [hraised] at h

end Underway

theorem Serial.blocking (hS : Serial work d c) {i : ι} (hblock : ∀ job ∈ work i, job.Blocking) :
    ∀ job ∈ (c.locals i).stage.job, job.Blocking := fun job hjob =>
  hblock job ((hS.order i).subset (by simp [hjob]))

/-- A worker whose calls all wait for the lock has not skipped a job. -/
def Complete (work : ι → List (Job δ)) (c : State ι δ) : Prop :=
  ∀ i, (∀ job ∈ work i, job.Blocking) →
    doneBy i c.shared.log ++ (c.locals i).stage.job ++ (c.locals i).todo = work i

theorem Complete.step (hC : Complete work c) (hS : Serial work d c)
    (hw : ∀ i, (c.locals i).Underway) {i : ι} {pid : UInt32} {sh : Shared ι δ} {w : Worker δ}
    (he : Effect i pid c.shared (c.locals i) sh w) :
    Complete work ⟨sh, Function.update c.locals i w⟩ := by
  refine Config.forall_update (fun j (w : Worker δ) => (∀ job ∈ work j, job.Blocking) →
    doneBy j sh.log ++ w.stage.job ++ w.todo = work j) (fun hblock => ?_) fun j hj hblock => ?_
  · have hdone := hC i hblock
    cases he with
    | acquire job rest hidle hraised hheld htodo =>
      have hnone : (c.locals i).stage.job = [] :=
        (hw i).job_eq_nil (hS.busy i) (hS.blocking hblock) hidle hraised hheld
      rw [hnone, htodo, List.append_nil] at hdone
      simpa [Stage.job] using hdone
    | release hidle hheld hstage => simpa [hstage, Stage.job] using hdone
    | mutex m k h t hm hk hs => exact hdone
    | load job hheld hstage => simpa [hstage, Stage.job] using hdone
    | store job v hstage => simpa [hstage, Stage.job] using hdone
  · cases he with
    | store job v hstage =>
      rw [doneBy_append_of_ne hj.symm]
      exact hC j hblock
    | _ => exact hC j hblock

theorem complete_of_reach (h : (system P work d).Reach ok c) :
    Complete work c ∧ ∀ i, (c.locals i).Underway := by
  refine h.invariant (fun c => Complete work c ∧ ∀ i, (c.locals i).Underway) (fun c hc => ?_)
    fun c a c' hr hI _ hs => ?_
  · refine ⟨fun i _ => by simp [hc.log, hc.locals, Stage.job], fun i job hstage => ?_⟩
    simp [hc.locals] at hstage
  · obtain ⟨sh, w, he, rfl⟩ := effect_of_system_step hs
    exact ⟨hI.1.step (serial_of_reach hr) hI.2 he,
      Config.forall_update (fun _ (w : Worker δ) => w.Underway) ((hI.2 a.1).step he)
        fun j _ => hI.2 j⟩

/-- A finished worker whose calls waited for the lock has done all of its jobs. -/
theorem doneBy_of_finished (h : (system P work d).Reach ok c) {i : ι}
    (hblock : ∀ job ∈ work i, job.Blocking) (hfin : (c.locals i).Finished) :
    doneBy i c.shared.log = work i := by
  obtain ⟨hC, hw⟩ := complete_of_reach h
  have hS := serial_of_reach h
  have hnone : (c.locals i).stage.job = [] :=
    (hw i).job_eq_nil (hS.busy i) (hS.blocking hblock) hfin.idle hfin.returned hfin.released
  simpa [hnone, hfin.todo] using hC i hblock

/-- A counter under the mutex is exact.  When workers whose calls wait for the lock have finished,
each has done each of its jobs once, in its order, and the total has every amount that was to be
added to it. -/
theorem total_exact [Fintype ι] {M : Type*} [AddCommMonoid M] (P : Procs ι)
    (work : ι → List (Job M)) (d : M) (amount : Job M → M)
    (hblock : ∀ i, ∀ job ∈ work i, job.Blocking)
    (hadd : ∀ i, ∀ job ∈ work i, ∀ v, job.update v = v + amount job) {c : State ι M}
    (h : (system P work d).Reach (fun _ _ => True) c) (hfin : Finished c) :
    (∀ i, doneBy i c.shared.log = work i) ∧
      c.shared.data = d + ∑ i, ((work i).map amount).sum := by
  have hdone (i : ι) : doneBy i c.shared.log = work i :=
    doneBy_of_finished h (hblock i) (hfin i)
  refine ⟨hdone, ?_⟩
  have hlog : replay Job.update d c.shared.log =
      d + (c.shared.log.map fun e => amount e.2).sum := by
    apply replay_eq_add
    rintro l e ⟨rest, hl⟩
    have he : e ∈ c.shared.log := by simp [← hl]
    exact hadd e.1 e.2 (hdone e.1 ▸ mem_doneBy he) _
  rw [(serial_of_reach h).data, hlog, sum_log]
  simp only [hdone]

instance (w : Worker δ) : Decidable w.Finished :=
  match hpc : w.thread.pc with
  | .idle r => decidable_of_iff
      (raised w.thread.pc = false ∧ w.thread.held = false ∧ w.todo = [])
      ⟨fun h => ⟨⟨r, hpc⟩, h.1, h.2.1, h.2.2⟩, fun h => ⟨h.returned, h.released, h.todo⟩⟩
  | .loadOwner _ | .cas _ | .spinLoad _ _ | .spinCas _ _ | .xchg _ | .futexWait _ | .inWait _
  | .storeOwner _ | .storeLastNs _ | .relLoad | .relXchg | .forceXchg | .relOwner _ | .relWake =>
    .isFalse fun ⟨⟨_, h⟩, _, _, _⟩ => by rw [hpc] at h; cases h

instance [Fintype ι] (c : State ι δ) : Decidable (Finished c) :=
  inferInstanceAs (Decidable (∀ i, (c.locals i).Finished))

theorem blocking_twice (i : Tid) : ∀ job ∈ twice i, job.Blocking := by
  cases i <;> simp [twice, increment, Job.Blocking] <;> exact ⟨.acquire, rfl⟩

theorem total_exact_twice :
    ((system procs twice 0).exec (fun _ _ => True) (unused twice) takingTurns).shared.data = 2 :=
  (total_exact procs twice 0 (fun _ => 1) blocking_twice
    (fun i => by cases i <;> simp [twice, increment])
    (.exec takingTurns (.init (fresh_unused twice))) (by decide +kernel)).2

end MutexWorkers
