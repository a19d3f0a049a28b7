import PyFastIpc.Lib.Clients
import PyFastIpc.Semaphore.Tokens
import PyFastIpc.Semaphore.Wakeup
import Mathlib.Algebra.Order.BigOperators.Group.Finset
import Mathlib.Data.Prod.Lex

/-!
# Clients of the semaphore

A client has a list of jobs.  It posts some tokens, or it waits for one and repeats the call until
it has returned `True`; an exception ends it.  The clients are threads of the semaphore of
`Semaphore/Model.lean`: `State.semaphore` forgets the jobs (`semaphore_reach`).

The CAS loops of `post` and `wait` go round only because the count has changed, and it changes no
more often than the jobs say.  So every run with finitely many setbacks is finite, and it ends when
each client is done or asleep (`clients_come_to_rest`).  What the count is then follows from the
jobs that are done (`count_of_reach`).
-/

namespace SemaphoreClients

open FutexSemaphore

inductive Job where
  /-- `post(n)`. -/
  | post (n : ℤ)
  /-- A blocking `wait` that is repeated until it has taken a token. -/
  | take (timeoutNs spin : ℤ)
  deriving DecidableEq

def Job.call : Job → Call
  | .post n => .post n
  | .take timeoutNs spin => .wait true timeoutNs spin

/-- The tokens that the job adds. -/
def Job.amount : Job → ℤ
  | .post n => n
  | .take _ _ => 0

/-- The tokens that the job takes. -/
def Job.need : Job → ℤ
  | .post _ => 0
  | .take _ _ => 1

/-- A post of an amount that fits into the count, or a wait that spins at least once.  Where its
timeout or its spin does not fit into the C type, the wait raises when it is called. -/
def Job.Proper : Job → Prop
  | .post n => 0 ≤ n ∧ n < 2 ^ 32
  | .take _ spin => 1 ≤ spin

instance (job : Job) : Decidable job.Proper :=
  match job with
  | .post n => inferInstanceAs (Decidable (0 ≤ n ∧ n < 2 ^ 32))
  | .take _ spin => inferInstanceAs (Decidable (1 ≤ spin))

/-- A spurious failure, a timeout or a signal. -/
def setback {ι : Type*} : Move ι → Bool
  | .weakFail | .timeout | .signal => true
  | _ => false

/-- The last call raised. -/
def raised : Pc → Bool
  | .idle (some (.raised _)) | .idle (some .overflow) => true
  | _ => false

/-- The last call has done what the job asks for. -/
def finished : Pc → Bool
  | .idle (some .none) | .idle (some (.bool true)) => true
  | _ => false

/-- The calls of the semaphore. -/
@[simps] def interface (ι : Type*) : Clients.Interface Call (Move ι) Thread where
  call := .call
  called
    | .call f => some f
    | _ => none
  called_eq_some m f := by cases m <;> simp
  setback := setback
  begin f t := t.begin f
  idle t := ∃ r, t.pc = .idle r
  raised t := raised t.pc
  idle_of_raised t h := by cases hpc : t.pc <;> simp_all [raised]

/-- The semaphore as thread `i` sees it, whose process has pid `pid`. -/
def object {ι : Type*} [DecidableEq ι] (i : ι) (pid : UInt32) :
    Clients.Object (interface ι) (Header ι) where
  step := FutexSemaphore.step i pid
  step_call f h t s := by
    cases hpc : t.pc with
    | idle r => simp [FutexSemaphore.step, hpc, eq_comm]
    | _ => simp [FutexSemaphore.step, hpc]

/-- A job is done when a call has returned `None` or `True`. -/
@[simps] def rules : Clients.Jobs Call Thread Job where
  call := Job.call
  done t := finished t.pc

abbrev Client := Clients.Client Thread Job

/-- The header.  At most `setbacks` more CAS fail spuriously or sleeps end by a timeout or a
signal. -/
abbrev Shared (ι : Type*) := Clients.Shared (Header ι)

abbrev Act (ι : Type*) := Clients.Act (Move ι)

variable {ι : Type*}

abbrev State (ι : Type*) := Config ι (Shared ι) Client

/-- The clients have their jobs before them, and the count is `c₀`. -/
structure Fresh (c₀ : UInt32) (work : ι → List Job) (c : State ι) : Prop where
  count : c.shared.object.count = ⟨c₀, ∅⟩
  locals : ∀ i, c.locals i = ⟨.fresh, work i⟩

/-- Clients with the jobs `work` of one semaphore whose count is `c₀` at first. -/
def system [DecidableEq ι] (pid : ι → UInt32) (c₀ : UInt32) (work : ι → List Job) :
    Transition (State ι) (ι × Act ι) :=
  Clients.system (fun _ i => object i (pid i)) (rules.program (interface ι)) (Fresh c₀ work)

/-- Nobody goes on. -/
def AtRest (c : State ι) : Prop :=
  ∀ i, (c.locals i).Over (interface ι) ∨ i ∈ c.shared.object.count.sleepers

def Finished (c : State ι) : Prop := ∀ i, (c.locals i).Finished (interface ι)

/-- The effects of one step of client `i`. -/
abbrev Effect [DecidableEq ι] (i : ι) (pid : UInt32) (sh : Shared ι) (w : Client) :
    Shared ι → Client → Prop :=
  Clients.Client.Effect (object i pid) rules sh w

theorem effect_of_system_step [DecidableEq ι] {pid : ι → UInt32} {c₀ : UInt32}
    {work : ι → List Job} {c c' : State ι} {a : ι × Act ι}
    (hs : (system pid c₀ work).step c a = some c') :
    ∃ sh w, Effect a.1 (pid a.1) c.shared (c.locals a.1) sh w ∧
      c' = ⟨sh, Function.update c.locals a.1 w⟩ := by
  obtain ⟨sh, w, he, rfl⟩ := Clients.effect_of_system_step hs
  exact ⟨sh, w, he.client, rfl⟩

/-! ## How far a call is from its end -/

/-- The call has done what the job asks for and has still to return. -/
def settled : Pc → Bool
  | .wake _ | .storeLastPid | .storeLastNs => true
  | _ => false

/-- A bound on the steps of a call until it adds or takes tokens, raises or falls asleep, as long as
the count stays what it is. -/
def effort [DecidableEq ι] (s : Futex ι) (i : ι) : Pc → ℕ
  | .idle _ | .wake _ | .storeLastNs => 0
  | .peek | .storeLastPid => 1
  | .addLoad _ => 2
  | .addCas _ cur _ => if s.word = cur then 1 else 3
  | .spinLoad w k => if s.word = 0 then 2 * (w.spin.toNat - k) + 3 else 2
  | .spinCas w k v _ =>
    if s.word = v then 1 else if s.word = 0 then 2 * (w.spin.toNat - k) + 2 else 4
  | .futexWait _ => if s.word = 0 then 1 else 3
  | .inWait w =>
    if i ∈ s.sleepers then 0 else if s.word = 0 then 2 * w.spin.toNat + 4 else 4

/-- The call goes on, and the count stays what it is. -/
structure Onward (i : ι) (s s' : Futex ι) [DecidableEq ι] (p p' : Pc) : Prop where
  word : s'.word = s.word
  others : ∀ j, j ≠ i → (j ∈ s'.sleepers ↔ j ∈ s.sleepers)
  busy : ∀ r, p' = .idle r → raised p' = true
  settled : settled p' = settled p
  less : effort s' i p' < effort s i p

section Effort

variable [DecidableEq ι] {i : ι} {pid : UInt32} {m : Move ι} {h h' : Header ι} {t t' : Thread}
  {s : Futex ι} {w : Wait}

/-- What follows a spin attempt, or the wakeup of a sleeper. -/
theorem effort_spinFrom (hb : w.blocking = true) (k : ℕ) :
    effort s i (w.spinFrom k) <
      if s.word = 0 then 2 * (w.spin.toNat + 1 - k) + 2 else 4 := by
  unfold Wait.spinFrom
  split_ifs <;> simp_all only [effort, if_true, if_false] <;> omega

theorem looping_spinFrom (hb : w.blocking = true) (k : ℕ) : (w.spinFrom k).looping = some w := by
  unfold Wait.spinFrom
  split_ifs <;> rfl

theorem finished_of_looping {p : Pc} (hp : p.looping = some w) : finished p = false := by
  cases p <;> simp_all [Pc.looping, finished]

theorem settled_of_looping {p : Pc} (hp : p.looping = some w) : settled p = false := by
  cases p <;> simp_all [Pc.looping, settled]

theorem Onward.finished {s' : Futex ι} {p p' : Pc} (h : Onward i s s' p p') :
    finished p' = false := by
  cases hp : p' with
  | idle r =>
    have hraised := h.busy r hp
    rw [hp] at hraised
    cases r with
    | none => rfl
    | some r => cases r <;> simp_all [raised, SemaphoreClients.finished]
  | _ => rfl

theorem Onward.search {p p' : Pc} (hp : p.looping = some w) (hp' : p'.looping = some w)
    (hless : effort s i p' < effort s i p) : Onward i s s p p' :=
  ⟨rfl, fun _ _ => Iff.rfl, fun r hr => by simp [hr] at hp',
    (settled_of_looping hp').trans (settled_of_looping hp).symm, hless⟩

/-- One access of a call. -/
theorem onward_of_next (hloop : ∀ w, t.pc.looping = some w → w.blocking = true ∧ 1 ≤ w.spin)
    (hs : next i pid h t = some (h', t')) :
    finished t'.pc = true ∨ (settled t.pc = false ∧ settled t'.pc = true) ∨
      Onward i h.count h'.count t.pc t'.pc := by
  have go {p : Pc} (hbusy : ∀ r, p = .idle r → raised p = true) (hset : settled p = settled t.pc)
      (hless : effort h.count i p < effort h.count i t.pc) :
      Onward i h.count h.count t.pc p := ⟨rfl, fun _ _ => Iff.rfl, hbusy, hset, hless⟩
  unfold next at hs
  cases hpc : t.pc with
  | peek =>
    obtain ⟨rfl, rfl⟩ := by simpa [hpc] using hs
    exact .inl rfl
  | addLoad add =>
    simp only [hpc] at hs
    rw [hpc] at go
    split_ifs at hs with hov <;> obtain ⟨rfl, rfl⟩ := by simpa using hs
    · exact .inr (.inr (go (fun _ _ => rfl) rfl (by simp [effort, Thread.goto])))
    · exact .inr (.inr (go (fun r hr => by cases hr) rfl (by simp [effort, Thread.goto])))
  | addCas add cur room =>
    simp only [hpc] at hs
    rw [hpc] at go
    by_cases hcur : h.count.word = cur
    · rw [if_pos hcur, Option.some.injEq, Prod.mk.injEq] at hs
      obtain ⟨rfl, rfl⟩ := hs
      simp only [Thread.add]
      split_ifs
      · exact .inr (.inl ⟨rfl, rfl⟩)
      · exact .inl rfl
    · rw [if_neg hcur, Option.some.injEq, Prod.mk.injEq] at hs
      obtain ⟨rfl, rfl⟩ := hs
      exact .inr (.inr (go (fun r hr => by cases hr) rfl
        (by simp [effort, Thread.goto, if_neg hcur])))
  | spinLoad w k =>
    simp only [hpc] at hs
    obtain ⟨hb, -⟩ := hloop w (by rw [hpc]; rfl)
    split_ifs at hs with hpos <;> obtain ⟨rfl, rfl⟩ := by simpa using hs
    · exact .inr (.inr (.search (w := w) rfl rfl (by simp [effort, Thread.goto, if_neg hpos])))
    · have hless := effort_spinFrom (s := h.count) (i := i) hb (k + 1)
      rw [not_not] at hpos
      refine .inr (.inr (.search rfl (looping_spinFrom hb _) ?_))
      simp only [effort, if_pos hpos, Thread.goto] at hless ⊢
      omega
  | spinCas w k v pos =>
    simp only [hpc] at hs
    obtain ⟨hb, -⟩ := hloop w (by rw [hpc]; rfl)
    split_ifs at hs with hv <;> obtain ⟨rfl, rfl⟩ := by simpa using hs
    · exact .inr (.inl ⟨rfl, rfl⟩)
    · have hless := effort_spinFrom (s := h.count) (i := i) hb (k + 1)
      refine .inr (.inr (.search rfl (looping_spinFrom hb _) ?_))
      simp only [effort, if_neg hv, Thread.goto] at hless ⊢
      split_ifs at hless ⊢ <;> omega
  | futexWait w =>
    simp only [hpc] at hs
    obtain ⟨hb, hspin⟩ := hloop w (by rw [hpc]; rfl)
    cases hw : h.count.wait i 0 with
    | none =>
      obtain ⟨rfl, rfl⟩ := by simpa [hw] using hs
      have hfrom : w.spinFrom 0 = .spinLoad w 0 := if_pos (by omega)
      refine .inr (.inr (.search rfl (looping_spinFrom hb _) ?_))
      simp [effort, Thread.goto, hfrom, if_neg (Futex.wait_eq_none hw)]
    | some s =>
      obtain ⟨rfl, rfl⟩ := by simpa [hw] using hs
      obtain ⟨hword, rfl⟩ := Futex.wait_eq_some hw
      refine .inr (.inr ⟨rfl, fun j hj => by simp [hj], (fun r hr => by cases hr), rfl, ?_⟩)
      simp [effort, Thread.goto, hword]
  | inWait w =>
    simp only [hpc] at hs
    obtain ⟨hb, -⟩ := hloop w (by rw [hpc]; rfl)
    split_ifs at hs with hw
    obtain ⟨rfl, rfl⟩ := by simpa using hs
    have hless := effort_spinFrom (s := h.count) (i := i) hb 0
    refine .inr (.inr (.search rfl (looping_spinFrom hb _) ?_))
    simp only [effort, if_neg hw, Thread.goto] at hless ⊢
    split_ifs at hless ⊢ <;> omega
  | storeLastPid =>
    obtain ⟨rfl, rfl⟩ := by simpa [hpc] using hs
    rw [hpc] at go
    exact .inr (.inr (go (fun r hr => by cases hr) rfl (by simp [effort, Thread.goto])))
  | idle r | wake add | storeLastNs => simp [hpc] at hs

/-- One step of a call that is no setback. -/
theorem onward_of_step (hm : ∀ f, m ≠ .call f) (hset : setback m = false)
    (hloop : ∀ w, t.pc.looping = some w → w.blocking = true ∧ 1 ≤ w.spin)
    (hs : FutexSemaphore.step i pid m h t = some (h', t')) :
    finished t'.pc = true ∨ (settled t.pc = false ∧ settled t'.pc = true) ∨
      Onward i h.count h'.count t.pc t'.pc := by
  cases m with
  | next => exact onward_of_next hloop hs
  | stamp now =>
    cases hpc : t.pc with
    | storeLastNs =>
      obtain ⟨rfl, rfl⟩ := by simpa [FutexSemaphore.step, hpc] using hs
      exact .inl rfl
    | _ => simp [FutexSemaphore.step, hpc] at hs
  | wake who =>
    cases hpc : t.pc with
    | wake add =>
      simp only [FutexSemaphore.step, hpc] at hs
      obtain ⟨s, -, heq⟩ := Option.map_eq_some_iff.1 hs
      obtain ⟨rfl, rfl⟩ := by simpa using heq
      exact .inl rfl
    | _ => simp [FutexSemaphore.step, hpc] at hs
  | call f => exact absurd rfl (hm f)
  | weakFail | timeout | signal => cases hset

end Effort

/-! ## Where clients can stand -/

/-- The job a call is made for. -/
def Job.Runs : Job → Pc → Prop
  | .post n, .peek => n = 0
  | .post n, .addLoad add | .post n, .addCas add _ _ => n = add.toNat
  | .post _, .wake _ => True
  | .take _ spin, p => (∃ w, p.looping = some w ∧ w.blocking = true ∧ w.spin = spin) ∨
      p = .storeLastPid ∨ p = .storeLastNs
  | _, _ => False

/-- The jobs for which the tokens were not yet added or taken. -/
def Client.pending (w : Client) : List Job :=
  if settled w.thread.pc then w.todo.tail else w.todo

/-- What is known about one client, whatever the others do. -/
structure ClientInv (jobs : List Job) (w : Client) : Prop where
  suffix : w.todo <:+ jobs
  busy : (∀ r, w.thread.pc ≠ .idle r) → ∃ job ∈ w.todo.head?, job.Runs w.thread.pc
  posted : w.thread.posted + (w.pending.map Job.amount).sum = (jobs.map Job.amount).sum
  taken : w.thread.taken + (w.pending.map Job.need).sum = (jobs.map Job.need).sum

/-- The clients as threads of the semaphore. -/
def State.semaphore (c : State ι) : FutexSemaphore.State ι :=
  ⟨c.shared.object, fun i => (c.locals i).thread⟩

section Inv

variable {jobs : List Job} {w : Client} {p : Pc} {job : Job}

theorem Client.pending_of_settled (h : settled w.thread.pc = true) : w.pending = w.todo.tail :=
  if_pos h

theorem Client.pending_of_unsettled (h : settled w.thread.pc = false) : w.pending = w.todo := by
  simp [Client.pending, h]

theorem Job.Runs.not_idle {r : Option Ret} (h : job.Runs (.idle r)) : False := by
  cases job with
  | post n => exact h
  | take timeoutNs spin => simp [Job.Runs] at h

/-- Tokens are added by a post of them. -/
theorem Job.Runs.adding {add : UInt32} (h : job.Runs p)
    (hp : p = .addLoad add ∨ ∃ cur room, p = .addCas add cur room) : job = .post add.toNat := by
  cases job with
  | post n =>
    rcases hp with rfl | ⟨cur, room, rfl⟩
    · exact congrArg Job.post h
    · exact congrArg Job.post h
  | take timeoutNs spin =>
    rcases hp with rfl | ⟨cur, room, rfl⟩
    · simp [Job.Runs, Pc.looping] at h
    · simp [Job.Runs, Pc.looping] at h

theorem Job.Runs.looping {v : Wait} (h : job.Runs p) (hp : p.looping = some v) :
    v.blocking = true ∧ ∃ timeoutNs, job = .take timeoutNs v.spin := by
  cases job with
  | post n => cases p <;> simp_all [Job.Runs, Pc.looping]
  | take timeoutNs spin =>
    rcases h with ⟨u, hu, hb, rfl⟩ | rfl | rfl
    · obtain rfl := Option.some.inj (hu.symm.trans hp)
      exact ⟨hb, timeoutNs, rfl⟩
    · cases hp
    · cases hp

variable {t : Thread} {rest : List Job}

/-- The call goes on, or returns without a token. -/
theorem ClientInv.keep (hI : ClientInv jobs w) (hfin : finished t.pc = false)
    (hset : settled t.pc = settled w.thread.pc) (hposted : t.posted = w.thread.posted)
    (htaken : t.taken = w.thread.taken)
    (hruns : (∀ r, t.pc ≠ .idle r) → ∃ job ∈ w.todo.head?, job.Runs t.pc) :
    ClientInv jobs (rules.resume w t) := by
  have hresume : rules.resume w t = ⟨t, w.todo⟩ := Clients.Jobs.resume_of_not_done hfin
  have hpending : Client.pending (rules.resume w t) = w.pending := by
    rw [hresume]
    simp only [Client.pending, hset]
  refine ⟨?_, ?_, ?_, ?_⟩
  · rw [hresume]
    exact hI.suffix
  · rw [hresume]
    exact hruns
  · rw [hpending, show (rules.resume w t).thread.posted = _ from hposted]
    exact hI.posted
  · rw [hpending, show (rules.resume w t).thread.taken = _ from htaken]
    exact hI.taken

/-- The tokens were added or taken. -/
theorem ClientInv.settle (hI : ClientInv jobs w) (htodo : w.todo = job :: rest)
    (hset : settled w.thread.pc = false) (hafter : finished t.pc = true ∨ settled t.pc = true)
    (hposted : t.posted = w.thread.posted + job.amount)
    (htaken : t.taken = w.thread.taken + job.need)
    (hruns : (∀ r, t.pc ≠ .idle r) → finished t.pc = false ∧ job.Runs t.pc) :
    ClientInv jobs (rules.resume w t) := by
  have hbefore : w.pending = job :: rest := by simp [Client.pending, hset, htodo]
  have hpending : Client.pending (rules.resume w t) = rest := by
    simp only [Client.pending, Clients.Jobs.resume, htodo]
    rcases hafter with hfin | hset'
    · have hidle : settled t.pc = false := by
        cases hpc : t.pc <;> simp_all [finished, settled]
      simp [hfin, hidle]
    · have hbusy : finished t.pc = false := by
        cases hpc : t.pc <;> simp_all [finished, settled]
      simp [hset', hbusy]
  refine ⟨?_, fun hbusy => ?_, ?_, ?_⟩
  · exact (Clients.Jobs.resume_todo_suffix w t).trans hI.suffix
  · obtain ⟨hfin, hjob⟩ := hruns hbusy
    exact ⟨job, by simp [Clients.Jobs.resume, hfin, htodo], hjob⟩
  · have hsum := hI.posted
    rw [hbefore, List.map_cons, List.sum_cons] at hsum
    rw [hpending, show (rules.resume w t).thread.posted = _ from hposted]
    omega
  · have hsum := hI.taken
    rw [hbefore, List.map_cons, List.sum_cons] at hsum
    rw [hpending, show (rules.resume w t).thread.taken = _ from htaken]
    omega

/-- A call that has added or taken its tokens returns. -/
theorem ClientInv.ret (hI : ClientInv jobs w) (hset : settled w.thread.pc = true)
    (hfin : finished t.pc = true) (hposted : t.posted = w.thread.posted)
    (htaken : t.taken = w.thread.taken) : ClientInv jobs (rules.resume w t) := by
  obtain ⟨r, hidle⟩ : ∃ r, t.pc = .idle r := by
    cases hpc : t.pc <;> simp_all [finished]
  have hpending : Client.pending (rules.resume w t) = w.pending := by
    have hafter : settled (rules.resume w t).thread.pc = false := by
      change settled t.pc = false
      rw [hidle]
      rfl
    rw [Client.pending_of_settled hset, Client.pending_of_unsettled hafter,
      Clients.Jobs.resume_of_done (R := rules) hfin]
  refine ⟨?_, fun hbusy => absurd hidle (hbusy r), ?_, ?_⟩
  · exact (Clients.Jobs.resume_todo_suffix w t).trans hI.suffix
  · rw [hpending, show (rules.resume w t).thread.posted = _ from hposted]
    exact hI.posted
  · rw [hpending, show (rules.resume w t).thread.taken = _ from htaken]
    exact hI.taken

/-- The entry of a call for a proper job. -/
theorem Job.runs_entry (hp : job.Proper) :
    (job.Runs job.call.entry ∨ ¬ job.call.Fits ∧ job.call.entry = .idle (some .overflow)) ∧
      settled job.call.entry = false := by
  cases job with
  | post n =>
    obtain ⟨add, hentry, hn⟩ := entry_post hp.1 hp.2
    rw [show (Job.post n).call.entry = _ from hentry, addTokens]
    split_ifs with hadd
    · subst hadd
      exact ⟨.inl hn, rfl⟩
    · exact ⟨.inl hn, rfl⟩
  | take timeoutNs spin =>
    rcases Call.entry_wait_cases true timeoutNs spin with hentry | ⟨hfits, hentry⟩
    · have hloop := looping_spinFrom (w := ⟨true, decide (0 ≤ timeoutNs), spin⟩) rfl 0
      rw [← hentry] at hloop
      exact ⟨.inl (.inl ⟨_, hloop, rfl, rfl⟩), settled_of_looping hloop⟩
    · exact ⟨.inr ⟨hfits, hentry⟩, by rw [Job.call, hentry]; rfl⟩

/-- A call for a proper job whose arguments do not fit raises at once. -/
theorem Job.runs_of_busy (hp : job.Proper) (hbusy : ∀ r, job.call.entry ≠ .idle r) :
    job.Runs job.call.entry :=
  (job.runs_entry hp).1.resolve_right fun h => hbusy _ h.2

end Inv

section Run

variable [DecidableEq ι] {i : ι} {pid : UInt32} {sh sh' : Shared ι} {w w' : Client}
  {jobs : List Job}

theorem not_idle_of_step {m : Move ι} {h h' : Header ι} {t t' : Thread} (hm : ∀ f, m ≠ .call f)
    (hs : FutexSemaphore.step i pid m h t = some (h', t')) (r : Option Ret) : t.pc ≠ .idle r := by
  intro hpc
  cases m with
  | call f => exact hm f rfl
  | _ => simp [FutexSemaphore.step, next, hpc] at hs

theorem ClientInv.step (hI : ClientInv jobs w) (hproper : ∀ job ∈ jobs, job.Proper)
    (hacc : w.thread.Accounted) (he : Effect i pid sh w sh' w') : ClientInv jobs w' := by
  cases he with
  | call job rest hidle hraised htodo =>
    obtain ⟨r, hidle⟩ := hidle
    have hmem : job ∈ jobs := hI.suffix.subset (by simp [htodo])
    obtain ⟨-, hset⟩ := job.runs_entry (hproper job hmem)
    have hpending : Client.pending { w with thread := w.thread.begin job.call } = w.pending := by
      have hbefore : settled w.thread.pc = false := by rw [hidle]; rfl
      rw [Client.pending_of_unsettled hbefore, Client.pending_of_unsettled hset]
    exact ⟨hI.suffix,
      fun hbusy => ⟨job, by simp [htodo], job.runs_of_busy (hproper job hmem) hbusy⟩,
      hpending.symm ▸ hI.posted, hpending.symm ▸ hI.taken⟩
  | access m k h t hm hk hs =>
    have hbusy := not_idle_of_step hm hs
    obtain ⟨job, hjob, hruns⟩ := hI.busy hbusy
    obtain ⟨rest, htodo⟩ := List.head?_eq_some_iff.1 hjob
    have keep {p : Pc} (hfin : finished p = false) (hset : settled p = settled w.thread.pc)
        (hp : (∀ r, p ≠ .idle r) → job.Runs p) :
        ClientInv jobs (rules.resume w (w.thread.goto p)) :=
      hI.keep hfin hset rfl rfl fun hne => ⟨job, hjob, hp hne⟩
    cases FutexSemaphore.effect_of_step hs with
    | call f hcall hpc => exact absurd hcall (hm f)
    | peeked hpc =>
      rw [hpc] at hruns
      have hzero : job.amount = 0 ∧ job.need = 0 := by
        cases job with
        | post n => exact ⟨hruns, rfl⟩
        | take timeoutNs spin => simp [Job.Runs, Pc.looping] at hruns
      refine hI.settle htodo (by rw [hpc]; rfl) (.inl rfl) ?_ ?_ fun hne => absurd rfl (hne _)
      · rw [hzero.1, add_zero]
        rfl
      · rw [hzero.2, add_zero]
        rfl
    | refused add hpc hov => exact keep rfl (by rw [hpc]; rfl) fun hne => absurd rfl (hne _)
    | seen add cur room hpc =>
      obtain rfl := hruns.adding (.inl hpc)
      exact keep rfl (by rw [hpc]; rfl) fun _ => rfl
    | retry add cur room hpc =>
      obtain rfl := hruns.adding (.inr ⟨cur, room, hpc⟩)
      exact keep rfl (by rw [hpc]; rfl) fun _ => rfl
    | add add cur room hm hpc hcur =>
      obtain rfl := hruns.adding (.inr ⟨cur, room, hpc⟩)
      have harg : w.thread.arg = add.toNat := by
        simp only [Thread.Accounted, hpc] at hacc
        exact hacc.1
      refine hI.settle htodo (by rw [hpc]; rfl) ?_ ?_ (add_zero _).symm fun hne => ?_
      · simp only [Thread.add]
        split_ifs
        · exact .inr rfl
        · exact .inl rfl
      · simp only [Thread.add, harg, Job.amount]
      · by_cases hzero : cur = 0
        · simp [Thread.add, hzero, finished, Job.Runs]
        · exact absurd (by simp [Thread.add, hzero]) (hne (some .none))
    | wake add s who hpc hs => exact hI.ret (by rw [hpc]; rfl) rfl rfl rfl
    | search v p hpc hp hout =>
      obtain ⟨hb, timeoutNs, rfl⟩ := hruns.looping hpc
      have hp' : p.looping = some v := hp.resolve_right fun hgive => by simp [hb] at hgive
      exact keep (finished_of_looping hp') ((settled_of_looping hp').trans
        (settled_of_looping hpc).symm) fun _ => .inl ⟨v, hp', hb, rfl⟩
    | take v k x pos hpc hv =>
      obtain ⟨hb, timeoutNs, rfl⟩ := hruns.looping (v := v) (by rw [hpc]; rfl)
      exact hI.settle htodo (by rw [hpc]; rfl) (.inr rfl) (add_zero _).symm rfl
        fun _ => ⟨rfl, .inr (.inl rfl)⟩
    | sleep v hpc hword =>
      obtain ⟨hb, timeoutNs, rfl⟩ := hruns.looping (v := v) (by rw [hpc]; rfl)
      exact keep rfl (by rw [hpc]; rfl) fun _ => .inl ⟨v, rfl, hb, rfl⟩
    | leave v p hpc hin hp =>
      obtain ⟨hb, timeoutNs, rfl⟩ := hruns.looping (v := v) (by rw [hpc]; rfl)
      rcases hp with (hp | hgive) | rfl
      · exact keep (finished_of_looping hp) ((settled_of_looping hp).trans (by rw [hpc]; rfl))
          fun _ => .inl ⟨v, hp, hb, rfl⟩
      · simp [hb] at hgive
      · exact keep rfl (by rw [hpc]; rfl) fun hne => absurd rfl (hne _)
    | storeLastPid hpc =>
      rw [hpc] at hruns
      refine keep rfl (by rw [hpc]; rfl) fun _ => ?_
      cases job with
      | post n => exact hruns.elim
      | take timeoutNs spin => exact .inr (.inr rfl)
    | storeLastNs now hpc => exact hI.ret (by rw [hpc]; rfl) rfl rfl rfl

end Run

/-! ## Runs -/

section Runs

variable [DecidableEq ι] {pid : ι → UInt32} {c₀ : UInt32} {work : ι → List Job} {c : State ι}
  {ok : State ι → ι × Act ι → Prop}

/-- What the calls of clients with proper jobs are like. -/
def ProperCalls (c : FutexSemaphore.State ι) (a : ι × Move ι) : Prop :=
  PostsInRange c a ∧ BlockingWaits c a

omit [DecidableEq ι] in
theorem properCalls {i : ι} {m : Move ι} {s : FutexSemaphore.State ι}
    (h : ∀ f, m = .call f → ∃ job : Job, job.Proper ∧ f = job.call) : ProperCalls s (i, m) := by
  constructor
  · intro n hn
    obtain ⟨job, hproper, hf⟩ := h _ hn
    cases job with
    | post k =>
      obtain rfl : n = k := by simpa [Job.call] using hf
      exact hproper
    | take timeoutNs spin => cases hf
  · intro b t s hw
    obtain ⟨job, hproper, hf⟩ := h _ hw
    cases job with
    | post k => cases hf
    | take timeoutNs spin =>
      obtain ⟨rfl, rfl, rfl⟩ := by simpa [Job.call] using hf
      exact ⟨rfl, hproper⟩

theorem State.semaphore_update {c : State ι} {i : ι} {sh : Shared ι} {w : Client} :
    State.semaphore ⟨sh, Function.update c.locals i w⟩ =
      ⟨sh.object, Function.update c.semaphore.locals i w.thread⟩ :=
  Clients.threads_update (P := rules.program (interface ι)) sh c.locals i w

variable [Fintype ι]

omit [Fintype ι] in
/-- The clients use the semaphore as its threads do. -/
theorem semaphore_reach (hproper : ∀ i, ∀ job ∈ work i, job.Proper)
    (h : (system pid c₀ work).Reach ok c) :
    (FutexSemaphore.system pid c₀).Reach ProperCalls c.semaphore := by
  refine Clients.threads_reach (S := FutexSemaphore.system pid c₀)
    (fun c hc => ⟨hc.count, fun i => congrArg Clients.Client.thread (hc.locals i)⟩)
    (fun e i m sh t hs => Config.interleave_of_step (fun i => FutexSemaphore.step i (pid i)) hs)
    (fun c hr i m hcall => properCalls fun f hf => ?_) h
  obtain ⟨g, hnext⟩ := hcall f hf
  obtain ⟨job, rest, -, htodo, rfl, -⟩ := Clients.Jobs.next_eq_some hnext
  have hsuffix :=
    Clients.todo_suffix (fun c hc i => congrArg Clients.Client.todo (hc.locals i)) hr i
  exact ⟨job, hproper i job (hsuffix.subset (by simp [htodo])), rfl⟩

theorem clientInv_of_reach (hproper : ∀ i, ∀ job ∈ work i, job.Proper)
    (h : (system pid c₀ work).Reach ok c) (i : ι) : ClientInv (work i) (c.locals i) := by
  refine h.invariant (fun c => ∀ i, ClientInv (work i) (c.locals i)) (fun c hc i => ?_)
    (fun c a c' hr hI _ hs => ?_) i
  · rw [hc.locals]
    exact ⟨List.suffix_rfl, fun hbusy => absurd rfl (hbusy none), zero_add _, zero_add _⟩
  · obtain ⟨sh, w, he, rfl⟩ := effect_of_system_step hs
    have hacc := (balanced_of_reach ((semaphore_reach hproper hr).mono fun _ _ hok => hok.1)).1
    exact Config.forall_update (fun i (w : Client) => ClientInv (work i) w)
      ((hI a.1).step (hproper a.1) (hacc a.1) he) fun j _ => hI j

omit [Fintype ι] in
theorem loop_of_clientInv {jobs : List Job} {w : Client} (hI : ClientInv jobs w)
    (hproper : ∀ job ∈ jobs, job.Proper) {v : Wait} (hv : w.thread.pc.looping = some v) :
    v.blocking = true ∧ 1 ≤ v.spin := by
  obtain ⟨job, hjob, hruns⟩ := hI.busy fun r hr => by simp [hr] at hv
  obtain ⟨hb, timeoutNs, rfl⟩ := hruns.looping hv
  exact ⟨hb, hproper _ (hI.suffix.subset (List.mem_of_mem_head? hjob))⟩

/-- The tokens that the jobs add, minus those that they take. -/
def supply (jobs : List Job) : ℤ := (jobs.map Job.amount).sum - (jobs.map Job.need).sum

/-- The count follows from the jobs that are done. -/
theorem count_of_reach (hproper : ∀ i, ∀ job ∈ work i, job.Proper)
    (h : (system pid c₀ work).Reach ok c) :
    (c.shared.object.count.word.toNat : ℤ) + ∑ i, supply (c.locals i).pending =
      c₀.toNat + ∑ i, supply (work i) := by
  have hI := clientInv_of_reach hproper h
  have hr := semaphore_reach hproper h
  have hbal := (balanced_of_reach (hr.mono fun _ _ hok => hok.1)).2
  have hsum : ∑ i, (c.locals i).thread.posted - ∑ i, (c.locals i).thread.taken +
      ∑ i, supply (c.locals i).pending = ∑ i, supply (work i) := by
    rw [← Finset.sum_sub_distrib, ← Finset.sum_add_distrib]
    refine Finset.sum_congr rfl fun i _ => ?_
    have hposted := (hI i).posted
    have htaken := (hI i).taken
    unfold supply
    omega
  have hbal' : (c.shared.object.count.word.toNat : ℤ) =
    c₀.toNat + ∑ i, (c.locals i).thread.posted - ∑ i, (c.locals i).thread.taken := hbal
  omega

end Runs

/-! ## Coming to rest -/

/-- The jobs that the client has before it, those not settled twice. -/
def Client.left (w : Client) : ℕ := w.todo.length + w.pending.length

/-- More than the effort of the call. -/
def Job.effort : Job → ℕ
  | .post _ => 3
  | .take _ spin => 2 * spin.toNat + 4

/-- The effort for the next call, or of the call. -/
def Client.effort [DecidableEq ι] (s : Futex ι) (i : ι) (w : Client) : ℕ :=
  if raised w.thread.pc then 0
  else
    match w.thread.pc with
    | .idle _ =>
      match w.todo with
      | [] => 0
      | job :: _ => job.effort
    | p => SemaphoreClients.effort s i p

section Measure

variable [DecidableEq ι] {i : ι} {pid : UInt32} {sh sh' : Shared ι} {w w' : Client}
  {jobs : List Job} {s s' : Futex ι}

omit [DecidableEq ι] in
theorem Client.left_of_settled (h : settled w.thread.pc = true) :
    w.left = w.todo.length + w.todo.tail.length := by
  rw [Client.left, Client.pending_of_settled h]

omit [DecidableEq ι] in
theorem Client.left_of_unsettled (h : settled w.thread.pc = false) :
    w.left = w.todo.length + w.todo.length := by
  rw [Client.left, Client.pending_of_unsettled h]

omit [DecidableEq ι] in
theorem Client.left_le (w : Client) : w.left ≤ w.todo.length + w.todo.length := by
  unfold Client.left Client.pending
  split_ifs <;> simp

theorem Client.effort_of_raised (h : raised w.thread.pc = true) : w.effort s i = 0 := by
  rw [Client.effort, if_pos h]

theorem Client.effort_of_busy (h : ∀ r, w.thread.pc ≠ .idle r) :
    w.effort s i = SemaphoreClients.effort s i w.thread.pc := by
  have hraised : raised w.thread.pc = false := by
    by_contra hne
    obtain ⟨r, hidle⟩ := (interface ι).idle_of_raised w.thread (by simpa using hne)
    exact h r hidle
  rw [Client.effort, hraised, if_neg Bool.false_ne_true]
  split
  next hpc => exact absurd hpc (h _)
  next => rfl

theorem Client.effort_of_idle {job : Job} {rest : List Job} (hidle : ∃ r, w.thread.pc = .idle r)
    (hraised : raised w.thread.pc = false) (htodo : w.todo = job :: rest) :
    w.effort s i = job.effort := by
  obtain ⟨r, hidle⟩ := hidle
  rw [Client.effort, hraised, if_neg Bool.false_ne_true, hidle]
  dsimp only
  rw [htodo]

omit [DecidableEq ι] in
/-- Until the tokens were added or taken, and only until then, a setback can happen. -/
theorem unsettled_of_setback [DecidableEq ι] {m : Move ι} {h h' : Header ι} {t t' : Thread}
    (hm : setback m = true) (hs : FutexSemaphore.step i pid m h t = some (h', t')) :
    settled t.pc = false := by
  cases m with
  | weakFail | timeout | signal =>
    cases hpc : t.pc <;> simp_all [FutexSemaphore.step, settled]
  | _ => cases hm

/-- The effort of a call that does not raise at once is less than that of its job. -/
theorem Job.effort_entry {job : Job} (hp : job.Proper) :
    SemaphoreClients.effort s i job.call.entry < job.effort := by
  cases job with
  | post n =>
    obtain ⟨add, hentry, -⟩ := entry_post hp.1 hp.2
    rw [show (Job.post n).call.entry = _ from hentry, addTokens]
    split_ifs <;> simp [SemaphoreClients.effort, Job.effort]
  | take timeoutNs spin =>
    have hless := effort_spinFrom (s := s) (i := i)
      (w := ⟨true, decide (0 ≤ timeoutNs), spin⟩) rfl 0
    change SemaphoreClients.effort s i (Call.wait true timeoutNs spin).entry < 2 * spin.toNat + 4
    rcases Call.entry_wait_cases true timeoutNs spin with hentry | ⟨-, hentry⟩ <;> rw [hentry]
    · dsimp only at hless
      split_ifs at hless <;> omega
    · exact Nat.succ_pos _

/-- A call brings its client closer to the end of the job, also when it raises at once. -/
theorem Client.effort_begin {job : Job} {rest : List Job} (hp : job.Proper)
    (hidle : ∃ r, w.thread.pc = .idle r) (hraised : raised w.thread.pc = false)
    (htodo : w.todo = job :: rest) :
    Client.effort s i { w with thread := w.thread.begin job.call } < w.effort s i := by
  have hless := Job.effort_entry (s := s) (i := i) hp
  rw [Client.effort_of_idle hidle hraised htodo]
  by_cases hbusy : ∀ r, job.call.entry ≠ .idle r
  · rwa [Client.effort_of_busy hbusy]
  · obtain ⟨r, hr⟩ := not_forall_not.1 hbusy
    have hover := ((job.runs_entry hp).1.resolve_left fun h => (hr ▸ h).not_idle).2
    have hafter : raised (w.thread.begin job.call).pc = true := by
      rw [show (w.thread.begin job.call).pc = job.call.entry from rfl, hover]
      rfl
    rw [Client.effort_of_raised hafter]
    exact Nat.zero_lt_of_lt hless

theorem Client.effort_congr (hword : s'.word = s.word) (hin : i ∈ s'.sleepers ↔ i ∈ s.sleepers) :
    w.effort s' i = w.effort s i := by
  simp only [Client.effort, SemaphoreClients.effort, hword, hin]

/-- A step brings the client closer to its end, or uses up a setback, or goes on with a call. -/
theorem Effect.left (he : Effect i pid sh w sh' w') (hI : ClientInv jobs w)
    (hproper : ∀ job ∈ jobs, job.Proper) :
    w'.left + sh'.setbacks < w.left + sh.setbacks ∨
      w'.left + sh'.setbacks = w.left + sh.setbacks ∧
        sh'.object.count.word = sh.object.count.word ∧
        (∀ j, j ≠ i → (j ∈ sh'.object.count.sleepers ↔ j ∈ sh.object.count.sleepers)) ∧
        w'.effort sh'.object.count i < w.effort sh.object.count i := by
  cases he with
  | call job rest hidle hraised htodo =>
    have hp := hproper job (hI.suffix.subset (by simp [htodo]))
    obtain ⟨-, hset⟩ := job.runs_entry hp
    have hbefore : settled w.thread.pc = false := by
      obtain ⟨r, hidle⟩ := hidle
      rw [hidle]
      rfl
    refine .inr ⟨?_, rfl, fun _ _ => Iff.rfl, Client.effort_begin hp hidle hraised htodo⟩
    rw [Client.left_of_unsettled hbefore, Client.left_of_unsettled hset]
  | access m k h t hm hk hs =>
    have hbusy := not_idle_of_step hm hs
    obtain ⟨job, hjob, hruns⟩ := hI.busy hbusy
    obtain ⟨rest, htodo⟩ := List.head?_eq_some_iff.1 hjob
    rcases hk with ⟨hset, rfl⟩ | ⟨hset, hk⟩
    · rcases onward_of_step hm hset (fun v hv => loop_of_clientInv hI hproper hv) hs with
        hfin | ⟨hbefore, hafter⟩ | honward
      · left
        have hle := Client.left_le (rules.resume w t)
        have hge : w.todo.length + rest.length ≤ w.left := by
          unfold Client.left Client.pending
          split_ifs <;> simp [htodo]
        rw [Clients.Jobs.resume_of_done (R := rules) hfin] at hle ⊢
        simp only [htodo, List.tail_cons, List.length_cons] at hle hge ⊢
        omega
      · left
        have hunfinished : finished t.pc = false := by
          cases hpc : t.pc <;> simp_all [finished, settled]
        rw [Clients.Jobs.resume_of_not_done (R := rules) hunfinished, Client.left_of_settled hafter,
          Client.left_of_unsettled hbefore]
        simp [htodo]
      · refine .inr ⟨?_, honward.word, honward.others, ?_⟩
        · rw [Clients.Jobs.resume_of_not_done (R := rules) honward.finished]
          simp only [Client.left, Client.pending, honward.settled]
        · rw [Client.effort_of_busy hbusy]
          refine lt_of_le_of_lt ?_ honward.less
          rw [Clients.Jobs.resume_of_not_done (R := rules) honward.finished]
          by_cases hidle : ∃ r, t.pc = .idle r
          · obtain ⟨r, hidle⟩ := hidle
            rw [Client.effort_of_raised (honward.busy r hidle)]
            exact Nat.zero_le _
          · rw [Client.effort_of_busy (not_exists.1 hidle)]
    · left
      have hle := Client.left_le (rules.resume w t)
      have htail := (Clients.Jobs.resume_todo_suffix (R := rules) w t).length_le
      rw [Client.left_of_unsettled (unsettled_of_setback hset hs)]
      dsimp only
      omega

/-- The measure of a run: the jobs and setbacks left, and then the efforts. -/
def State.measure [Fintype ι] (c : State ι) : ℕ ×ₗ ℕ :=
  toLex (c.shared.setbacks + ∑ i, (c.locals i).left,
    ∑ i, (c.locals i).effort c.shared.object.count i)

theorem State.measure_lt [Fintype ι] {c : State ι} {sh : Shared ι} {w : Client}
    (he : Effect i pid c.shared (c.locals i) sh w) (hI : ClientInv jobs (c.locals i))
    (hproper : ∀ job ∈ jobs, job.Proper) :
    State.measure ⟨sh, Function.update c.locals i w⟩ < c.measure := by
  have hsum := Config.sum_update c.locals i w Client.left
  rw [State.measure, State.measure, Prod.Lex.toLex_lt_toLex]
  rcases he.left hI hproper with hless | ⟨heq, hword, hothers, hless⟩
  · left
    dsimp only
    omega
  · refine .inr ⟨by dsimp only; omega, ?_⟩
    apply Finset.sum_lt_sum
    · intro j _
      exact Config.forall_update (fun j (w : Client) => w.effort sh.object.count j ≤
        (c.locals j).effort c.shared.object.count j) hless.le
        (fun j hj => (Client.effort_congr hword (hothers j hj)).le) j
    · refine ⟨i, Finset.mem_univ i, ?_⟩
      dsimp only
      rwa [Function.update_self]

end Measure

section Rest

variable [DecidableEq ι]

variable {i : ι} {sh : Shared ι} {w : Client} (pid : UInt32)

/-- A thread inside a call can go on unless it sleeps. -/
theorem exists_step_of_busy {h : Header ι} {t : Thread} (hbusy : ∀ r, t.pc ≠ .idle r)
    (hawake : i ∉ h.count.sleepers) :
    ∃ m s, (∀ f, m ≠ .call f) ∧ setback m = false ∧
      FutexSemaphore.step i pid m h t = some s := by
  cases hp : t.pc with
  | idle r => exact absurd hp (hbusy r)
  | storeLastNs =>
    exact ⟨.stamp 0, _, by simp, rfl, by simp only [FutexSemaphore.step, hp]; rfl⟩
  | wake add =>
    obtain ⟨who, hsub, hcard⟩ :=
      Finset.exists_subset_card_eq (min_le_right (wakeCount add) h.count.sleepers.card)
    have hwake : h.count.wake (wakeCount add) who = some _ := if_pos ⟨hsub, hcard⟩
    exact ⟨.wake who, _, by simp, rfl, by simp only [FutexSemaphore.step, hp, hwake]; rfl⟩
  | inWait v =>
    exact ⟨.next, _, by simp, rfl, by
      simp only [FutexSemaphore.step, next, hp, if_neg hawake]
      rfl⟩
  | addLoad add | spinLoad v k =>
    refine ⟨.next, ?_⟩
    simp only [FutexSemaphore.step, next, hp]
    split_ifs <;> exact ⟨_, by simp, rfl, rfl⟩
  | addCas add cur room | spinCas v k x pos =>
    refine ⟨.next, ?_⟩
    simp only [FutexSemaphore.step, next, hp]
    split <;> exact ⟨_, by simp, rfl, rfl⟩
  | futexWait v =>
    refine ⟨.next, ?_⟩
    simp only [FutexSemaphore.step, next, hp]
    split <;> exact ⟨_, by simp, rfl, rfl⟩
  | peek | storeLastPid =>
    exact ⟨.next, _, by simp, rfl, by
      simp only [FutexSemaphore.step, next, hp]
      rfl⟩

variable {pid : ι → UInt32} {c₀ : UInt32} {work : ι → List Job} {c : State ι} [Fintype ι]

/-- What holds of the clients whenever they are at rest cannot be avoided. -/
theorem inevitable_of_rest {Done : State ι → Prop} (hproper : ∀ i, ∀ job ∈ work i, job.Proper)
    (hdone : ∀ c, (system pid c₀ work).Reach (fun _ _ => True) c → AtRest c → Done c)
    (h : (system pid c₀ work).Reach (fun _ _ => True) c) :
    (system pid c₀ work).Inevitable (fun _ _ => True) Done c := by
  apply Transition.Inevitable.measure
    (fun c => (system pid c₀ work).Reach (fun _ _ => True) c) State.measure ?_ ?_ h
  · intro c hr hmoving
    obtain ⟨i, hi⟩ := not_forall.1 fun hrest => hmoving (hdone c hr hrest)
    obtain ⟨hover, hawake⟩ := not_or.1 hi
    obtain ⟨act, s, hs⟩ := Clients.exists_step_of_not_over (O := object i (pid i)) (R := rules)
      hover fun hbusy => exists_step_of_busy (pid i) (not_exists.1 hbusy) hawake
    exact ⟨(i, act), _, trivial, Config.interleave_of_step (fun i => Clients.step _ _) hs⟩
  · intro c a c' hr _ _ hs
    refine ⟨.step a hr trivial hs, ?_⟩
    have hI := clientInv_of_reach hproper hr a.1
    obtain ⟨sh, w, he, rfl⟩ := effect_of_system_step hs
    exact State.measure_lt he hI (hproper a.1)

/-- Every run of clients is finite, whatever their posts and waits are, and it ends when each of
them is done, has raised or sleeps; and in every state the count is the first one plus what the
jobs done so far have added and taken. -/
theorem clients_come_to_rest (pid : ι → UInt32) (c₀ : UInt32) (work : ι → List Job)
    (hproper : ∀ i, ∀ job ∈ work i, job.Proper) {c : State ι}
    (h : (system pid c₀ work).Reach (fun _ _ => True) c) :
    (system pid c₀ work).Inevitable (fun _ _ => True) AtRest c ∧
    (c.shared.object.count.word.toNat : ℤ) + ∑ i, supply (c.locals i).pending =
      c₀.toNat + ∑ i, supply (work i) :=
  ⟨inevitable_of_rest hproper (fun _ _ hrest => hrest) h, count_of_reach hproper h⟩

/-- Two clients take a token each, and one posts two. -/
def trade : Tid → List Job
  | .a | .b => [.take (-1) 1]
  | .c => [.post 1, .post 1]

/-- The clients before their first call. -/
def unserved : State Tid := ⟨⟨⟨magicSEMA, 0, ⟨0, ∅⟩, 0, 0⟩, 0⟩, fun i => ⟨.fresh, trade i⟩⟩

theorem fresh_unserved : Fresh 0 trade unserved := ⟨rfl, fun _ => rfl⟩

/-- Both takers sleep, and the first token was posted. -/
def oneToken : State Tid :=
  (system (fun _ => 7) 0 trade).exec (fun _ _ => True) unserved
    [(.a, .call), (.a, .access .next), (.a, .access .next), (.b, .call), (.b, .access .next),
      (.b, .access .next), (.c, .call), (.c, .access .next), (.c, .access .next)]

theorem clients_come_to_rest_oneToken :
    oneToken.shared.object.count.sleepers = {.a, .b} ∧
      (system (fun _ => 7) 0 trade).Inevitable (fun _ _ => True) AtRest oneToken :=
  ⟨by decide +kernel, (clients_come_to_rest (fun _ => 7) 0 trade
    (fun i => by cases i <;> decide +kernel) (.exec _ (.init fresh_unserved))).1⟩

end Rest

end SemaphoreClients
