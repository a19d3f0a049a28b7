import PyFastIpc.Event.Steps

/-!
# What `wait` reports

`FutexWord_wait` returns `False` on `EAGAIN`, and `NamedEvent.wait` passes that on.  So a `wait` on
an event that is set returns `False` at once, although nothing timed out (`wait_misreports`); it
returns `True` only to a thread that was put to sleep and woken.

A `wait` reports correctly exactly when none of its `FUTEX_WAIT` checks finds the word nonzero
(`wait_reports_iff`).
-/

namespace NamedEvent

variable {ι : Type*}

/-- A completed `wait` returned `True` if a check found the event set, and returned `False` only if
it ended by a timeout or a signal after finding the word 0. -/
def Thread.Reports (t : Thread ι) : Prop :=
  ∀ timeoutNs b, t.called = some (.wait timeoutNs) → t.pc = .idle (some (.bool b)) →
    (t.sawSet = true → b = true) ∧ (b = false → t.cut = true)

/-- If the step is the check of a `FUTEX_WAIT`, the word is 0. -/
def ChecksFindZero (c : State ι) (a : ι × Move ι) : Prop :=
  a.2 = .next → (∃ timed, (c.locals a.1).pc = .futexWait timed) → c.shared.word = 0

/-- What is known about the result of a call. -/
structure Thread.Result (t : Thread ι) : Prop where
  sawSet : t.sawSet = true → t.pc = .idle (some (.bool false)) ∧ t.cut = false
  waited : ∀ timeoutNs, t.called = some (.wait timeoutNs) → t.pc = .idle (some (.bool false)) →
    t.sawSet = true ∨ t.cut = true
  load : t.pc = .load → t.called = some .isSet

theorem Call.entry_wait_ne (timeoutNs : ℤ) (b : Bool) :
    (Call.wait timeoutNs).entry ≠ .idle (some (.bool b)) := by
  rw [Call.entry]
  split_ifs <;> simp

theorem Call.eq_isSet_of_entry {f : Call} (h : f.entry = .load) : f = .isSet := by
  cases f with
  | wait timeoutNs =>
    rw [Call.entry] at h
    split_ifs at h
  | set | clear => cases h
  | isSet => rfl

theorem Thread.Result.fresh : (Thread.fresh : Thread ι).Result where
  sawSet h := by cases h
  waited timeoutNs h := by cases h
  load h := by cases h

theorem Thread.Result.begin (t : Thread ι) (f : Call) : (t.begin f).Result where
  sawSet h := by cases h
  waited timeoutNs hf hpc := by
    obtain rfl : f = .wait timeoutNs := Option.some.inj hf
    exact absurd hpc (Call.entry_wait_ne timeoutNs false)
  load h := congrArg some (Call.eq_isSet_of_entry h)

/-- A step inside a call that saw nothing, and returns `False` only from `is_set` or after an
interrupted sleep. -/
theorem Thread.Result.moved {t t' : Thread ι} (hr : t.Result) (hidle : ∀ r, t.pc ≠ .idle r)
    (hcalled : t'.called = t.called) (hsaw : t'.sawSet = t.sawSet)
    (hfalse : t'.pc = .idle (some (.bool false)) → t'.cut = true ∨ t.pc = .load)
    (hload : t'.pc ≠ .load) : t'.Result where
  sawSet h := by
    rw [hsaw] at h
    exact absurd (hr.sawSet h).1 (hidle _)
  waited timeoutNs hwait hpc := by
    rcases hfalse hpc with hcut | hpc'
    · exact .inr hcut
    · rw [hcalled, hr.load hpc'] at hwait
      cases hwait
  load h := absurd h hload

section Step

variable [DecidableEq ι] {i : ι} {asleep : Finset (ι × ℕ)} {m : Move ι} {f f' : Futex ι}
  {t t' : Thread ι}

theorem Effect.result (he : Effect i asleep m f t f' t') (hr : t.Result) : t'.Result := by
  cases he with
  | call c hpc => exact .begin t c
  | again timed hm hpc hword =>
    exact {
      sawSet := fun _ => ⟨rfl, rfl⟩
      waited := fun _ _ _ => .inl rfl
      load := fun h => by cases h }
  | leave timed p hpc hin hp =>
    refine hr.moved (by simp [hpc]) rfl rfl (fun _ => .inl rfl) ?_
    rcases hp with rfl | rfl <;> simp [Thread.interrupt]
  | load b hpc =>
    exact hr.moved (by simp [hpc]) rfl rfl (fun _ => .inr hpc) (by simp [Thread.goto])
  | set hpc | wake f' who hpc hs | clear hpc | sleep timed hm hpc hword | woken timed hpc hout =>
    exact hr.moved (by simp [hpc]) rfl rfl
      (by simp [Thread.catching, Thread.goto, Thread.sleep])
      (by simp [Thread.catching, Thread.goto, Thread.sleep])

/-- A check that finds 0 sees nothing. -/
theorem Effect.sawSet (he : Effect i asleep m f t f' t')
    (hzero : m = .next → (∃ timed, t.pc = .futexWait timed) → f.word = 0)
    (hno : t.sawSet = false) : t'.sawSet = false := by
  cases he with
  | call c hpc => rfl
  | again timed hm hpc hword => exact absurd (hzero hm ⟨timed, hpc⟩) hword
  | _ => exact hno

end Step

/-- A call that saw the event set has returned `False`. -/
theorem Thread.Result.reports_iff {t : Thread ι} (hr : t.Result) {timeoutNs : ℤ} {b : Bool}
    (hwait : t.called = some (.wait timeoutNs)) (hpc : t.pc = .idle (some (.bool b))) :
    t.Reports ↔ t.sawSet = false := by
  constructor
  · intro hrep
    by_contra hsaw
    have hset : t.sawSet = true := by simpa using hsaw
    have htrue := (hrep timeoutNs b hwait hpc).1 hset
    rw [(hr.sawSet hset).1, htrue] at hpc
    cases hpc
  · intro hsaw timeoutNs' b' hwait' hpc'
    refine ⟨fun h => by simp [hsaw] at h, ?_⟩
    rintro rfl
    exact (hr.waited timeoutNs' hwait' hpc').resolve_left (by simp [hsaw])

variable [DecidableEq ι]

theorem result_of_reach {ok : State ι → ι × Move ι → Prop} {c : State ι} (h : system.Reach ok c) :
    ∀ i, (c.locals i).Result := by
  refine h.invariant (fun c => ∀ i, (c.locals i).Result) (fun c hc i => ?_)
    fun c a c' _ hI _ hs => ?_
  · obtain ⟨-, hfresh⟩ : Fresh c := hc
    rw [hfresh]
    exact .fresh
  · obtain ⟨f, t, he, rfl⟩ := effect_of_system_step hs
    exact Config.forall_update (fun _ (t : Thread ι) => t.Result) (he.result (hI a.1))
      fun j _ => hI j

theorem sawSet_of_reach {c : State ι} (h : system.Reach ChecksFindZero c) :
    ∀ i, (c.locals i).sawSet = false := by
  refine h.invariant (fun c => ∀ i, (c.locals i).sawSet = false) (fun c hc i => ?_)
    fun c a c' _ hI hok hs => ?_
  · obtain ⟨-, hfresh⟩ : Fresh c := hc
    rw [hfresh]
    rfl
  · obtain ⟨f, t, he, rfl⟩ := effect_of_system_step hs
    exact Config.forall_update (fun _ (t : Thread ι) => t.sawSet = false) (he.sawSet hok (hI a.1))
      fun j _ => hI j

/-- A completed `wait` reports correctly exactly when none of its checks found the event set; so in
a run whose checks all find the word 0, every `wait` reports correctly. -/
theorem wait_reports_iff :
    (∀ c : State ι, system.Reach ChecksFindZero c → ∀ i, (c.locals i).Reports) ∧
    (∀ c : State ι, system.Reach (fun _ _ => True) c → ∀ i timeoutNs b,
      (c.locals i).called = some (.wait timeoutNs) → (c.locals i).pc = .idle (some (.bool b)) →
      ((c.locals i).Reports ↔ (c.locals i).sawSet = false)) := by
  refine ⟨fun c h i timeoutNs b hwait hpc => ?_, fun c h i timeoutNs b hwait hpc =>
    (result_of_reach h i).reports_iff hwait hpc⟩
  exact ((result_of_reach h i).reports_iff hwait hpc).2 (sawSet_of_reach h i) timeoutNs b hwait hpc

instance (c : State ι) (a : ι × Move ι) : Decidable (ChecksFindZero c a) :=
  match h : (c.locals a.1).pc with
  | .futexWait timed =>
    decidable_of_iff (a.2 = .next → c.shared.word = 0) (by simp [ChecksFindZero, h])
  | .idle _ | .setStore | .setWake | .clearStore | .inWait _ | .load =>
    isTrue (by simp [ChecksFindZero, h])

/-- Thread `b` waited and was woken by a set of thread `a`; a timed wait of thread `c` was over
before. -/
def reported : State Tid :=
  system.exec ChecksFindZero (start 0)
    [(.b, .call (.wait (-1))), (.b, .next), (.c, .call (.wait 5)), (.c, .next), (.c, .timeout),
      (.a, .call .set), (.a, .next), (.a, .wake {.b}), (.b, .next)]

theorem wait_reports_iff_reported :
    (reported.locals .b).pc = .idle (some (.bool true)) ∧
      (reported.locals .c).pc = .idle (some (.bool false)) ∧ ∀ i, (reported.locals i).Reports :=
  ⟨by decide +kernel, by decide +kernel, wait_reports_iff.1 _ (.exec _ (.init (fresh_start 0)))⟩

/-- Thread `a` sets the event, then thread `b` waits for it. -/
def missed : State Tid :=
  system.exec (fun _ _ => True) (start 0)
    [(.a, .call .set), (.a, .next), (.a, .wake ∅), (.b, .call (.wait (-1))), (.b, .next)]

/-- The `wait` has returned `False` without a timeout although the event is set. -/
theorem wait_misreports :
    (¬ ∀ c : State Tid, system.Reach (fun _ _ => True) c → ∀ i, (c.locals i).Reports) ∧
    missed.shared.word = 1 ∧ (missed.locals .b).pc = .idle (some (.bool false)) ∧
    (missed.locals .b).sawSet = true ∧ (missed.locals .b).cut = false := by
  have hpc : (missed.locals .b).pc = .idle (some (.bool false)) := by decide +kernel
  have hsaw : (missed.locals .b).sawSet = true := by decide +kernel
  refine ⟨fun hall => ?_, by decide +kernel, hpc, hsaw, by decide +kernel⟩
  have hrep := hall missed (.exec _ (.init (fresh_start 0))) .b (-1) false (by decide +kernel) hpc
  cases hrep.1 hsaw

end NamedEvent
