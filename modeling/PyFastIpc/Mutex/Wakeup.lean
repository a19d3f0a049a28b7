import PyFastIpc.Mutex.Owner

/-!
# No lost wakeup of the mutex

While a thread sleeps in `FUTEX_WAIT` on the state word, somebody is bound to act on it: the word
is 2 (so the next release wakes a sleeper), or a releaser has exchanged a 2 away and will issue its
wake, or a thread of the slow path is about to execute its exchange with 2 (`Promised`).  The mark 2
is not a count: an acquirer of the fast path may overwrite a 0 with 1 while threads sleep, but then
one of the other two disjuncts holds and is not affected.
-/

namespace FutexMutex

variable {ι : Type*}

/-- The callers release only what they have, and do not force. -/
def ReleasesOwn (c : State ι) (a : ι × Move ι) : Prop :=
  NoForce c a ∧ (a.2 = .call .release → (c.locals a.1).taken = true)

/-- A releaser that has exchanged a 2 away and not issued its `FUTEX_WAKE`. -/
def Thread.wakePending (t : Thread) : Prop := t.pc = .relOwner true ∨ t.pc = .relWake

/-- A thread of the slow path whose next access is its exchange with 2: it is at the exchange, or
it has been woken and returns to it. -/
def Thread.exchanging (sleepers : Finset ι) (i : ι) (t : Thread) : Prop :=
  ∃ a, t.pc = .xchg a ∨ t.pc = .inWait a ∧ i ∉ sleepers

/-- Thread `i` will mark the word or wake a sleeper. -/
def Promises (sleepers : Finset ι) (i : ι) (t : Thread) : Prop :=
  t.wakePending ∨ t.exchanging sleepers i

/-- If a thread sleeps, the word is 2 or some thread promises to act. -/
def Promised (c : State ι) : Prop :=
  c.shared.state.sleepers.Nonempty →
    c.shared.state.word = 2 ∨ ∃ i, Promises c.shared.state.sleepers i (c.locals i)

/-- Sleepers are inside `FUTEX_WAIT`. -/
def SleepersWait (c : State ι) : Prop :=
  ∀ i ∈ c.shared.state.sleepers, ∃ a, (c.locals i).pc = .inWait a

theorem Promises.mono {s s' : Finset ι} {i : ι} {t : Thread} (h : Promises s i t)
    (hs : ∀ a, t.pc = .inWait a → i ∉ s → i ∉ s') : Promises s' i t := by
  rcases h with h | ⟨a, h | ⟨h, hi⟩⟩
  · exact .inl h
  · exact .inr ⟨a, .inl h⟩
  · exact .inr ⟨a, .inr ⟨h, hs a h hi⟩⟩

/-- Points at which a thread may promise something. -/
def Pc.promising : Pc → Bool
  | .relOwner _ | .relWake | .xchg _ | .inWait _ => true
  | _ => false

theorem Promises.promising {s : Finset ι} {i : ι} {t : Thread} (h : Promises s i t) :
    t.pc.promising = true := by
  rcases h with (h | h) | ⟨a, h | ⟨h, -⟩⟩ <;> rw [h] <;> rfl

/-- A thread outside any call or asleep promises nothing. -/
theorem not_promises {s : Finset ι} {i : ι} {t : Thread} (hwait : i ∈ s → ∃ a, t.pc = .inWait a)
    (hquiet : (∃ r, t.pc = .idle r) ∨ i ∈ s) : ¬ Promises s i t := by
  have hpc : (∃ r, t.pc = .idle r) ∨ ∃ a, t.pc = .inWait a ∧ i ∈ s := by
    rcases hquiet with hidle | hin
    · exact .inl hidle
    · obtain ⟨a, ha⟩ := hwait hin
      exact .inr ⟨a, ha, hin⟩
  rintro (hwake | ⟨b, hx⟩)
  · rcases hpc with ⟨r, hp⟩ | ⟨a, hp, -⟩ <;> simp [Thread.wakePending, hp] at hwake
  · rcases hpc with ⟨r, hp⟩ | ⟨a, hp, hin⟩
    · simp [hp] at hx
    · simp [hp, hin] at hx

variable [DecidableEq ι]

/-- A step adds at most the stepping thread to the sleepers, and then it is inside its wait. -/
theorem Effect.sleepers {i : ι} {pid : UInt32} {m : Move ι} {h h' : Header ι} {t t' : Thread}
    (he : Effect i pid m h t h' t') :
    h'.state.sleepers ⊆ h.state.sleepers ∨
      (h'.state.sleepers = insert i h.state.sleepers ∧ ∃ a, t'.pc = .inWait a) := by
  cases he with
  | sleep a hpc hword => exact .inr ⟨rfl, a, rfl⟩
  | leave a p hpc hin hp => exact .inl (Finset.erase_subset _ _)
  | wake s who hpc hs => exact .inl (Futex.wake_sleepers_subset hs)
  | _ => exact .inl (Finset.Subset.refl _)

/-- A sleeper can only leave the queue. -/
theorem Effect.not_mem_sleepers {i : ι} {pid : UInt32} {m : Move ι} {h h' : Header ι}
    {t t' : Thread} {a : Acquire} (he : Effect i pid m h t h' t') (hpc : t.pc = .inWait a)
    (hin : i ∈ h.state.sleepers) : i ∉ h'.state.sleepers := by
  cases he with
  | woken b _ hout => exact absurd hin hout
  | leave b p _ _ hp => simp
  | take b v hgrab => simp [hpc, Pc.grabbing] at hgrab
  | probe p hprobe => simp [hpc, Pc.probing] at hprobe
  | _ => simp_all

theorem SleepersWait.step {P : Procs ι} {c : State ι} (hS : SleepersWait c) {i : ι} {m : Move ι}
    {hd : Header ι} {t : Thread} (he : Effect i (P.pid i) m c.shared (c.locals i) hd t) :
    SleepersWait ⟨hd, Function.update c.locals i t⟩ := by
  refine Futex.asleep_update (fun t : Thread => ∃ a, t.pc = .inWait a) hS (fun j hj hin => ?_)
    fun hin => ?_
  · rcases he.sleepers with hsub | ⟨hins, -⟩
    · exact hsub hin
    · rw [hins, Finset.mem_insert] at hin
      exact hin.resolve_left hj
  · rcases he.sleepers with hsub | ⟨-, hwait⟩
    · obtain ⟨a, hpc⟩ := hS i (hsub hin)
      exact absurd hin (he.not_mem_sleepers hpc (hsub hin))
    · exact hwait

section Promised

variable {P : Procs ι} {c : State ι} {i : ι} {hd : Header ι} {t : Thread}

/-- A thread that promises nothing cannot break the promise of another one, as long as it does not
overwrite a 2. -/
theorem Promised.silent (hP : Promised c) (hno : ¬ Promises c.shared.state.sleepers i (c.locals i))
    (hsub : hd.state.sleepers ⊆ c.shared.state.sleepers)
    (hword : c.shared.state.word = 2 → hd.state.word = 2) :
    Promised ⟨hd, Function.update c.locals i t⟩ := by
  intro hne
  rcases hP (hne.mono hsub) with h2 | ⟨j, hj⟩
  · exact .inl (hword h2)
  · have hji : j ≠ i := by
      rintro rfl
      exact hno hj
    exact .inr (Config.exists_update _ hji (hj.mono fun _ _ hout hin => hout (hsub hin)))

theorem Promised.of_self (hself : Promises hd.state.sleepers i t) :
    Promised ⟨hd, Function.update c.locals i t⟩ := fun _ =>
  .inr ⟨i, by simpa using hself⟩

theorem Promised.step (hP : Promised c) (hS : SleepersWait c) {m : Move ι}
    (he : Effect i (P.pid i) m c.shared (c.locals i) hd t) :
    Promised ⟨hd, Function.update c.locals i t⟩ := by
  -- the points outside the exchange loop and the tail of a release promise nothing
  have hno (hpc : (c.locals i).pc.promising = false) :
      ¬ Promises c.shared.state.sleepers i (c.locals i) := fun h => by simp [h.promising] at hpc
  cases he with
  | call f hm hpc =>
    obtain ⟨r, hpc⟩ := hpc
    exact hP.silent (hno (by rw [hpc]; rfl)) subset_rfl id
  | take a v hpc hv hmark hfree =>
    by_cases hx : ∃ b, (c.locals i).pc = .xchg b
    · exact fun _ => .inl (hmark hx)
    · refine hP.silent (hno ?_) subset_rfl fun h2 => ?_
      · cases hp : (c.locals i).pc <;> simp_all [Pc.grabbing, Pc.promising]
      · rw [hfree] at h2
        cases h2
  | probe p hpc hp =>
    refine hP.silent (hno ?_) subset_rfl id
    cases hp : (c.locals i).pc <;> simp_all [Pc.probing, Pc.promising]
  | mark a hpc hbusy => exact fun _ => .inl rfl
  | sleep a hpc hword => exact fun _ => .inl hword
  | woken a hpc hout => exact .of_self (.inr ⟨a, .inl rfl⟩)
  | leave a p hpc hin hp =>
    refine hP.silent (fun h => ?_) (Finset.erase_subset _ _) id
    rcases h with h | ⟨b, h | ⟨-, hout⟩⟩
    · simp [Thread.wakePending, hpc] at h
    · simp [hpc] at h
    · exact hout hin
  | drop hpc =>
    by_cases h2 : c.shared.state.word = 2
    · exact .of_self (.inl (.inl (by simp [Thread.drop, h2])))
    · refine hP.silent (hno ?_) subset_rfl fun h => absurd h h2
      rcases hpc with hpc | hpc <;> rw [hpc] <;> rfl
  | clearOwner contended p hpc hp =>
    cases contended with
    | true => exact .of_self (.inl (.inr hp))
    | false =>
      refine hP.silent (fun h => ?_) subset_rfl id
      rcases h with h | ⟨b, h⟩
      · simp [Thread.wakePending, hpc] at h
      · simp [hpc] at h
  | wake s who hpc hs =>
    intro hne
    rcases Futex.wake_progress hs one_pos with hempty | ⟨w, hw, hout⟩
    · exact absurd hempty hne.ne_empty
    · -- the thread taken off the queue returns to its exchange
      obtain ⟨a, hwait⟩ := hS w hw
      have hwi : w ≠ i := by
        rintro rfl
        simp [hpc] at hwait
      exact .inr (Config.exists_update (Promises s.sleepers) hwi (.inr ⟨a, .inr ⟨hwait, hout⟩⟩))
  | refused a hpc | passed a hpc | again a hpc | storeOwner a hpc | storeLastNs a now hpc
  | disowned hpc | owned hpc =>
    exact hP.silent (hno (by rw [hpc]; rfl)) subset_rfl id

end Promised

/-- The invariant of the sleep queue. -/
theorem promised_of_reach {P : Procs ι} {c : State ι} (h : (system P).Reach ReleasesOwn c) :
    SleepersWait c ∧ Promised c := by
  refine h.invariant (fun c => SleepersWait c ∧ Promised c) (fun c hc => ?_)
    fun c a c' _ hI _ hs => ?_
  · have hempty : c.shared.state.sleepers = ∅ := by rw [hc.1]; rfl
    exact ⟨by simp [SleepersWait, hempty], by simp [Promised, hempty]⟩
  · obtain ⟨hd, t, he, rfl⟩ := effect_of_system_step hs
    exact ⟨hI.1.step he, hI.2.step hI.1 he⟩

/-- No lost wakeup: while a thread sleeps on the state word, the word is 2, or a releaser that
exchanged a 2 away has its wake outstanding, or a thread of the slow path is about to exchange the
word with 2.  So nobody sleeps when the word is 0 and every thread is outside or asleep. -/
theorem no_lost_wakeup (P : Procs ι) {c : State ι} (h : (system P).Reach ReleasesOwn c) :
    (c.shared.state.sleepers.Nonempty →
      c.shared.state.word = 2 ∨ (∃ i, (c.locals i).wakePending) ∨
        ∃ i, (c.locals i).exchanging c.shared.state.sleepers i) ∧
    (c.shared.state.word = 0 →
      (∀ i, (∃ r, (c.locals i).pc = .idle r) ∨ i ∈ c.shared.state.sleepers) →
      c.shared.state.sleepers = ∅) := by
  obtain ⟨hS, hP⟩ := promised_of_reach h
  have hmain : c.shared.state.sleepers.Nonempty →
      c.shared.state.word = 2 ∨ (∃ i, (c.locals i).wakePending) ∨
        ∃ i, (c.locals i).exchanging c.shared.state.sleepers i := fun hne => by
    rcases hP hne with h2 | ⟨i, hi | hi⟩
    · exact .inl h2
    · exact .inr (.inl ⟨i, hi⟩)
    · exact .inr (.inr ⟨i, hi⟩)
  refine ⟨hmain, fun hzero hquiet => ?_⟩
  by_contra hne
  rcases hP (Finset.nonempty_iff_ne_empty.2 hne) with h2 | ⟨i, hi⟩
  · rw [hzero] at h2
    cases h2
  · exact not_promises (hS i) (hquiet i) hi

instance (c : State ι) (a : ι × Move ι) : Decidable (ReleasesOwn c a) :=
  inferInstanceAs (Decidable (_ ∧ _))

/-- Process `a` has released the contended lock up to its wake; process `b` still sleeps. -/
def waking : State Tid :=
  (system procs).exec ReleasesOwn start
    [(.a, .call .tryAcquire), (.a, .next), (.a, .next), (.a, .stamp 5), (.b, .call .acquire),
      (.b, .next), (.b, .next), (.b, .next), (.b, .next), (.a, .call .release), (.a, .next),
      (.a, .next), (.a, .next)]

theorem no_lost_wakeup_waking :
    waking.shared.state.word = 0 ∧
      ((∃ i, (waking.locals i).wakePending) ∨
        ∃ i, (waking.locals i).exchanging waking.shared.state.sleepers i) :=
  have hword : waking.shared.state.word = 0 := by decide +kernel
  ⟨hword, ((no_lost_wakeup procs (.exec _ (.init fresh_start))).1 (by decide +kernel)).resolve_left
    (by rw [← waking, hword]; decide)⟩

end FutexMutex
