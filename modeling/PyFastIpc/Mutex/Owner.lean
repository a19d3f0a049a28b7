import PyFastIpc.Mutex.Exclusion

/-!
# The owner word

`release` clears the owner word in a step of its own, after the exchange that frees the state word.
Between the two, another process can take the lock and store its pid, which the late store of 0
then erases: the new holder's `release` raises and the lock stays locked (`owner_word_erased`).

When no process executes that store while another one has the lock with its pid recorded
(`ClearsNoHolder`), the owner word names the holder and every release by the holder goes through
(`owner_word_agrees`).  The processes are single-threaded, so their pids are distinct.
-/

namespace FutexMutex

variable {ι : Type*}

/-- The thread has the lock, has stored its pid, and has not passed the owner check of its
release. -/
def Thread.recorded (t : Thread) : Bool :=
  t.taken && match t.pc with
    | .storeOwner _ | .relXchg => false
    | _ => true

/-- The next step is the owner store of a release. -/
def Pc.clearsOwner : Pc → Bool
  | .relOwner _ => true
  | _ => false

/-- No `force_release`. -/
def NoForce (_ : State ι) (a : ι × Move ι) : Prop := a.2 ≠ .call .forceRelease

/-- If the step is the owner store of a release, no thread has the lock with its pid recorded. -/
def ClearsNoHolder (c : State ι) (a : ι × Move ι) : Prop :=
  (c.locals a.1).pc.clearsOwner = true → ∀ j, (c.locals j).recorded = false

/-- The owner word is the pid of the process that has the lock and has recorded it. -/
def OwnerRecorded (P : Procs ι) (c : State ι) : Prop :=
  ∀ i, (c.locals i).recorded = true → c.shared.ownerPid = P.pid i

theorem alone_of_injective {P : Procs ι} (hinj : Function.Injective P.pid) (i : ι) : P.Alone i :=
  fun _ hne he => hne (hinj he)

theorem Thread.taken_of_recorded {t : Thread} (h : t.recorded = true) : t.taken = true := by
  simp only [recorded, Bool.and_eq_true] at h
  exact h.1

theorem Thread.recorded_of_held {P : Procs ι} {h : Option ι} {owner : UInt32} {i : ι} {t : Thread}
    (hinv : ThreadInv P h owner i t) (hheld : t.held = true) : t.recorded = true := by
  obtain ⟨htaken, hpass⟩ := hinv.held hheld
  cases hpc : t.pc <;> simp_all [recorded, Pc.passing]

theorem disciplined_of_alone {P : Procs ι} (halone : ∀ i, P.Alone i) {c : State ι}
    {a : ι × Move ι} (h : NoForce c a) : Disciplined P c a :=
  ⟨h, fun _ => .inl (halone a.1)⟩

/-- The next step is the store of the pid. -/
def Pc.storesOwner : Pc → Bool
  | .storeOwner _ => true
  | _ => false

theorem Call.storesOwner_entry (f : Call) : f.entry.storesOwner = false := by
  have hin := f.inside_entry
  cases hp : f.entry <;> simp_all [Pc.storesOwner, Pc.inside]

variable [DecidableEq ι]

/-- A step of thread `i` leaves it recorded with its own pid in the owner word. -/
theorem OwnerRecorded.self {P : Procs ι} {i : ι} {m : Move ι} {h h' : Header ι} {t t' : Thread}
    {holder : Option ι} (hinv : ThreadInv P holder h.ownerPid i t)
    (hown : t.recorded = true → h.ownerPid = P.pid i) (he : Effect i (P.pid i) m h t h' t')
    (hrec : t'.recorded = true) : h'.ownerPid = P.pid i := by
  -- the thread was recorded before unless this step took the word or stored the pid
  have key : (∀ a, t.pc ≠ .storeOwner a) → t.pc ≠ .relXchg → t'.taken = t.taken →
      h.ownerPid = P.pid i := fun h1 h2 h3 => by
    refine hown ?_
    have := t'.taken_of_recorded hrec
    cases hpc : t.pc <;> simp_all [Thread.recorded]
  cases he with
  | take a v hpc hv hmark hfree => simp [Thread.take, Thread.recorded] at hrec
  | storeOwner a hpc => rfl
  | owned hpc howner => exact howner
  | drop hpc => simp [Thread.drop, Thread.recorded] at hrec
  | clearOwner contended p hpc hp =>
    have : t.taken = false := hinv.leaving (by rw [hpc]; rfl)
    have := Thread.taken_of_recorded hrec
    simp_all [Thread.goto]
  | call f hm hpc =>
    obtain ⟨r, hpc⟩ := hpc
    exact key (by simp [hpc]) (by simp [hpc]) rfl
  | probe p hpc hp =>
    refine key (fun a ha => ?_) (fun hx => ?_) rfl
    · simp [ha, Pc.probing] at hpc
    · simp [hx, Pc.probing] at hpc
  | _ => exact key (by simp [*]) (by simp [*]) rfl

/-- Only the holder's store of its pid and the late store of a release change the owner word. -/
theorem Effect.ownerPid {i : ι} {pid : UInt32} {m : Move ι} {h h' : Header ι} {t t' : Thread}
    (he : Effect i pid m h t h' t') :
    h'.ownerPid = h.ownerPid ∨ (∃ a, t.pc = .storeOwner a) ∨ t.pc.clearsOwner = true := by
  cases he with
  | storeOwner a hpc => exact .inr (.inl ⟨a, hpc⟩)
  | clearOwner contended p hpc hp => exact .inr (.inr (by rw [hpc]; rfl))
  | _ => exact .inl rfl

theorem OwnerRecorded.step {P : Procs ι} {c : State ι} {h : Option ι} (hI : Implements P c h)
    (hown : OwnerRecorded P c) {i : ι} {m : Move ι} {hd : Header ι} {t : Thread}
    (he : Effect i (P.pid i) m c.shared (c.locals i) hd t)
    (hsafe : (c.locals i).pc.clearsOwner = true → ∀ j, (c.locals j).recorded = false) :
    OwnerRecorded P ⟨hd, Function.update c.locals i t⟩ := by
  refine Config.forall_update (fun j (t : Thread) => t.recorded = true → hd.ownerPid = P.pid j)
    (OwnerRecorded.self (hI.thread i) (hown i) he) fun j hj hrec => ?_
  rcases he.ownerPid with ho | ⟨a, hpc⟩ | hclear
  · rw [ho, hown j hrec]
  · -- two threads would have the lock
    have hi : (c.locals i).taken = true := (hI.thread i).inside (by rw [hpc]; rfl)
    exact absurd (hI.agrees.unique (Thread.taken_of_recorded hrec) hi) hj
  · simp [hsafe hclear j] at hrec

theorem ownerRecorded_of_reach {P : Procs ι} (halone : ∀ i, P.Alone i) {c : State ι}
    (h : (system P).Reach (fun c a => NoForce c a ∧ ClearsNoHolder c a) c) : OwnerRecorded P c := by
  refine h.invariant (OwnerRecorded P) (fun c hc i hrec => ?_) fun c a c' hr hown hok hs => ?_
  · rw [hc.2.2] at hrec
    cases hrec
  · obtain ⟨holder, hI⟩ :=
      exists_implements (hr.mono fun _ _ hok => disciplined_of_alone halone hok.1)
    obtain ⟨hd, t, he, rfl⟩ := effect_of_system_step hs
    exact hown.step hI he hok.2

/-- In a run in which no late owner store falls into another process's possession of the lock, the
owner word is the pid of every process that holds the lock, and a release by the process that has
the lock passes its owner check and sets the state word to 0. -/
theorem owner_word_agrees (P : Procs ι) (hinj : Function.Injective P.pid) {c : State ι}
    (h : (system P).Reach (fun c a => NoForce c a ∧ ClearsNoHolder c a) c) :
    (∀ i, (c.locals i).held = true → c.shared.ownerPid = P.pid i) ∧
    (∀ i, (c.locals i).taken = true → (c.locals i).pc = .relLoad →
      step i (P.pid i) .next c.shared (c.locals i) =
        some (c.shared, (c.locals i).goto .relXchg)) ∧
    (∀ i, (c.locals i).pc = .relXchg → ∃ t,
      step i (P.pid i) .next c.shared (c.locals i) =
        some ({ c.shared with state := c.shared.state.store 0 }, t)) := by
  have halone := alone_of_injective hinj
  have hown := ownerRecorded_of_reach halone h
  obtain ⟨holder, hI⟩ := exists_implements (h.mono fun _ _ hok => disciplined_of_alone halone hok.1)
  refine ⟨fun i hheld => ?_, fun i htaken hpc => ?_, fun i hpc => ?_⟩
  · exact hown i (Thread.recorded_of_held (hI.thread i) hheld)
  · have ho : c.shared.ownerPid = P.pid i := hown i (by simp [Thread.recorded, htaken, hpc])
    simp [step, next, hpc, ho]
  · exact ⟨_, by simp [step, next, hpc]; rfl⟩

instance (c : State ι) (a : ι × Move ι) : Decidable (NoForce c a) :=
  inferInstanceAs (Decidable (_ ≠ _))

instance [Fintype ι] (c : State ι) (a : ι × Move ι) : Decidable (ClearsNoHolder c a) :=
  inferInstanceAs (Decidable (_ → _))

theorem injective_procs : Function.Injective procs.pid := by decide

/-- Process `b` takes over after process `a` has released the lock completely. -/
def handedOver : State Tid :=
  (system procs).exec (fun c a => NoForce c a ∧ ClearsNoHolder c a) start
    [(.a, .call .tryAcquire), (.a, .next), (.a, .next), (.a, .stamp 5), (.a, .call .release),
      (.a, .next), (.a, .next), (.a, .next), (.b, .call .acquire), (.b, .next), (.b, .next),
      (.b, .next), (.b, .stamp 6)]

theorem owner_word_agrees_handedOver :
    (handedOver.locals .b).held = true ∧ handedOver.shared.ownerPid = 2 :=
  have hheld : (handedOver.locals .b).held = true := by decide +kernel
  ⟨hheld, (owner_word_agrees procs injective_procs (.exec _ (.init fresh_start))).1 .b hheld⟩

/-- Process `b` acquires between the exchange and the owner store of process `a`'s release. -/
def erased : State Tid :=
  (system procs).exec NoForce start
    [(.a, .call .tryAcquire), (.a, .next), (.a, .next), (.a, .stamp 5), (.a, .call .release),
      (.a, .next), (.a, .next), (.b, .call .acquire), (.b, .next), (.b, .next), (.b, .next),
      (.b, .stamp 6), (.a, .next)]

/-- Process `b` then tries to release the lock that it holds. -/
def abandoned : State Tid :=
  (system procs).exec NoForce erased [(.b, .call .release), (.b, .next)]

/-- The owner word does not name the process that holds the lock; its release raises and leaves the
lock locked. -/
theorem owner_word_erased :
    (¬ ∀ c, (system procs).Reach NoForce c → ∀ i, (c.locals i).held = true →
      c.shared.ownerPid = procs.pid i) ∧
    (erased.locals .b).held = true ∧ (abandoned.locals .b).pc = .idle (some (.raised .notOwned)) ∧
    abandoned.shared.state.word = 1 := by
  refine ⟨fun h => ?_, by decide +kernel, by decide +kernel, by decide +kernel⟩
  exact absurd (h erased (.exec _ (.init fresh_start)) .b (by decide +kernel)) (by decide +kernel)

end FutexMutex
