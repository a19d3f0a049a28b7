import PyFastIpc.Lib.CInt
import PyFastIpc.Mutex.Wakeup

/-!
# The blocking acquire calls

`acquire()`, `__enter__()` and `acquire_ns(-1, spin)` wait as long as another thread has the lock,
and return with it when it becomes and stays free (`Contract`).  Two things can come between: only
`acquire()` looks at the owner word first and raises if it has the caller's pid, which it also has
while another thread of the same process holds the lock; and the late owner store of a release can
erase the pid of the caller before its call returns.  `blocking_calls_agree` has both as the
condition `OwnerApart` on the steps of a run.
-/

namespace FutexMutex

/-- The blocking entry points; the timeout of `acquire_ns` is -1. -/
inductive Entry where
  | acquire
  | enter
  | acquireNs (spin : ℤ)
  deriving DecidableEq

/-- The call with its arguments parsed; `none` where `spin` is no C int, which is an
`OverflowError`. -/
def Entry.call : Entry → Option Call
  | .acquire => some .acquire
  | .enter => some .enter
  | .acquireNs spin => (CInt.signed 32 spin).map (Call.acquireNs (-1))

def Entry.how : Entry → Acquire
  | .acquire => acquireFast
  | .enter => FutexMutex.enter
  | .acquireNs spin => FutexMutex.acquireNs (-1) spin

/-- The call neither gives up nor times out. -/
def Acquire.Endless (a : Acquire) : Prop := a.giveUp = false ∧ a.timed = false

theorem Entry.endless (e : Entry) : e.how.Endless := by
  cases e <;> exact ⟨rfl, rfl⟩

/-! ## The points of a call -/

/-- Points at which the call has not taken the state word. -/
def Pc.seeking (a : Acquire) : Pc → Bool
  | .loadOwner b | .cas b | .spinLoad b _ | .spinCas b _ | .xchg b | .futexWait b | .inWait b =>
    decide (b = a)
  | _ => false

/-- Points at which it has. -/
def Pc.entering (a : Acquire) : Pc → Bool
  | .storeOwner b | .storeLastNs b => decide (b = a)
  | _ => false

/-- The next step is the owner check. -/
def Pc.checksOwner : Pc → Bool
  | .loadOwner _ => true
  | _ => false

/-- The pid has been stored, and the call has not returned. -/
def Pc.stamping : Pc → Bool
  | .storeLastNs _ => true
  | _ => false

/-- The number of steps that a call has before it, as long as the state word is 0 or its own. -/
def Pc.remaining : Pc → ℕ
  | .loadOwner _ | .futexWait _ | .inWait _ => 4
  | .spinLoad a k => 2 * (a.spin - k).toNat + 5
  | .spinCas a k => 2 * (a.spin - k).toNat + 4
  | .cas _ | .xchg _ => 3
  | .storeOwner _ => 2
  | .storeLastNs _ => 1
  | _ => 0

section Points

variable {a : Acquire} {p : Pc}

theorem seeking_entry (a : Acquire) : a.entry.seeking a = true := by
  unfold Acquire.entry
  split_ifs <;> exact decide_eq_true rfl

theorem Entry.seeking_entry {e : Entry} {f : Call} (he : e.call = some f) :
    f.entry.seeking e.how = true := by
  cases e with
  | acquire | enter =>
    obtain rfl := Option.some.inj he
    exact FutexMutex.seeking_entry _
  | acquireNs spin =>
    obtain ⟨s, hs, rfl⟩ := Option.map_eq_some_iff.1 he
    obtain ⟨-, rfl⟩ := CInt.signed_eq_some_iff.1 hs
    have htimeout : CInt.signed 64 (-1) = some (-1) := rfl
    simp only [Call.entry, htimeout, hs]
    exact FutexMutex.seeking_entry _

theorem Entry.call_releases {e : Entry} {f : Call} (he : e.call = some f) : f.releases = false := by
  cases e with
  | acquire | enter =>
    obtain rfl := Option.some.inj he
    rfl
  | acquireNs spin =>
    obtain ⟨s, -, rfl⟩ := Option.map_eq_some_iff.1 he
    rfl

theorem seeking_spinFrom (ha : a.Endless) (k : ℕ) : (a.spinFrom k).seeking a = true := by
  unfold Acquire.spinFrom
  rw [ha.1]
  split_ifs <;> first | exact decide_eq_true rfl | contradiction

theorem remaining_spinFrom (ha : a.Endless) (k : ℕ) :
    (a.spinFrom (k + 1)).remaining < 2 * (a.spin - k).toNat + 4 := by
  unfold Acquire.spinFrom
  rw [ha.1]
  split_ifs with hk
  · simp only [Pc.remaining]
    omega
  · contradiction
  · simp only [Pc.remaining]
    omega

theorem Pc.trying_of_seeking (h : p.seeking a = true) : p.trying = true := by
  cases p <;> simp_all [Pc.seeking, Pc.trying]

theorem Pc.two_lt_remaining (h : p.seeking a = true) : 2 < p.remaining := by
  cases p <;> simp_all [Pc.seeking, Pc.remaining]

theorem Pc.ne_idle_of_seeking (h : p.seeking a = true) (r : Option Ret) : p ≠ .idle r := by
  rintro rfl
  cases h

end Points

variable {ι : Type*}

/-- How far a call of a process with the given pid has come, when the owner word is `owner`. -/
inductive Course (a : Acquire) (pid owner : UInt32) (t : Thread) : Prop
  | seeking (hpc : t.pc.seeking a = true)
  | storing (hpc : t.pc = .storeOwner a)
  | stamping (hpc : t.pc = .storeLastNs a) (howner : owner = pid)
  | acquired (hpc : t.pc = .idle (some a.ret)) (hheld : t.held = true) (howner : owner = pid)

/-! ## A step of the caller -/

section Caller

variable [DecidableEq ι] {a : Acquire} {i : ι} {pid : UInt32} {m : Move ι} {h h' : Header ι}
  {t t' : Thread}

/-- What a step from `t` to `t'` of a call that has not taken the word can do. -/
inductive SeekStep (a : Acquire) (pid : UInt32) (h : Header ι) (t t' : Thread) : Prop
  | refused (hpc : t.pc.checksOwner = true) (howner : h.ownerPid = pid)
  | take (hpc : t'.pc = .storeOwner a)
  | go (hpc : t'.pc.seeking a = true)
      (hless : h.state.word = 0 → t'.pc.remaining < t.pc.remaining)

theorem seek_step (ha : a.Endless) (hpc : t.pc.seeking a = true)
    (hs : step i pid m h t = some (h', t')) :
    SeekStep a pid h t t' ∧ t'.tookBefore = t.tookBefore := by
  have hself : decide (a = a) = true := decide_eq_true rfl
  cases hp : t.pc with
  | loadOwner b =>
    obtain rfl : b = a := by simpa [hp, Pc.seeking] using hpc
    cases m with
    | next =>
      simp only [step, next, hp] at hs
      split_ifs at hs with howner <;> obtain ⟨rfl, rfl⟩ := by simpa using hs
      · exact ⟨.refused (by rw [hp]; rfl) howner, rfl⟩
      · exact ⟨.go hself fun _ => by rw [hp]; exact Nat.lt_succ_self 3, rfl⟩
    | _ => simp [step, hp] at hs
  | cas b =>
    obtain rfl : b = a := by simpa [hp, Pc.seeking] using hpc
    cases m with
    | next =>
      simp only [step, next, hp] at hs
      split_ifs at hs with hword <;> obtain ⟨rfl, rfl⟩ := by simpa using hs
      · exact ⟨.take rfl, rfl⟩
      · exact ⟨.go (seeking_spinFrom ha 0) fun h0 => absurd h0 hword, rfl⟩
    | _ => simp [step, hp] at hs
  | spinLoad b k =>
    obtain rfl : b = a := by simpa [hp, Pc.seeking] using hpc
    cases m with
    | next =>
      simp only [step, next, hp] at hs
      split_ifs at hs with hword <;> obtain ⟨rfl, rfl⟩ := by simpa using hs
      · exact ⟨.go hself fun _ => by rw [hp]; exact Nat.lt_succ_self _, rfl⟩
      · exact ⟨.go (seeking_spinFrom ha (k + 1)) fun h0 => absurd h0 hword, rfl⟩
    | _ => simp [step, hp] at hs
  | spinCas b k =>
    obtain rfl : b = a := by simpa [hp, Pc.seeking] using hpc
    cases m with
    | next =>
      simp only [step, next, hp] at hs
      split_ifs at hs with hword <;> obtain ⟨rfl, rfl⟩ := by simpa using hs
      · exact ⟨.take rfl, rfl⟩
      · exact ⟨.go (seeking_spinFrom ha (k + 1)) fun h0 => absurd h0 hword, rfl⟩
    | weakFail =>
      obtain ⟨rfl, rfl⟩ := by simpa [step, hp] using hs
      refine ⟨.go (seeking_spinFrom ha (k + 1)) fun _ => ?_, rfl⟩
      rw [hp]
      exact remaining_spinFrom ha k
    | _ => simp [step, hp] at hs
  | xchg b =>
    obtain rfl : b = a := by simpa [hp, Pc.seeking] using hpc
    cases m with
    | next =>
      simp only [step, next, hp] at hs
      split_ifs at hs with hword <;> obtain ⟨rfl, rfl⟩ := by simpa using hs
      · exact ⟨.take rfl, rfl⟩
      · exact ⟨.go hself fun h0 => absurd h0 hword, rfl⟩
    | _ => simp [step, hp] at hs
  | futexWait b =>
    obtain rfl : b = a := by simpa [hp, Pc.seeking] using hpc
    cases m with
    | next =>
      simp only [step, next, hp] at hs
      split at hs <;> obtain ⟨rfl, rfl⟩ := by simpa using hs
      next s hwait =>
        refine ⟨.go hself fun h0 => ?_, rfl⟩
        rw [(Futex.wait_eq_some hwait).1] at h0
        cases h0
      next => exact ⟨.go hself fun _ => by rw [hp]; exact Nat.lt_succ_self 3, rfl⟩
    | _ => simp [step, hp] at hs
  | inWait b =>
    obtain rfl : b = a := by simpa [hp, Pc.seeking] using hpc
    cases m with
    | next =>
      simp only [step, next, hp] at hs
      split_ifs at hs
      obtain ⟨rfl, rfl⟩ := by simpa using hs
      exact ⟨.go hself fun _ => by rw [hp]; exact Nat.lt_succ_self 3, rfl⟩
    | signal =>
      simp only [step, hp, ha.2] at hs
      obtain ⟨s, -, heq⟩ := Option.map_eq_some_iff.1 hs
      obtain ⟨rfl, rfl⟩ := by simpa using heq
      exact ⟨.go hself fun _ => by rw [hp]; exact Nat.lt_succ_self 3, rfl⟩
    | timeout => simp [step, hp, ha.2] at hs
    | _ => simp [step, hp] at hs
  | _ => simp [hp, Pc.seeking] at hpc

/-- A step of the caller, whose owner check does not find its pid.  The call comes closer to its
end unless it meets a word that is not 0. -/
theorem Course.self (hc : Course a pid h.ownerPid t) (ha : a.Endless)
    (hbusy : ∀ r, t.pc ≠ .idle r) (hcheck : t.pc.checksOwner = true → h.ownerPid ≠ pid)
    (hs : step i pid m h t = some (h', t')) :
    Course a pid h'.ownerPid t' ∧ t'.tookBefore = t.tookBefore ∧
      ((t.pc.seeking a = true → h.state.word = 0) → t'.pc.remaining < t.pc.remaining) := by
  cases hc with
  | seeking hpc =>
    obtain ⟨hstep, hbefore⟩ := seek_step ha hpc hs
    cases hstep with
    | refused hload howner => exact absurd howner (hcheck hload)
    | take htake =>
      refine ⟨.storing htake, hbefore, fun _ => ?_⟩
      rw [htake]
      exact Pc.two_lt_remaining hpc
    | go hgo hless => exact ⟨.seeking hgo, hbefore, fun hzero => hless (hzero hpc)⟩
  | storing hpc =>
    cases m with
    | next =>
      obtain ⟨rfl, rfl⟩ := by simpa [step, next, hpc] using hs
      exact ⟨.stamping rfl rfl, rfl, fun _ => by rw [hpc]; exact Nat.lt_succ_self 1⟩
    | _ => simp [step, hpc] at hs
  | stamping hpc howner =>
    cases m with
    | stamp now =>
      obtain ⟨rfl, rfl⟩ := by simpa [step, hpc] using hs
      exact ⟨.acquired rfl rfl howner, rfl, fun _ => by rw [hpc]; exact Nat.lt_succ_self 0⟩
    | next => simp [step, next, hpc] at hs
    | _ => simp [step, hpc] at hs
  | acquired hpc => exact absurd hpc (hbusy _)

/-- A caller that is neither done nor asleep can go on. -/
theorem Course.enabled {owner : UInt32} (hc : Course a pid owner t) (hbusy : ∀ r, t.pc ≠ .idle r)
    (hawake : i ∉ h.state.sleepers) : ∃ m s, step i pid m h t = some s := by
  cases hc with
  | seeking hpc =>
    refine ⟨.next, ?_⟩
    cases hp : t.pc with
    | loadOwner b | cas b | spinLoad b k | spinCas b k | xchg b =>
      simp only [step, next, hp]
      split_ifs <;> exact ⟨_, rfl⟩
    | futexWait b =>
      simp only [step, next, hp]
      split <;> exact ⟨_, rfl⟩
    | inWait b =>
      simp only [step, next, hp, if_neg hawake]
      exact ⟨_, rfl⟩
    | _ => simp [hp, Pc.seeking] at hpc
  | storing hpc => exact ⟨.next, _, by simp only [step, next, hpc]; rfl⟩
  | stamping hpc => exact ⟨.stamp 0, _, by simp only [step, hpc]; rfl⟩
  | acquired hpc => exact absurd hpc (hbusy _)

end Caller

/-! ## Runs of a call -/

/-- Thread `i` has called `f`. -/
def State.called [DecidableEq ι] (c : State ι) (i : ι) (f : Call) : State ι :=
  ⟨c.shared, Function.update c.locals i ((c.locals i).begin f)⟩

/-- Thread `i` is inside a call. -/
def Busy (i : ι) (c : State ι) : Prop := ∀ r, (c.locals i).pc ≠ .idle r

/-- The owner word does not come between caller `i` and the lock: its owner check does not find its
own pid, and no release clears the word between the store of its pid and its return. -/
structure OwnerApart (P : Procs ι) (i : ι) (c : State ι) (b : ι × Move ι) : Prop where
  check : b.1 = i → (c.locals i).pc.checksOwner = true → c.shared.ownerPid ≠ P.pid i
  clear : (c.locals b.1).pc.clearsOwner = true → (c.locals i).pc.stamping = false

/-- The call of thread `i` has returned its success; the thread has the lock, and the owner word is
its pid. -/
structure Acquired (P : Procs ι) (i : ι) (a : Acquire) (c : State ι) : Prop where
  pc : (c.locals i).pc = .idle (some a.ret)
  held : (c.locals i).held = true
  taken : (c.locals i).taken = true
  owner : c.shared.ownerPid = P.pid i

/-- The course of the call of thread `i`. -/
abbrev State.Course (P : Procs ι) (i : ι) (a : Acquire) (c : State ι) : Prop :=
  FutexMutex.Course a (P.pid i) c.shared.ownerPid (c.locals i)

theorem disciplined_of_releasesOwn {P : Procs ι} {c : State ι} {b : ι × Move ι}
    (h : ReleasesOwn c b) : Disciplined P c b :=
  ⟨h.1, fun hrel => .inr (h.2 hrel)⟩

/-- A call that is not under way any more has the lock. -/
theorem Course.busy_or_acquired {P : Procs ι} {c : State ι} {i : ι} {a : Acquire} {o : Option ι}
    (hc : c.Course P i a) (hI : Implements P c o) : Busy i c ∨ Acquired P i a c := by
  cases hc with
  | seeking hpc => exact .inl (Pc.ne_idle_of_seeking hpc)
  | storing hpc | stamping hpc => exact .inl fun r hr => by simp [hpc] at hr
  | acquired hpc hheld howner =>
    exact .inr ⟨hpc, hheld, ((hI.thread i).held hheld).1, howner⟩

variable [DecidableEq ι]

/-- No thread but `i` has the lock after the step. -/
def StaysFree (P : Procs ι) (i : ι) (c : State ι) (b : ι × Move ι) : Prop :=
  ∀ c', (system P).step c b = some c' → ∀ j, j ≠ i → (c'.locals j).taken = false

/-- What a blocking call of thread `i` keeps to, in every state on its way. -/
structure Contract (P : Procs ι) (i : ι) (a : Acquire) (c : State ι) : Prop where
  /-- It raises nothing and does not give up. -/
  course : (c.locals i).pc.seeking a = true ∨ (c.locals i).pc.entering a = true ∨ Acquired P i a c
  /-- It waits as long as another thread has the lock. -/
  waits : ∀ j, j ≠ i → (c.locals j).taken = true → (c.locals i).pc.seeking a = true
  /-- While nobody else has the lock it comes to its end in a bounded number of its steps,
  whatever the other threads do. -/
  returns : (c.locals i).tookBefore = false → (∀ j, j ≠ i → (c.locals j).taken = false) →
    (system P).Served (fun u b => ReleasesOwn u b ∧ OwnerApart P i u b ∧ StaysFree P i u b)
      (fun b => b.1 = i) (fun u => i ∈ u.shared.state.sleepers) (Acquired P i a) c
  /-- While it sleeps somebody is bound to act on it. -/
  woken : i ∈ c.shared.state.sleepers → c.shared.state.word = 2 ∨
    ∃ j, Promises c.shared.state.sleepers j (c.locals j)

section Runs

variable {P : Procs ι} {c c' : State ι} {i : ι} {a : Acquire} {b : ι × Move ι} {o : Option ι}

/-- A step of another thread leaves the caller where it is. -/
theorem Course.other (hc : c.Course P i a) (hI : Implements P c o) (hbusy : Busy i c)
    (hapart : OwnerApart P i c b) (hb : b.1 ≠ i) (hs : (system P).step c b = some c') :
    c'.Course P i a ∧ c'.locals i = c.locals i := by
  obtain ⟨hd, t, he, rfl⟩ := effect_of_system_step hs
  have hlocal : Function.update c.locals b.1 t i = c.locals i := Function.update_of_ne hb.symm _ _
  refine ⟨?_, hlocal⟩
  change FutexMutex.Course a (P.pid i) hd.ownerPid (Function.update c.locals b.1 t i)
  rw [hlocal]
  cases hc with
  | seeking hpc => exact .seeking hpc
  | storing hpc => exact .storing hpc
  | stamping hpc howner =>
    have htaken : (c.locals i).taken = true := (hI.thread i).inside (by rw [hpc]; rfl)
    rcases he.ownerPid with ho | ⟨a', hstore⟩ | hclear
    · exact .stamping hpc (ho.trans howner)
    · -- two threads would have the lock
      have hj : (c.locals b.1).taken = true := (hI.thread b.1).inside (by rw [hstore]; rfl)
      exact absurd (hI.agrees.unique hj htaken) hb
    · have hstamp := hapart.clear hclear
      rw [hpc] at hstamp
      cases hstamp
  | acquired hpc => exact absurd hpc (hbusy _)

theorem Course.caller (hc : c.Course P i a) (ha : a.Endless) (hbusy : Busy i c)
    (hapart : OwnerApart P i c b) (hb : b.1 = i) (hs : (system P).step c b = some c') :
    c'.Course P i a ∧ (c'.locals i).tookBefore = (c.locals i).tookBefore ∧
      (∀ j, j ≠ i → c'.locals j = c.locals j) ∧
      (((c.locals i).pc.seeking a = true → c.shared.state.word = 0) →
        (c'.locals i).pc.remaining < (c.locals i).pc.remaining) := by
  subst hb
  change Config.interleave (fun i => step i (P.pid i)) c b = some c' at hs
  obtain ⟨hd, t, hstep, rfl⟩ := Config.interleave_eq_some hs
  obtain ⟨hcourse, hbefore, hless⟩ := hc.self ha hbusy (hapart.check rfl) hstep
  have hlocal : Function.update c.locals b.1 t b.1 = t := Function.update_self _ _ _
  refine ⟨?_, ?_, fun j hj => Function.update_of_ne hj _ _, ?_⟩
  · change FutexMutex.Course a (P.pid b.1) hd.ownerPid (Function.update c.locals b.1 t b.1)
    rw [hlocal]
    exact hcourse
  · exact (congrArg Thread.tookBefore hlocal).trans hbefore
  · intro hzero
    exact (congrArg (fun t => t.pc.remaining) hlocal).trans_lt (hless hzero)

theorem Course.step (hc : c.Course P i a) (ha : a.Endless) (hI : Implements P c o)
    (hbusy : Busy i c) (hapart : OwnerApart P i c b) (hs : (system P).step c b = some c') :
    c'.Course P i a := by
  by_cases hb : b.1 = i
  · exact (hc.caller ha hbusy hapart hb hs).1
  · exact (hc.other hI hbusy hapart hb hs).1

/-- The call comes to its end while nobody else has the lock. -/
theorem Course.served (hr : (system P).Reach ReleasesOwn c) (hc : c.Course P i a)
    (ha : a.Endless) (hbefore : (c.locals i).tookBefore = false)
    (hfree : ∀ j, j ≠ i → (c.locals j).taken = false) :
    (system P).Served (fun u b => ReleasesOwn u b ∧ OwnerApart P i u b ∧ StaysFree P i u b)
      (fun b => b.1 = i) (fun u => i ∈ u.shared.state.sleepers) (Acquired P i a) c := by
  refine Transition.Served.measure
    (fun u => (system P).Reach ReleasesOwn u ∧ u.Course P i a ∧ (u.locals i).tookBefore = false ∧
      ∀ j, j ≠ i → (u.locals j).taken = false)
    (fun u => (u.locals i).pc.remaining) ?_ ?_ ⟨hr, hc, hbefore, hfree⟩
  · rintro u ⟨hr, hc, -, -⟩
    obtain ⟨o, hI⟩ := exists_implements (hr.mono fun _ _ => disciplined_of_releasesOwn)
    rcases hc.busy_or_acquired hI with hbusy | hdone
    · by_cases hasleep : i ∈ u.shared.state.sleepers
      · exact .inr (.inl hasleep)
      · obtain ⟨m, s, hs⟩ := hc.enabled hbusy hasleep
        exact .inr (.inr ⟨(i, m), _, rfl,
          Config.interleave_of_step (fun i => FutexMutex.step i (P.pid i)) hs⟩)
    · exact .inl hdone
  · rintro u b u' ⟨hr, hc, hbefore, hfree⟩ hdone ⟨hown, hapart, hstays⟩ hs
    obtain ⟨o, hI⟩ := exists_implements (hr.mono fun _ _ => disciplined_of_releasesOwn)
    have hbusy : Busy i u := (hc.busy_or_acquired hI).resolve_right hdone
    have hr' : (system P).Reach ReleasesOwn u' := .step b hr hown hs
    by_cases hb : b.1 = i
    · obtain ⟨hc', hbefore', -, hless⟩ := hc.caller ha hbusy hapart hb hs
      have hlt : (u'.locals i).pc.remaining < (u.locals i).pc.remaining := by
        refine hless fun hseek => ?_
        -- before the call takes the word nobody has it
        have hnone : o = none := by
          refine hI.eq_none_of_free fun j => ?_
          by_cases hj : j = i
          · subst hj
            rw [(hI.thread j).trying (Pc.trying_of_seeking hseek)]
            exact hbefore
          · exact hfree j hj
        by_contra hword
        exact hI.word.1 hword hnone
      exact ⟨⟨hr', hc', hbefore'.trans hbefore, hstays u' hs⟩, hlt.le, fun _ => hlt⟩
    · obtain ⟨hc', hlocal⟩ := hc.other hI hbusy hapart hb hs
      refine ⟨⟨hr', hc', by rw [hlocal]; exact hbefore, hstays u' hs⟩, ?_, fun h => absurd h hb⟩
      rw [hlocal]

theorem Course.contract (hr : (system P).Reach ReleasesOwn c) (hc : c.Course P i a)
    (ha : a.Endless) : Contract P i a c := by
  obtain ⟨o, hI⟩ := exists_implements (hr.mono fun _ _ => disciplined_of_releasesOwn)
  refine ⟨?_, fun j hj htaken => ?_, hc.served hr ha, fun hasleep =>
    (promised_of_reach hr).2 ⟨i, hasleep⟩⟩
  · cases hc with
    | seeking hpc => exact .inl hpc
    | storing hpc | stamping hpc =>
      refine .inr (.inl ?_)
      rw [hpc]
      exact decide_eq_true rfl
    | acquired hpc hheld howner =>
      exact .inr (.inr ⟨hpc, hheld, ((hI.thread i).held hheld).1, howner⟩)
  · have hself : (c.locals i).taken ≠ true := fun h => hj (hI.agrees.unique htaken h)
    cases hc with
    | seeking hpc => exact hpc
    | storing hpc | stamping hpc =>
      exact absurd ((hI.thread i).inside (by rw [hpc]; rfl)) hself
    | acquired hpc hheld howner => exact absurd ((hI.thread i).held hheld).1 hself

end Runs

/-- The states on the way of a call `f` that thread `i` makes in state `c`, in steps with the
property `ok`. -/
def OnTheWay (P : Procs ι) (c : State ι) (i : ι) (f : Call) (ok : State ι → ι × Move ι → Prop)
    (s : State ι) : Prop :=
  ((system P).startAt (c.called i f)).Reach (fun u b => ReleasesOwn u b ∧ Busy i u ∧ ok u b) s

/-- The three blocking calls keep to one contract, in any reachable state of the mutex and under any
schedule of the other threads, in every run in which the owner word does not come between. -/
theorem blocking_calls_agree (P : Procs ι) {c : State ι} (hr : (system P).Reach ReleasesOwn c)
    {i : ι} (hidle : ∃ r, (c.locals i).pc = .idle r) {e : Entry} {f : Call}
    (he : e.call = some f) {s : State ι} (hs : OnTheWay P c i f (OwnerApart P i) s) :
    Contract P i e.how s := by
  have hcall : (system P).step c (i, .call f) = some (c.called i f) := system_step_call hidle
  have hown : ReleasesOwn c (i, .call f) := by
    have hrel := Entry.call_releases he
    constructor
    · intro h
      obtain rfl : f = .forceRelease := Move.call.inj h
      cases hrel
    · intro h
      obtain rfl : f = .release := Move.call.inj h
      cases hrel
  have hcalled : (system P).Reach ReleasesOwn (c.called i f) := .step _ hr hown hcall
  have hreach (u : State ι) (hu : OnTheWay P c i f (OwnerApart P i) u) :
      (system P).Reach ReleasesOwn u := hcalled.trans (hu.mono fun _ _ hok => hok.1)
  refine Course.contract (hreach s hs) ?_ e.endless
  refine hs.invariant (fun u => u.Course P i e.how) ?_ fun u b u' hu hc hok hstep => ?_
  · rintro _ rfl
    have hlocal : (c.called i f).locals i = (c.locals i).begin f := Function.update_self _ _ _
    refine .seeking ?_
    rw [hlocal]
    exact Entry.seeking_entry he
  · obtain ⟨o, hI⟩ := exists_implements
      ((hreach u hu).mono fun _ _ => disciplined_of_releasesOwn)
    exact hc.step e.endless hI hok.2.1 hok.2.2 hstep

instance (c : State ι) (i : ι) : Decidable (∃ r, (c.locals i).pc = .idle r) :=
  match hpc : (c.locals i).pc with
  | .idle r => .isTrue ⟨r, rfl⟩
  | .loadOwner _ | .cas _ | .spinLoad _ _ | .spinCas _ _ | .xchg _ | .futexWait _ | .inWait _
  | .storeOwner _ | .storeLastNs _ | .relLoad | .relXchg | .forceXchg | .relOwner _ | .relWake =>
    .isFalse fun ⟨_, h⟩ => by cases h

instance (c : State ι) (i : ι) : Decidable (Busy i c) :=
  decidable_of_iff (¬ ∃ r, (c.locals i).pc = .idle r) not_exists

instance (P : Procs ι) (i : ι) (c : State ι) (b : ι × Move ι) : Decidable (OwnerApart P i c b) :=
  decidable_of_iff
    ((b.1 = i → (c.locals i).pc.checksOwner = true → c.shared.ownerPid ≠ P.pid i) ∧
      ((c.locals b.1).pc.clearsOwner = true → (c.locals i).pc.stamping = false))
    ⟨fun h => ⟨h.1, h.2⟩, fun h => ⟨h.check, h.clear⟩⟩

/-- Process `a` has the lock. -/
def lockedByA (P : Procs Tid) : State Tid :=
  (system P).exec ReleasesOwn start
    [(.a, .call .tryAcquire), (.a, .next), (.a, .next), (.a, .stamp 5)]

/-- The call `f` of `b`, made while `a` has the lock, after some steps. -/
def against (P : Procs Tid) (ok : State Tid → Tid × Move Tid → Prop)
    [∀ s b, Decidable (ok s b)] (f : Call) (steps : List (Tid × Move Tid)) : State Tid :=
  ((system P).startAt ((lockedByA P).called .b f)).exec
    (fun u b => ReleasesOwn u b ∧ Busy .b u ∧ ok u b) ((lockedByA P).called .b f) steps

/-- The steps of `b` into its sleep, the release of `a`, and the return of `b`. -/
def handover : List (Tid × Move Tid) :=
  [(.b, .next), (.b, .next), (.b, .next), (.b, .next), (.a, .call .release), (.a, .next),
    (.a, .next), (.a, .next), (.a, .wake {.b}), (.b, .next), (.b, .next), (.b, .next),
    (.b, .stamp 6)]

theorem blocking_calls_agree_procs :
    Contract procs .b acquireFast (against procs (OwnerApart procs .b) .acquire handover) :=
  blocking_calls_agree procs (.exec _ (.init fresh_start)) (by decide +kernel)
    (e := .acquire) rfl (.exec _ (.init rfl))

/-- Three threads of one process. -/
def siblings : Procs Tid := ⟨fun _ => 1, fun _ => by decide⟩

/-- When a thread of the same process has the lock, `acquire` raises where `acquire_ns` waits and
gets the lock from it. -/
theorem acquire_raises :
    (¬ ∀ c, (system siblings).Reach ReleasesOwn c → ∀ i, (∃ r, (c.locals i).pc = .idle r) →
      ∀ (e : Entry) f, e.call = some f → ∀ s, OnTheWay siblings c i f (fun _ _ => True) s →
        Contract siblings i e.how s) ∧
    ((against siblings (fun _ _ => True) .acquire handover).locals .b).pc =
      .idle (some (.raised .alreadyOwned)) ∧
    ((against siblings (fun _ _ => True) (.acquireNs (-1) 1) handover).locals .b).pc =
      .idle (some (.bool true)) := by
  refine ⟨fun h => ?_, by decide +kernel, by decide +kernel⟩
  have hcontract := h (lockedByA siblings) (.exec _ (.init fresh_start)) .b (by decide +kernel)
    .acquire .acquire rfl (against siblings (fun _ _ => True) .acquire [(.b, .next)])
    (.exec _ (.init rfl))
  rcases hcontract.course with hpc | hpc | hdone
  · exact absurd hpc (by decide +kernel)
  · exact absurd hpc (by decide +kernel)
  · exact absurd hdone.pc (by decide +kernel)

end FutexMutex
