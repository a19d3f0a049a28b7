import PyFastIpc.Mutex.Model

/-!
# What one mutex step can do

`Effect` lists the effects of a step, with the guards the later proofs need, and `effect_of_step`
is the only place where the step function is unfolded.  Program points are grouped by predicates
(`Pc.trying`, `Pc.inside`, …) because invariants treat all points of a group alike.
-/

namespace FutexMutex

/-- Calls that have not taken or given up the lock so far, and calls that ended without success. -/
def Pc.trying : Pc → Bool
  | .loadOwner _ | .cas _ | .spinLoad _ _ | .spinCas _ _ | .xchg _ | .futexWait _ | .inWait _
  | .relLoad => true
  | .idle (some r) => r.failed
  | _ => false

/-- Points reached only by the thread that has the state word. -/
def Pc.inside : Pc → Bool
  | .storeOwner _ | .storeLastNs _ | .relXchg => true
  | _ => false

/-- Points after the exchange of a release. -/
def Pc.leaving : Pc → Bool
  | .relOwner _ | .relWake => true
  | _ => false

/-- Inside a release or between taking the word and returning. -/
def Pc.passing : Pc → Bool
  | .storeOwner _ | .storeLastNs _ | .relLoad | .relXchg | .forceXchg | .relOwner _ | .relWake =>
    true
  | _ => false

/-- Points of the search for the lock that read the state word and change nothing. -/
def Pc.probing : Pc → Bool
  | .cas _ | .spinLoad _ _ | .spinCas _ _ => true
  | _ => false

/-- Points whose step takes the state word if it is 0. -/
def Pc.grabbing : Pc → Bool
  | .cas _ | .spinCas _ _ | .xchg _ => true
  | _ => false

section Groups

variable (a : Acquire) (k : ℕ)

theorem trying_spinFrom : (a.spinFrom k).trying = true := by
  unfold Acquire.spinFrom
  split_ifs <;> rfl

theorem passing_spinFrom : (a.spinFrom k).passing = false := by
  unfold Acquire.spinFrom
  split_ifs <;> rfl

theorem trying_entry : a.entry.trying = true := by
  unfold Acquire.entry
  split_ifs <;> rfl

theorem passing_entry : a.entry.passing = false := by
  unfold Acquire.entry
  split_ifs <;> rfl

theorem failed_ret : a.ret.failed = false := by
  unfold Acquire.ret
  split_ifs <;> rfl

variable {p : Pc}

theorem Pc.inside_of_trying (h : p.trying = true) : p.inside = false := by
  cases p <;> simp_all [trying, inside]

theorem Pc.leaving_of_trying (h : p.trying = true) : p.leaving = false := by
  cases p <;> simp_all [trying, leaving]

theorem Pc.trying_of_probing (h : p.probing = true) : p.trying = true := by
  cases p <;> simp_all [trying, probing]

variable {f : Call}

/-- An acquire call begins to search for the lock, or its arguments do not fit and it raises. -/
theorem Call.entry_cases (hf : f.releases = false) :
    (∃ a : Acquire, f.entry = a.entry) ∨ ¬ f.Fits ∧ f.entry = .idle (some .overflow) := by
  cases f with
  | release | forceRelease => cases hf
  | acquireNs timeoutNs spin =>
    rw [Call.entry]
    split
    · exact .inl ⟨_, rfl⟩
    next hnone =>
      refine .inr ⟨fun h => ?_, rfl⟩
      exact hnone _ _ (CInt.signed_eq_some_iff.2 ⟨h.1, rfl⟩)
        (CInt.signed_eq_some_iff.2 ⟨h.2, rfl⟩)
  | acquire | tryAcquire | enter => exact .inl ⟨_, rfl⟩

theorem Call.trying_of_acquires (hf : f.releases = false) : f.entry.trying = true := by
  rcases Call.entry_cases hf with ⟨a, ha⟩ | ⟨-, hover⟩
  · rw [ha]
    exact FutexMutex.trying_entry a
  · rw [hover]
    rfl

variable (f)

theorem Call.passing_entry : f.entry.passing = f.releases := by
  cases hf : f.releases with
  | true => cases f <;> first | rfl | cases hf
  | false =>
    rcases Call.entry_cases hf with ⟨a, ha⟩ | ⟨-, hover⟩
    · rw [ha]
      exact FutexMutex.passing_entry a
    · rw [hover]
      rfl

theorem Call.inside_entry : f.entry.inside = false := by
  cases hf : f.releases with
  | true => cases f <;> first | rfl | cases hf
  | false => exact Pc.inside_of_trying (Call.trying_of_acquires hf)

theorem Call.leaving_entry : f.entry.leaving = false := by
  cases hf : f.releases with
  | true => cases f <;> first | rfl | cases hf
  | false => exact Pc.leaving_of_trying (Call.trying_of_acquires hf)

variable {f}

theorem Call.eq_release_of_entry (h : f.entry = .relLoad) : f = .release := by
  have hf := f.passing_entry
  rw [h] at hf
  cases f with
  | release => rfl
  | forceRelease => cases h
  | acquire | acquireNs _ _ | tryAcquire | enter => cases hf

theorem Call.eq_forceRelease_of_entry (h : f.entry = .forceXchg) : f = .forceRelease := by
  have hf := f.passing_entry
  rw [h] at hf
  cases f with
  | release => cases h
  | forceRelease => rfl
  | acquire | acquireNs _ _ | tryAcquire | enter => cases hf

end Groups

variable {ι : Type*} [DecidableEq ι]

/-- The effects of one step of thread `i` of the process `pid`. -/
inductive Effect (i : ι) (pid : UInt32) (m : Move ι) (h : Header ι) (t : Thread) :
    Header ι → Thread → Prop
  | call (f : Call) (hm : m = .call f) (hpc : ∃ r, t.pc = .idle r) :
      Effect i pid m h t h (t.begin f)
  | refused (a : Acquire) (hpc : t.pc = .loadOwner a) (howner : h.ownerPid = pid) :
      Effect i pid m h t h (t.goto (.idle (some (.raised .alreadyOwned))))
  | passed (a : Acquire) (hpc : t.pc = .loadOwner a) : Effect i pid m h t h (t.goto (.cas a))
  | take (a : Acquire) (v : UInt32) (hpc : t.pc.grabbing = true) (hv : v ≠ 0)
      (hmark : (∃ b, t.pc = .xchg b) → v = 2) (hfree : h.state.word = 0) :
      Effect i pid m h t { h with state := h.state.store v } (t.take a)
  | probe (p : Pc) (hpc : t.pc.probing = true) (hp : p.trying = true ∧ p.passing = false) :
      Effect i pid m h t h (t.goto p)
  | mark (a : Acquire) (hpc : t.pc = .xchg a) (hbusy : h.state.word ≠ 0) :
      Effect i pid m h t { h with state := h.state.store 2 } (t.goto (.futexWait a))
  | sleep (a : Acquire) (hpc : t.pc = .futexWait a) (hword : h.state.word = 2) :
      Effect i pid m h t { h with state := { h.state with sleepers := insert i h.state.sleepers } }
        (t.goto (.inWait a))
  | again (a : Acquire) (hpc : t.pc = .futexWait a) (hword : h.state.word ≠ 2) :
      Effect i pid m h t h (t.goto (.xchg a))
  | woken (a : Acquire) (hpc : t.pc = .inWait a) (hout : i ∉ h.state.sleepers) :
      Effect i pid m h t h (t.goto (.xchg a))
  | leave (a : Acquire) (p : Pc) (hpc : t.pc = .inWait a) (hin : i ∈ h.state.sleepers)
      (hp : p.trying = true ∧ p.passing = false) :
      Effect i pid m h t { h with state := { h.state with sleepers := h.state.sleepers.erase i } }
        (t.goto p)
  | storeOwner (a : Acquire) (hpc : t.pc = .storeOwner a) :
      Effect i pid m h t { h with ownerPid := pid } (t.goto (.storeLastNs a))
  | storeLastNs (a : Acquire) (now : UInt64) (hpc : t.pc = .storeLastNs a) :
      Effect i pid m h t { h with lastAcquiredNs := now } (t.succeed a.ret)
  | disowned (hpc : t.pc = .relLoad) (howner : h.ownerPid ≠ pid) :
      Effect i pid m h t h (t.goto (.idle (some (.raised .notOwned))))
  | owned (hpc : t.pc = .relLoad) (howner : h.ownerPid = pid) :
      Effect i pid m h t h (t.goto .relXchg)
  | drop (hpc : t.pc = .relXchg ∨ t.pc = .forceXchg) :
      Effect i pid m h t { h with state := h.state.store 0 } (t.drop h.state.word)
  | clearOwner (contended : Bool) (p : Pc) (hpc : t.pc = .relOwner contended)
      (hp : p = if contended then .relWake else .idle (some .none)) :
      Effect i pid m h t { h with ownerPid := 0 } (t.goto p)
  | wake (s : Futex ι) (who : Finset ι) (hpc : t.pc = .relWake) (hs : h.state.wake 1 who = some s) :
      Effect i pid m h t { h with state := s } (t.goto (.idle (some .none)))

section Inversion

variable {i : ι} {pid : UInt32} {m : Move ι} {h h' : Header ι} {t t' : Thread}

theorem effect_of_next (hs : next i pid h t = some (h', t')) : Effect i pid m h t h' t' := by
  unfold next at hs
  cases hpc : t.pc with
  | loadOwner a =>
    simp only [hpc] at hs
    split_ifs at hs with ho <;> obtain ⟨rfl, rfl⟩ := by simpa using hs
    · exact .refused a hpc ho
    · exact .passed a hpc
  | cas a =>
    simp only [hpc] at hs
    split_ifs at hs with hw <;> obtain ⟨rfl, rfl⟩ := by simpa using hs
    · exact .take a 1 (by rw [hpc]; rfl) (by decide) (by simp [hpc]) hw
    · exact .probe _ (by rw [hpc]; rfl) ⟨trying_spinFrom a 0, passing_spinFrom a 0⟩
  | spinLoad a k =>
    simp only [hpc] at hs
    split_ifs at hs with hw <;> obtain ⟨rfl, rfl⟩ := by simpa using hs
    · exact .probe _ (by rw [hpc]; rfl) ⟨rfl, rfl⟩
    · exact .probe _ (by rw [hpc]; rfl) ⟨trying_spinFrom a _, passing_spinFrom a _⟩
  | spinCas a k =>
    simp only [hpc] at hs
    split_ifs at hs with hw <;> obtain ⟨rfl, rfl⟩ := by simpa using hs
    · exact .take a 1 (by rw [hpc]; rfl) (by decide) (by simp [hpc]) hw
    · exact .probe _ (by rw [hpc]; rfl) ⟨trying_spinFrom a _, passing_spinFrom a _⟩
  | xchg a =>
    simp only [hpc] at hs
    split_ifs at hs with hw <;> obtain ⟨rfl, rfl⟩ := by simpa using hs
    · exact .take a 2 (by rw [hpc]; rfl) (by decide) (fun _ => rfl) hw
    · exact .mark a hpc hw
  | futexWait a =>
    simp only [hpc] at hs
    cases hw : h.state.wait i 2 with
    | none =>
      obtain ⟨rfl, rfl⟩ := by simpa [hw] using hs
      exact .again a hpc (Futex.wait_eq_none hw)
    | some s =>
      obtain ⟨rfl, rfl⟩ := by simpa [hw] using hs
      obtain ⟨hword, rfl⟩ := Futex.wait_eq_some hw
      exact .sleep a hpc hword
  | inWait a =>
    simp only [hpc] at hs
    split_ifs at hs with hw
    obtain ⟨rfl, rfl⟩ := by simpa using hs
    exact .woken a hpc hw
  | storeOwner a =>
    obtain ⟨rfl, rfl⟩ := by simpa [hpc] using hs
    exact .storeOwner a hpc
  | relLoad =>
    simp only [hpc] at hs
    split_ifs at hs with ho <;> obtain ⟨rfl, rfl⟩ := by simpa using hs
    · exact .owned hpc ho
    · exact .disowned hpc ho
  | relXchg =>
    obtain ⟨rfl, rfl⟩ := by simpa [hpc] using hs
    exact .drop (.inl hpc)
  | forceXchg =>
    obtain ⟨rfl, rfl⟩ := by simpa [hpc] using hs
    exact .drop (.inr hpc)
  | relOwner contended =>
    obtain ⟨rfl, rfl⟩ := by simpa [hpc] using hs
    exact .clearOwner contended _ hpc rfl
  | idle r | storeLastNs a | relWake => simp [hpc] at hs

theorem effect_of_step (hs : step i pid m h t = some (h', t')) :
    Effect i pid m h t h' t' := by
  unfold step at hs
  split at hs
  next f r hpc =>
    obtain ⟨rfl, rfl⟩ := by simpa using hs
    exact .call f rfl ⟨r, hpc⟩
  next => exact effect_of_next hs
  next a k hpc =>
    obtain ⟨rfl, rfl⟩ := by simpa using hs
    exact .probe _ (by rw [hpc]; rfl) ⟨trying_spinFrom a _, passing_spinFrom a _⟩
  next now a hpc =>
    obtain ⟨rfl, rfl⟩ := by simpa using hs
    exact .storeLastNs a now hpc
  next who hpc =>
    obtain ⟨s, hk, heq⟩ := Option.map_eq_some_iff.1 hs
    obtain ⟨rfl, rfl⟩ := by simpa using heq
    exact .wake s who hpc hk
  next a hpc =>
    split_ifs at hs with ht
    obtain ⟨s, hk, heq⟩ := Option.map_eq_some_iff.1 hs
    obtain ⟨rfl, rfl⟩ := by simpa using heq
    obtain ⟨hin, rfl⟩ := Futex.leave_eq_some hk
    exact .leave a _ hpc hin ⟨rfl, rfl⟩
  next a hpc =>
    obtain ⟨s, hk, heq⟩ := Option.map_eq_some_iff.1 hs
    obtain ⟨rfl, rfl⟩ := by simpa using heq
    obtain ⟨hin, rfl⟩ := Futex.leave_eq_some hk
    exact .leave a _ hpc hin (by split_ifs <;> exact ⟨rfl, rfl⟩)
  next => simp at hs

theorem effect_of_system_step {P : Procs ι} {c c' : State ι} {a : ι × Move ι}
    (hs : (system P).step c a = some c') :
    ∃ hd t, Effect a.1 (P.pid a.1) a.2 c.shared (c.locals a.1) hd t ∧
      c' = ⟨hd, Function.update c.locals a.1 t⟩ := by
  change Config.interleave (fun i => step i (P.pid i)) c a = some c' at hs
  obtain ⟨hd, t, hstep, rfl⟩ := Config.interleave_eq_some hs
  exact ⟨hd, t, effect_of_step hstep, rfl⟩

/-- A thread that is in no call can begin one. -/
theorem system_step_call {P : Procs ι} {c : State ι} {i : ι} {f : Call}
    (hidle : ∃ r, (c.locals i).pc = .idle r) :
    (system P).step c (i, .call f) =
      some ⟨c.shared, Function.update c.locals i ((c.locals i).begin f)⟩ := by
  obtain ⟨r, hidle⟩ := hidle
  have hcall : step i (P.pid i) (.call f) c.shared (c.locals i) =
      some (c.shared, (c.locals i).begin f) := by
    simp only [step, hidle]
  exact Config.interleave_of_step (fun i => step i (P.pid i)) hcall

theorem Effect.magic (he : Effect i pid m h t h' t') : h'.magic = h.magic := by
  cases he <;> rfl

/-- `force_release` is only entered by a call. -/
theorem Effect.eq_forceRelease (he : Effect i pid m h t h' t') (hpc : t'.pc = .forceXchg) :
    m = .call .forceRelease := by
  cases he with
  | call f hm _ =>
    obtain rfl := Call.eq_forceRelease_of_entry hpc
    exact hm
  | probe p _ hp | leave _ p _ _ hp =>
    obtain rfl : p = .forceXchg := hpc
    simp [Pc.trying] at hp
  | clearOwner contended p _ hp =>
    obtain rfl : p = .forceXchg := hpc
    split_ifs at hp
  | _ => cases hpc

end Inversion

end FutexMutex
