import PyFastIpc.Mutex.Owner

/-!
# The course of a call

The program points of an `acquire`, of a `release` and of a `force_release` call, and what a step of
such a call can do: it goes on, it returns, or it raises.  For components that make these calls.
-/

namespace FutexMutex

/-- Points of an `acquire` call. -/
def Pc.acquiring : Pc → Bool
  | .loadOwner a | .cas a | .xchg a | .futexWait a | .inWait a | .storeOwner a | .storeLastNs a =>
    decide (a = acquireFast)
  | _ => false

/-- Points of a `release` call. -/
def Pc.releasing : Pc → Bool
  | .relLoad | .relXchg | .relOwner _ | .relWake => true
  | _ => false

/-- What a step of an `acquire` call from `t` to `t'` can do when the state word is `word`. -/
inductive AcquireStep (word : UInt32) (t t' : Thread) : Prop
  | take (hfree : word = 0) (hin : t.pc.inside = false) (hin' : t'.pc.inside = true)
      (hpc : t'.pc.acquiring = true) (htaken : t'.taken = true)
  | go (hin : t'.pc.inside = t.pc.inside) (hpc : t'.pc.acquiring = true)
      (htaken : t'.taken = t.taken)
  | done (hin : t.pc.inside = true) (hpc : t'.pc = .idle (some (.bool true)))
      (htaken : t'.taken = t.taken)
  | refused (hin : t.pc.inside = false) (hpc : t'.pc = .idle (some (.raised .alreadyOwned)))
      (htaken : t'.taken = t.taken)

/-- `acquire` does not spin. -/
theorem spinFrom_acquireFast (k : ℕ) : acquireFast.spinFrom k = .xchg acquireFast := by
  have hspin : ¬ ((k : ℤ) < acquireFast.spin) := by
    change ¬ ((k : ℤ) < 0)
    omega
  rw [Acquire.spinFrom, if_neg hspin]
  rfl

section Step

variable {ι : Type*} [DecidableEq ι] {i : ι} {pid : UInt32} {m : Move ι} {h h' : Header ι}
  {t t' : Thread}

theorem acquire_step (hs : step i pid m h t = some (h', t')) (hpc : t.pc.acquiring = true) :
    AcquireStep h.state.word t t' := by
  cases hp : t.pc with
  | loadOwner a =>
    obtain rfl : a = acquireFast := by simpa [hp, Pc.acquiring] using hpc
    cases m with
    | next =>
      simp only [step, next, hp] at hs
      split_ifs at hs with howner <;> obtain ⟨rfl, rfl⟩ := by simpa using hs
      · exact .refused (by rw [hp]; rfl) rfl rfl
      · exact .go (by rw [hp]; rfl) rfl rfl
    | _ => simp [step, hp] at hs
  | cas a =>
    obtain rfl : a = acquireFast := by simpa [hp, Pc.acquiring] using hpc
    cases m with
    | next =>
      simp only [step, next, hp] at hs
      split_ifs at hs with hword <;> obtain ⟨rfl, rfl⟩ := by simpa using hs
      · exact .take hword (by rw [hp]; rfl) rfl rfl rfl
      · rw [spinFrom_acquireFast]
        exact .go (by rw [hp]; rfl) rfl rfl
    | _ => simp [step, hp] at hs
  | xchg a =>
    obtain rfl : a = acquireFast := by simpa [hp, Pc.acquiring] using hpc
    cases m with
    | next =>
      simp only [step, next, hp] at hs
      split_ifs at hs with hword <;> obtain ⟨rfl, rfl⟩ := by simpa using hs
      · exact .take hword (by rw [hp]; rfl) rfl rfl rfl
      · exact .go (by rw [hp]; rfl) rfl rfl
    | _ => simp [step, hp] at hs
  | futexWait a =>
    obtain rfl : a = acquireFast := by simpa [hp, Pc.acquiring] using hpc
    cases m with
    | next =>
      simp only [step, next, hp] at hs
      split at hs <;> obtain ⟨rfl, rfl⟩ := by simpa using hs
      · exact .go (by rw [hp]; rfl) rfl rfl
      · exact .go (by rw [hp]; rfl) rfl rfl
    | _ => simp [step, hp] at hs
  | inWait a =>
    obtain rfl : a = acquireFast := by simpa [hp, Pc.acquiring] using hpc
    cases m with
    | next =>
      simp only [step, next, hp] at hs
      split_ifs at hs
      obtain ⟨rfl, rfl⟩ := by simpa using hs
      exact .go (by rw [hp]; rfl) rfl rfl
    | signal =>
      simp only [step, hp] at hs
      obtain ⟨s, -, heq⟩ := Option.map_eq_some_iff.1 hs
      obtain ⟨rfl, rfl⟩ := by simpa using heq
      exact .go (by rw [hp]; rfl) rfl rfl
    | timeout => simp [step, hp, acquireFast] at hs
    | _ => simp [step, hp] at hs
  | storeOwner a =>
    obtain rfl : a = acquireFast := by simpa [hp, Pc.acquiring] using hpc
    cases m with
    | next =>
      obtain ⟨rfl, rfl⟩ := by simpa [step, next, hp] using hs
      exact .go (by rw [hp]; rfl) rfl rfl
    | _ => simp [step, hp] at hs
  | storeLastNs a =>
    obtain rfl : a = acquireFast := by simpa [hp, Pc.acquiring] using hpc
    cases m with
    | stamp now =>
      obtain ⟨rfl, rfl⟩ := by simpa [step, hp] using hs
      exact .done (by rw [hp]; rfl) rfl rfl
    | next => simp [step, next, hp] at hs
    | _ => simp [step, hp] at hs
  | _ => simp [hp, Pc.acquiring] at hpc

/-- Points of a `force_release` call. -/
def Pc.forcing (p : Pc) : Prop := p = .forceXchg ∨ p.leaving = true

/-- What a step of a `force_release` call from `t` to `t'` can do. -/
structure ForceStep (h : Header ι) (t : Thread) (h' : Header ι) (t' : Thread) : Prop where
  pc : t'.pc.leaving = true ∨ ∃ r, t'.pc = .idle r
  taken : t.taken = false → t'.taken = false
  word : h'.state.word = h.state.word ∨ t.pc = .forceXchg ∧ h'.state.word = 0
  owner : h'.ownerPid = h.ownerPid ∨ t.pc.clearsOwner = true ∧ h'.ownerPid = 0
  rest : h'.magic = h.magic ∧ h'.flags = h.flags ∧ h'.lastAcquiredNs = h.lastAcquiredNs

theorem force_step (he : Effect i pid m h t h' t') (hpc : t.pc.forcing) : ForceStep h t h' t' := by
  cases he with
  | drop hx =>
    rcases hx with hx | hx
    · simp [Pc.forcing, hx, Pc.leaving] at hpc
    · exact ⟨.inl rfl, fun _ => rfl, .inr ⟨hx, rfl⟩, .inl rfl, rfl, rfl, rfl⟩
  | clearOwner contended p hx hp =>
    refine ⟨?_, id, .inl rfl, .inr ⟨by rw [hx]; rfl, rfl⟩, rfl, rfl, rfl⟩
    subst hp
    cases contended with
    | true => exact .inl rfl
    | false => exact .inr ⟨_, rfl⟩
  | wake s who hx hs =>
    exact ⟨.inr ⟨_, rfl⟩, id, .inl (Futex.wake_word hs), .inl rfl, rfl, rfl, rfl⟩
  | call f hm hx =>
    obtain ⟨r, hx⟩ := hx
    simp [Pc.forcing, hx, Pc.leaving] at hpc
  | probe p hx hp => cases hq : t.pc <;> simp_all [Pc.forcing, Pc.leaving, Pc.probing]
  | take a v hx hv hmark hfree =>
    cases hq : t.pc <;> simp_all [Pc.forcing, Pc.leaving, Pc.grabbing]
  | _ => simp_all [Pc.forcing, Pc.leaving]

/-- A step of a `release` call goes on in it or ends it. -/
theorem release_step (he : Effect i pid m h t h' t') (hpc : t.pc.releasing = true) :
    t'.pc.releasing = true ∨ ∃ r, t'.pc = .idle (some r) := by
  cases he with
  | disowned hp howner => exact .inr ⟨_, rfl⟩
  | owned hp howner => exact .inl rfl
  | drop hp => exact .inl rfl
  | clearOwner contended p hp hpost =>
    subst hpost
    cases contended with
    | true => exact .inl rfl
    | false => exact .inr ⟨_, rfl⟩
  | wake s who hp hwake => exact .inr ⟨_, rfl⟩
  | call f hm hp =>
    obtain ⟨r, hp⟩ := hp
    simp [hp, Pc.releasing] at hpc
  | take a v hp hv hmark hfree => cases hq : t.pc <;> simp_all [Pc.releasing, Pc.grabbing]
  | probe p hp hpost => cases hq : t.pc <;> simp_all [Pc.releasing, Pc.probing]
  | refused a hp | passed a hp | mark a hp | sleep a hp | again a hp | woken a hp | leave a p hp
  | storeOwner a hp | storeLastNs a now hp => simp [hp, Pc.releasing] at hpc

end Step

end FutexMutex
