import PyFastIpc.Semaphore.Model

/-!
# What one semaphore step can do

`Effect` lists the effects of a step and `effect_of_step` is the only place where the step function
is unfolded.
-/

namespace FutexSemaphore

/-- The arguments of the `wait` call whose loop the thread is in. -/
def Pc.looping : Pc → Option Wait
  | .spinLoad w _ | .spinCas w _ _ _ | .futexWait w | .inWait w => some w
  | _ => none

@[simp] theorem Pc.looping_inWait (w : Wait) : (Pc.inWait w).looping = some w := rfl

@[simp] theorem Pc.looping_idle (r : Option Ret) : (Pc.idle r).looping = none := rfl

/-- What the thread does next in the loop of the call `w`: it goes on, or gives up if it may not
block. -/
def Wait.Goes (w : Wait) (p : Pc) : Prop :=
  p.looping = some w ∨ w.blocking = false ∧ p = .idle (some (.bool false))

theorem Wait.goes_spinFrom (w : Wait) (k : ℕ) : w.Goes (w.spinFrom k) := by
  unfold Wait.Goes Wait.spinFrom
  split_ifs with hk hb
  · exact .inl rfl
  · exact .inl rfl
  · exact .inr ⟨by simpa using hb, rfl⟩

variable {ι : Type*} [DecidableEq ι]

/-- The effects of one step of thread `i` of the process `pid`. -/
inductive Effect (i : ι) (pid : UInt32) (m : Move ι) (h : Header ι) (t : Thread) :
    Header ι → Thread → Prop
  | call (f : Call) (hm : m = .call f) (hpc : ∃ r, t.pc = .idle r) :
      Effect i pid m h t h (t.begin f)
  | peeked (hpc : t.pc = .peek) : Effect i pid m h t h (t.goto (.idle (some .none)))
  | refused (add : UInt32) (hpc : t.pc = .addLoad add)
      (hov : 2 ^ 32 ≤ h.count.word.toNat + add.toNat) :
      Effect i pid m h t h (t.goto (.idle (some (.raised .countOverflow))))
  | seen (add cur : UInt32) (room : cur.toNat + add.toNat < 2 ^ 32) (hpc : t.pc = .addLoad add) :
      Effect i pid m h t h (t.goto (.addCas add cur room))
  | retry (add cur : UInt32) (room : cur.toNat + add.toNat < 2 ^ 32)
      (hpc : t.pc = .addCas add cur room) : Effect i pid m h t h (t.goto (.addLoad add))
  | add (add cur : UInt32) (room : cur.toNat + add.toNat < 2 ^ 32) (hm : m = .next)
      (hpc : t.pc = .addCas add cur room) (hcur : h.count.word = cur) :
      Effect i pid m h t { h with count := h.count.store (cur + add) }
        (t.add (if cur = 0 then .wake add else .idle (some .none)))
  | wake (add : UInt32) (s : Futex ι) (who : Finset ι) (hpc : t.pc = .wake add)
      (hs : h.count.wake (wakeCount add) who = some s) :
      Effect i pid m h t { h with count := s } (t.goto (.idle (some .none)))
  | search (w : Wait) (p : Pc) (hpc : t.pc.looping = some w) (hp : w.Goes p)
      (hout : t.pc = .inWait w → i ∉ h.count.sleepers) : Effect i pid m h t h (t.goto p)
  | take (w : Wait) (k : ℕ) (v : UInt32) (pos : v ≠ 0) (hpc : t.pc = .spinCas w k v pos)
      (hv : h.count.word = v) :
      Effect i pid m h t { h with count := h.count.store (v - 1) } t.take
  | sleep (w : Wait) (hpc : t.pc = .futexWait w) (hword : h.count.word = 0) :
      Effect i pid m h t { h with count := { h.count with sleepers := insert i h.count.sleepers } }
        (t.goto (.inWait w))
  | leave (w : Wait) (p : Pc) (hpc : t.pc = .inWait w) (hin : i ∈ h.count.sleepers)
      (hp : w.Goes p ∨ p = .idle (some (.bool false))) :
      Effect i pid m h t { h with count := { h.count with sleepers := h.count.sleepers.erase i } }
        (t.goto p)
  | storeLastPid (hpc : t.pc = .storeLastPid) :
      Effect i pid m h t { h with lastPid := pid } (t.goto .storeLastNs)
  | storeLastNs (now : UInt64) (hpc : t.pc = .storeLastNs) :
      Effect i pid m h t { h with lastAcquiredNs := now } (t.goto (.idle (some (.bool true))))

section Inversion

variable {i : ι} {pid : UInt32} {m : Move ι} {h h' : Header ι} {t t' : Thread}

theorem effect_of_next (hs : next i pid h t = some (h', t')) : Effect i pid .next h t h' t' := by
  unfold next at hs
  cases hpc : t.pc with
  | peek =>
    obtain ⟨rfl, rfl⟩ := by simpa [hpc] using hs
    exact .peeked hpc
  | addLoad add =>
    simp only [hpc] at hs
    split_ifs at hs with hov <;> obtain ⟨rfl, rfl⟩ := by simpa using hs
    · exact .refused add hpc ((overflows_iff _ _).1 hov)
    · exact .seen add _ _ hpc
  | addCas add cur room =>
    simp only [hpc] at hs
    by_cases hcur : h.count.word = cur
    · rw [if_pos hcur, Option.some.injEq, Prod.mk.injEq] at hs
      obtain ⟨rfl, rfl⟩ := hs
      exact .add add cur room rfl hpc hcur
    · rw [if_neg hcur, Option.some.injEq, Prod.mk.injEq] at hs
      obtain ⟨rfl, rfl⟩ := hs
      exact .retry add cur room hpc
  | spinLoad w k =>
    simp only [hpc] at hs
    split_ifs at hs with hpos <;> obtain ⟨rfl, rfl⟩ := by simpa using hs
    · exact .search w _ (by rw [hpc]; rfl) (.inl rfl) (by simp [hpc])
    · exact .search w _ (by rw [hpc]; rfl) (w.goes_spinFrom _) (by simp [hpc])
  | spinCas w k v pos =>
    simp only [hpc] at hs
    split_ifs at hs with hv <;> obtain ⟨rfl, rfl⟩ := by simpa using hs
    · exact .take w k v pos hpc hv
    · exact .search w _ (by rw [hpc]; rfl) (w.goes_spinFrom _) (by simp [hpc])
  | futexWait w =>
    simp only [hpc] at hs
    cases hw : h.count.wait i 0 with
    | none =>
      obtain ⟨rfl, rfl⟩ := by simpa [hw] using hs
      exact .search w _ (by rw [hpc]; rfl) (w.goes_spinFrom _) (by simp [hpc])
    | some s =>
      obtain ⟨rfl, rfl⟩ := by simpa [hw] using hs
      obtain ⟨hword, rfl⟩ := Futex.wait_eq_some hw
      exact .sleep w hpc hword
  | inWait w =>
    simp only [hpc] at hs
    split_ifs at hs with hw
    obtain ⟨rfl, rfl⟩ := by simpa using hs
    exact .search w _ (by rw [hpc]; rfl) (w.goes_spinFrom _) fun _ => hw
  | storeLastPid =>
    obtain ⟨rfl, rfl⟩ := by simpa [hpc] using hs
    exact .storeLastPid hpc
  | idle r | wake add | storeLastNs => simp [hpc] at hs

theorem effect_of_step (hs : step i pid m h t = some (h', t')) : Effect i pid m h t h' t' := by
  unfold step at hs
  split at hs
  next f r hpc =>
    obtain ⟨rfl, rfl⟩ := by simpa using hs
    exact .call f rfl ⟨r, hpc⟩
  next => exact effect_of_next hs
  next add cur room hpc =>
    obtain ⟨rfl, rfl⟩ := by simpa using hs
    exact .retry add cur room hpc
  next w k v pos hpc =>
    obtain ⟨rfl, rfl⟩ := by simpa using hs
    exact .search w _ (by rw [hpc]; rfl) (w.goes_spinFrom _) (by simp [hpc])
  next now hpc =>
    obtain ⟨rfl, rfl⟩ := by simpa using hs
    exact .storeLastNs now hpc
  next who add hpc =>
    obtain ⟨s, hk, heq⟩ := Option.map_eq_some_iff.1 hs
    obtain ⟨rfl, rfl⟩ := by simpa using heq
    exact .wake add s who hpc hk
  next w hpc =>
    split_ifs at hs with ht
    obtain ⟨s, hk, heq⟩ := Option.map_eq_some_iff.1 hs
    obtain ⟨rfl, rfl⟩ := by simpa using heq
    obtain ⟨hin, rfl⟩ := Futex.leave_eq_some hk
    exact .leave w _ hpc hin (.inr rfl)
  next w hpc =>
    obtain ⟨s, hk, heq⟩ := Option.map_eq_some_iff.1 hs
    obtain ⟨rfl, rfl⟩ := by simpa using heq
    obtain ⟨hin, rfl⟩ := Futex.leave_eq_some hk
    exact .leave w _ hpc hin (.inl (w.goes_spinFrom _))
  next => simp at hs

theorem effect_of_system_step {pid : ι → UInt32} {c₀ : UInt32} {c c' : State ι} {a : ι × Move ι}
    (hs : (system pid c₀).step c a = some c') :
    ∃ hd t, Effect a.1 (pid a.1) a.2 c.shared (c.locals a.1) hd t ∧
      c' = ⟨hd, Function.update c.locals a.1 t⟩ := by
  change Config.interleave (fun i => step i (pid i)) c a = some c' at hs
  obtain ⟨hd, t, hstep, rfl⟩ := Config.interleave_eq_some hs
  exact ⟨hd, t, effect_of_step hstep, rfl⟩

end Inversion

end FutexSemaphore
