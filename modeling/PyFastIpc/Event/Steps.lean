import PyFastIpc.Event.Model

/-!
# What one event step can do

`Effect` lists the effects of a step and `effect_of_step` is the only place where the step function
is unfolded.
-/

namespace NamedEvent

variable {ι : Type*} [DecidableEq ι]

/-- The effects of one step of thread `i`. -/
inductive Effect (i : ι) (asleep : Finset (ι × ℕ)) (m : Move ι) (f : Futex ι) (t : Thread ι) :
    Futex ι → Thread ι → Prop
  | call (c : Call) (hpc : ∃ r, t.pc = .idle r) : Effect i asleep m f t f (t.begin c)
  | set (hpc : t.pc = .setStore) : Effect i asleep m f t (f.store 1) (t.catching asleep)
  | wake (f' : Futex ι) (who : Finset ι) (hpc : t.pc = .setWake)
      (hs : f.wake wakeAll who = some f') :
      Effect i asleep m f t f' (t.goto (.idle (some .none)))
  | clear (hpc : t.pc = .clearStore) :
      Effect i asleep m f t (f.store 0) (t.goto (.idle (some .none)))
  | sleep (timed : Bool) (hm : m = .next) (hpc : t.pc = .futexWait timed) (hword : f.word = 0) :
      Effect i asleep m f t { f with sleepers := insert i f.sleepers } (t.sleep timed)
  | again (timed : Bool) (hm : m = .next) (hpc : t.pc = .futexWait timed) (hword : f.word ≠ 0) :
      Effect i asleep m f t f t.again
  | woken (timed : Bool) (hpc : t.pc = .inWait timed) (hout : i ∉ f.sleepers) :
      Effect i asleep m f t f (t.goto (.idle (some (.bool true))))
  | leave (timed : Bool) (p : Pc) (hpc : t.pc = .inWait timed) (hin : i ∈ f.sleepers)
      (hp : p = .idle (some (.bool false)) ∨ p = .futexWait timed) :
      Effect i asleep m f t { f with sleepers := f.sleepers.erase i } (t.interrupt p)
  | load (b : Bool) (hpc : t.pc = .load) : Effect i asleep m f t f (t.goto (.idle (some (.bool b))))

variable {i : ι} {asleep : Finset (ι × ℕ)} {m : Move ι} {f f' : Futex ι} {t t' : Thread ι}

theorem effect_of_next (hs : next i asleep f t = some (f', t')) :
    Effect i asleep .next f t f' t' := by
  unfold next at hs
  cases hpc : t.pc with
  | setStore =>
    obtain ⟨rfl, rfl⟩ := by simpa [hpc] using hs
    exact .set hpc
  | clearStore =>
    obtain ⟨rfl, rfl⟩ := by simpa [hpc] using hs
    exact .clear hpc
  | futexWait timed =>
    simp only [hpc] at hs
    cases hw : f.wait i 0 with
    | none =>
      obtain ⟨rfl, rfl⟩ := by simpa [hw] using hs
      exact .again timed rfl hpc (Futex.wait_eq_none hw)
    | some g =>
      obtain ⟨rfl, rfl⟩ := by simpa [hw] using hs
      obtain ⟨hword, rfl⟩ := Futex.wait_eq_some hw
      exact .sleep timed rfl hpc hword
  | inWait timed =>
    simp only [hpc] at hs
    split_ifs at hs with hw
    obtain ⟨rfl, rfl⟩ := by simpa using hs
    exact .woken timed hpc hw
  | load =>
    obtain ⟨rfl, rfl⟩ := by simpa [hpc] using hs
    exact .load _ hpc
  | idle r | setWake => simp [hpc] at hs

theorem effect_of_step (hs : step i asleep m f t = some (f', t')) :
    Effect i asleep m f t f' t' := by
  unfold step at hs
  split at hs
  next c r hpc =>
    obtain ⟨rfl, rfl⟩ := by simpa using hs
    exact .call c ⟨r, hpc⟩
  next => exact effect_of_next hs
  next who hpc =>
    obtain ⟨g, hk, heq⟩ := Option.map_eq_some_iff.1 hs
    obtain ⟨rfl, rfl⟩ := by simpa using heq
    exact .wake g who hpc hk
  next timed hpc =>
    split_ifs at hs with ht
    obtain ⟨g, hk, heq⟩ := Option.map_eq_some_iff.1 hs
    obtain ⟨rfl, rfl⟩ := by simpa using heq
    obtain ⟨hin, rfl⟩ := Futex.leave_eq_some hk
    exact .leave timed _ hpc hin (.inl rfl)
  next timed hpc =>
    obtain ⟨g, hk, heq⟩ := Option.map_eq_some_iff.1 hs
    obtain ⟨rfl, rfl⟩ := by simpa using heq
    obtain ⟨hin, rfl⟩ := Futex.leave_eq_some hk
    refine .leave timed _ hpc hin ?_
    split_ifs
    · exact .inl rfl
    · exact .inr rfl
  next => simp at hs

theorem effect_of_system_step {c c' : State ι} {a : ι × Move ι} (hs : system.step c a = some c') :
    ∃ f t, Effect a.1 c.asleep a.2 c.shared (c.locals a.1) f t ∧
      c' = ⟨f, Function.update c.locals a.1 t⟩ := by
  change Config.interleave (fun i => step i c.asleep) c a = some c' at hs
  obtain ⟨f, t, hstep, rfl⟩ := Config.interleave_eq_some hs
  exact ⟨f, t, effect_of_step hstep, rfl⟩

end NamedEvent
