import PyFastIpc.Mutex.Blocking

/-!
# A step of a call

What a step of any acquire call can do before the call has the lock: it takes it, gives up, raises,
or goes on searching.  A search that goes on comes closer to its next sleep (`Pc.effort`), and what
it does to the state word does not set another search back: only a release, a wake or a signal can
make a search longer.

Counted that way, every step of a call but a signal brings the thread closer to the end of the call
or to a sleep (`left_of_step`), and a thread that does not sleep can make one
(`exists_step_of_busy`).
-/

namespace FutexMutex

variable {ι : Type*} [DecidableEq ι]

/-- The number of steps that a search can make before it sleeps, as long as no release, wake or
signal comes. -/
def Pc.effort (f : Futex ι) (i : ι) : Pc → ℕ
  | .loadOwner a => 2 * a.spin.toNat + 6
  | .cas a => 2 * a.spin.toNat + 5
  | .spinLoad a k => 2 * (a.spin - k).toNat + 4
  | .spinCas a k => 2 * (a.spin - k).toNat + 3
  | .xchg _ => 2
  | .futexWait _ => if f.word = 2 then 1 else 3
  | .inWait _ => if i ∈ f.sleepers then 0 else 3
  | _ => 0

/-- What a step from `t` to `t'` of a call that has not taken the lock can do. -/
inductive SearchStep (a : Acquire) (i : ι) (m : Move ι) (h : Header ι) (t : Thread)
    (h' : Header ι) (t' : Thread) : Prop
  | take (ht : t' = t.take a)
  | refused (hpc : t.pc = .loadOwner a)
      (ht : t' = t.goto (.idle (some (.raised .alreadyOwned))))
  | gaveUp (ha : a.giveUp = true ∨ a.timed = true)
      (ht : t' = t.goto (.idle (some (.bool false))))
  | go (p : Pc) (hp : p.seeking a = true) (ht : t' = t.goto p)
      (hword : h'.state.word = h.state.word ∨ h'.state.word = 2)
      (hothers : ∀ j, j ≠ i → (j ∈ h'.state.sleepers ↔ j ∈ h.state.sleepers))
      (hless : m ≠ .signal → p.effort h'.state i < t.pc.effort h.state i)

section Step

variable {a : Acquire} {i : ι} {pid : UInt32} {m : Move ι} {h h' : Header ι} {t t' : Thread}

/-- What follows the first CAS or a spin attempt. -/
theorem search_spinFrom (m : Move ι) {k : ℕ} (hn : 2 < t.pc.effort h.state i)
    (hspin : (k : ℤ) < a.spin → 2 * (a.spin - k).toNat + 4 < t.pc.effort h.state i) :
    SearchStep a i m h t h (t.goto (a.spinFrom k)) := by
  have hself : decide (a = a) = true := decide_eq_true rfl
  unfold Acquire.spinFrom
  split_ifs with hk hgive
  · exact .go (.spinLoad a k) hself rfl (.inl rfl) (fun _ _ => .rfl) fun _ => hspin hk
  · exact .gaveUp (.inl hgive) rfl
  · exact .go (.xchg a) hself rfl (.inl rfl) (fun _ _ => .rfl) fun _ => hn

theorem search_step (hpc : t.pc.seeking a = true) (hs : step i pid m h t = some (h', t')) :
    SearchStep a i m h t h' t' := by
  have hself : decide (a = a) = true := decide_eq_true rfl
  cases hp : t.pc with
  | loadOwner b =>
    obtain rfl : b = a := by simpa [hp, Pc.seeking] using hpc
    cases m with
    | next =>
      simp only [step, next, hp] at hs
      split_ifs at hs with howner <;> obtain ⟨rfl, rfl⟩ := by simpa using hs
      · exact .refused hp rfl
      · exact .go (.cas b) hself rfl (.inl rfl) (fun _ _ => .rfl) fun _ => by
          rw [hp]
          exact Nat.lt_succ_self _
    | _ => simp [step, hp] at hs
  | cas b =>
    obtain rfl : b = a := by simpa [hp, Pc.seeking] using hpc
    cases m with
    | next =>
      simp only [step, next, hp] at hs
      split_ifs at hs with hword <;> obtain ⟨rfl, rfl⟩ := by simpa using hs
      · exact .take rfl
      · refine search_spinFrom _ ?_ fun _ => ?_ <;> rw [hp] <;> simp only [Pc.effort] <;> omega
    | _ => simp [step, hp] at hs
  | spinLoad b k =>
    obtain rfl : b = a := by simpa [hp, Pc.seeking] using hpc
    cases m with
    | next =>
      simp only [step, next, hp] at hs
      split_ifs at hs with hword <;> obtain ⟨rfl, rfl⟩ := by simpa using hs
      · exact .go (.spinCas b k) hself rfl (.inl rfl) (fun _ _ => .rfl) fun _ => by
          rw [hp]
          exact Nat.lt_succ_self _
      · refine search_spinFrom _ ?_ fun _ => ?_ <;> rw [hp] <;> simp only [Pc.effort] <;> omega
    | _ => simp [step, hp] at hs
  | spinCas b k =>
    obtain rfl : b = a := by simpa [hp, Pc.seeking] using hpc
    have hfail : SearchStep b i m h t h (t.goto (b.spinFrom (k + 1))) := by
      refine search_spinFrom _ ?_ fun _ => ?_ <;> rw [hp] <;> simp only [Pc.effort] <;> omega
    cases m with
    | next =>
      simp only [step, next, hp] at hs
      split_ifs at hs with hword <;> obtain ⟨rfl, rfl⟩ := by simpa using hs
      · exact .take rfl
      · exact hfail
    | weakFail =>
      obtain ⟨rfl, rfl⟩ := by simpa [step, hp] using hs
      exact hfail
    | _ => simp [step, hp] at hs
  | xchg b =>
    obtain rfl : b = a := by simpa [hp, Pc.seeking] using hpc
    cases m with
    | next =>
      simp only [step, next, hp] at hs
      split_ifs at hs with hword <;> obtain ⟨rfl, rfl⟩ := by simpa using hs
      · exact .take rfl
      · exact .go (.futexWait b) hself rfl (.inr rfl) (fun _ _ => .rfl) fun _ => by
          rw [hp]
          exact Nat.lt_succ_self 1
    | _ => simp [step, hp] at hs
  | futexWait b =>
    obtain rfl : b = a := by simpa [hp, Pc.seeking] using hpc
    cases m with
    | next =>
      simp only [step, next, hp] at hs
      split at hs <;> obtain ⟨rfl, rfl⟩ := by simpa using hs
      next s hwait =>
        obtain ⟨hword, rfl⟩ := Futex.wait_eq_some hwait
        refine .go (.inWait b) hself rfl (.inl rfl) (fun j hj => ?_) fun _ => ?_
        · simp [hj]
        · simp [hp, Pc.effort, hword]
      next hwait =>
        have hword := Futex.wait_eq_none hwait
        exact .go (.xchg b) hself rfl (.inl rfl) (fun _ _ => .rfl) fun _ => by
          simp [hp, Pc.effort, hword]
    | _ => simp [step, hp] at hs
  | inWait b =>
    obtain rfl : b = a := by simpa [hp, Pc.seeking] using hpc
    cases m with
    | next =>
      simp only [step, next, hp] at hs
      split_ifs at hs with hin
      obtain ⟨rfl, rfl⟩ := by simpa using hs
      exact .go (.xchg b) hself rfl (.inl rfl) (fun _ _ => .rfl) fun _ => by
        simp [hp, Pc.effort, hin]
    | timeout =>
      simp only [step, hp] at hs
      split_ifs at hs with ht
      obtain ⟨s, -, heq⟩ := Option.map_eq_some_iff.1 hs
      obtain ⟨rfl, rfl⟩ := by simpa using heq
      exact .gaveUp (.inr ht) rfl
    | signal =>
      simp only [step, hp] at hs
      obtain ⟨s, hleave, heq⟩ := Option.map_eq_some_iff.1 hs
      obtain ⟨rfl, rfl⟩ := by simpa using heq
      obtain ⟨-, rfl⟩ := Futex.leave_eq_some hleave
      split_ifs with ht
      · exact .gaveUp (.inr ht) rfl
      · refine .go (.xchg b) hself rfl (.inl rfl) (fun j hj => ?_) fun hm => absurd rfl hm
        simp [hj]
    | _ => simp [step, hp] at hs
  | _ => simp [hp, Pc.seeking] at hpc

end Step

/-! ## The way to the end of a call -/

/-- The steps that a call has before it, a search for the lock counted as one; `held` for a thread
that will release. -/
def Pc.left (held : Bool) : Pc → ℕ
  | .idle _ => if held then 5 else 0
  | .loadOwner _ | .cas _ | .spinLoad _ _ | .spinCas _ _ | .xchg _ | .futexWait _ | .inWait _ => 8
  | .storeOwner _ => 7
  | .storeLastNs _ => 6
  | .relLoad => 4
  | .relXchg | .forceXchg => 3
  | .relOwner _ => 2
  | .relWake => 1

theorem Pc.left_of_seeking {a : Acquire} {p : Pc} (h : p.seeking a = true) (held : Bool) :
    p.left held = 8 := by
  cases p <;> simp_all [seeking, left]

theorem Pc.seeking_of_grabbing {p : Pc} (h : p.grabbing = true) : ∃ a, p.seeking a = true := by
  cases p <;> simp_all [grabbing, seeking]

theorem Pc.seeking_of_probing {p : Pc} (h : p.probing = true) : ∃ a, p.seeking a = true := by
  cases p <;> simp_all [probing, seeking]

theorem Call.seeking_entry {f : Call} (hf : f.releases = false) :
    (∃ a, f.entry.seeking a = true) ∨ ¬ f.Fits ∧ f.entry = .idle (some .overflow) :=
  (Call.entry_cases hf).imp_left fun ⟨a, ha⟩ => ⟨a, ha ▸ FutexMutex.seeking_entry a⟩

theorem not_idle_of_step {i : ι} {pid : UInt32} {m : Move ι} {h h' : Header ι} {t t' : Thread}
    (hm : ∀ f, m ≠ .call f) (hs : step i pid m h t = some (h', t')) (r : Option Ret) :
    t.pc ≠ .idle r := by
  intro hpc
  cases m with
  | call f => exact hm f rfl
  | next => simp [step, next, hpc] at hs
  | _ => simp [step, hpc] at hs

/-- A step that leaves the calls as far from their ends as they were: it goes on with the search,
and does not set another search back. -/
structure Onward (i : ι) (m : Move ι) (h : Header ι) (t : Thread) (h' : Header ι) (t' : Thread) :
    Prop where
  left : t'.pc.left t'.held = t.pc.left t.held
  word : h'.state.word = h.state.word ∨ h'.state.word = 2
  others : ∀ j, j ≠ i → (j ∈ h'.state.sleepers ↔ j ∈ h.state.sleepers)
  less : m ≠ .signal → t'.pc.effort h'.state i < t.pc.effort h.state i

/-- A step of a call brings the thread closer to its end, or goes on with the search. -/
theorem left_of_step {i : ι} {pid : UInt32} {m : Move ι} {h h' : Header ι} {t t' : Thread}
    (hm : ∀ f, m ≠ .call f) (hheld : t.held = true → ∃ r, t.pc = .idle r)
    (hs : step i pid m h t = some (h', t')) :
    t'.pc.left t'.held < t.pc.left t.held ∨ Onward i m h t h' t' := by
  have hfree : t.held = false := by
    by_contra hne
    obtain ⟨r, hpc⟩ := hheld (by simpa using hne)
    exact not_idle_of_step hm hs r hpc
  have hsearch (a : Acquire) (hseek : t.pc.seeking a = true) :
      t'.pc.left t'.held < t.pc.left t.held ∨ Onward i m h t h' t' := by
    rw [Pc.left_of_seeking hseek]
    cases search_step hseek hs with
    | take ht => exact .inl (by rw [ht]; exact Nat.lt_succ_self 7)
    | refused hpc ht | gaveUp ha ht =>
      left
      rw [ht]
      simp [Thread.goto, Pc.left, hfree]
    | go p hp ht hword hothers hless =>
      refine .inr ⟨?_, hword, hothers, fun hne => by rw [ht]; exact hless hne⟩
      rw [ht, Pc.left_of_seeking hseek]
      exact Pc.left_of_seeking hp _
  cases effect_of_step hs with
  | call f hcall hpc => exact absurd hcall (hm f)
  | take a v hpc hv hmark hfree =>
    obtain ⟨b, hb⟩ := Pc.seeking_of_grabbing hpc
    exact hsearch b hb
  | probe p hpc hp =>
    obtain ⟨b, hb⟩ := Pc.seeking_of_probing hpc
    exact hsearch b hb
  | refused a hpc | passed a hpc | mark a hpc | sleep a hpc | again a hpc | woken a hpc
  | leave a p hpc => exact hsearch a (by rw [hpc]; exact decide_eq_true rfl)
  | clearOwner contended p hpc hp =>
    subst hp
    cases contended <;> simp [Thread.goto, Pc.left, hpc, hfree]
  | drop hpc => rcases hpc with hpc | hpc <;> simp [Thread.drop, Pc.left, hpc]
  | storeOwner a hpc | storeLastNs a now hpc | disowned hpc | owned hpc | wake s who hpc =>
    left
    simp [Thread.goto, Thread.succeed, Pc.left, hpc, hfree]

theorem Pc.effort_mono {f f' : Futex ι} {j : ι} (hword : f'.word = f.word ∨ f'.word = 2)
    (hin : j ∈ f'.sleepers ↔ j ∈ f.sleepers) (p : Pc) : p.effort f' j ≤ p.effort f j := by
  cases p with
  | futexWait a =>
    simp only [effort]
    rcases hword with hw | hw
    · rw [hw]
    · rw [hw, if_pos rfl]
      split_ifs <;> decide
  | inWait a => simp only [effort, hin, le_refl]
  | _ => exact le_rfl

/-- A call that has acquired the lock returns. -/
theorem returned_of_held {i : ι} {pid : UInt32} {m : Move ι} {h h' : Header ι} {t t' : Thread}
    (hm : ∀ f, m ≠ .call f) (hs : step i pid m h t = some (h', t')) (hheld : t.held = false)
    (ht : t'.held = true) : ∃ a, t'.pc = .idle (some (Acquire.ret a)) ∧ t.pc = .storeLastNs a := by
  cases effect_of_step hs with
  | call f hcall hpc => exact absurd hcall (hm f)
  | storeLastNs a now hpc => exact ⟨a, rfl, hpc⟩
  | _ => exact absurd (hheld.symm.trans ht) (by decide)

/-- What a step of a call can return. -/
theorem return_cases {i : ι} {pid : UInt32} {m : Move ι} {h h' : Header ι} {t t' : Thread} {r : Ret}
    (hm : ∀ f, m ≠ .call f) (hs : step i pid m h t = some (h', t'))
    (hpc : t'.pc = .idle (some r)) :
    r = .bool false ∨ r = .none ∨ (∃ a, r = Acquire.ret a) ∨ ∃ e, r = .raised e ∧ h' = h ∧
      ((∃ a, t.pc = .loadOwner a) ∧ h.ownerPid = pid ∨ e = .notOwned ∧ h.ownerPid ≠ pid) := by
  have hsearch (a : Acquire) (hseek : t.pc.seeking a = true) (hload : ∀ b, t.pc ≠ .loadOwner b) :
      r = .bool false := by
    cases search_step hseek hs with
    | take ht => simp [ht, Thread.take] at hpc
    | gaveUp ha ht => simpa [ht, Thread.goto, eq_comm] using hpc
    | refused hp ht => exact absurd hp (hload a)
    | go p hp ht hword hothers hless =>
      rw [ht] at hpc
      obtain rfl : p = _ := hpc
      cases hp
  cases effect_of_step hs with
  | call f hcall hp => exact absurd hcall (hm f)
  | refused a hp howner =>
    obtain rfl : r = .raised .alreadyOwned := by simpa [Thread.goto, eq_comm] using hpc
    exact .inr (.inr (.inr ⟨_, rfl, rfl, .inl ⟨⟨a, hp⟩, howner⟩⟩))
  | disowned hp howner =>
    obtain rfl : r = .raised .notOwned := by simpa [Thread.goto, eq_comm] using hpc
    exact .inr (.inr (.inr ⟨_, rfl, rfl, .inr ⟨rfl, howner⟩⟩))
  | probe p hp hq =>
    obtain ⟨b, hb⟩ := Pc.seeking_of_probing hp
    exact .inl (hsearch b hb fun b' hb' => by simp [hb', Pc.probing] at hp)
  | leave a p hp hin hq =>
    exact .inl (hsearch a (by rw [hp]; exact decide_eq_true rfl) fun b hb => by simp [hb] at hp)
  | clearOwner contended p hp hq =>
    obtain rfl : p = _ := hpc
    cases contended with
    | true => cases hq
    | false => exact .inr (.inl (by simpa using hq))
  | wake s who hp => exact .inr (.inl (by simpa [Thread.goto, eq_comm] using hpc))
  | storeLastNs a now hp =>
    exact .inr (.inr (.inl ⟨a, by simpa [Thread.succeed, eq_comm] using hpc⟩))
  | take a v hp | passed a hp | mark a hp | sleep a hp | again a hp | woken a hp
  | storeOwner a hp | owned hp | drop hp =>
    simp [Thread.take, Thread.goto, Thread.drop] at hpc

/-- A step of a call that raises. -/
theorem raised_of_step {i : ι} {pid : UInt32} {m : Move ι} {h h' : Header ι} {t t' : Thread}
    {e : Error} (hm : ∀ f, m ≠ .call f) (hs : step i pid m h t = some (h', t'))
    (hpc : t'.pc = .idle (some (.raised e))) : h' = h ∧
      ((∃ a, t.pc = .loadOwner a) ∧ h.ownerPid = pid ∨ e = .notOwned ∧ h.ownerPid ≠ pid) := by
  rcases return_cases hm hs hpc with hr | hr | ⟨a, hr⟩ | ⟨e', he, hcase⟩
  · cases hr
  · cases hr
  · have hfailed := failed_ret a
    rw [← hr] at hfailed
    cases hfailed
  · obtain rfl := Ret.raised.inj he
    exact hcase

/-- Arguments are converted before the first access of a call. -/
theorem ne_overflow_of_step {i : ι} {pid : UInt32} {m : Move ι} {h h' : Header ι} {t t' : Thread}
    (hm : ∀ f, m ≠ .call f) (hs : step i pid m h t = some (h', t')) :
    t'.pc ≠ .idle (some .overflow) := by
  intro hpc
  rcases return_cases hm hs hpc with hr | hr | ⟨a, hr⟩ | ⟨e, he, -⟩
  · cases hr
  · cases hr
  · have hfailed := failed_ret a
    rw [← hr] at hfailed
    cases hfailed
  · cases he

/-- What a step of the mutex can leave in the owner word. -/
theorem ownerPid_cases {i : ι} {pid : UInt32} {m : Move ι} {h h' : Header ι} {t t' : Thread}
    (he : Effect i pid m h t h' t') :
    h'.ownerPid = h.ownerPid ∨ h'.ownerPid = pid ∨ h'.ownerPid = 0 := by
  cases he with
  | storeOwner a hpc => exact .inr (.inl rfl)
  | clearOwner contended p hpc hp => exact .inr (.inr rfl)
  | _ => exact .inl rfl

/-- A thread inside a call can go on unless it sleeps. -/
theorem exists_step_of_busy {i : ι} (pid : UInt32) {h : Header ι} {t : Thread}
    (hbusy : ∀ r, t.pc ≠ .idle r) (hawake : i ∉ h.state.sleepers) :
    ∃ m s, (∀ f, m ≠ .call f) ∧ m ≠ .signal ∧ step i pid m h t = some s := by
  cases hp : t.pc with
  | idle r => exact absurd hp (hbusy r)
  | storeLastNs a => exact ⟨.stamp 0, _, by simp, by simp, by simp only [step, hp]; rfl⟩
  | relWake =>
    obtain ⟨who, hsub, hcard⟩ :=
      Finset.exists_subset_card_eq (min_le_right 1 h.state.sleepers.card)
    have hwake : h.state.wake 1 who = some _ := if_pos ⟨hsub, hcard⟩
    exact ⟨.wake who, _, by simp, by simp, by simp only [step, hp, hwake]; rfl⟩
  | inWait a =>
    exact ⟨.next, _, by simp, by simp, by
      simp only [step, next, hp, if_neg hawake]
      rfl⟩
  | loadOwner a | cas a | spinLoad a k | spinCas a k | xchg a | relLoad =>
    refine ⟨.next, ?_⟩
    simp only [step, next, hp]
    split_ifs <;> exact ⟨_, by simp, by simp, rfl⟩
  | futexWait a =>
    refine ⟨.next, ?_⟩
    simp only [step, next, hp]
    split <;> exact ⟨_, by simp, by simp, rfl⟩
  | storeOwner a | relXchg | forceXchg | relOwner b =>
    exact ⟨.next, _, by simp, by simp, by
      simp only [step, next, hp]
      rfl⟩

end FutexMutex
