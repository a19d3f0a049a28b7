import PyFastIpc.Lib.CInt
import PyFastIpc.Semaphore.Steps

/-!
# Token conservation

The count is the initial count plus the tokens posted minus the tokens taken, as integers: neither
CAS loop can store a wrapped value, because the value it compares with is the one its guard was
checked on.  `Thread.Accounted` says what the accounts of a thread amount to at each program
point, and `Balanced` is the balance over all threads.

The callers post amounts between 0 and 2^32 - 1 (`PostsInRange`).
-/

namespace FutexSemaphore

variable {ι : Type*}

/-- Every `post(n)` is called with 0 ≤ n < 2^32. -/
def PostsInRange (_ : State ι) (a : ι × Move ι) : Prop :=
  ∀ n, a.2 = .call (.post n) → 0 ≤ n ∧ n < 2 ^ 32

/-- What the accounts of the current or last call amount to. -/
def Thread.Accounted (t : Thread) : Prop :=
  match t.pc with
  | .addLoad add | .addCas add _ _ => t.arg = add.toNat ∧ t.addedNow = 0
  | .spinLoad _ _ | .spinCas _ _ _ _ | .futexWait _ | .inWait _ => t.takenNow = 0
  | .storeLastPid | .storeLastNs => t.takenNow = 1
  | .idle (some (.bool b)) => t.takenNow = if b then 1 else 0
  | .idle (some (.raised _)) => t.addedNow = 0
  | _ => True

/-- The count balances the accounts of all threads. -/
def Balanced [Fintype ι] (c₀ : UInt32) (c : State ι) : Prop :=
  (c.shared.count.word.toNat : ℤ) =
    c₀.toNat + ∑ i, (c.locals i).posted - ∑ i, (c.locals i).taken

/-! ## The argument of `post` -/

/-- An amount in range passes the range check and is not changed by the conversions. -/
theorem entry_post {n : ℤ} (h0 : 0 ≤ n) (h : n < 2 ^ 32) :
    ∃ add : UInt32, (Call.post n).entry = addTokens add ∧ n = add.toNat := by
  have hn := CInt.toNat_parseK n
  have hmod : n % 2 ^ 64 = n := Int.emod_eq_of_lt h0 (by omega)
  refine ⟨(CInt.parseK n).toUInt32, ?_, ?_⟩
  · rw [Call.entry, if_neg]
    rw [UInt64.lt_iff_toNat_lt]
    have : (0xFFFFFFFF : UInt64).toNat = 2 ^ 32 - 1 := rfl
    omega
  · rw [UInt64.toNat_toUInt32]
    omega

/-! ## The accounts of one thread -/

theorem Thread.accounted_of_goes {t : Thread} {w : Wait}
    (hp : w.Goes t.pc ∨ t.pc = .idle (some (.bool false))) (h0 : t.takenNow = 0) :
    t.Accounted := by
  unfold Thread.Accounted
  rcases hp with (hp | ⟨-, hp⟩) | hp
  · cases hpc : t.pc <;> simp_all [Pc.looping]
  · simpa [hp] using h0
  · simpa [hp] using h0

theorem Thread.takenNow_of_looping {t : Thread} {w : Wait} (h : t.Accounted)
    (hpc : t.pc.looping = some w) : t.takenNow = 0 := by
  unfold Thread.Accounted at h
  cases hp : t.pc <;> simp_all [Pc.looping]

theorem Thread.accounted_addTokens {t : Thread} {add : UInt32} (hpc : t.pc = addTokens add)
    (harg : t.arg = add.toNat) (h0 : t.addedNow = 0) : t.Accounted := by
  unfold addTokens at hpc
  unfold Thread.Accounted
  split_ifs at hpc <;> simp only [hpc]
  exact ⟨harg, h0⟩

theorem Thread.accounted_begin (t : Thread) (f : Call)
    (hf : ∀ n, f = .post n → 0 ≤ n ∧ n < 2 ^ 32) : (t.begin f).Accounted := by
  cases f with
  | post n =>
    obtain ⟨h0, hlt⟩ := hf n rfl
    obtain ⟨add, hentry, hn⟩ := entry_post h0 hlt
    exact accounted_addTokens hentry hn rfl
  | post1 => exact accounted_addTokens (show _ = addTokens 1 from rfl) rfl rfl
  | wait blocking timeoutNs spin =>
    rcases Call.entry_wait_cases blocking timeoutNs spin with hentry | ⟨-, hentry⟩
    · exact accounted_of_goes (.inl (hentry ▸ Wait.goes_spinFrom _ 0)) rfl
    · unfold Accounted
      rw [show (t.begin (.wait blocking timeoutNs spin)).pc = _ from hentry]
      trivial

variable [DecidableEq ι] {i : ι} {pid : UInt32} {m : Move ι} {h h' : Header ι} {t t' : Thread}

theorem Effect.accounted (he : Effect i pid m h t h' t') (hacc : t.Accounted)
    (hm : ∀ n, m = .call (.post n) → 0 ≤ n ∧ n < 2 ^ 32) : t'.Accounted := by
  cases he with
  | call f hcall hpc => exact t.accounted_begin f fun n hf => hm n (by rw [hcall, hf])
  | peeked hpc => trivial
  | refused add hpc hov =>
    simp only [Thread.Accounted, hpc] at hacc
    exact hacc.2
  | seen add cur room hpc => simpa only [Thread.Accounted, Thread.goto, hpc] using hacc
  | retry add cur room hpc => simpa only [Thread.Accounted, Thread.goto, hpc] using hacc
  | add add cur room hm hpc hcur =>
    unfold Thread.Accounted Thread.add
    split_ifs <;> trivial
  | wake add s who hpc hs => trivial
  | search w p hpc hp hout =>
    exact Thread.accounted_of_goes (.inl hp) (t.takenNow_of_looping hacc hpc)
  | take w k v pos hpc hv =>
    have : t.takenNow = 0 := t.takenNow_of_looping hacc (by rw [hpc]; rfl)
    simp [Thread.Accounted, Thread.take, this]
  | sleep w hpc hword => exact t.takenNow_of_looping hacc (by rw [hpc]; rfl)
  | leave w p hpc hin hp =>
    exact Thread.accounted_of_goes hp (t.takenNow_of_looping hacc (by rw [hpc]; rfl))
  | storeLastPid hpc => simpa only [Thread.Accounted, Thread.goto, hpc] using hacc
  | storeLastNs now hpc => simpa [Thread.Accounted, Thread.goto, hpc] using hacc

/-- A step changes the count and the stepping thread's accounts by the same amount. -/
theorem Effect.balance (he : Effect i pid m h t h' t') (hacc : t.Accounted) :
    (h'.count.word.toNat : ℤ) - (t'.posted - t'.taken) =
      h.count.word.toNat - (t.posted - t.taken) := by
  cases he with
  | add add cur room hm hpc hcur =>
    have harg : t.arg = add.toNat := by
      simp only [Thread.Accounted, hpc] at hacc
      exact hacc.1
    have hsum : (cur + add).toNat = cur.toNat + add.toNat := by
      rw [UInt32.toNat_add, Nat.mod_eq_of_lt room]
    simp only [Thread.add, Futex.store_word, hsum, hcur, harg]
    omega
  | take w k v pos hpc hv =>
    have hpos : 1 ≤ v.toNat := Nat.one_le_iff_ne_zero.2 fun h0 => pos (UInt32.toNat_inj.1 h0)
    have hsub : (v - 1).toNat = v.toNat - 1 :=
      UInt32.toNat_sub_of_le _ _ (UInt32.le_iff_toNat_le.2 hpos)
    simp only [Thread.take, Futex.store_word, hsub, hv]
    omega
  | wake add s who hpc hs => simp only [Thread.goto, Futex.wake_word hs]
  | _ => rfl

/-! ## All threads -/

theorem Balanced.step [Fintype ι] {c₀ : UInt32} {c : State ι} {hd : Header ι}
    (hb : Balanced c₀ c) (hacc : (c.locals i).Accounted)
    (he : Effect i pid m c.shared (c.locals i) hd t) :
    Balanced c₀ ⟨hd, Function.update c.locals i t⟩ := by
  have hposted := Config.sum_update c.locals i t Thread.posted
  have htaken := Config.sum_update c.locals i t Thread.taken
  have hstep := he.balance hacc
  unfold Balanced at hb ⊢
  dsimp only
  omega

theorem balanced_of_reach [Fintype ι] {pid : ι → UInt32} {c₀ : UInt32} {c : State ι}
    (h : (system pid c₀).Reach PostsInRange c) :
    (∀ i, (c.locals i).Accounted) ∧ Balanced c₀ c := by
  refine h.invariant (fun c => (∀ i, (c.locals i).Accounted) ∧ Balanced c₀ c)
    (fun c hc => ⟨fun i => ?_, ?_⟩) fun c a c' _ hI hok hs => ?_
  · rw [hc.2]
    trivial
  · simp [Balanced, hc.1, hc.2, Thread.fresh]
  · obtain ⟨hd, t, he, rfl⟩ := effect_of_system_step hs
    exact ⟨Config.forall_update (fun _ (t : Thread) => t.Accounted) (he.accounted (hI.1 a.1) hok)
      fun j _ => hI.1 j, hI.2.step (hI.1 a.1) he⟩

/-- A post that raises because of the count met a count that its amount would have pushed past
2^32 - 1, and leaves the header as it was. -/
theorem Effect.count_of_raised (he : Effect i pid m h t h' t') (hacc : t.Accounted)
    (hpc : ∀ r, t.pc ≠ .idle r) (hraised : t'.pc = .idle (some (.raised .countOverflow))) :
    h' = h ∧ 2 ^ 32 - 1 < (h.count.word.toNat : ℤ) + t.arg := by
  cases he with
  | call f hm hidle =>
    obtain ⟨r, hidle⟩ := hidle
    exact absurd hidle (hpc r)
  | refused add hload hov =>
    simp only [Thread.Accounted, hload] at hacc
    exact ⟨rfl, by omega⟩
  | add add cur room hm hcas hcur =>
    simp only [Thread.add] at hraised
    split_ifs at hraised
    cases hraised
  | search w p hloop hp hout =>
    obtain rfl : p = .idle (some (.raised .countOverflow)) := hraised
    simp [Wait.Goes, Pc.looping] at hp
  | leave w p hwait hin hp =>
    obtain rfl : p = .idle (some (.raised .countOverflow)) := hraised
    simp [Wait.Goes, Pc.looping] at hp
  | storeLastNs now hlast => simp [Thread.goto] at hraised
  | _ => cases hraised

/-- Token conservation: the count is the initial count plus the tokens posted minus the tokens
taken, and this sum stays between 0 and 2^32 - 1; a wait returns `True` exactly when it took one
token; and a post that raises has added nothing and met a count without room for its amount. -/
theorem tokens_conserved [Fintype ι] (pid : ι → UInt32) (c₀ : UInt32) {c : State ι}
    (h : (system pid c₀).Reach PostsInRange c) :
    (c.shared.count.word.toNat : ℤ) =
      c₀.toNat + ∑ i, (c.locals i).posted - ∑ i, (c.locals i).taken ∧
    0 ≤ c₀.toNat + ∑ i, (c.locals i).posted - ∑ i, (c.locals i).taken ∧
    c₀.toNat + ∑ i, (c.locals i).posted - ∑ i, (c.locals i).taken ≤ 2 ^ 32 - 1 ∧
    (∀ i b, (c.locals i).pc = .idle (some (.bool b)) →
      (c.locals i).takenNow = if b then 1 else 0) ∧
    (∀ i e, (c.locals i).pc = .idle (some (.raised e)) → (c.locals i).addedNow = 0) ∧
    (∀ i m hd t, step i (pid i) m c.shared (c.locals i) = some (hd, t) →
      (∀ r, (c.locals i).pc ≠ .idle r) → t.pc = .idle (some (.raised .countOverflow)) →
      hd = c.shared ∧ 2 ^ 32 - 1 < (c.shared.count.word.toNat : ℤ) + (c.locals i).arg) := by
  obtain ⟨hacc, hb⟩ := balanced_of_reach h
  have hlt := c.shared.count.word.toNat_lt
  have hb' := hb
  unfold Balanced at hb'
  refine ⟨hb, by omega, by omega, fun i b hpc => ?_, fun i e hpc => ?_,
    fun i m hd t hs hpc hr => ?_⟩
  · have := hacc i
    simpa only [Thread.Accounted, hpc] using this
  · have := hacc i
    simpa only [Thread.Accounted, hpc] using this
  · exact (effect_of_step hs).count_of_raised (hacc i) hpc hr

instance (c : State ι) (a : ι × Move ι) : Decidable (PostsInRange c a) :=
  match h : a.2 with
  | .call (.post n) =>
    decidable_of_iff (0 ≤ n ∧ n < 2 ^ 32) (by simp [PostsInRange, h])
  | .call .post1 | .call (.wait _ _ _) | .next | .weakFail | .stamp _ | .wake _ | .timeout
  | .signal => isTrue (by simp [PostsInRange, h])

/-- Thread `a` has posted 5 tokens onto 1, a `post(2^32 - 1)` of thread `b` was refused, and thread
`b` has then taken a token. -/
def traded : State Tid :=
  (system (fun _ => 7) 1).exec PostsInRange (start 1)
    [(.a, .call (.post 5)), (.a, .next), (.a, .weakFail), (.a, .next), (.a, .next),
      (.b, .call (.post 4294967295)), (.b, .next), (.b, .call (.wait true (-1) 1)), (.b, .next),
      (.b, .next)]

theorem tokens_conserved_traded :
    traded.shared.count.word.toNat = 5 ∧
      (traded.shared.count.word.toNat : ℤ) =
        1 + ∑ i, (traded.locals i).posted - ∑ i, (traded.locals i).taken :=
  ⟨by decide +kernel,
    (tokens_conserved (fun _ => 7) 1 (.exec _ (.init (fresh_start 1)))).1⟩

end FutexSemaphore
