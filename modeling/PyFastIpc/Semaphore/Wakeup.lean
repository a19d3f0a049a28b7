import PyFastIpc.Semaphore.Steps

/-!
# Lost wakeups of the semaphore

`post` issues a wake only when it saw the count go from 0.  A second post that arrives before the
first woken waiter has taken its token wakes nobody, and when everything has come to rest a waiter
sleeps beside an available token (`sleeper_stranded`).

What a post must find for this not to happen is `PostCovered`: the wakes still to be issued, its
own included, reach all sleepers, or together with the waiters that run inside `wait` they are as
many as the tokens.  In a run whose posts all find one of the two, no thread sleeps beside a token
once no wake is outstanding and no waiter is running (`no_sleeper_beside_token`).  The invariant is
`Covered`, the same alternative for the state between two steps.
-/

namespace FutexSemaphore

/-- The number of waiters that the outstanding wake of a thread will wake. -/
def Pc.pendingWake : Pc → ℕ
  | .wake add => wakeCount add
  | _ => 0

/-- Between the CAS of a post and its wake. -/
def Pc.waking : Pc → Bool
  | .wake _ => true
  | _ => false

/-- 1 for a thread in the loop of `wait`, asleep or not. -/
def Pc.waiting (p : Pc) : ℕ := if p.looping.isSome then 1 else 0

/-- The amount and the compared value of the CAS that the thread is about to execute. -/
def Pc.adding : Pc → Option (UInt32 × UInt32)
  | .addCas add cur _ => some (add, cur)
  | _ => none

theorem Pc.pendingWake_of_looping {p : Pc} {w : Wait} (h : p.looping = some w) :
    p.pendingWake = 0 := by
  cases p <;> simp_all [looping, pendingWake]

theorem Pc.waiting_of_looping {p : Pc} {w : Wait} (h : p.looping = some w) : p.waiting = 1 := by
  simp [waiting, h]

theorem Wait.pendingWake_of_goes {w : Wait} {p : Pc}
    (hp : w.Goes p ∨ p = .idle (some (.bool false))) : p.pendingWake = 0 := by
  rcases hp with (hp | ⟨-, rfl⟩) | rfl
  · exact Pc.pendingWake_of_looping hp
  · rfl
  · rfl

theorem pendingWake_addTokens (add : UInt32) : (addTokens add).pendingWake = 0 := by
  unfold addTokens
  split_ifs <;> rfl

theorem Call.pendingWake_entry (f : Call) : f.entry.pendingWake = 0 := by
  cases f with
  | post n =>
    rw [Call.entry]
    split_ifs
    · rfl
    · exact pendingWake_addTokens _
  | post1 => exact pendingWake_addTokens _
  | wait blocking timeoutNs spin =>
    rcases Call.entry_wait_cases blocking timeoutNs spin with hentry | ⟨-, hentry⟩ <;> rw [hentry]
    · exact Wait.pendingWake_of_goes (.inl (Wait.goes_spinFrom _ 0))
    · rfl

variable {ι : Type*}

/-- Every `wait` is blocking and spins at least once. -/
def BlockingWaits (_ : State ι) (a : ι × Move ι) : Prop :=
  ∀ b t s, a.2 = .call (.wait b t s) → b = true ∧ 1 ≤ s

/-- Sleepers are inside `FUTEX_WAIT`. -/
def SleepersWait (c : State ι) : Prop :=
  ∀ i ∈ c.shared.count.sleepers, ∃ w, (c.locals i).pc = .inWait w

/-- No poster is between its CAS and its wake, and whoever is in the loop of `wait` is asleep. -/
def Settled (c : State ι) : Prop :=
  ∀ i, (c.locals i).pc.waking = false ∧
    ((c.locals i).pc.looping.isSome → i ∈ c.shared.count.sleepers)

/-- A thread in the loop of `wait` may block. -/
def LoopsBlock (c : State ι) : Prop := ∀ i w, (c.locals i).pc.looping = some w → w.blocking = true

section Counting

variable [Fintype ι]

/-- The number of waiters that all outstanding wakes will wake. -/
def pendingWakes (c : State ι) : ℕ := ∑ i, (c.locals i).pc.pendingWake

/-- The number of threads in the loop of `wait`. -/
def insideWait (c : State ι) : ℕ := ∑ i, (c.locals i).pc.waiting

/-- The number of threads in the loop of `wait` that are not asleep. -/
def runningWaiters [DecidableEq ι] (c : State ι) : ℕ :=
  (Finset.univ.filter fun i =>
    (c.locals i).pc.looping.isSome ∧ i ∉ c.shared.count.sleepers).card

/-- The outstanding wakes reach all sleepers, or they and the running waiters are as many as the
tokens. -/
def Covered (c : State ι) : Prop :=
  c.shared.count.sleepers.card ≤ pendingWakes c ∨
    c.shared.count.word.toNat + c.shared.count.sleepers.card ≤ pendingWakes c + insideWait c

/-- The wake that a post issues after its CAS on `cur`. -/
def ownWake (add cur : UInt32) : ℕ := if cur = 0 then wakeCount add else 0

/-- If the step adds `add` tokens to the count `cur`, then the outstanding wakes and its own reach
all sleepers, or they and the running waiters are as many as the tokens there will be. -/
def PostCovered [DecidableEq ι] (c : State ι) (a : ι × Move ι) : Prop :=
  a.2 = .next → ∀ p ∈ (c.locals a.1).pc.adding, c.shared.count.word = p.2 →
    c.shared.count.sleepers.card ≤ pendingWakes c + ownWake p.1 p.2 ∨
      p.2.toNat + p.1.toNat ≤ pendingWakes c + ownWake p.1 p.2 + runningWaiters c

variable {c : State ι}

theorem insideWait_eq_card (c : State ι) :
    insideWait c = (Finset.univ.filter fun i => (c.locals i).pc.looping.isSome).card := by
  rw [Finset.card_filter]
  rfl

theorem SleepersWait.subset (hS : SleepersWait c) : c.shared.count.sleepers ⊆
    Finset.univ.filter fun i => (c.locals i).pc.looping.isSome := fun i hi => by
  obtain ⟨w, hw⟩ := hS i hi
  simp [hw]

theorem SleepersWait.card_le (hS : SleepersWait c) :
    c.shared.count.sleepers.card ≤ insideWait c := by
  rw [insideWait_eq_card]
  exact Finset.card_le_card hS.subset

variable [DecidableEq ι] in
theorem SleepersWait.running_add_sleeping (hS : SleepersWait c) :
    runningWaiters c + c.shared.count.sleepers.card = insideWait c := by
  have hdiff : (Finset.univ.filter fun i =>
      (c.locals i).pc.looping.isSome ∧ i ∉ c.shared.count.sleepers) =
      (Finset.univ.filter fun i => (c.locals i).pc.looping.isSome) \ c.shared.count.sleepers := by
    ext i
    simp
  rw [insideWait_eq_card, runningWaiters, hdiff]
  exact Finset.card_sdiff_add_card_eq_card hS.subset

end Counting

variable [DecidableEq ι] {i : ι} {pid : UInt32} {m : Move ι} {c : State ι} {hd : Header ι}
  {t : Thread}

theorem SleepersWait.step (hS : SleepersWait c) (he : Effect i pid m c.shared (c.locals i) hd t) :
    SleepersWait ⟨hd, Function.update c.locals i t⟩ := by
  -- a sleeping thread takes no step but leaving the queue
  have hself (hin : i ∈ hd.count.sleepers) : ∃ w, t.pc = .inWait w := by
    cases he with
    | sleep w hpc hword => exact ⟨w, rfl⟩
    | leave w p hpc hin' hp => simp at hin
    | search w p hpc hp hout =>
      obtain ⟨v, hv⟩ := hS i hin
      obtain rfl : v = w := by simpa [hv, Pc.looping] using hpc
      exact absurd hin (hout hv)
    | wake add s who hpc hs =>
      obtain ⟨v, hv⟩ := hS i (Futex.wake_sleepers_subset hs hin)
      simp [hpc] at hv
    | _ =>
      obtain ⟨v, hv⟩ := hS i hin
      simp_all
  refine Futex.asleep_update (fun t : Thread => ∃ w, t.pc = .inWait w) hS (fun j hj hin => ?_) hself
  cases he with
  | sleep w hpc hword => exact (Finset.mem_insert.1 hin).resolve_left hj
  | leave w p hpc hin' hp => exact (Finset.mem_erase.1 hin).2
  | wake add s who hpc hs => exact Futex.wake_sleepers_subset hs hin
  | _ => exact hin

theorem Call.blocking_of_looping {f : Call} {w : Wait} (hloop : f.entry.looping = some w)
    (hf : ∀ b t s, f = .wait b t s → b = true ∧ 1 ≤ s) : w.blocking = true := by
  cases f with
  | post n =>
    simp only [Call.entry, addTokens] at hloop
    split_ifs at hloop <;> cases hloop
  | post1 => cases hloop
  | wait b t s =>
    obtain ⟨rfl, -⟩ := hf b t s rfl
    rcases Call.entry_wait_cases true t s with hentry | ⟨-, hentry⟩ <;> rw [hentry] at hloop
    · simp only [Wait.spinFrom, if_true] at hloop
      split_ifs at hloop <;> obtain rfl := Option.some.inj hloop <;> rfl
    · cases hloop

theorem LoopsBlock.step (hL : LoopsBlock c) (he : Effect i pid m c.shared (c.locals i) hd t)
    (hm : ∀ b t s, m = .call (.wait b t s) → b = true ∧ 1 ≤ s) :
    LoopsBlock ⟨hd, Function.update c.locals i t⟩ := by
  -- a step inside the loop stays in the loop of the same call
  have hgoes {w v : Wait} {p : Pc} (hpc : (c.locals i).pc.looping = some w)
      (hp : w.Goes p ∨ p = .idle (some (.bool false))) (hv : p.looping = some v) :
      v.blocking = true := by
    rcases hp with (hp | ⟨-, rfl⟩) | rfl
    · obtain rfl : w = v := by simpa [hp] using hv
      exact hL i w hpc
    · cases hv
    · cases hv
  refine Config.forall_update (fun _ (t : Thread) => ∀ w, t.pc.looping = some w → w.blocking = true)
    (fun v hv => ?_) fun j _ => hL j
  cases he with
  | call f hcall hpc =>
    exact Call.blocking_of_looping hv fun b t s hf => hm b t s (by rw [hcall, hf])
  | search w p hpc hp hout => exact hgoes hpc (.inl hp) hv
  | sleep w hpc hword => exact hgoes (w := w) (by rw [hpc]; rfl) (.inl (.inl rfl)) hv
  | leave w p hpc hin hp => exact hgoes (by rw [hpc]; rfl) hp hv
  | add add cur room hm hpc hcur =>
    simp only [Thread.add] at hv
    split_ifs at hv <;> cases hv
  | _ => cases hv

/-! ## The invariant -/

variable [Fintype ι]

theorem Covered.step (hC : Covered c) (hS : SleepersWait c) (hL : LoopsBlock c)
    (he : Effect i pid m c.shared (c.locals i) hd t) (hpost : PostCovered c (i, m)) :
    Covered ⟨hd, Function.update c.locals i t⟩ := by
  have hsleep := (hS.step he).card_le
  have hrun := hS.running_add_sleeping
  -- the stepping thread's contributions to the two sums
  have hw : pendingWakes ⟨hd, Function.update c.locals i t⟩ + (c.locals i).pc.pendingWake =
      pendingWakes c + t.pc.pendingWake :=
    Config.sum_update c.locals i t fun t => t.pc.pendingWake
  have hin : insideWait ⟨hd, Function.update c.locals i t⟩ + (c.locals i).pc.waiting =
      insideWait c + t.pc.waiting :=
    Config.sum_update c.locals i t fun t => t.pc.waiting
  unfold Covered at *
  dsimp only at *
  generalize pendingWakes ⟨hd, Function.update c.locals i t⟩ = W' at *
  generalize insideWait ⟨hd, Function.update c.locals i t⟩ = I' at *
  -- inside the loop nothing is pending, and a thread that leaves it asleep leaves the queue too
  have hgoes {w : Wait} {p : Pc} (hpc : (c.locals i).pc.looping = some w) (hp : w.Goes p)
      (ht : t = (c.locals i).goto p) : t.pc.pendingWake = 0 ∧ t.pc.waiting = 1 := by
    subst ht
    refine ⟨Wait.pendingWake_of_goes (.inl hp), ?_⟩
    rcases hp with hp | ⟨hb, -⟩
    · exact Pc.waiting_of_looping hp
    · simp [hL i w hpc] at hb
  cases he with
  | call f hcall hpc =>
    obtain ⟨r, hpc⟩ := hpc
    have h0 : ((c.locals i).begin f).pc.pendingWake = 0 := f.pendingWake_entry
    simp only [hpc, Pc.pendingWake, Pc.waiting, Pc.looping] at hw hin
    simp at hin
    omega
  | peeked hpc | refused add hpc hov | seen add cur room hpc | retry add cur room hpc
  | storeLastPid hpc | storeLastNs now hpc =>
    simp [hpc, Thread.goto, Pc.pendingWake, Pc.waiting, Pc.looping] at hw hin
    simpa [hw, hin] using hC
  | add add cur room hm hpc hcur =>
    have hown := hpost hm (add, cur) (by rw [hpc]; rfl) hcur
    have hsum : (cur + add).toNat = cur.toNat + add.toNat := by
      rw [UInt32.toNat_add, Nat.mod_eq_of_lt room]
    let q : Pc := if cur = 0 then .wake add else .idle (some .none)
    have hpw : ((c.locals i).add q).pc.pendingWake = ownWake add cur := by
      simp only [Thread.add, ownWake, q]
      split_ifs <;> rfl
    have hwt : ((c.locals i).add q).pc.waiting = 0 := by
      simp only [Thread.add, q]
      split_ifs <;> rfl
    have hw0 : (c.locals i).pc.pendingWake = 0 := by rw [hpc]; rfl
    have hin0 : (c.locals i).pc.waiting = 0 := by rw [hpc]; rfl
    rw [hpw, hw0] at hw
    rw [hwt, hin0] at hin
    rw [hcur] at hC
    dsimp only at hown
    simp only [Futex.store_word, Futex.store_sleepers, hsum]
    omega
  | wake add s who hpc hs =>
    have hcard := Futex.wake_card hs
    have hword := Futex.wake_word hs
    simp only [hpc, Thread.goto, Pc.pendingWake, Pc.waiting, Pc.looping] at hw hin
    simp at hin
    rw [hword, hcard]
    omega
  | search w p hpc hp hout =>
    obtain ⟨hpw, hwt⟩ := hgoes hpc hp rfl
    rw [hpw, Pc.pendingWake_of_looping hpc] at hw
    rw [hwt, Pc.waiting_of_looping hpc] at hin
    omega
  | take w k v pos hpc hv =>
    have hpos : 1 ≤ v.toNat := Nat.one_le_iff_ne_zero.2 fun h0 => pos (UInt32.toNat_inj.1 h0)
    have hsub : (v - 1).toNat = v.toNat - 1 :=
      UInt32.toNat_sub_of_le _ _ (UInt32.le_iff_toNat_le.2 hpos)
    simp [hpc, Thread.take, Pc.pendingWake, Pc.waiting, Pc.looping] at hw hin
    simp only [Futex.store_word, Futex.store_sleepers, hsub]
    rw [hv] at hC
    omega
  | sleep w hpc hword =>
    -- the count is 0, and all sleepers are inside `wait`
    simp [hpc, Thread.goto, Pc.pendingWake, Pc.waiting, Pc.looping] at hw hin
    right
    simp only [hword]
    simpa using le_trans hsleep (Nat.le_add_left _ _)
  | leave w p hpc hmem hp =>
    have hcard := Finset.card_erase_add_one hmem
    have hpw : ((c.locals i).goto p).pc.pendingWake = 0 := Wait.pendingWake_of_goes hp
    have hwt : ((c.locals i).goto p).pc.waiting ≤ 1 := by
      unfold Pc.waiting
      split_ifs <;> omega
    have hw0 : (c.locals i).pc.pendingWake = 0 := by rw [hpc]; rfl
    have hin0 : (c.locals i).pc.waiting = 1 := by rw [hpc]; rfl
    rw [hpw, hw0] at hw
    rw [hin0] at hin
    dsimp only
    omega

/-- The invariant of the sleep queue. -/
theorem covered_of_reach {pid : ι → UInt32} {c₀ : UInt32} {c : State ι}
    (h : (system pid c₀).Reach (fun c a => BlockingWaits c a ∧ PostCovered c a) c) :
    SleepersWait c ∧ LoopsBlock c ∧ Covered c := by
  refine h.invariant (fun c => SleepersWait c ∧ LoopsBlock c ∧ Covered c) (fun c hc => ?_)
    fun c a c' _ hI hok hs => ?_
  · have hempty : c.shared.count.sleepers = ∅ := by rw [hc.1]
    refine ⟨by simp [SleepersWait, hempty], fun i w hw => ?_, .inl (by simp [hempty])⟩
    rw [hc.2 i] at hw
    cases hw
  · obtain ⟨hd, t, he, rfl⟩ := effect_of_system_step hs
    obtain ⟨hS, hL, hC⟩ := hI
    exact ⟨hS.step he, hL.step he hok.1, hC.step hS hL he hok.2⟩

/-- When every post finds the sleepers covered, no thread sleeps beside a token once no wake is
outstanding and no waiter is running inside `wait`. -/
theorem no_sleeper_beside_token (pid : ι → UInt32) (c₀ : UInt32) {c : State ι}
    (h : (system pid c₀).Reach (fun c a => BlockingWaits c a ∧ PostCovered c a) c)
    (hsettled : Settled c) (htoken : 0 < c.shared.count.word) : c.shared.count.sleepers = ∅ := by
  obtain ⟨hS, -, hC⟩ := covered_of_reach h
  have hpending : pendingWakes c = 0 := by
    refine Finset.sum_eq_zero fun i _ => ?_
    have hwaking := (hsettled i).1
    cases hpc : (c.locals i).pc with
    | wake add =>
      rw [hpc] at hwaking
      cases hwaking
    | _ => rfl
  have hrunning : runningWaiters c = 0 := by
    refine Finset.card_eq_zero.2 (Finset.filter_eq_empty_iff.2 fun i _ hi => ?_)
    exact hi.2 ((hsettled i).2 hi.1)
  have hsum := hS.running_add_sleeping
  have hpos : 0 < c.shared.count.word.toNat := UInt32.lt_iff_toNat_lt.1 htoken
  rw [← Finset.card_eq_zero]
  rcases hC with hC | hC <;> omega

instance (c : State ι) : Decidable (Settled c) := inferInstanceAs (Decidable (∀ _, _ ∧ _))

instance (c : State ι) (a : ι × Move ι) : Decidable (BlockingWaits c a) :=
  match h : a.2 with
  | .call (.wait b _ s) => decidable_of_iff (b = true ∧ 1 ≤ s) (by
      simp only [BlockingWaits, h, Move.call.injEq, Call.wait.injEq]
      exact ⟨fun hb _ _ _ ⟨rfl, _, rfl⟩ => hb, fun hb => hb _ _ _ ⟨rfl, rfl, rfl⟩⟩)
  | .call (.post _) | .call .post1 | .next | .weakFail | .stamp _ | .wake _ | .timeout | .signal =>
    isTrue (by simp [BlockingWaits, h])

instance (c : State ι) (a : ι × Move ι) : Decidable (PostCovered c a) :=
  match hp : (c.locals a.1).pc.adding with
  | none => isTrue (by simp [PostCovered, hp])
  | some p => decidable_of_iff (a.2 = .next → c.shared.count.word = p.2 →
      c.shared.count.sleepers.card ≤ pendingWakes c + ownWake p.1 p.2 ∨
        p.2.toNat + p.1.toNat ≤ pendingWakes c + ownWake p.1 p.2 + runningWaiters c)
      (by simp [PostCovered, hp])

/-- A waiter that went to sleep is woken by a post and takes its token, then more tokens are
posted. -/
def served : State Tid :=
  (system (fun _ => 7) 0).exec (fun c a => BlockingWaits c a ∧ PostCovered c a) (start 0)
    [(.a, .call (.wait true (-1) 1)), (.a, .next), (.a, .next), (.b, .call .post1), (.b, .next),
      (.b, .next), (.b, .wake {.a}), (.a, .next), (.a, .next), (.a, .next), (.b, .call (.post 2)),
      (.b, .next), (.b, .next), (.b, .wake ∅)]

theorem no_sleeper_beside_token_served : served.shared.count.sleepers = ∅ :=
  no_sleeper_beside_token (fun _ => 7) 0 (.exec _ (.init (fresh_start 0))) (by decide +kernel)
    (by decide +kernel)

/-- Two waiters sleep, two posts of one token wake one of them, and it takes one token. -/
def stranded : State Tid :=
  (system (fun _ => 7) 0).exec BlockingWaits (start 0)
    [(.a, .call (.wait true (-1) 1)), (.a, .next), (.a, .next), (.b, .call (.wait true (-1) 1)),
      (.b, .next), (.b, .next), (.c, .call .post1), (.c, .next), (.c, .next), (.c, .wake {.a}),
      (.c, .call .post1), (.c, .next), (.c, .next), (.a, .next), (.a, .next), (.a, .next),
      (.a, .next), (.a, .stamp 1)]

/-- Without the condition on the posts, a waiter sleeps beside a token and nobody will wake it. -/
theorem sleeper_stranded :
    ¬ ∀ c : State Tid, (system (fun _ => 7) 0).Reach BlockingWaits c → Settled c →
      0 < c.shared.count.word → c.shared.count.sleepers = ∅ := by
  intro hall
  have hempty := hall stranded (.exec _ (.init (fresh_start 0))) (by decide +kernel)
    (by decide +kernel)
  have hsleeps : stranded.shared.count.sleepers = {.b} := by decide +kernel
  rw [hsleeps] at hempty
  exact absurd hempty (Finset.singleton_ne_empty Tid.b)

end FutexSemaphore
