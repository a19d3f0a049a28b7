import PyFastIpc.Semaphore.Served

/-!
# Clients that give back what they take

Each client takes a token and posts one, again and again.  Then at every moment the clients that
have a token and the count are together as many as the tokens that there were at first
(`count_add_holders`); with one token the semaphore is a lock.

A second post may wake nobody, because it finds the count above 0.  With one token this does not
happen, and with more of them it needs two sleepers, for which there must be two clients more than
tokens.  In the other cases all clients finish (`pool_serves`).
-/

namespace SemaphoreClients

open FutexSemaphore

/-- The jobs of a client that takes a token and gives it back, with the given waits. -/
def borrow (waits : List (ℤ × ℤ)) : List Job := waits.flatMap fun r => [.take r.1 r.2, .post 1]

/-- The client has taken a token and not yet added one. -/
def Client.holds (w : Client) : Bool :=
  match w.pending with
  | .post _ :: _ => true
  | _ => false

theorem Client.holds_of_post {w : Client} {n : ℤ} {rest : List Job}
    (h : w.pending = .post n :: rest) : w.holds = true := by
  unfold Client.holds
  rw [h]

theorem Client.holds_of_take {w : Client} {timeoutNs spin : ℤ} {rest : List Job}
    (h : w.pending = .take timeoutNs spin :: rest) : w.holds = false := by
  unfold Client.holds
  rw [h]

theorem supply_borrow (waits : List (ℤ × ℤ)) : supply (borrow waits) = 0 := by
  induction waits with
  | nil => rfl
  | cons r waits ih =>
    have hpair : supply [.take r.1 r.2, .post 1] = 0 := by simp [supply, Job.amount, Job.need]
    rw [borrow, List.flatMap_cons, supply_append, hpair, zero_add]
    exact ih

theorem proper_borrow {waits : List (ℤ × ℤ)} (h : ∀ r ∈ waits, 1 ≤ r.2) :
    ∀ job ∈ borrow waits, job.Proper := by
  intro job hjob
  obtain ⟨r, hr, hjob⟩ := List.mem_flatMap.1 hjob
  rcases List.mem_pair.1 hjob with rfl | rfl
  · exact h r hr
  · exact ⟨by decide, by decide⟩

theorem fits_borrow {waits : List (ℤ × ℤ)}
    (h : ∀ r ∈ waits, CInt.Fits 64 r.1 ∧ CInt.Fits 32 r.2) :
    ∀ job ∈ borrow waits, job.call.Fits := by
  intro job hjob
  obtain ⟨r, hr, hjob⟩ := List.mem_flatMap.1 hjob
  rcases List.mem_pair.1 hjob with rfl | rfl
  · exact h r hr
  · trivial

/-- What such a client has still to do. -/
theorem suffix_borrow {waits : List (ℤ × ℤ)} {p : List Job} (h : p <:+ borrow waits) :
    ∃ rest, p = borrow rest ∨ p = .post 1 :: borrow rest := by
  induction waits with
  | nil =>
    obtain rfl : p = [] := by simpa [borrow] using h
    exact ⟨[], .inl rfl⟩
  | cons r waits ih =>
    rw [borrow, List.flatMap_cons, List.cons_append, List.cons_append, List.nil_append] at h
    rcases List.suffix_cons_iff.1 h with rfl | h
    · exact ⟨r :: waits, .inl rfl⟩
    · rcases List.suffix_cons_iff.1 h with rfl | h
      · exact ⟨waits, .inr rfl⟩
      · exact ih h

section Pool

variable {ι : Type*} [DecidableEq ι] [Fintype ι] {pid : ι → UInt32} {c₀ : UInt32}
  {waits : ι → List (ℤ × ℤ)} {c : State ι} {ok : State ι → ι × Act ι → Prop}

/-- The clients that hold a token. -/
def holders (c : State ι) : Finset ι := Finset.univ.filter fun i => (c.locals i).holds = true

omit [DecidableEq ι] in
@[simp] theorem mem_holders {i : ι} : i ∈ holders c ↔ (c.locals i).holds = true := by
  simp [holders]

theorem supply_pending (hspin : ∀ i, ∀ r ∈ waits i, 1 ≤ r.2)
    (h : (system pid c₀ fun i => borrow (waits i)).Reach ok c) (i : ι) :
    supply (c.locals i).pending = if (c.locals i).holds = true then 1 else 0 := by
  have hsuffix := (clientInv_of_reach (fun i => proper_borrow (hspin i)) h i).pending_suffix
  obtain ⟨rest, hrest | hrest⟩ := suffix_borrow hsuffix
  · have hholds : (c.locals i).holds = false := by
      unfold Client.holds
      rw [hrest]
      cases rest <;> rfl
    rw [hrest, supply_borrow, hholds]
    rfl
  · have hholds := Client.holds_of_post hrest
    have hpost : supply [.post 1] = 1 := by simp [supply, Job.amount, Job.need]
    rw [hrest, ← List.singleton_append, supply_append, supply_borrow, hholds, hpost]
    rfl

/-- The tokens are in the count or with the clients. -/
theorem count_add_holders (hspin : ∀ i, ∀ r ∈ waits i, 1 ≤ r.2)
    (h : (system pid c₀ fun i => borrow (waits i)).Reach ok c) :
    c.shared.object.count.word.toNat + (holders c).card = c₀.toNat := by
  have hcount := count_of_reach (fun i => proper_borrow (hspin i)) h
  simp only [supply_borrow, Finset.sum_const_zero, supply_pending hspin h] at hcount
  rw [Finset.sum_boole] at hcount
  unfold holders
  omega

theorem room_of_holders (hspin : ∀ i, ∀ r ∈ waits i, 1 ≤ r.2)
    (h : (system pid c₀ fun i => borrow (waits i)).Reach ok c) : Room c := by
  intro i job hjob
  have hcount := count_add_holders hspin h
  have hlt := c₀.toNat_lt
  cases job with
  | take timeoutNs spin =>
    have hword := c.shared.object.count.word.toNat_lt
    simp only [Job.amount]
    omega
  | post n =>
    obtain ⟨rest, hrest⟩ := List.head?_eq_some_iff.1 hjob
    have hpos : 0 < (holders c).card :=
      Finset.card_pos.2 ⟨i, mem_holders.2 (Client.holds_of_post hrest)⟩
    have hn : n = 1 := by
      have hsuffix := (clientInv_of_reach (fun i => proper_borrow (hspin i)) h i).pending_suffix
      have hmem : Job.post n ∈ borrow (waits i) := hsuffix.subset (by simp [hrest])
      obtain ⟨r, -, hr⟩ := List.mem_flatMap.1 hmem
      simpa using hr
    simp only [Job.amount]
    omega

theorem not_holds_of_asleep (hspin : ∀ i, ∀ r ∈ waits i, 1 ≤ r.2)
    (h : (system pid c₀ fun i => borrow (waits i)).Reach ok c) {i : ι}
    (hin : i ∈ c.shared.object.count.sleepers) : i ∉ holders c := by
  obtain ⟨job, hjob, hneed, -, hset⟩ := job_of_asleep (fun i => proper_borrow (hspin i)) h hin
  obtain ⟨rest, hrest⟩ := List.head?_eq_some_iff.1 hjob
  have hpending := Client.pending_of_unsettled hset
  cases job with
  | post n => cases hneed
  | take timeoutNs spin => simp [Client.holds_of_take (hpending.trans hrest)]

theorem sleepers_add_holders (hspin : ∀ i, ∀ r ∈ waits i, 1 ≤ r.2)
    (h : (system pid c₀ fun i => borrow (waits i)).Reach ok c) :
    c.shared.object.count.sleepers.card + (holders c).card ≤ Fintype.card ι := by
  have hdisjoint : Disjoint c.shared.object.count.sleepers (holders c) :=
    Finset.disjoint_left.2 fun i => not_holds_of_asleep hspin h
  rw [← Finset.card_union_of_disjoint hdisjoint]
  exact Finset.card_le_univ _

omit [Fintype ι] in
/-- A thread falls asleep only while the count is 0. -/
theorem sleepers_subset {i : ι} {pid : UInt32} {m : Move ι} {hd hd' : Header ι} {t t' : Thread}
    (he : FutexSemaphore.Effect i pid m hd t hd' t') (hword : hd'.count.word ≠ 0) :
    hd'.count.sleepers ⊆ hd.count.sleepers := by
  cases he with
  | sleep w hpc hzero => exact absurd hzero hword
  | wake add s who hpc hs => exact Futex.wake_sleepers_subset hs
  | leave w p hpc hin hp => exact Finset.erase_subset _ _
  | _ => exact fun _ => id

/-- With at most one client more than tokens, no two clients sleep. -/
theorem sleepers_le_one (hspin : ∀ i, ∀ r ∈ waits i, 1 ≤ r.2)
    (hfew : Fintype.card ι ≤ c₀.toNat + 1)
    (h : (system pid c₀ fun i => borrow (waits i)).Reach ok c) :
    c.shared.object.count.sleepers.card ≤ 1 := by
  have hzero {c : State ι} (h : (system pid c₀ fun i => borrow (waits i)).Reach ok c)
      (hword : c.shared.object.count.word = 0) : c.shared.object.count.sleepers.card ≤ 1 := by
    have hcount := count_add_holders hspin h
    have hsum := sleepers_add_holders hspin h
    rw [hword] at hcount
    simp at hcount
    omega
  induction h with
  | init hc => simp [hc.count]
  | @step c c' a hr hok hs ih =>
    by_cases hword : c'.shared.object.count.word = 0
    · exact hzero (.step a hr hok hs) hword
    · obtain ⟨sh, w, he, rfl⟩ := effect_of_system_step hs
      obtain ⟨m, he⟩ := he.semaphore_step
      exact (Finset.card_le_card (sleepers_subset he hword)).trans ih

/-- The post of a client finds the count 0 if there is only one token. -/
theorem postCovered_of_one (hspin : ∀ i, ∀ r ∈ waits i, 1 ≤ r.2)
    (h : (system pid 1 fun i => borrow (waits i)).Reach ok c) (i : ι) (m : Move ι) :
    PostCovered c.semaphore (i, m) := by
  rintro - ⟨add, cur⟩ hadd hcur
  obtain ⟨room, hpc⟩ : ∃ room, (c.locals i).thread.pc = .addCas add cur room := by
    cases hpc : (c.semaphore.locals i).pc with
    | addCas add' cur' room =>
      obtain ⟨rfl, rfl⟩ := by simpa [Pc.adding, hpc] using hadd
      exact ⟨room, hpc⟩
    | _ => simp [Pc.adding, hpc] at hadd
  obtain ⟨job, hjob, hruns⟩ := (clientInv_of_reach (fun i => proper_borrow (hspin i)) h i).busy
    fun r hr => by simp [hpc] at hr
  obtain ⟨rest, hrest⟩ := List.head?_eq_some_iff.1 hjob
  have hpending := (Client.pending_of_unsettled (by rw [hpc]; rfl)).trans hrest
  have hmem := ((clientInv_of_reach (fun i => proper_borrow (hspin i)) h i).suffix.subset
    (List.mem_of_mem_head? hjob))
  rw [hpc] at hruns
  obtain ⟨r, -, hr⟩ := List.mem_flatMap.1 hmem
  rcases List.mem_pair.1 hr with rfl | rfl
  · simp [Job.Runs, Pc.looping] at hruns
  · have hcount := count_add_holders hspin h
    have hpos : 0 < (holders c).card :=
      Finset.card_pos.2 ⟨i, mem_holders.2 (Client.holds_of_post hpending)⟩
    have hzero : cur = 0 := by
      apply UInt32.toNat_inj.1
      rw [← show c.shared.object.count.word = cur from hcur]
      simp at hcount ⊢
      omega
    have hone : (1 : ℤ) = add.toNat := hruns
    have hwake := wakeCount_pos add
    right
    simp only [ownWake, hzero]
    simp
    omega

/-- Clients whose posts all find the sleepers covered. -/
theorem covered_of_posts {work : ι → List Job} (hproper : ∀ i, ∀ job ∈ work i, job.Proper)
    (hpost : ∀ c, (system pid c₀ work).Reach ok c → ∀ i m, PostCovered c.semaphore (i, m))
    (h : (system pid c₀ work).Reach ok c) : Covered c.semaphore := by
  refine h.invariant (fun c => Covered c.semaphore) (fun c hc => .inl ?_)
    fun c a c' hr hC _ hs => ?_
  · simp [State.semaphore, hc.count]
  · have hL : LoopsBlock c.semaphore := fun i w hw =>
      (loop_of_clientInv (clientInv_of_reach hproper hr i) (hproper i) hw).1
    obtain ⟨sh, w, he, rfl⟩ := effect_of_system_step hs
    obtain ⟨m, he⟩ := he.semaphore_step
    rw [State.semaphore_update]
    exact hC.step (sleepersWait_of_reach hr) hL he (hpost c hr a.1 m)

theorem AtRest.runningWaiters (hrest : AtRest c) : runningWaiters c.semaphore = 0 := by
  apply Finset.card_eq_zero.2
  apply Finset.filter_eq_empty_iff.2
  rintro i - ⟨hloop, hawake⟩
  obtain ⟨r, hidle⟩ := ((hrest i).resolve_right hawake).idle
  rw [show (c.semaphore.locals i).pc = .idle r from hidle] at hloop
  cases hloop

/-- At rest no client sleeps beside a token. -/
theorem word_of_rest (hspin : ∀ i, ∀ r ∈ waits i, 1 ≤ r.2)
    (hfew : c₀ = 1 ∨ Fintype.card ι ≤ c₀.toNat + 1)
    (h : (system pid c₀ fun i => borrow (waits i)).Reach ok c) (hrest : AtRest c) {i : ι}
    (hin : i ∈ c.shared.object.count.sleepers) : c.shared.object.count.word = 0 := by
  by_contra hne
  have hS := sleepersWait_of_reach h
  have hpending := hrest.pendingWakes hS
  have hpos : 0 < c.semaphore.shared.count.sleepers.card := Finset.card_pos.2 ⟨i, hin⟩
  rcases hfew with rfl | hfew
  · have hC := covered_of_posts (fun i => proper_borrow (hspin i))
      (fun _ hr => postCovered_of_one hspin hr) h
    have hrunning := hrest.runningWaiters
    have hsum := hS.running_add_sleeping
    have hword : 0 < c.semaphore.shared.count.word.toNat := by
      apply Nat.pos_of_ne_zero
      exact fun hzero => hne (UInt32.toNat_inj.1 hzero)
    rcases hC with hC | hC <;> omega
  · have hcard := attended_of_reach (fun c => sleepers_le_one hspin hfew) h hne
    omega

/-- Clients that take one of `c₀` tokens and give it back, again and again, have never more than
`c₀` tokens together.  If there is one token, or there is at most one client more than tokens, and
the arguments of the waits fit into their C types, then every run ends with all clients finished. -/
theorem pool_serves (pid : ι → UInt32) (c₀ : UInt32) (waits : ι → List (ℤ × ℤ))
    (hspin : ∀ i, ∀ r ∈ waits i, 1 ≤ r.2) {c : State ι}
    (h : (system pid c₀ fun i => borrow (waits i)).Reach (fun _ _ => True) c) :
    c.shared.object.count.word.toNat + (holders c).card = c₀.toNat ∧
    (1 ≤ c₀ → c₀ = 1 ∨ Fintype.card ι ≤ c₀.toNat + 1 →
      (∀ i, ∀ r ∈ waits i, CInt.Fits 64 r.1 ∧ CInt.Fits 32 r.2) →
      (system pid c₀ fun i => borrow (waits i)).Inevitable (fun _ _ => True) Finished c) := by
  refine ⟨count_add_holders hspin h, fun hpos hfew hfits => ?_⟩
  apply inevitable_of_rest (fun i => proper_borrow (hspin i)) ?_ h
  intro c hr hrest
  have hreturned := returned_of_reach (fun i => proper_borrow (hspin i))
    (fun i => fits_borrow (hfits i)) (fun _ => room_of_holders hspin) hr
  intro i
  apply hrest.finished (hreturned i)
  intro hin
  -- whoever has the tokens is awake and has not finished
  have hcount := count_add_holders hspin hr
  rw [word_of_rest hspin hfew hr hrest hin] at hcount
  have hne : (holders c).Nonempty := by
    apply Finset.card_pos.1
    have hle := UInt32.le_iff_toNat_le.1 hpos
    simp at hcount hle
    omega
  obtain ⟨j, hj⟩ := hne
  have hfin := hrest.finished (hreturned j) fun hjn => not_holds_of_asleep hspin hr hjn hj
  simp [Client.holds, pending_of_finished hfin] at hj

/-- Three clients of one token; `b` may time out. -/
def lockUsers : Tid → List (ℤ × ℤ)
  | .a => [(-1, 1), (-1, 1)]
  | .b => [(1000, 2)]
  | .c => [(-1, 16)]

/-- The clients before their first call, and one setback. -/
def unlocked : State Tid :=
  ⟨⟨⟨magicSEMA, 0, ⟨1, ∅⟩, 0, 0⟩, 1⟩, fun i => ⟨.fresh, borrow (lockUsers i)⟩⟩

theorem fresh_unlocked : Fresh 1 (fun i => borrow (lockUsers i)) unlocked := ⟨rfl, fun _ => rfl⟩

/-- Client `a` has the token, and `b` sleeps. -/
def locked : State Tid :=
  (system (fun _ => 7) 1 fun i => borrow (lockUsers i)).exec (fun _ _ => True) unlocked
    [(.a, .call), (.a, .access .next), (.a, .access .next), (.b, .call), (.b, .access .next),
      (.b, .access .next), (.b, .access .next)]

theorem pool_serves_locked :
    holders locked = {.a} ∧ locked.shared.object.count.sleepers = {.b} ∧
      (system (fun _ => 7) 1 fun i => borrow (lockUsers i)).Inevitable (fun _ _ => True) Finished
        locked :=
  ⟨by decide +kernel, by decide +kernel,
    (pool_serves (fun _ => 7) 1 lockUsers (fun i => by cases i <;> decide +kernel)
      (.exec _ (.init fresh_unlocked))).2 (by decide) (.inl rfl)
      (fun i => by cases i <;> decide +kernel)⟩

end Pool

end SemaphoreClients
