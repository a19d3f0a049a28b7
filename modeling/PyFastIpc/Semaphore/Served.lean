import PyFastIpc.Semaphore.Clients

/-!
# A single waiting client

Where no two threads sleep at the same time, the wake of a post that found the count 0 is enough: a
sleeper beside a token has a wake outstanding (`Attended`).  So if one client waits and posts, and
the others only post, then it never sleeps beside a token when all have come to rest, and all
clients finish if and only if there are enough tokens for each of its waits (`one_waiter_served`).
-/

namespace FutexSemaphore

/-- While there are tokens, the outstanding wakes reach all sleepers. -/
def Attended {ι : Type*} [Fintype ι] (c : State ι) : Prop :=
  c.shared.count.word ≠ 0 → c.shared.count.sleepers.card ≤ pendingWakes c

theorem wakeCount_pos (add : UInt32) : 0 < wakeCount add := by
  have hmax : 0 < intMax := by decide
  unfold wakeCount
  dsimp only
  split_ifs <;> omega

section Attended

variable {ι : Type*} [DecidableEq ι] [Fintype ι] {i : ι} {pid : UInt32} {m : Move ι} {c : State ι}
  {hd : Header ι} {t : Thread}

/-- A step while at most one thread sleeps. -/
theorem Attended.step (hA : Attended c) (hone : c.shared.count.sleepers.card ≤ 1)
    (he : Effect i pid m c.shared (c.locals i) hd t) :
    Attended ⟨hd, Function.update c.locals i t⟩ := by
  have hsum : pendingWakes ⟨hd, Function.update c.locals i t⟩ + (c.locals i).pc.pendingWake =
      pendingWakes c + t.pc.pendingWake :=
    Config.sum_update c.locals i t fun t => t.pc.pendingWake
  unfold Attended at *
  generalize pendingWakes ⟨hd, Function.update c.locals i t⟩ = W' at *
  intro hword
  dsimp only at hword ⊢
  cases he with
  | call f hcall hpc =>
    obtain ⟨r, hpc⟩ := hpc
    rw [hpc, show ((c.locals i).begin f).pc.pendingWake = 0 from f.pendingWake_entry] at hsum
    have hcard := hA hword
    simp only [Pc.pendingWake] at hsum
    omega
  | peeked hpc | refused add hpc hov | seen add cur room hpc | retry add cur room hpc
  | storeLastPid hpc | storeLastNs now hpc =>
    have hcard := hA hword
    simp only [hpc, Thread.goto, Pc.pendingWake] at hsum
    exact hcard.trans (by omega)
  | add add cur room hm hpc hcur =>
    simp only [Futex.store_sleepers]
    rw [hpc] at hsum
    simp only [Thread.add] at hsum
    split_ifs at hsum with hzero
    · have hpos := wakeCount_pos add
      simp only [Pc.pendingWake] at hsum
      omega
    · have hcard := hA (by rwa [hcur])
      simp only [Pc.pendingWake] at hsum
      omega
  | wake add s who hpc hs =>
    have hcard := hA (by rwa [← Futex.wake_word hs])
    rw [Futex.wake_card hs]
    simp only [hpc, Thread.goto, Pc.pendingWake] at hsum
    omega
  | search w p hpc hp hout =>
    have hcard := hA hword
    rw [Pc.pendingWake_of_looping hpc,
      show ((c.locals i).goto p).pc.pendingWake = 0 from Wait.pendingWake_of_goes (.inl hp)] at hsum
    omega
  | take w k v pos hpc hv =>
    have hcard := hA (by rwa [hv])
    simp only [hpc, Thread.take, Pc.pendingWake] at hsum
    simp only [Futex.store_sleepers]
    omega
  | sleep w hpc hzero => exact absurd hzero hword
  | leave w p hpc hin hp =>
    have hcard := hA hword
    have herase := Finset.card_erase_add_one hin
    rw [hpc, show ((c.locals i).goto p).pc.pendingWake = 0 from Wait.pendingWake_of_goes hp] at hsum
    simp only [Pc.pendingWake] at hsum
    dsimp only
    omega

end Attended

end FutexSemaphore

namespace SemaphoreClients

open FutexSemaphore

section Attended

variable {ι : Type*} [DecidableEq ι] [Fintype ι] {pid : ι → UInt32} {c₀ : UInt32}
  {work : ι → List Job} {c : State ι} {ok : State ι → ι × Act ι → Prop}

omit [Fintype ι] in
/-- A step of a client is a step of the semaphore. -/
theorem Effect.semaphore_step {i : ι} {pid : UInt32} {sh sh' : Shared ι} {w w' : Client}
    (he : Effect i pid sh w sh' w') :
    ∃ m, FutexSemaphore.Effect i pid m sh.object w.thread sh'.object w'.thread := by
  cases he with
  | call job rest hidle hraised htodo => exact ⟨.call job.call, .call job.call rfl hidle⟩
  | access m k h t hm hk hs => exact ⟨m, FutexSemaphore.effect_of_step hs⟩

omit [Fintype ι] in
theorem sleepersWait_of_reach (h : (system pid c₀ work).Reach ok c) :
    SleepersWait c.semaphore := by
  refine h.invariant (fun c => SleepersWait c.semaphore) (fun c hc i hi => ?_)
    fun c a c' _ hS _ hs => ?_
  · simp [State.semaphore, hc.count] at hi
  · obtain ⟨sh, w, he, rfl⟩ := effect_of_system_step hs
    obtain ⟨m, he⟩ := he.semaphore_step
    rw [State.semaphore_update]
    exact hS.step he

/-- Clients of which at most one sleeps at a time. -/
theorem attended_of_reach
    (hone : ∀ c, (system pid c₀ work).Reach ok c → c.shared.object.count.sleepers.card ≤ 1)
    (h : (system pid c₀ work).Reach ok c) : Attended c.semaphore := by
  refine h.invariant (fun c => Attended c.semaphore) (fun c hc _ => ?_) fun c a c' hr hA _ hs => ?_
  · simp [State.semaphore, hc.count]
  · obtain ⟨sh, w, he, rfl⟩ := effect_of_system_step hs
    obtain ⟨m, he⟩ := he.semaphore_step
    rw [State.semaphore_update]
    exact hA.step (hone c hr) he

omit [DecidableEq ι] in
/-- At rest no wake is outstanding. -/
theorem AtRest.pendingWakes (hrest : AtRest c) (hS : SleepersWait c.semaphore) :
    pendingWakes c.semaphore = 0 := by
  apply Finset.sum_eq_zero
  intro i _
  rcases hrest i with hover | hin
  · obtain ⟨r, hidle⟩ := hover.idle
    rw [show (c.semaphore.locals i).pc = .idle r from hidle]
    rfl
  · obtain ⟨w, hw⟩ := hS i hin
    rw [hw]
    rfl

end Attended

/-! ## Sums over jobs -/

theorem Job.need_nonneg (job : Job) : 0 ≤ job.need := by
  cases job <;> simp [Job.need]

theorem Job.Proper.amount_nonneg {job : Job} (h : job.Proper) : 0 ≤ job.amount := by
  cases job with
  | post n => exact h.1
  | take timeoutNs spin => exact le_rfl

@[simp] theorem supply_nil : supply [] = 0 := rfl

theorem supply_append (p q : List Job) : supply (p ++ q) = supply p + supply q := by
  simp only [supply, List.map_append, List.sum_append]
  omega

theorem supply_nonneg {jobs : List Job} (hproper : ∀ job ∈ jobs, job.Proper)
    (hposts : ∀ job ∈ jobs, job.need = 0) : 0 ≤ supply jobs := by
  have hneed : (jobs.map Job.need).sum = 0 := List.sum_eq_zero (by simpa using hposts)
  have hamount : 0 ≤ (jobs.map Job.amount).sum :=
    List.sum_nonneg (List.forall_mem_map.2 fun job hjob => (hproper job hjob).amount_nonneg)
  rw [supply, hneed, sub_zero]
  exact hamount

theorem need_le_of_suffix {p q : List Job} (h : p <:+ q) :
    (p.map Job.need).sum ≤ (q.map Job.need).sum := by
  obtain ⟨r, rfl⟩ := h
  rw [List.map_append, List.sum_append]
  have hpos : 0 ≤ (r.map Job.need).sum :=
    List.sum_nonneg (List.forall_mem_map.2 fun job _ => job.need_nonneg)
  omega

theorem Client.pending_suffix (w : Client) : w.pending <:+ w.todo := by
  unfold Client.pending
  split_ifs
  · exact List.tail_suffix _
  · exact List.suffix_rfl

theorem ClientInv.pending_suffix {jobs : List Job} {w : Client} (hI : ClientInv jobs w) :
    w.pending <:+ jobs :=
  w.pending_suffix.trans hI.suffix

/-! ## No overflow -/

section Runs

variable {ι : Type*} [DecidableEq ι] [Fintype ι] {pid : ι → UInt32} {c₀ : UInt32}
  {work : ι → List Job} {c : State ι} {ok : State ι → ι × Act ι → Prop} {k : ι}

/-- All tokens that were or will be posted. -/
def allTokens (c₀ : UInt32) (work : ι → List Job) : ℤ :=
  c₀.toNat + ∑ i, ((work i).map Job.amount).sum

/-- The count and the posts to come stay below all tokens. -/
theorem count_add_le (hproper : ∀ i, ∀ job ∈ work i, job.Proper)
    (h : (system pid c₀ work).Reach ok c) :
    (c.shared.object.count.word.toNat : ℤ) + ∑ i, ((c.locals i).pending.map Job.amount).sum ≤
      allTokens c₀ work := by
  have hcount := count_of_reach hproper h
  have hneed : ∑ i, ((c.locals i).pending.map Job.need).sum ≤
      ∑ i, ((work i).map Job.need).sum :=
    Finset.sum_le_sum fun i _ =>
      need_le_of_suffix (clientInv_of_reach hproper h i).pending_suffix
  simp only [supply, Finset.sum_sub_distrib] at hcount
  unfold allTokens
  omega

omit [DecidableEq ι] [Fintype ι] in
theorem not_raised_of_goes {v : Wait} {p : Pc}
    (hp : v.Goes p ∨ p = .idle (some (.bool false))) : raised p = false := by
  rcases hp with (hp | ⟨-, rfl⟩) | rfl
  · cases p <;> simp_all [Pc.looping, raised]
  · rfl
  · rfl

/-- The amount that a client is about to add fits into the count. -/
def Room (c : State ι) : Prop :=
  ∀ i, ∀ job ∈ (c.locals i).pending.head?,
    (c.shared.object.count.word.toNat : ℤ) + job.amount < 2 ^ 32

/-- Where each argument and each amount fits, no client raises. -/
theorem returned_of_reach (hproper : ∀ i, ∀ job ∈ work i, job.Proper)
    (hfits : ∀ i, ∀ job ∈ work i, job.call.Fits)
    (hroom : ∀ c, (system pid c₀ work).Reach ok c → Room c)
    (h : (system pid c₀ work).Reach ok c) (i : ι) : raised (c.locals i).thread.pc = false := by
  refine h.invariant (fun c => ∀ i, raised (c.locals i).thread.pc = false) (fun c hc i => ?_)
    (fun c a c' hr hno _ hs => ?_) i
  · rw [hc.locals]
    rfl
  · have hI := clientInv_of_reach hproper hr
    obtain ⟨sh, w, he, rfl⟩ := effect_of_system_step hs
    refine Config.forall_update (fun _ (w : Client) => raised w.thread.pc = false) ?_
      fun j _ => hno j
    cases he with
    | call job rest hidle hraised htodo =>
      have hmem : job ∈ work a.1 := (hI a.1).suffix.subset (by simp [htodo])
      have hruns := (job.runs_entry (hproper a.1 job hmem)).1.resolve_right fun hover =>
        hover.1 (hfits a.1 job hmem)
      change raised job.call.entry = false
      cases hentry : job.call.entry with
      | idle r =>
        rw [hentry] at hruns
        exact hruns.not_idle.elim
      | _ => rfl
    | access m k h t hm hk hstep =>
      change raised t.pc = false
      cases FutexSemaphore.effect_of_step hstep with
      | call f hcall hpc => exact absurd hcall (hm f)
      | refused add hpc hov =>
        obtain ⟨job, hjob, hruns⟩ := (hI a.1).busy (not_idle_of_step hm hstep)
        rw [hpc] at hruns
        have hamount : job.amount = add.toNat := by
          cases job with
          | post n => exact hruns
          | take timeoutNs spin => simp [Job.Runs, Pc.looping] at hruns
        have hfits := hroom c hr a.1 job (by
          rwa [Client.pending_of_unsettled (by rw [hpc]; rfl)])
        omega
      | add add cur room hm hpc hcur =>
        simp only [Thread.add]
        split_ifs <;> rfl
      | search v p hpc hp hout => exact not_raised_of_goes (.inl hp)
      | leave v p hpc hin hp => exact not_raised_of_goes hp
      | _ => rfl

theorem room_of_allTokens (hproper : ∀ i, ∀ job ∈ work i, job.Proper)
    (hroom : allTokens c₀ work < 2 ^ 32) (h : (system pid c₀ work).Reach ok c) : Room c := by
  intro i job hjob
  have hmem (j : ι) (job : Job) (hjob : job ∈ (c.locals j).pending) : 0 ≤ job.amount :=
    (hproper j job
      ((clientInv_of_reach hproper h j).pending_suffix.subset hjob)).amount_nonneg
  have hnonneg (j : ι) : 0 ≤ ((c.locals j).pending.map Job.amount).sum :=
    List.sum_nonneg (List.forall_mem_map.2 (hmem j))
  have hown : job.amount ≤ ((c.locals i).pending.map Job.amount).sum := by
    obtain ⟨rest, hrest⟩ := List.head?_eq_some_iff.1 hjob
    have hpos : 0 ≤ (rest.map Job.amount).sum :=
      List.sum_nonneg (List.forall_mem_map.2 fun job hjob => hmem i job (by simp [hrest, hjob]))
    rw [hrest, List.map_cons, List.sum_cons]
    omega
  have hsum := Finset.single_le_sum (fun j _ => hnonneg j) (Finset.mem_univ i)
  have hle := count_add_le hproper h
  omega

/-! ## Who sleeps -/

/-- A sleeping client waits for a token. -/
theorem job_of_asleep (hproper : ∀ i, ∀ job ∈ work i, job.Proper)
    (h : (system pid c₀ work).Reach ok c) {i : ι} (hin : i ∈ c.shared.object.count.sleepers) :
    ∃ job ∈ (c.locals i).todo.head?, job.need = 1 ∧ job.amount = 0 ∧
      settled (c.locals i).thread.pc = false := by
  obtain ⟨v, hv⟩ := sleepersWait_of_reach h i hin
  have hpc : (c.locals i).thread.pc = .inWait v := hv
  obtain ⟨job, hjob, hruns⟩ := (clientInv_of_reach hproper h i).busy fun r hr => by
    simp [hpc] at hr
  rw [hpc] at hruns
  obtain ⟨-, timeoutNs, rfl⟩ := hruns.looping rfl
  exact ⟨_, hjob, rfl, rfl, by rw [hpc]; rfl⟩

omit [DecidableEq ι] [Fintype ι] in
theorem AtRest.finished (hrest : AtRest c) {i : ι}
    (hreturned : raised (c.locals i).thread.pc = false)
    (hawake : i ∉ c.shared.object.count.sleepers) : (c.locals i).Finished (interface ι) := by
  rcases (hrest i).resolve_right hawake with hraised | ⟨hidle, htodo⟩
  · simp [hreturned] at hraised
  · exact ⟨hidle, hreturned, htodo⟩

omit [DecidableEq ι] [Fintype ι] in
theorem pending_of_finished {w : Client} (h : w.Finished (interface ι)) : w.pending = [] := by
  simpa [h.todo] using w.pending_suffix

/-! ## The waiting client -/

/-- What client `k` finds when all others are done. -/
def stock (c₀ : UInt32) (work : ι → List Job) (k : ι) : ℤ :=
  c₀.toNat + ∑ i ∈ Finset.univ.erase k, supply (work i)

/-- However far client `k` gets, there are tokens for what it has taken. -/
def Enough (c₀ : UInt32) (work : ι → List Job) (k : ι) : Prop :=
  ∀ p, p <+: work k → 0 ≤ stock c₀ work k + supply p

/-- The count after the jobs `p` of client `k`. -/
theorem count_of_prefix (hproper : ∀ i, ∀ job ∈ work i, job.Proper)
    (h : (system pid c₀ work).Reach ok c) {p : List Job}
    (hp : work k = p ++ (c.locals k).pending) :
    (c.shared.object.count.word.toNat : ℤ) +
      ∑ i ∈ Finset.univ.erase k, supply (c.locals i).pending = stock c₀ work k + supply p := by
  have hcount := count_of_reach hproper h
  rw [← Finset.add_sum_erase _ _ (Finset.mem_univ k),
    ← Finset.add_sum_erase _ (fun i => supply (work i)) (Finset.mem_univ k), hp,
    supply_append] at hcount
  unfold stock
  omega

omit [Fintype ι] in
/-- A step settles at most one job. -/
theorem Effect.pending_length {i : ι} {pid : UInt32} {sh sh' : Shared ι} {w w' : Client}
    (he : Effect i pid sh w sh' w') : w.pending.length ≤ w'.pending.length + 1 := by
  have hle := w.pending_suffix.length_le
  have hge (t : Thread) : w.todo.length ≤ (Client.pending ⟨t, w.todo⟩).length + 1 := by
    unfold Client.pending
    split_ifs
    · simp only [List.length_tail]
      omega
    · exact Nat.le_succ _
  cases he with
  | call job rest hidle hraised htodo => exact hle.trans (hge _)
  | access m k h t hm hk hs =>
    by_cases hfin : finished t.pc = true
    · have hsettled : settled t.pc = false := by
        cases hpc : t.pc <;> simp_all [finished, settled]
      rw [Clients.Jobs.resume_of_done (R := rules) hfin,
        Client.pending_of_unsettled (w := ⟨t, w.todo.tail⟩) hsettled, List.length_tail]
      omega
    · rw [Clients.Jobs.resume_of_not_done (R := rules) (by simpa using hfin)]
      exact hle.trans (hge t)

/-- Client `k` has never taken a token that was not there. -/
theorem afforded_of_reach (hproper : ∀ i, ∀ job ∈ work i, job.Proper)
    (hposts : ∀ i, i ≠ k → ∀ job ∈ work i, job.need = 0)
    (h : (system pid c₀ work).Reach ok c) {p q : List Job} (hwork : work k = p ++ q)
    (hq : (c.locals k).pending <:+ q) : 0 ≤ stock c₀ work k + supply p := by
  have hothers {c : State ι} (h : (system pid c₀ work).Reach ok c) :
      0 ≤ ∑ i ∈ Finset.univ.erase k, supply (c.locals i).pending := by
    apply Finset.sum_nonneg
    intro i hi
    have hsub := (clientInv_of_reach hproper h i).pending_suffix.subset
    exact supply_nonneg (fun job hjob => hproper i job (hsub hjob))
      fun job hjob => hposts i (Finset.ne_of_mem_erase hi) job (hsub hjob)
  have hnow {c : State ι} (h : (system pid c₀ work).Reach ok c) {p : List Job}
      (hp : work k = p ++ (c.locals k).pending) : 0 ≤ stock c₀ work k + supply p := by
    have hcount := count_of_prefix hproper h hp
    have hpos := hothers h
    omega
  induction h generalizing p q with
  | @init c hc =>
    have hall : (c.locals k).pending = work k := by
      rw [hc.locals]
      rfl
    rw [hall] at hq
    obtain rfl : work k = q := hq.eq_of_length_le (by simp [hwork])
    exact hnow (.init hc) (by rwa [hall])
  | @step c c' a hr hok hs ih =>
    have hI := clientInv_of_reach hproper hr k
    have hlength : (c.locals k).pending.length ≤ (c'.locals k).pending.length + 1 := by
      obtain ⟨sh, w, he, rfl⟩ := effect_of_system_step hs
      by_cases hk : k = a.1
      · subst hk
        simpa using he.pending_length
      · simp [Function.update_of_ne hk]
    rcases hq.length_le.lt_or_eq with hless | heq
    · apply ih hwork
      apply List.suffix_of_suffix_length_le hI.pending_suffix
      · exact ⟨p, hwork.symm⟩
      · omega
    · obtain rfl := hq.eq_of_length heq
      exact hnow (.step a hr hok hs) hwork

/-- Only client `k` sleeps. -/
theorem eq_of_asleep (hproper : ∀ i, ∀ job ∈ work i, job.Proper)
    (hposts : ∀ i, i ≠ k → ∀ job ∈ work i, job.need = 0)
    (h : (system pid c₀ work).Reach ok c) {i : ι} (hin : i ∈ c.shared.object.count.sleepers) :
    i = k := by
  by_contra hne
  obtain ⟨job, hjob, hneed, -⟩ := job_of_asleep hproper h hin
  have hsub := (clientInv_of_reach hproper h i).suffix.subset
  have hzero := hposts i hne job (hsub (List.mem_of_mem_head? hjob))
  omega

/-- It sleeps at rest only when there is no token. -/
theorem word_of_asleep (hproper : ∀ i, ∀ job ∈ work i, job.Proper)
    (hposts : ∀ i, i ≠ k → ∀ job ∈ work i, job.need = 0)
    (h : (system pid c₀ work).Reach ok c) (hrest : AtRest c) {i : ι}
    (hin : i ∈ c.shared.object.count.sleepers) : c.shared.object.count.word = 0 := by
  have hA : Attended c.semaphore := by
    apply attended_of_reach ?_ h
    intro c h
    apply Finset.card_le_one.2
    intro i hi j hj
    exact (eq_of_asleep hproper hposts h hi).trans (eq_of_asleep hproper hposts h hj).symm
  by_contra hne
  have hcard := hA hne
  rw [hrest.pendingWakes (sleepersWait_of_reach h), Nat.le_zero, Finset.card_eq_zero] at hcard
  rw [show c.shared.object.count.sleepers = ∅ from hcard] at hin
  exact absurd hin (Finset.notMem_empty i)

/-- At rest client `k` does not sleep if there are enough tokens for it. -/
theorem finished_of_rest (hproper : ∀ i, ∀ job ∈ work i, job.Proper)
    (hfits : ∀ i, ∀ job ∈ work i, job.call.Fits)
    (hposts : ∀ i, i ≠ k → ∀ job ∈ work i, job.need = 0) (hroom : allTokens c₀ work < 2 ^ 32)
    (henough : Enough c₀ work k) (h : (system pid c₀ work).Reach ok c) (hrest : AtRest c) :
    Finished c := by
  have hreturned := returned_of_reach hproper hfits (fun _ => room_of_allTokens hproper hroom) h
  intro i
  apply hrest.finished (hreturned i)
  intro hin
  obtain rfl : i = k := eq_of_asleep hproper hposts h hin
  have hzero := word_of_asleep hproper hposts h hrest hin
  obtain ⟨job, hjob, hneed, hamount, hset⟩ := job_of_asleep hproper h hin
  obtain ⟨rest, htodo⟩ := List.head?_eq_some_iff.1 hjob
  obtain ⟨p, hp⟩ := (clientInv_of_reach hproper h i).pending_suffix
  have hcount := count_of_prefix hproper h hp.symm
  have hothers : ∑ j ∈ Finset.univ.erase i, supply (c.locals j).pending = 0 := by
    apply Finset.sum_eq_zero
    intro j hj
    have hfin := hrest.finished (hreturned j) fun hjn =>
      Finset.ne_of_mem_erase hj (eq_of_asleep hproper hposts h hjn)
    rw [pending_of_finished hfin, supply_nil]
  -- the token that it waits for is one too many
  have hnext := henough (p ++ [job]) (by
    rw [Client.pending_of_unsettled hset, htodo] at hp
    exact ⟨rest, by simpa using hp⟩)
  have hlast : supply [job] = -1 := by simp [supply, hneed, hamount]
  rw [supply_append, hlast] at hnext
  rw [hothers, hzero] at hcount
  simp at hcount
  omega

/-- One client waits, and the others only post.  If the arguments of the waits fit into their C
types, each wait spins at least once, and the tokens fit into the count, then from every reachable
state all clients can finish if and only if there are enough tokens for each wait of the one client,
and then every run ends with all of them finished: no wakeup is lost. -/
theorem one_waiter_served (pid : ι → UInt32) (c₀ : UInt32) (work : ι → List Job) (k : ι)
    (hproper : ∀ i, ∀ job ∈ work i, job.Proper) (hfits : ∀ i, ∀ job ∈ work i, job.call.Fits)
    (hposts : ∀ i, i ≠ k → ∀ job ∈ work i, job.need = 0) (hroom : allTokens c₀ work < 2 ^ 32)
    {c : State ι} (h : (system pid c₀ work).Reach (fun _ _ => True) c) :
    ((∃ c', ((system pid c₀ work).startAt c).Reach (fun _ _ => True) c' ∧ Finished c') ↔
      Enough c₀ work k) ∧
    (Enough c₀ work k → (system pid c₀ work).Inevitable (fun _ _ => True) Finished c) := by
  have hinevitable (henough : Enough c₀ work k) :
      (system pid c₀ work).Inevitable (fun _ _ => True) Finished c :=
    inevitable_of_rest hproper
      (fun _ hr hrest => finished_of_rest hproper hfits hposts hroom henough hr hrest) h
  refine ⟨⟨fun hfinish => ?_, fun henough => (hinevitable henough).exists_reach⟩, hinevitable⟩
  obtain ⟨c', hc', hfin⟩ := hfinish
  intro p hp
  obtain ⟨q, hq⟩ := hp
  apply afforded_of_reach hproper hposts (h.trans hc') hq.symm
  rw [pending_of_finished (hfin k)]
  exact List.nil_suffix

instance (c₀ : UInt32) (work : ι → List Job) (k : ι) : Decidable (Enough c₀ work k) :=
  decidable_of_iff (∀ p ∈ (work k).inits, 0 ≤ stock c₀ work k + supply p) (by simp [Enough])

/-- A client posts one token and waits for three, and two clients post one token each. -/
def onePoster : Tid → List Job
  | .a => [.post 1, .take 10000000 1, .take (-1) 16, .take (-1) 1]
  | .b | .c => [.post 1]

/-- The clients before their first call, and two setbacks. -/
def unposted : State Tid := ⟨⟨⟨magicSEMA, 0, ⟨0, ∅⟩, 0, 0⟩, 2⟩, fun i => ⟨.fresh, onePoster i⟩⟩

theorem fresh_unposted : Fresh 0 onePoster unposted := ⟨rfl, fun _ => rfl⟩

theorem one_waiter_served_onePoster :
    (system (fun _ => 7) 0 onePoster).Inevitable (fun _ _ => True) Finished
      ((system (fun _ => 7) 0 onePoster).exec (fun _ _ => True) unposted
        [(.a, .call), (.a, .access .next), (.a, .access .weakFail), (.a, .access .next)]) :=
  (one_waiter_served (fun _ => 7) 0 onePoster .a (fun i => by cases i <;> decide +kernel)
    (fun i => by cases i <;> decide +kernel)
    (fun i hi => by cases i <;> simp_all [onePoster, Job.need]) (by decide +kernel)
    (.exec _ (.init fresh_unposted))).2 (by decide +kernel)

end Runs

end SemaphoreClients
