import PyFastIpc.Event.Steps

/-!
# A set leaves no waiter behind

A thread falls asleep only while the word is 0, so sleepers beside a nonzero word were there before
the store of some `set`, whose wake is still to come (`Attended`).  The wake of a `set` empties the
queue, because the kernel wakes up to 2^31 - 1 threads and fewer than 2^31 wait (`FewWaiters`).  A
thread that sleeps again afterwards is in a later sleep, which its number tells (`Released`).
-/

namespace NamedEvent

variable {ι : Type*}

/-- Fewer than 2^31 threads sleep. -/
def FewWaiters (c : State ι) (_ : ι × Move ι) : Prop := c.shared.sleepers.card < 2 ^ 31

/-- Whoever sleeps while the word is nonzero will be woken by a set. -/
def Attended (c : State ι) : Prop :=
  c.shared.word ≠ 0 → c.shared.sleepers = ∅ ∨ ∃ i, (c.locals i).pc = .setWake

/-- The sleeps that the threads' sets have caught are past or present sleeps, and past ones if the
set has issued its wake. -/
def Released (c : State ι) : Prop :=
  ∀ i j n, (j, n) ∈ (c.locals i).caught → n ≤ (c.locals j).sleeps ∧
    ((c.locals i).pc ≠ .setWake → j ∈ c.shared.sleepers → n ≠ (c.locals j).sleeps)

theorem mem_asleep [DecidableEq ι] {c : State ι} {j : ι} {n : ℕ} :
    (j, n) ∈ c.asleep ↔ j ∈ c.shared.sleepers ∧ (c.locals j).sleeps = n := by
  simp only [State.asleep, Finset.mem_image, Prod.mk.injEq]
  constructor
  · rintro ⟨k, hk, rfl, rfl⟩
    exact ⟨hk, rfl⟩
  · rintro ⟨hj, rfl⟩
    exact ⟨j, hj, rfl, rfl⟩

variable [DecidableEq ι]

/-- The wake of a set takes every sleeper off the queue. -/
theorem sleepers_of_wakeAll {f f' : Futex ι} {who : Finset ι} (hfew : f.sleepers.card < 2 ^ 31)
    (hs : f.wake wakeAll who = some f') : f'.sleepers = ∅ := by
  have hcard := Futex.wake_card hs
  have hmin : min wakeAll f.sleepers.card = f.sleepers.card :=
    min_eq_right (by unfold wakeAll; omega)
  rw [hmin, Nat.sub_self] at hcard
  exact Finset.card_eq_zero.1 hcard

section Step

variable {c : State ι} {i : ι} {m : Move ι} {f : Futex ι} {t : Thread ι}

/-- A step that neither changes the word nor queues anybody, of a thread that owes no wake. -/
theorem Attended.quiet (hA : Attended c) (hpc : (c.locals i).pc ≠ .setWake)
    (hword : f.word = c.shared.word) (hsub : f.sleepers ⊆ c.shared.sleepers) :
    Attended ⟨f, Function.update c.locals i t⟩ := by
  intro hne
  rcases hA (by rwa [← hword]) with hempty | ⟨j, hj⟩
  · exact .inl (Finset.subset_empty.1 (hempty ▸ hsub))
  · have hji : j ≠ i := by
      rintro rfl
      exact hpc hj
    exact .inr (Config.exists_update (fun _ (t : Thread ι) => t.pc = .setWake) hji hj)

theorem Attended.step (hA : Attended c) (hfew : c.shared.sleepers.card < 2 ^ 31)
    (he : Effect i c.asleep m c.shared (c.locals i) f t) :
    Attended ⟨f, Function.update c.locals i t⟩ := by
  cases he with
  | call g hpc =>
    obtain ⟨r, hpc⟩ := hpc
    exact hA.quiet (by simp [hpc]) rfl subset_rfl
  | set hpc => exact fun _ => .inr ⟨i, by simp [Thread.catching]⟩
  | wake f' who hpc hs => exact fun _ => .inl (sleepers_of_wakeAll hfew hs)
  | clear hpc => exact fun hne => absurd rfl hne
  | sleep timed hm hpc hword => exact fun hne => absurd hword hne
  | leave timed p hpc hin hp => exact hA.quiet (by simp [hpc]) rfl (Finset.erase_subset _ _)
  | again timed hm hpc hword | woken timed hpc hout | load b hpc =>
    exact hA.quiet (by simp [hpc]) rfl subset_rfl

/-- A step after which the sleep numbers have not decreased, what the thread's set has caught are
no later sleeps, and who is still queued was queued before or begins a new sleep. -/
theorem Released.frame (hR : Released c) (hsleeps : (c.locals i).sleeps ≤ t.sleeps)
    (hcaught : t.caught = (c.locals i).caught)
    (hpc : t.pc ≠ .setWake → (c.locals i).pc ≠ .setWake ∨ f.sleepers = ∅)
    (hsub : ∀ j ∈ f.sleepers, j ∈ c.shared.sleepers ∧ (j = i → t.sleeps = (c.locals i).sleeps) ∨
      j = i ∧ (c.locals i).sleeps < t.sleeps) :
    Released ⟨f, Function.update c.locals i t⟩ := by
  have hmono (k : ι) : (c.locals k).sleeps ≤ (Function.update c.locals i t k).sleeps :=
    Config.forall_update (fun k (t : Thread ι) => (c.locals k).sleeps ≤ t.sleeps) hsleeps
      (fun _ _ => le_rfl) k
  have hsame (k : ι) : (Function.update c.locals i t k).caught = (c.locals k).caught ∧
      ((Function.update c.locals i t k).pc ≠ .setWake →
        (c.locals k).pc ≠ .setWake ∨ f.sleepers = ∅) :=
    Config.forall_update (fun k (t : Thread ι) => t.caught = (c.locals k).caught ∧
      (t.pc ≠ .setWake → (c.locals k).pc ≠ .setWake ∨ f.sleepers = ∅)) ⟨hcaught, hpc⟩
      (fun _ _ => ⟨rfl, .inl⟩) k
  intro k j n hmem
  have hbefore := hR k j n ((hsame k).1 ▸ hmem)
  refine ⟨hbefore.1.trans (hmono j), fun hk hj => ?_⟩
  dsimp only at hj ⊢
  have hk' : (c.locals k).pc ≠ .setWake :=
    ((hsame k).2 hk).resolve_right fun hempty => by simp [hempty] at hj
  rcases hsub j hj with ⟨hin, hsleep⟩ | ⟨rfl, hlt⟩
  · have hj' : (Function.update c.locals i t j).sleeps = (c.locals j).sleeps := by
      by_cases hji : j = i
      · subst hji
        simpa using hsleep rfl
      · simp [hji]
    rw [hj']
    exact hbefore.2 hk' hin
  · rw [Function.update_self]
    exact (hbefore.1.trans_lt hlt).ne

/-- A step that only moves the thread and queues nobody. -/
theorem Released.quiet (hR : Released c) (hcaught : t.caught = (c.locals i).caught)
    (hsleeps : t.sleeps = (c.locals i).sleeps) (hpc : (c.locals i).pc ≠ .setWake)
    (hsub : f.sleepers ⊆ c.shared.sleepers) : Released ⟨f, Function.update c.locals i t⟩ :=
  hR.frame hsleeps.ge hcaught (fun _ => .inl hpc) fun _ hj => .inl ⟨hsub hj, fun _ => hsleeps⟩

/-- The store of a set catches the present sleeps. -/
theorem Released.catching (hR : Released c) :
    Released ⟨c.shared.store 1,
      Function.update c.locals i ((c.locals i).catching c.asleep)⟩ := by
  have hsame (k : ι) : (Function.update c.locals i ((c.locals i).catching c.asleep) k).sleeps =
      (c.locals k).sleeps := by
    refine Config.forall_update (fun k (t : Thread ι) => t.sleeps = (c.locals k).sleeps) ?_
      (fun _ _ => rfl) k
    rfl
  intro k j n
  dsimp only
  rw [hsame]
  by_cases hki : k = i
  · subst hki
    intro hmem
    obtain ⟨-, rfl⟩ := mem_asleep.1 (by simpa [Thread.catching] using hmem)
    exact ⟨le_rfl, fun hpc => absurd (by simp [Thread.catching]) hpc⟩
  · simpa [hki] using hR k j n

theorem Released.step (hR : Released c) (hfew : c.shared.sleepers.card < 2 ^ 31)
    (he : Effect i c.asleep m c.shared (c.locals i) f t) :
    Released ⟨f, Function.update c.locals i t⟩ := by
  cases he with
  | call g hpc =>
    obtain ⟨r, hpc⟩ := hpc
    exact hR.quiet rfl rfl (by simp [hpc]) subset_rfl
  | set hpc => exact hR.catching
  | wake f' who hpc hs =>
    have hempty := sleepers_of_wakeAll hfew hs
    exact hR.frame le_rfl rfl (fun _ => .inr hempty) fun j hj => by simp [hempty] at hj
  | sleep timed hm hpc hword =>
    refine hR.frame (Nat.le_succ _) rfl (fun _ => .inl (by simp [hpc])) fun j hj => ?_
    by_cases hji : j = i
    · exact .inr ⟨hji, Nat.lt_succ_self _⟩
    · exact .inl ⟨(Finset.mem_insert.1 hj).resolve_left hji, fun h => absurd h hji⟩
  | leave timed p hpc hin hp => exact hR.quiet rfl rfl (by simp [hpc]) (Finset.erase_subset _ _)
  | clear hpc | again timed hm hpc hword | woken timed hpc hout | load b hpc =>
    exact hR.quiet rfl rfl (by simp [hpc]) subset_rfl

end Step

theorem attended_of_reach {c : State ι} (h : system.Reach FewWaiters c) :
    Attended c ∧ Released c := by
  refine h.invariant (fun c => Attended c ∧ Released c) (fun c hc => ?_)
    fun c a c' _ hI hok hs => ?_
  · obtain ⟨hempty, hfresh⟩ : Fresh c := hc
    exact ⟨fun _ => .inl hempty, fun i j n hmem => by simp [hfresh, Thread.fresh] at hmem⟩
  · obtain ⟨f, t, he, rfl⟩ := effect_of_system_step hs
    exact ⟨hI.1.step hok he, hI.2.step hok he⟩

/-- While the word is nonzero and no set is between its store and its wake, nobody sleeps; and once
a set has returned, whoever was asleep at its store is no longer in that sleep. -/
theorem no_waiter_left {c : State ι} (h : system.Reach FewWaiters c) :
    (c.shared.word ≠ 0 → (∀ i, (c.locals i).pc ≠ .setWake) → c.shared.sleepers = ∅) ∧
    (∀ i, (c.locals i).pc ≠ .setWake → ∀ j n, (j, n) ∈ (c.locals i).caught →
      ¬ (j ∈ c.shared.sleepers ∧ (c.locals j).sleeps = n)) := by
  obtain ⟨hA, hR⟩ := attended_of_reach h
  refine ⟨fun hne hno => (hA hne).resolve_right fun ⟨i, hi⟩ => hno i hi, ?_⟩
  rintro i hpc j n hmem ⟨hj, hn⟩
  exact (hR i j n hmem).2 hpc hj hn.symm

instance (c : State ι) (a : ι × Move ι) : Decidable (FewWaiters c a) :=
  inferInstanceAs (Decidable (_ < _))

/-- Thread `b` slept at the set of thread `a`, which then cleared the event, and sleeps again. -/
def resleeping : State Tid :=
  system.exec FewWaiters (start 0)
    [(.b, .call (.wait (-1))), (.b, .next), (.a, .call .set), (.a, .next), (.a, .wake {.b}),
      (.b, .next), (.c, .call .clear), (.c, .next), (.b, .call (.wait (-1))), (.b, .next)]

theorem no_waiter_left_resleeping :
    (Tid.b, 1) ∈ (resleeping.locals .a).caught ∧ Tid.b ∈ resleeping.shared.sleepers ∧
      ¬ (Tid.b ∈ resleeping.shared.sleepers ∧ (resleeping.locals .b).sleeps = 1) :=
  have hmem : (Tid.b, 1) ∈ (resleeping.locals .a).caught := by decide +kernel
  ⟨hmem, by decide +kernel,
    (no_waiter_left (c := resleeping) (.exec _ (.init (fresh_start 0)))).2 .a (by decide +kernel) .b
      1 hmem⟩

end NamedEvent
