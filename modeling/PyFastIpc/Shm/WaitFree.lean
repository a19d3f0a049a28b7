import PyFastIpc.Shm.Solo

/-!
# Constructors and `close` are wait-free

Whatever the other processes do, and whether or not they go on, a process that has called the
constructor or `close` can always make its next system call, and comes to the end of its call after
a bounded number of them (`calls_wait_free`).  The constructor makes a bounded number of attempts,
and the cleanup of `close` goes once through a list that was read at its start; nobody can add a pid
to the directory that is not the pid of a process.
-/

namespace GuardedSharedMemory

variable {ι : Type*} {alive : ℕ → Bool} {pid : ℕ} {m : Move} {fs fs' : Fs} {p p' : Proc}
  {D : Finset ℕ}

/-- A process adds nothing but its own pid to the directory. -/
theorem listPids_of_effect (he : Effect alive pid m fs p fs' p') :
    fs'.listPids ⊆ insert pid fs.listPids := by
  have hsame : fs.listPids ⊆ insert pid fs.listPids := Finset.subset_insert _ _
  cases he with
  | writePid h fs' hpc hd => rw [Fs.listPids_of_writePid _ hd]
  | sweep q todo hpc hq =>
    rw [Fs.listPids_unlinkPid]
    exact (Finset.erase_subset _ _).trans hsame
  | removePid hpc =>
    rw [Fs.listPids_unlinkPid]
    exact (Finset.erase_subset _ _).trans hsame
  | rmdir hm hpc =>
    rw [Fs.listPids_rmdir]
    exact hsame
  | _ => exact hsame

/-- A directory that lists certain pids. -/
def listing (D : Finset ℕ) : Fs := ⟨none, fun _ => 0, 0, some ⟨D, ∅⟩⟩

@[simp] theorem listPids_listing : (listing D).listPids = D := rfl

theorem callsLeft_of_closing {q : Pc} (h : q.closing = true) (n : ℕ) : q.callsLeft n = 0 := by
  cases q <;> simp [Pc.closing, Pc.callsLeft] at h ⊢

/-- The steps of `close` lead to its end, as long as the directory lists no other pids. -/
theorem closeLeft_of_effect (hD : fs.listPids ⊆ D) (hp : p.pc.closing = true)
    (he : Effect alive pid m fs p fs' p') :
    p'.callsLeft = 0 ∧ p'.pc ≠ .cleanupUnlink ∅ ∧
      p'.pc.closeLeft (listing D) < p.pc.closeLeft (listing D) := by
  cases he with
  | list hpc =>
    refine ⟨callsLeft_cleanupFrom _ _, cleanupFrom_ne _, ?_⟩
    have hcard : (fs.listPids.filter fun q => alive q = false).card ≤ D.card :=
      Finset.card_le_card ((Finset.filter_subset _ _).trans hD)
    have hleft := closeLeft_cleanupFrom (listing D) (fs.listPids.filter fun q => alive q = false)
    rw [hpc]
    show (cleanupFrom _).closeLeft (listing D) < D.card + 5
    omega
  | sweep q todo hpc hq =>
    refine ⟨callsLeft_cleanupFrom _ _, cleanupFrom_ne _, ?_⟩
    have hcard := Finset.card_erase_lt_of_mem hq
    have hleft := closeLeft_cleanupFrom (listing D) (todo.erase q)
    rw [hpc]
    show (cleanupFrom (todo.erase q)).closeLeft (listing D) < todo.card + 4
    omega
  | removePid hpc | unlink hm hpc | rmdir hm hpc =>
    rw [hpc]
    exact ⟨rfl, by simp [Proc.goto], by simp [Proc.goto, Pc.closeLeft]⟩
  | scan q hpc hq =>
    rw [hpc]
    refine ⟨?_, ?_, ?_⟩ <;> rw [hq] <;> split_ifs <;>
      simp [Proc.goto, Proc.callsLeft, Pc.callsLeft, Pc.closeLeft]
  | construct r hm hpc => simp [hpc, Pc.closing] at hp
  | close hm hpc => rcases hpc with ⟨h, hpc⟩ | ⟨e, hpc⟩ <;> simp [hpc, Pc.closing] at hp
  | retry q hpc hown hq => cases hq' : p.pc <;> simp_all [Pc.closing, Pc.unregistered]
  | spoil k hpc => rcases hpc with ⟨seg, hpc, -⟩ | ⟨h, hpc, -⟩ <;> simp [hpc, Pc.closing] at hp
  | makedirs _ hpc | attach _ _ hpc | create _ hpc | ftruncate _ _ hpc | fstat _ _ _ hpc
  | mmap _ _ hpc | undo _ hpc | writePid _ _ hpc | missing _ hpc => simp [hpc, Pc.closing] at hp

/-- A constructor has one step at a time. -/
theorem eq_next_of_constructing (hp : p.pc.constructing = true)
    (hs : step alive pid m fs p = some (fs', p')) : m = .next := by
  cases hpc : p.pc <;> simp_all [Pc.constructing, Pc.unregistered] <;>
    cases m <;> simp_all [step]

/-- A step of a process that is inside a call brings it nearer to the end of the call. -/
theorem left_of_step (hD : fs.listPids ⊆ D) (hp : p.pc.inCall = true)
    (hs : step alive pid m fs p = some (fs', p')) :
    p'.pc ≠ .cleanupUnlink ∅ ∧ p'.left (listing D) < p.left (listing D) := by
  rcases Bool.or_eq_true_iff.1 hp with hcon | hclose
  · obtain rfl := eq_next_of_constructing hcon hs
    obtain ⟨fs₁, q, hnext, hless⟩ := next_constructing alive pid fs hcon
    rw [hs, Option.some.injEq, Prod.mk.injEq] at hnext
    obtain ⟨rfl, rfl⟩ := hnext
    have hq : q.closing = false := (constructs_of_effect (effect_of_step hs) hcon).closing
    have hzero := closeLeft_of_not_closing hq (listing D)
    refine ⟨?_, ?_⟩
    · rintro rfl
      cases hq
    · show q.callsLeft p.req.rounds + q.closeLeft (listing D) <
        p.pc.callsLeft p.req.rounds + p.pc.closeLeft (listing D)
      omega
  · obtain ⟨hcalls, hne, hless⟩ := closeLeft_of_effect hD hclose (effect_of_step hs)
    refine ⟨hne, ?_⟩
    have hbefore : p.callsLeft = 0 := callsLeft_of_closing hclose _
    rw [Proc.left, Proc.left, hcalls, hbefore]
    omega

theorem Pc.ne_of_not_closing {q : Pc} (h : q.closing = false) : q ≠ .cleanupUnlink ∅ := by
  rintro rfl
  cases h

/-- No process comes to a cleanup that has nothing to do. -/
theorem cleanup_of_effect (he : Effect alive pid m fs p fs' p') : p'.pc ≠ .cleanupUnlink ∅ := by
  cases he with
  | list hpc | sweep q todo hpc hq => exact cleanupFrom_ne _
  | makedirs q hpc hq | retry q hpc hown hq => exact Pc.ne_of_not_closing hq.constructs.closing
  | undo k hpc => exact Pc.ne_of_not_closing (retries_attempt _ k).constructs.closing
  | scan q hpc hq =>
    rw [hq]
    split_ifs <;> simp [Proc.goto]
  | _ => simp [Proc.goto]

section System

variable [DecidableEq ι] {pid : ι → ℕ} {c : State ι}

theorem cleanup_of_reach (h : (system alive pid Unused).Reach (fun _ _ => True) c) (i : ι) :
    (c.locals i).pc ≠ .cleanupUnlink ∅ := by
  refine h.invariant (fun c => ∀ i, (c.locals i).pc ≠ .cleanupUnlink ∅) (fun c hc i => ?_)
    (fun c a c' _ hI _ hs => ?_) i
  · have hidle : (c.locals i).pc = .idle := hc i
    simp [hidle]
  · obtain ⟨fs, p, he, rfl⟩ := effect_of_system_step hs
    exact Config.forall_update (fun _ (p : Proc) => p.pc ≠ .cleanupUnlink ∅)
      (cleanup_of_effect he) fun j _ => hI j

/-- The calls of a process come to their end by its own steps, whatever the others do. -/
theorem calls_wait_free [Fintype ι] (alive : ℕ → Bool) (pid : ι → ℕ) {c : State ι}
    (h : (system alive pid Unused).Reach (fun _ _ => True) c) (i : ι) :
    (system alive pid Unused).Served (fun _ _ => True) (fun a => a.1 = i) (fun _ => False)
      (fun c => (c.locals i).pc.inCall = false) c := by
  obtain ⟨D, hD⟩ : ∃ D, D = c.shared.listPids ∪ Finset.univ.image pid := ⟨_, rfl⟩
  apply Transition.Served.measure
    (fun c => c.shared.listPids ⊆ D ∧ (c.locals i).pc ≠ .cleanupUnlink ∅)
    (fun c => (c.locals i).left (listing D))
  · rintro c ⟨-, hne⟩
    cases hin : (c.locals i).pc.inCall with
    | false => exact .inl rfl
    | true =>
      obtain ⟨m, fs, p, hs, -⟩ := step_inCall alive (pid i) c.shared hin hne
      exact .inr (.inr ⟨(i, m), _, rfl,
        Config.interleave_of_step (fun i => step alive (pid i)) hs⟩)
  · intro c a c' hI hin _ hs
    obtain ⟨hlist, hne⟩ := hI
    obtain ⟨fs, p, hstep, rfl⟩ := system_step_eq_some hs
    have hlist' : fs.listPids ⊆ D := by
      apply (listPids_of_effect (effect_of_step hstep)).trans
      apply Finset.insert_subset _ hlist
      rw [hD]
      exact Finset.mem_union_right _ (Finset.mem_image_of_mem _ (Finset.mem_univ _))
    by_cases hi : a.1 = i
    · subst hi
      rw [Bool.not_eq_false] at hin
      obtain ⟨hne', hless⟩ := left_of_step hlist hin hstep
      simp only [Function.update_self]
      exact ⟨⟨hlist', hne'⟩, hless.le, fun _ => hless⟩
    · simp only [Function.update_of_ne (Ne.symm hi)]
      exact ⟨⟨hlist', hne⟩, le_rfl, fun h => absurd h hi⟩
  · exact ⟨by rw [hD]; exact Finset.subset_union_left, cleanup_of_reach h i⟩

end System

/-- Process `a` is about to unlink the segment, while `b` has just found no segment. -/
def midClose : State Tid :=
  (system (fun _ => true) pids Unused).exec (fun _ _ => True) unused
    ([(.a, .construct (request 3))] ++ List.replicate 7 (.a, .next) ++ [(.a, .close)] ++
      List.replicate 3 (.a, .next) ++ [(.b, .construct (request 3)), (.b, .next)])

theorem calls_wait_free_midClose :
    (midClose.locals .a).pc = .unlink ∧ (midClose.locals .b).pc = .openShm 127 ∧
      (system (fun _ => true) pids Unused).Served (fun _ _ => True) (fun a => a.1 = .b)
        (fun _ => False) (fun c => (c.locals .b).pc.inCall = false) midClose :=
  ⟨by decide +kernel, by decide +kernel,
    calls_wait_free (fun _ => true) pids (.exec _ (.init unused_unused)) .b⟩

end GuardedSharedMemory
