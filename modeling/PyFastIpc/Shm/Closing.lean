import PyFastIpc.Shm.Held

/-!
# Constructors against `close`

A constructor registers its pid file only after it has opened and mapped the segment, and `close`
unlinks the name on the strength of a listing made before.  So `close` can unlink a segment that a
constructor is about to return, and the next constructor creates another one: two processes then
hold different segments of one name.  It can also remove the directory under a constructor, whose
pid file then cannot be written (`split_brain`).

`Apart` and `RmdirSafe` keep these windows of the constructors and of `close` apart.  That a close
which unlinks finds no open handle is not part of them: its listing has shown that no other process
is registered (`Alone`), and nobody registers before the unlink.  In such runs all open handles map
the linked segment and every constructor returns (`no_split_brain`).
-/

namespace GuardedSharedMemory

/-- What is known about one process. -/
structure Member (alive : ℕ → Bool) (pid : ℕ) (fs : Fs) (p : Proc) : Prop where
  listed : p.pc.returned → pid ∈ fs.listPids
  hasDir : p.pc.unregistered = true → fs.dir ≠ none
  swept : ∀ todo, p.pc = .cleanupUnlink todo → ∀ q ∈ todo, alive q = false
  creates : p.pc ≠ .idle → p.req.attachOnly = false
  raised : ∀ e, p.pc = .raised e → e = .attemptsExhausted p.req.maxAttempts

variable {ι : Type*}

/-- Constructors may create, and `close` is called on handles. -/
def Usual (c : State ι) (a : ι × Move) : Prop :=
  (a.2 = .close → (c.locals a.1).pc.returned) ∧ ∀ r, a.2 = .construct r → r.attachOnly = false

/-- The constructor has the segment open and has not written its pid file. -/
def Pc.entering (p : Pc) : Bool := p.segment.isSome && p.unregistered

/-- While a close is between a listing that shows no other pid and its `shm_unlink`, no constructor
is between opening the segment and writing its pid file. -/
def Apart (c : State ι) : Prop :=
  ∀ i, (c.locals i).pc = .unlink → ∀ j, (c.locals j).pc.entering = false

/-- When `close` removes the directory, no constructor is between making it and writing its pid
file. -/
def RmdirSafe (c : State ι) (a : ι × Move) : Prop :=
  a.2 = .next → (c.locals a.1).pc = .rmdir → c.shared.dir = some .empty →
    ∀ j, (c.locals j).pc.unregistered = false

theorem Member.unused {alive : ℕ → Bool} {pid : ι → ℕ} {c : State ι} (hc : Unused c) (i : ι) :
    Member alive (pid i) c.shared (c.locals i) where
  listed := fun ⟨h, hi⟩ => by simp [hc i] at hi
  hasDir hi := by simp [hc i, Pc.unregistered] at hi
  swept todo hi := by simp [hc i] at hi
  creates hi := absurd (hc i) hi
  raised e hi := by simp [hc i] at hi

variable {alive : ℕ → Bool} {pid : ι → ℕ} {c : State ι} {i : ι} {m : Move} {fs : Fs} {p : Proc}

/-- Points that `Member` says nothing particular about. -/
def Pc.plain : Pc → Bool
  | .opened _ | .raised _ | .cleanupUnlink _ => false
  | _ => true

theorem Member.of_plain {pid : ℕ} (hpc : p.pc.plain = true) (hcreates : p.req.attachOnly = false)
    (hdir : p.pc.unregistered = true → fs.dir ≠ none) : Member alive pid fs p where
  listed := by
    rintro ⟨h, hp⟩
    simp [hp, Pc.plain] at hpc
  hasDir := hdir
  swept todo hp := by simp [hp, Pc.plain] at hpc
  creates _ := hcreates
  raised e hp := by simp [hp, Pc.plain] at hpc

theorem cleanupFrom_cases (todo : Finset ℕ) :
    cleanupFrom todo = .removePid ∨ cleanupFrom todo = .cleanupUnlink todo := by
  unfold cleanupFrom
  split_ifs
  · exact .inl rfl
  · exact .inr rfl

/-- A process that goes on with the cleanup loop. -/
theorem Member.cleanupFrom {todo : Finset ℕ} (hi : Member alive (pid i) c.shared p)
    (hpc : p.pc ≠ .idle) (htodo : ∀ q ∈ todo, alive q = false) :
    Member alive (pid i) fs (p.goto (cleanupFrom todo)) := by
  rcases cleanupFrom_cases todo with h | h <;> rw [h]
  · exact .of_plain rfl (hi.creates hpc) fun hun => by cases hun
  · exact {
      listed := fun ⟨h', hp⟩ => by cases hp
      hasDir := fun hun => by cases hun
      swept := fun todo' hp => by
        obtain rfl : todo = todo' := by simpa [Proc.goto] using hp
        exact htodo
      creates := fun _ => hi.creates hpc
      raised := fun e hp => by cases hp }

/-- A constructor that starts over or gives up. -/
theorem Member.retry {q : Pc} (hi : Member alive (pid i) c.shared p) (hpc : p.pc ≠ .idle)
    (hq : q.retries p.req) (hdir : fs.dir ≠ none) : Member alive (pid i) fs (p.goto q) := by
  have hcreates := hi.creates hpc
  refine ⟨fun h => absurd h hq.not_returned, fun _ => hdir, fun todo h => ?_, fun _ => hcreates,
    fun e h => ?_⟩
  · obtain rfl : q = .cleanupUnlink todo := h
    simp [Pc.retries] at hq
  · obtain rfl : q = .raised e := h
    show e = .attemptsExhausted p.req.maxAttempts
    simpa [Pc.retries, hcreates] using hq

/-- The stepping process. -/
theorem member_self (hC : Consistent c) (hi : Member alive (pid i) c.shared (c.locals i))
    (hok : Usual c (i, m)) (he : Effect alive (pid i) m c.shared (c.locals i) fs p) :
    Member alive (pid i) fs p := by
  cases he with
  | construct r hm hpc => exact .of_plain rfl (hok.2 r hm) fun hun => by cases hun
  | close hm hpc =>
    obtain ⟨h, hpc⟩ := hok.1 hm
    exact .of_plain rfl (hi.creates (by simp [hpc])) fun hun => by cases hun
  | makedirs q hpc hq => exact hi.retry (by simp [hpc]) hq (by simp [Fs.makedirs])
  | retry q hpc hown hq =>
    exact hi.retry (fun h => by simp [h, Pc.unregistered] at hpc) hq (hi.hasDir hpc)
  | attach k seg hpc hlink | create k hpc hlink | ftruncate k seg hpc
  | fstat k seg created hpc hsize | mmap k h hpc =>
    exact .of_plain rfl (hi.creates (by simp [hpc])) fun _ => hi.hasDir (by rw [hpc]; rfl)
  | spoil k hpc => exact (hC.not_spoiled hpc).elim
  | undo k hpc => exact absurd hpc (hC.kept i k)
  | writePid h fs' hpc hd =>
    exact {
      listed := fun _ => by
        rw [Fs.listPids_of_writePid _ hd]
        exact Finset.mem_insert_self _ _
      hasDir := fun hun => by cases hun
      swept := fun todo hp => by cases hp
      creates := fun _ => hi.creates (by simp [hpc])
      raised := fun e hp => by cases hp }
  | missing h hpc hd => exact absurd hd (hi.hasDir (by rw [hpc]; rfl))
  | list hpc => exact hi.cleanupFrom (by simp [hpc]) fun q hq => (Finset.mem_filter.1 hq).2
  | sweep q todo hpc hq =>
    exact hi.cleanupFrom (by simp [hpc]) fun q' hq' =>
      hi.swept todo hpc q' (Finset.mem_of_mem_erase hq')
  | scan q hpc hq =>
    have hcreates := hi.creates (by simp [hpc])
    rw [hq]
    split_ifs
    · exact .of_plain rfl hcreates fun hun => by cases hun
    · exact .of_plain rfl hcreates fun hun => by cases hun
  | removePid hpc | unlink _ hpc | rmdir _ hpc =>
    exact .of_plain rfl (hi.creates (by simp [hpc])) fun hun => by cases hun

/-- Calls that keep the pid file of a process and do not remove the directory. -/
theorem Member.frame {pid : ℕ} (hp : Member alive pid c.shared p)
    (hlist : pid ∈ c.shared.listPids → pid ∈ fs.listPids)
    (hdir : p.pc.unregistered = true → c.shared.dir ≠ none → fs.dir ≠ none) :
    Member alive pid fs p :=
  { hp with
    listed := fun h => hlist (hp.listed h)
    hasDir := fun h => hdir h (hp.hasDir h) }

theorem dir_unlinkPid {q : ℕ} (h : c.shared.dir ≠ none) : (c.shared.unlinkPid q).dir ≠ none := by
  simpa [Fs.unlinkPid] using h

/-- The other processes. -/
theorem member_other (hinj : Function.Injective pid) (halive : ∀ i, alive (pid i) = true)
    (hC : Consistent c) (hM : ∀ i, Member alive (pid i) c.shared (c.locals i))
    (hrmdir : RmdirSafe c (i, m)) (he : Effect alive (pid i) m c.shared (c.locals i) fs p)
    {j : ι} (hj : j ≠ i) : Member alive (pid j) fs (c.locals j) := by
  have hother := hM j
  cases he with
  | makedirs q hpc hq => exact hother.frame id fun _ _ => by simp [Fs.makedirs]
  | create k hpc hlink => exact hother.frame id fun _ => id
  | ftruncate k seg hpc => exact hother.frame id fun _ => id
  | undo k hpc => exact absurd hpc (hC.kept i k)
  | writePid h fs' hpc hd =>
    refine hother.frame (fun hin => ?_) fun _ _ => ?_
    · rw [Fs.listPids_of_writePid _ hd]
      exact Finset.mem_insert_of_mem hin
    · obtain ⟨d, -, rfl⟩ := Option.map_eq_some_iff.1 hd
      simp
  | sweep q todo hpc hq =>
    have hdead : alive q = false := (hM i).swept todo hpc q hq
    have hne : pid j ≠ q := fun h => by simp [← h, halive j] at hdead
    exact hother.frame (fun hin => by simp [hne, hin]) fun _ => dir_unlinkPid
  | removePid hpc =>
    have hne : pid j ≠ pid i := hinj.ne hj
    exact hother.frame (fun hin => by simp [hne, hin]) fun _ => dir_unlinkPid
  | unlink hm hpc => exact hother.frame id fun _ => id
  | rmdir hm hpc =>
    refine hother.frame (fun hin => by simpa using hin) fun hun hdir => ?_
    unfold Fs.rmdir
    split_ifs with hempty
    · simp [hrmdir hm hpc hempty j] at hun
    · exact hdir
  | _ => exact hother

/-- While a process is about to unlink, no other one has a handle. -/
def Alone (c : State ι) : Prop :=
  ∀ i, (c.locals i).pc = .unlink → ∀ j, j ≠ i → ¬ (c.locals j).pc.returned

theorem retries_ne_unlink {r : Request} : ¬ Pc.unlink.retries r := by
  simp [Pc.retries]

/-- Only a listing that shows no other pid leads to the unlink. -/
theorem listing_of_unlink (hC : Consistent c) (hp : p.pc = .unlink)
    (he : Effect alive (pid i) m c.shared (c.locals i) fs p) :
    ∀ q ∈ c.shared.listPids, q ≠ pid i → alive q = false := by
  cases he with
  | scan q hpc hq =>
    obtain rfl : q = .unlink := hp
    intro q' hin hne
    by_contra hlive
    rw [if_pos ⟨q', hin, hne, by simpa using hlive⟩] at hq
    cases hq
  | makedirs q hpc hq | retry q hpc hown hq =>
    obtain rfl : q = .unlink := hp
    exact absurd hq retries_ne_unlink
  | list hpc => rcases cleanupFrom_cases _ with h | h <;> cases h.symm.trans hp
  | sweep q todo hpc hq => rcases cleanupFrom_cases _ with h | h <;> cases h.symm.trans hp
  | undo k hpc => exact absurd hpc (hC.kept i k)
  | _ => cases hp

/-- A handle is returned by the step that writes the pid file. -/
theorem entering_of_returned (hp : p.pc.returned) (hC : Consistent c)
    (he : Effect alive (pid i) m c.shared (c.locals i) fs p) :
    (c.locals i).pc.entering = true := by
  obtain ⟨h, hp⟩ := hp
  cases he with
  | writePid h' fs' hpc hd => rw [hpc]; rfl
  | makedirs q hpc hq | retry q hpc hown hq => exact absurd ⟨h, hp⟩ hq.not_returned
  | list hpc => rcases cleanupFrom_cases _ with hq | hq <;> cases hq.symm.trans hp
  | sweep q todo hpc hq => rcases cleanupFrom_cases _ with hq | hq <;> cases hq.symm.trans hp
  | undo k hpc => exact absurd hpc (hC.kept i k)
  | scan q hpc hq =>
    obtain rfl : q = .opened h := hp
    split_ifs at hq
  | _ => cases hp

theorem Alone.step [DecidableEq ι] (hA : Alone c) (hC : Consistent c)
    (hM : ∀ i, Member alive (pid i) c.shared (c.locals i)) (hinj : Function.Injective pid)
    (halive : ∀ i, alive (pid i) = true) (hapart : Apart c)
    (he : Effect alive (pid i) m c.shared (c.locals i) fs p) :
    Alone ⟨fs, Function.update c.locals i p⟩ := by
  intro k hk j hjk hj
  by_cases hki : k = i
  · -- the close that has just made its listing
    subst hki
    have hk : p.pc = .unlink := by simpa using hk
    have hj : (c.locals j).pc.returned := by simpa [hjk] using hj
    have hdead := listing_of_unlink hC hk he (pid j) ((hM j).listed hj) (hinj.ne hjk)
    simp [halive j] at hdead
  · have hbefore : (c.locals k).pc = .unlink := by simpa [hki] using hk
    by_cases hji : j = i
    · subst hji
      have hentering := entering_of_returned (by simpa using hj) hC he
      simp [hapart k hbefore j] at hentering
    · exact hA k hbefore j hjk (by simpa [hji] using hj)

/-- An unlink finds nobody else with the segment open. -/
theorem segment_of_apart (hA : Alone c) (hapart : Apart c) (hpc : (c.locals i).pc = .unlink)
    (j : ι) (hj : j ≠ i) : (c.locals j).pc.segment = none := by
  have hentering := hapart i hpc j
  cases hq : (c.locals j).pc with
  | opened h => exact absurd ⟨h, hq⟩ (hA i hpc j hj)
  | ftruncate k seg | fstat k seg created | mmap k h | writePid h =>
    simp [hq, Pc.entering, Pc.segment, Pc.unregistered] at hentering
  | _ => rfl

variable [DecidableEq ι]

theorem members_of_reach (hinj : Function.Injective pid) (halive : ∀ i, alive (pid i) = true)
    {Init : State ι → Prop} (hInit : ∀ c, Init c → Unused c)
    (h : (system alive pid Init).Reach (fun c a => Usual c a ∧ Apart c ∧ RmdirSafe c a) c) :
    Consistent c ∧ (∀ i, Member alive (pid i) c.shared (c.locals i)) ∧ Alone c := by
  refine h.invariant (fun c => Consistent c ∧
    (∀ i, Member alive (pid i) c.shared (c.locals i)) ∧ Alone c) (fun c hc => ?_) ?_
  · refine ⟨.unused (hInit c hc), Member.unused (hInit c hc), fun i hi => ?_⟩
    simp [hInit c hc i] at hi
  · rintro c ⟨i, m⟩ c' - ⟨hC, hM, hA⟩ ⟨husual, hapart, hrmdir⟩ hs
    obtain ⟨fs, p, he, rfl⟩ := effect_of_system_step hs
    refine ⟨hC.step he fun _ hpc _ => segment_of_apart hA hapart hpc, ?_,
      hA.step hC hM hinj halive hapart he⟩
    exact Config.forall_update (fun j p => Member alive (pid j) fs p)
      (member_self hC (hM i) husual he) fun j hj => member_other hinj halive hC hM hrmdir he hj

/-- When the windows of the constructors and of `close` are kept apart, all open handles map the
linked segment, and every constructor comes nearer to its return with each of its calls and never
raises, except when its attempts are exhausted. -/
theorem no_split_brain (alive : ℕ → Bool) (pid : ι → ℕ) (hinj : Function.Injective pid)
    (halive : ∀ i, alive (pid i) = true) {c : State ι}
    (h : (system alive pid Unused).Reach
      (fun c a => Usual c a ∧ Apart c ∧ RmdirSafe c a) c) :
    (∀ i h, (c.locals i).pc = .opened h → c.shared.link = some h.seg) ∧
    (∀ i e, (c.locals i).pc = .raised e → e = .attemptsExhausted (c.locals i).req.maxAttempts) ∧
    (∀ i, (c.locals i).pc.constructing = true →
      ∃ fs p, step alive (pid i) .next c.shared (c.locals i) = some (fs, p) ∧
        p.callsLeft < (c.locals i).callsLeft ∧
        (p.pc.constructing = true ∨ p.pc.returned ∨
          p.pc = .raised (.attemptsExhausted p.req.maxAttempts))) := by
  obtain ⟨hC, hM, -⟩ := members_of_reach hinj halive (fun _ => id) h
  refine ⟨fun i h hpc => hC.held i h.seg (by rw [hpc]; rfl), fun i => (hM i).raised, fun i hi => ?_⟩
  obtain ⟨fs, q, hstep, hless⟩ := next_constructing alive (pid i) c.shared hi
  refine ⟨fs, _, hstep, hless, ?_⟩
  have he := effect_of_step hstep
  have husual : Usual c (i, .next) := ⟨nofun, nofun⟩
  have hmember := member_self hC (hM i) husual he
  rcases constructs_of_effect he hi with hq | hq | ⟨e, hq⟩
  · exact .inl hq
  · exact .inr (.inl hq)
  · exact .inr (.inr (by rw [hq, hmember.raised e hq]))

instance (c : State ι) (a : ι × Move) : Decidable (Usual c a) :=
  match h : a.2 with
  | .construct r => decidable_of_iff (r.attachOnly = false) (by simp [Usual, h])
  | .close => decidable_of_iff (c.locals a.1).pc.returned (by simp [Usual, h])
  | .next | .cleanup _ => isTrue (by simp [Usual, h])

instance [Fintype ι] (c : State ι) : Decidable (Apart c) :=
  inferInstanceAs (Decidable (∀ _, _ → ∀ _, _))

instance [Fintype ι] (c : State ι) (a : ι × Move) : Decidable (RmdirSafe c a) :=
  inferInstanceAs (Decidable (_ → _ → _ → ∀ _, _))

/-- Process `i` runs its constructor for `n` calls. -/
def opens (i : ι) (n : ℕ) : List (ι × Move) :=
  (i, .construct (request 63)) :: List.replicate n (i, .next)

/-- Process `i` runs `close` for `n` calls. -/
def closes (i : ι) (n : ℕ) : List (ι × Move) := (i, .close) :: List.replicate n (i, .next)

/-- Two processes open the name and close it, the second one unlinks it; then it is opened anew. -/
def reopened : State Tid :=
  (system (fun _ => true) pids Unused).exec
    (fun c a => Usual c a ∧ Apart c ∧ RmdirSafe c a) unused
    (opens Tid.a 7 ++ opens Tid.b 5 ++ closes Tid.a 3 ++ closes Tid.b 5 ++ opens Tid.c 7)

theorem no_split_brain_reopened :
    (reopened.locals .c).pc = .opened ⟨1, 64, true⟩ ∧ reopened.shared.link = some 1 :=
  have hpc : (reopened.locals .c).pc = .opened ⟨1, 64, true⟩ := by decide +kernel
  ⟨hpc, (no_split_brain (fun _ => true) pids injective_pids (fun _ => rfl)
    (.exec _ (.init unused_unused))).1 .c ⟨1, 64, true⟩ hpc⟩

/-- Process `a` closes while the constructor of process `b` has the segment open. -/
def unlinked : State Tid :=
  (system (fun _ => true) pids Unused).exec Usual unused
    (opens Tid.a 7 ++ opens Tid.b 2 ++ closes Tid.a 5)

/-- Then process `c` constructs, and process `b` goes on. -/
def split : State Tid :=
  (system (fun _ => true) pids Unused).exec Usual unlinked
    (opens Tid.c 7 ++ List.replicate 3 (Tid.b, Move.next))

/-- Process `b` goes on alone. -/
def undone : State Tid :=
  (system (fun _ => true) pids Unused).exec Usual unlinked (List.replicate 3 (.b, .next))

/-- Without the conditions, two processes have handles of different segments of the name, and a
constructor fails to write its pid file. -/
theorem split_brain :
    (¬ ∀ c, (system (fun _ => true) pids Unused).Reach Usual c → ∀ i h,
      (c.locals i).pc = .opened h → c.shared.link = some h.seg) ∧
    ((split.locals .b).pc = .opened ⟨0, 64, false⟩ ∧ (split.locals .c).pc = .opened ⟨1, 64, true⟩) ∧
    (¬ ∀ c, (system (fun _ => true) pids Unused).Reach Usual c → ∀ i e,
      (c.locals i).pc = .raised e → e = .attemptsExhausted (c.locals i).req.maxAttempts) := by
  have hunlinked : (system (fun _ => true) pids Unused).Reach Usual unlinked :=
    .exec _ (.init unused_unused)
  have hfirst : (split.locals .b).pc = .opened ⟨0, 64, false⟩ := by decide +kernel
  refine ⟨fun hall => ?_, ⟨hfirst, by decide +kernel⟩, fun hall => ?_⟩
  · exact absurd (hall split (hunlinked.exec _) .b ⟨0, 64, false⟩ hfirst) (by decide +kernel)
  · have hraised : (undone.locals .b).pc = .raised .pidDirMissing := by decide +kernel
    cases hall undone (hunlinked.exec _) .b .pidDirMissing hraised

end GuardedSharedMemory
