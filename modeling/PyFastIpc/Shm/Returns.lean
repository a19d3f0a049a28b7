import PyFastIpc.Shm.Race
import Mathlib.Algebra.Order.BigOperators.Group.Finset

/-!
# Racing creators return

Constructors that race for a name that is not linked, all with requests for the same size, as the
named objects make them.  An attempt fails only because another process has created the segment
since `shm_open` found none, which happens once, or because the size is read between the creation
and the `ftruncate`, which the back-off is there to avoid.  So when nobody reads the size in between
(`Prompt`), two attempts are enough: no constructor raises, and every run ends with all of them
returned (`racers_return`).
-/

namespace GuardedSharedMemory

variable {ι : Type*}

/-- Constructors only, for segments of `n` bytes, with at least two attempts. -/
def Uniform (n : ℕ) (_ : State ι) (a : ι × Move) : Prop :=
  a.2 ≠ .close ∧ ∀ r, a.2 = .construct r → r.attachOnly = false ∧ r.size = n ∧ 2 ≤ r.maxAttempts

/-- Nobody reads the size of a segment that has not got its size yet. -/
def Prompt (n : ℕ) (c : State ι) (a : ι × Move) : Prop :=
  ∀ k seg, (c.locals a.1).pc = .fstat k seg false → n ≤ c.shared.size seg

/-- What is known about one process, next to `Racer`: it has an attempt left when it may need it. -/
structure Returning (n : ℕ) (fs : Fs) (p : Proc) : Prop where
  asks : p.pc ≠ .idle → p.req.attachOnly = false ∧ p.req.size = n ∧ 2 ≤ p.req.maxAttempts
  opens : ∀ k, p.pc = .openShm k → 1 ≤ k ∨ fs.link ≠ none
  creates : ∀ k, p.pc = .createShm k → 1 ≤ k
  returns : ∀ e, p.pc ≠ .raised e

section Step

variable {alive : ℕ → Bool} {pid : ι → ℕ} {c : State ι} {i : ι} {m : Move} {fs : Fs} {p : Proc}
  {n : ℕ}

/-- The next attempt. -/
theorem Returning.attempt {r : Request} {k : ℕ}
    (hr : r.attachOnly = false ∧ r.size = n ∧ 2 ≤ r.maxAttempts) (hk : 1 ≤ k)
    (hopen : 2 ≤ k ∨ fs.link ≠ none) : Returning n fs ⟨r.attempt k, r⟩ := by
  obtain ⟨k, rfl⟩ := Nat.exists_eq_add_of_le' hk
  refine ⟨fun _ => hr, ?_, ?_, ?_⟩
  · intro k' hk'
    obtain rfl : k = k' := Pc.openShm.inj hk'
    exact hopen.imp_left fun h => by omega
  · intro k' hk'
    cases hk'
  · intro e he
    cases he

/-- A program point that is neither before the creation nor an exception. -/
theorem Returning.goto {q : Pc}
    (hr : p.req.attachOnly = false ∧ p.req.size = n ∧ 2 ≤ p.req.maxAttempts)
    (hopen : ∀ k, q ≠ .openShm k) (hcreate : ∀ k, q ≠ .createShm k) (hraise : ∀ e, q ≠ .raised e) :
    Returning n fs (p.goto q) :=
  ⟨fun _ => hr, fun k h => absurd h (hopen k), fun k h => absurd h (hcreate k), hraise⟩

/-- The call that a process makes next does not make it give up. -/
theorem Returning.next (hP : Returning n c.shared (c.locals i)) (hR : Race pid c)
    (hprompt : Prompt n c (i, .next))
    (hs : next alive (pid i) c.shared (c.locals i) = some (fs, p)) : Returning n fs p := by
  have hracer := hR.racer i
  have hbusy (h : (c.locals i).pc ≠ .idle) := hP.asks h
  unfold GuardedSharedMemory.next at hs
  cases hpc : (c.locals i).pc with
  | makedirs =>
    obtain ⟨rfl, rfl⟩ := by simpa [hpc] using hs
    have hr := hbusy (by simp [hpc])
    have htwo := ((c.locals i).req.le_rounds Nat.two_pos).2 hr.2.2
    exact .attempt hr (by omega) (.inl htwo)
  | openShm k =>
    simp only [hpc] at hs
    have hr := hbusy (by simp [hpc])
    cases hlink : c.shared.link with
    | some seg =>
      obtain ⟨rfl, rfl⟩ := by simpa [hlink] using hs
      exact .goto hr (by simp) (by simp) (by simp)
    | none =>
      obtain ⟨rfl, rfl⟩ := by simpa [hlink, hr.1] using hs
      refine ⟨fun _ => hr, fun k' h => (by cases h), fun k' h => ?_, fun e h => (by cases h)⟩
      obtain rfl : k = k' := Pc.createShm.inj h
      exact (hP.opens k hpc).resolve_right fun hne => hne hlink
  | createShm k =>
    simp only [hpc] at hs
    have hr := hbusy (by simp [hpc])
    cases hlink : c.shared.link with
    | some seg =>
      obtain ⟨rfl, rfl⟩ := by simpa [hlink] using hs
      exact .attempt hr (hP.creates k hpc) (.inr (by simp [hlink]))
    | none =>
      obtain ⟨rfl, rfl⟩ := by simpa [hlink] using hs
      exact .goto hr (by simp) (by simp) (by simp)
  | ftruncate k seg =>
    obtain ⟨rfl, rfl⟩ := by simpa [hpc] using hs
    exact .goto (hbusy (by simp [hpc])) (by simp) (by simp) (by simp)
  | fstat k seg created =>
    simp only [hpc] at hs
    have hr := hbusy (by simp [hpc])
    have hsize : ¬ c.shared.size seg < (c.locals i).req.size := by
      rw [not_lt]
      cases created with
      | true => exact (hR.consistent.sized i).1 k seg hpc
      | false =>
        rw [hr.2.1]
        exact hprompt k seg hpc
    rw [if_neg hsize] at hs
    obtain ⟨rfl, rfl⟩ := by simpa using hs
    exact .goto hr (by simp) (by simp) (by simp)
  | mmap k h =>
    simp only [hpc] at hs
    have hsize : ¬ c.shared.size h.seg < h.size := by
      rw [not_lt, (hracer.full h (by rw [hpc]; rfl)).1]
    rw [if_neg hsize] at hs
    obtain ⟨rfl, rfl⟩ := by simpa using hs
    exact .goto (hbusy (by simp [hpc])) (by simp) (by simp) (by simp)
  | writePid h =>
    simp only [hpc] at hs
    cases hd : c.shared.writePid (pid i) with
    | some fs₁ =>
      obtain ⟨rfl, rfl⟩ := by simpa [hd] using hs
      exact .goto (hbusy (by simp [hpc])) (by simp) (by simp) (by simp)
    | none =>
      have hnone : c.shared.dir = none := by simpa [Fs.writePid] using hd
      exact absurd hnone (hracer.hasDir (by rw [hpc]; rfl))
  | undo k => exact absurd hpc (hR.consistent.kept i k)
  | idle | opened h | raised e | cleanupUnlink todo => simp [hpc] at hs
  | cleanup | removePid | scan | unlink | rmdir =>
    have hracing := hracer.racing
    simp [hpc, Pc.closing] at hracing

/-- The stepping process does not give up. -/
theorem Returning.step (hP : Returning n c.shared (c.locals i)) (hR : Race pid c)
    (hU : Uniform n c (i, m)) (hprompt : Prompt n c (i, m))
    (hs : step alive (pid i) m c.shared (c.locals i) = some (fs, p)) : Returning n fs p := by
  unfold GuardedSharedMemory.step at hs
  split at hs
  next r hpc =>
    obtain ⟨rfl, rfl⟩ := by simpa using hs
    exact ⟨fun _ => hU.2 r rfl, fun k h => (by cases h), fun k h => (by cases h),
      fun e h => (by cases h)⟩
  next => exact absurd rfl hU.1
  next => exact absurd rfl hU.1
  next => exact hP.next hR hprompt hs
  next q todo hpc =>
    have hracing := (hR.racer i).racing
    simp [hpc, Pc.closing] at hracing
  next => simp at hs

/-- Nor does any other process, as the name stays linked. -/
theorem Returning.frame {fs' : Fs} (hP : Returning n fs p)
    (hlink : fs.link ≠ none → fs'.link ≠ none) : Returning n fs' p :=
  ⟨hP.asks, fun k h => (hP.opens k h).imp_right hlink, hP.creates, hP.returns⟩

end Step

section System

variable {alive : ℕ → Bool} {pid : ι → ℕ} {c : State ι} {n : ℕ}

/-- The race, with nobody giving up. -/
theorem returning_of_reach [DecidableEq ι]
    (h : (system alive pid Unlinked).Reach (fun c a => Uniform n c a ∧ Prompt n c a) c) :
    Race pid c ∧ ∀ i, Returning n c.shared (c.locals i) := by
  refine h.invariant (fun c => Race pid c ∧ ∀ i, Returning n c.shared (c.locals i))
    (fun c hc => ⟨.unlinked hc, fun i => ?_⟩) fun c a c' _ hI hok hs => ?_
  · have hidle : (c.locals i).pc = .idle := hc.1 i
    exact ⟨fun h => absurd hidle h, fun k h => by simp [hidle] at h,
      fun k h => by simp [hidle] at h, fun e h => by simp [hidle] at h⟩
  · obtain ⟨hR, hP⟩ := hI
    obtain ⟨hU, hprompt⟩ := hok
    obtain ⟨fs, p, hstep, rfl⟩ := system_step_eq_some hs
    have he := effect_of_step hstep
    refine ⟨hR.step hU.1 he, Config.forall_update (fun _ p => Returning n fs p)
      ((hP a.1).step hR hU hprompt hstep) fun j _ => (hP j).frame fun hlink => ?_⟩
    rcases hR.link_step he with ⟨hsame, -⟩ | ⟨hnone, -⟩
    · rwa [hsame]
    · exact absurd hnone hlink

/-- A linked segment that has not got its size belongs to a process that will give it. -/
theorem exists_ftruncate (hR : Race pid c) (hP : ∀ i, Returning n c.shared (c.locals i)) {seg : ℕ}
    (hlink : c.shared.link = some seg) (hsize : c.shared.size seg < n) :
    ∃ j k, (c.locals j).pc = .ftruncate k seg := by
  obtain ⟨j, hj⟩ := hR.creator (by simp [hlink])
  have hseg (s : ℕ) (hs : (c.locals j).pc.segment = some s) : s = seg :=
    Option.some.inj ((hR.consistent.held j s hs).symm.trans hlink)
  have hreq : (c.locals j).req.size = n := ((hP j).asks fun hidle => by
    rw [hidle] at hj
    cases hj).2.1
  have hmapped (h : Mapping) (hm : (c.locals j).pc.mapping = some h) : False := by
    obtain ⟨hfull, hle⟩ := (hR.racer j).full h hm
    rw [hseg h.seg (Pc.segment_of_mapping hm)] at hfull
    omega
  cases hpc : (c.locals j).pc with
  | ftruncate k s =>
    rw [← hseg s (by rw [hpc]; rfl)]
    exact ⟨j, k, hpc⟩
  | fstat k s created =>
    obtain rfl : created = true := by rwa [hpc] at hj
    have hle := (hR.consistent.sized j).1 k s hpc
    rw [hseg s (by rw [hpc]; rfl)] at hle
    omega
  | mmap k h | writePid h | opened h => exact (hmapped h (by rw [hpc]; rfl)).elim
  | _ => simp [hpc, Pc.hasCreated] at hj

/-- Who is not inside the constructor is before or behind it. -/
theorem constructing_of (hR : Race pid c) (hP : ∀ i, Returning n c.shared (c.locals i)) {i : ι}
    (hi : ¬ ((c.locals i).pc = .idle ∨ (c.locals i).pc.returned)) :
    (c.locals i).pc.constructing = true := by
  have hracing := (hR.racer i).racing
  have hreturns := (hP i).returns
  cases hpc : (c.locals i).pc with
  | idle => exact absurd (.inl hpc) hi
  | opened h => exact absurd (.inr ⟨h, hpc⟩) hi
  | raised e => exact absurd hpc (hreturns e)
  | cleanup | cleanupUnlink todo | removePid | scan | unlink | rmdir =>
    simp [hpc, Pc.closing] at hracing
  | _ => rfl

/-- Some constructor that has not returned can go on without reading a size too early. -/
theorem exists_prompt (hR : Race pid c) (hP : ∀ i, Returning n c.shared (c.locals i)) {i : ι}
    (hi : (c.locals i).pc.constructing = true) :
    ∃ j, Prompt n c (j, .next) ∧ (c.locals j).pc.constructing = true := by
  by_cases hprompt : Prompt n c (i, .next)
  · exact ⟨i, hprompt, hi⟩
  · rw [Prompt] at hprompt
    push Not at hprompt
    obtain ⟨k, seg, hpc, hsize⟩ := hprompt
    have hlink := hR.consistent.held i seg (by rw [hpc]; rfl)
    obtain ⟨j, k', hj⟩ := exists_ftruncate hR hP hlink hsize
    refine ⟨j, fun k'' seg' h => ?_, by rw [hj]; rfl⟩
    rw [hj] at h
    cases h

/-- Constructors that race for segments of one size, with at least two attempts each: as long as
nobody reads the size of the segment between its creation and its `ftruncate`, none of them raises,
and every run ends with all of them returned. -/
theorem racers_return [DecidableEq ι] [Fintype ι] (alive : ℕ → Bool) (pid : ι → ℕ) (n : ℕ)
    {c : State ι}
    (h : (system alive pid Unlinked).Reach (fun c a => Uniform n c a ∧ Prompt n c a) c) :
    (∀ i e, (c.locals i).pc ≠ .raised e) ∧
    (system alive pid Unlinked).Inevitable (fun c a => a.2 = .next ∧ Prompt n c a)
      (fun c => ∀ i, (c.locals i).pc = .idle ∨ (c.locals i).pc.returned) c := by
  refine ⟨fun i => ((returning_of_reach h).2 i).returns, ?_⟩
  apply Transition.Inevitable.measure (fun c => (system alive pid Unlinked).Reach
    (fun c a => Uniform n c a ∧ Prompt n c a) c) (fun c => ∑ i, (c.locals i).callsLeft) ?_ ?_ h
  · intro c hr hmoving
    obtain ⟨hR, hP⟩ := returning_of_reach hr
    obtain ⟨i, hi⟩ := not_forall.1 hmoving
    obtain ⟨j, hprompt, hj⟩ := exists_prompt hR hP (constructing_of hR hP hi)
    obtain ⟨fs, q, hs, -⟩ := next_constructing alive (pid j) c.shared hj
    exact ⟨(j, .next), _, ⟨rfl, hprompt⟩,
      Config.interleave_of_step (fun i => step alive (pid i)) hs⟩
  · rintro c ⟨i, m⟩ c' hr - ⟨hm, hprompt⟩ hs
    obtain rfl : m = .next := hm
    have hU : Uniform n c (i, .next) := ⟨by simp, fun r h => by cases h⟩
    refine ⟨.step (i, .next) hr ⟨hU, hprompt⟩ hs, ?_⟩
    obtain ⟨hR, hP⟩ := returning_of_reach hr
    obtain ⟨fs, p, hstep, rfl⟩ := system_step_eq_some hs
    have hi : (c.locals i).pc.constructing = true := by
      apply constructing_of hR hP
      rintro (hidle | ⟨h, hpc⟩)
      · simp [step, next, hidle] at hstep
      · simp [step, next, hpc] at hstep
    obtain ⟨fs', q, hnext, hless⟩ := next_constructing alive (pid i) c.shared hi
    rw [hstep, Option.some.injEq, Prod.mk.injEq] at hnext
    obtain ⟨rfl, rfl⟩ := hnext
    have hsum := Config.sum_update c.locals i ((c.locals i).goto q) Proc.callsLeft
    have hless' : ((c.locals i).goto q).callsLeft < (c.locals i).callsLeft := hless
    dsimp only
    omega

end System

instance (n : ℕ) (c : State ι) (a : ι × Move) : Decidable (Uniform n c a) :=
  match h : a.2 with
  | .construct r => decidable_of_iff (r.attachOnly = false ∧ r.size = n ∧ 2 ≤ r.maxAttempts)
      (by simp [Uniform, h])
  | .close | .next | .cleanup _ => decidable_of_iff (a.2 ≠ .close) (by simp [Uniform, h])

instance (n : ℕ) (c : State ι) (a : ι × Move) : Decidable (Prompt n c a) :=
  match h : (c.locals a.1).pc with
  | .fstat k seg created =>
    decidable_of_iff (created = false → n ≤ c.shared.size seg) (by
      constructor
      · intro hsize k' seg' hpc
        obtain ⟨-, rfl, rfl⟩ : k = k' ∧ seg = seg' ∧ created = false := by simpa [h] using hpc
        exact hsize rfl
      · rintro hprompt rfl
        exact hprompt k seg h)
  | .idle | .makedirs | .openShm _ | .createShm _ | .ftruncate _ _ | .mmap _ _ | .undo _
  | .writePid _ | .opened _ | .raised _ | .cleanup | .cleanupUnlink _ | .removePid | .scan | .unlink
  | .rmdir => isTrue fun k seg hpc => by simp [h] at hpc

/-- Processes `b` and `c` lose the creation to `a` in their first of two attempts. -/
def tworace : State Tid :=
  (system (fun _ => true) pids Unlinked).exec (fun c a => Uniform 64 c a ∧ Prompt 64 c a) unused
    ([Tid.a, .b, .c].map (fun i => (i, .construct ⟨64, by omega, false, 2⟩)) ++
      [(.a, .next), (.b, .next), (.c, .next), (.a, .next), (.b, .next), (.c, .next), (.a, .next),
        (.b, .next), (.c, .next), (.b, .next), (.a, .next)])

theorem racers_return_tworace :
    (tworace.locals .b).pc = .fstat 0 0 false ∧ (tworace.locals .c).pc = .openShm 0 ∧
      (system (fun _ => true) pids Unlinked).Inevitable (fun c a => a.2 = .next ∧ Prompt 64 c a)
        (fun c => ∀ i, (c.locals i).pc = .idle ∨ (c.locals i).pc.returned) tworace :=
  ⟨by decide +kernel, by decide +kernel, (racers_return (fun _ => true) pids 64
    (.exec _ (.init ⟨unused_unused, rfl, rfl, .inl rfl⟩))).2⟩

end GuardedSharedMemory
