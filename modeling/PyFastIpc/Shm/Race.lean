import PyFastIpc.Shm.Held

/-!
# Racing creators

Constructors only, on a name that is not linked.  Whoever wins the `O_EXCL` creation is the only
creator; until its `ftruncate` the segment has size 0 and nobody gets past the size check, and
afterwards its size is fixed (`racers_agree`).
-/

namespace GuardedSharedMemory

/-- The mapping of a constructor that has passed the size check. -/
def Pc.mapping : Pc → Option Mapping
  | .mmap _ h | .writePid h | .opened h => some h
  | _ => none

/-- What is known about one racing process. -/
structure Racer (fs : Fs) (p : Proc) : Prop where
  racing : p.pc.closing = false
  empty : ∀ k seg, p.pc = .ftruncate k seg → fs.size seg = 0
  full : ∀ h, p.pc.mapping = some h → h.size = fs.size h.seg ∧ p.req.size ≤ h.size
  hasDir : p.pc.unregistered = true → fs.dir ≠ none

section Groups

variable {p : Pc} {r : Request}

theorem Pc.segment_of_mapping {h : Mapping} (hp : p.mapping = some h) : p.segment = some h.seg := by
  cases p <;> simp_all [mapping, segment]

theorem Pc.retries.closing (h : p.retries r) : p.closing = false := by
  rcases h with ⟨k, rfl | rfl⟩ | rfl | ⟨-, rfl⟩ <;> rfl

/-- A process without a segment has nothing to agree on but the directory. -/
theorem Racer.of_segment {fs : Fs} {p : Proc} (hseg : p.pc.segment = none)
    (hclosing : p.pc.closing = false) (hdir : p.pc.unregistered = true → fs.dir ≠ none) :
    Racer fs p where
  racing := hclosing
  empty k seg h := by simp [h, Pc.segment] at hseg
  full h hm := by simp [Pc.segment_of_mapping hm] at hseg
  hasDir := hdir

theorem Racer.not_empty {fs : Fs} {p : Proc} {h : Mapping} (hp : Racer fs p)
    (hm : p.pc.mapping = some h) : fs.size h.seg ≠ 0 := by
  obtain ⟨hsize, hreq⟩ := hp.full h hm
  have hpos := p.req.size_pos
  omega

/-- Calls that change neither the sizes nor remove the directory. -/
theorem Racer.frame {fs fs' : Fs} {p : Proc} (hp : Racer fs p) (hsize : fs'.size = fs.size)
    (hdir : fs.dir ≠ none → fs'.dir ≠ none) : Racer fs' p where
  racing := hp.racing
  empty := by simpa [hsize] using hp.empty
  full := by simpa [hsize] using hp.full
  hasDir h := hdir (hp.hasDir h)

end Groups

variable {ι : Type*}

/-- What is known while constructors race. -/
structure Race (pid : ι → ℕ) (c : State ι) : Prop where
  consistent : Consistent c
  racer : ∀ i, Racer c.shared (c.locals i)
  count : c.shared.count ≤ 1 ∧ (c.shared.link = none → c.shared.count = 0)
  creator : c.shared.link ≠ none → ∃ i, (c.locals i).pc.hasCreated = true
  others : c.shared.OnlyPids
  listed : ∀ q, q ∈ c.shared.listPids ↔ ∃ i, (c.locals i).pc.returned ∧ pid i = q

/-- The name is not linked, its pid directory is missing or empty, and no constructor has
started. -/
def Unlinked (c : State ι) : Prop :=
  Unused c ∧ c.shared.link = none ∧ c.shared.count = 0 ∧
    (c.shared.dir = none ∨ c.shared.dir = some .empty)

/-- Nobody closes, and every constructor may create. -/
def Racing (_ : State ι) (a : ι × Move) : Prop :=
  a.2 ≠ .close ∧ ∀ r, a.2 = .construct r → r.attachOnly = false

theorem Race.unlinked {pid : ι → ℕ} {c : State ι} (hc : Unlinked c) : Race pid c := by
  obtain ⟨hidle, hlink, hcount, hdir⟩ := hc
  have hlist : c.shared.listPids = ∅ := by
    rcases hdir with h | h <;> simp [Fs.listPids, h, Dir.empty]
  refine ⟨.unused hidle, fun i => ?_, by simp [hcount], fun h => absurd hlink h, fun d hd => ?_,
    fun q => ?_⟩
  · exact .of_segment (by simp [hidle i, Pc.segment]) (by simp [hidle i, Pc.closing])
      (by simp [hidle i, Pc.unregistered])
  · rcases hdir with h | h
    · simp [h] at hd
    · obtain rfl : Dir.empty = d := by simpa [h] using hd
      rfl
  · have hnone (i : ι) : ¬ (c.locals i).pc.returned := by
      rintro ⟨h, hi⟩
      simp [hidle i] at hi
    simp [hlist, hnone]

variable {alive : ℕ → Bool} {pid : ι → ℕ} {c : State ι} {i : ι} {m : Move} {fs : Fs} {p : Proc}

/-- The stepping process. -/
theorem Race.racer_self (hR : Race pid c) (hm : m ≠ .close)
    (he : Effect alive (pid i) m c.shared (c.locals i) fs p) : Racer fs p := by
  have hi := hR.racer i
  have hclosing (h : (c.locals i).pc.closing = true) : Racer fs p := by simp [hi.racing] at h
  cases he with
  | construct r hm hpc => exact .of_segment rfl rfl fun h => by cases h
  | close hclose hpc => exact absurd hclose hm
  | makedirs q hpc hq => exact .of_segment hq.segment hq.closing fun _ => by simp [Fs.makedirs]
  | retry q hpc hown hq => exact .of_segment hq.segment hq.closing fun _ => hi.hasDir hpc
  | attach k seg hpc hlink =>
    exact ⟨rfl, fun _ _ h => by simp [Proc.goto] at h, fun h hm => (by cases hm),
      fun _ => hi.hasDir (by rw [hpc]; rfl)⟩
  | create k hpc hlink =>
    refine ⟨rfl, fun _ s h => ?_, fun h hm => (by cases hm), fun _ =>
      hi.hasDir (by rw [hpc]; rfl)⟩
    obtain ⟨-, rfl⟩ : k = _ ∧ c.shared.count = s := by simpa [Proc.goto] using h
    simp [Fs.create]
  | ftruncate k seg hpc =>
    exact ⟨rfl, fun _ _ h => by simp [Proc.goto] at h, fun h hm => (by cases hm),
      fun _ => hi.hasDir (by rw [hpc]; rfl)⟩
  | fstat k seg created hpc hsize =>
    refine ⟨rfl, fun _ _ h => by simp [Proc.goto] at h, fun h hm => ?_, fun _ =>
      hi.hasDir (by rw [hpc]; rfl)⟩
    obtain rfl : _ = h := by simpa [Proc.goto, Pc.mapping] using hm
    exact ⟨rfl, hsize⟩
  | mmap k h hpc =>
    exact ⟨rfl, fun _ _ h => by simp [Proc.goto] at h,
      fun h' hm => hi.full h' (by rw [hpc]; exact hm), fun _ => hi.hasDir (by rw [hpc]; rfl)⟩
  | spoil k hpc => exact (hR.consistent.not_spoiled hpc).elim
  | undo k hpc => exact absurd hpc (hR.consistent.kept i k)
  | writePid h fs' hpc hd =>
    obtain ⟨d, -, rfl⟩ := Option.map_eq_some_iff.1 hd
    exact ⟨rfl, fun _ _ h => by simp [Proc.goto] at h,
      fun h' hm => hi.full h' (by rw [hpc]; exact hm), fun h => by cases h⟩
  | missing h hpc hd => exact absurd hd (hi.hasDir (by rw [hpc]; rfl))
  | list hpc | sweep _ _ hpc _ | removePid hpc | scan _ hpc _ | unlink _ hpc | rmdir _ hpc =>
    exact hclosing (by rw [hpc]; rfl)

/-- The other processes. -/
theorem Race.racer_other (hR : Race pid c) (he : Effect alive (pid i) m c.shared (c.locals i) fs p)
    {j : ι} (hj : j ≠ i) : Racer fs (c.locals j) := by
  have hi := hR.racer i
  have hother := hR.racer j
  have hclosing (h : (c.locals i).pc.closing = true) : Racer fs (c.locals j) := by
    simp [hi.racing] at h
  cases he with
  | makedirs q hpc hq => exact hother.frame rfl fun _ => by simp [Fs.makedirs]
  | create k hpc hlink =>
    have hseg : (c.locals j).pc.segment = none := by
      rw [Option.eq_none_iff_forall_ne_some]
      intro seg h
      simp [hR.consistent.held j seg h] at hlink
    exact .of_segment hseg hother.racing hother.hasDir
  | ftruncate k seg hpc =>
    have hcreated : (c.locals i).pc.hasCreated = true := by rw [hpc]; rfl
    have hempty : c.shared.size seg = 0 := hi.empty k seg hpc
    refine ⟨hother.racing, fun k' s h => ?_, fun h hm => ?_, hother.hasDir⟩
    · -- a second creator
      exact absurd (hR.consistent.unique j i (by rw [h]; rfl) hcreated) hj
    · -- nobody has passed the size check on an empty segment
      have hseg : some h.seg = some seg := (hR.consistent.held j h.seg
        (Pc.segment_of_mapping hm)).symm.trans (hR.consistent.held i seg (by rw [hpc]; rfl))
      obtain rfl : h.seg = seg := Option.some.inj hseg
      exact absurd hempty (hother.not_empty hm)
  | writePid h fs' hpc hd =>
    obtain ⟨d, -, rfl⟩ := Option.map_eq_some_iff.1 hd
    exact hother.frame rfl fun _ => nofun
  | undo k hpc => exact absurd hpc (hR.consistent.kept i k)
  | sweep _ _ hpc _ | removePid hpc | unlink _ hpc | rmdir _ hpc =>
    exact hclosing (by rw [hpc]; rfl)
  | _ => exact hother

/-- The creator stays the creator. -/
theorem Race.hasCreated_step (hR : Race pid c) (hm : m ≠ .close)
    (he : Effect alive (pid i) m c.shared (c.locals i) fs p)
    (h : (c.locals i).pc.hasCreated = true) : p.pc.hasCreated = true := by
  have hracer := hR.racer_self hm he
  have hi := hR.racer i
  cases he with
  | ftruncate k seg hpc => rfl
  | create k hpc hlink => rfl
  | fstat k seg created hpc hsize | mmap k h' hpc | writePid h' fs' hpc hd =>
    rw [hpc] at h
    exact h
  | retry q hpc hown hq => simp [hown] at h
  | spoil k hpc => exact (hR.consistent.not_spoiled hpc).elim
  | missing h' hpc hd => exact absurd hd (hi.hasDir (by rw [hpc]; rfl))
  | close hclose hpc => exact absurd hclose hm
  | _ => simp_all [Pc.hasCreated]

/-- What a step of the race does to the link and the number of segments. -/
theorem Race.link_step (hR : Race pid c) (he : Effect alive (pid i) m c.shared (c.locals i) fs p) :
    fs.link = c.shared.link ∧ fs.count = c.shared.count ∨
      c.shared.link = none ∧ fs.link ≠ none ∧ fs.count = c.shared.count + 1 ∧
        p.pc.hasCreated = true := by
  have hclosing (h : (c.locals i).pc.closing = true) : False := by
    simp [(hR.racer i).racing] at h
  cases he with
  | create k hpc hlink => exact .inr ⟨hlink, nofun, rfl, rfl⟩
  | writePid h fs' hpc hd =>
    obtain ⟨d, -, rfl⟩ := Option.map_eq_some_iff.1 hd
    exact .inl ⟨rfl, rfl⟩
  | undo k hpc => exact absurd hpc (hR.consistent.kept i k)
  | unlink _ hpc | rmdir _ hpc => exact (hclosing (by rw [hpc]; rfl)).elim
  | _ => exact .inl ⟨rfl, rfl⟩

/-- What a step of the race does to the pid directory. -/
theorem Race.dir_step (hR : Race pid c) (hm : m ≠ .close)
    (he : Effect alive (pid i) m c.shared (c.locals i) fs p) :
    (fs.dir = c.shared.dir ∨ fs = c.shared.makedirs) ∧ ¬ p.pc.returned ∨
      c.shared.writePid (pid i) = some fs ∧ p.pc.returned := by
  have hclosing (h : (c.locals i).pc.closing = true) : False := by
    simp [(hR.racer i).racing] at h
  cases he with
  | writePid h fs' hpc hd => exact .inr ⟨hd, h, rfl⟩
  | makedirs q hpc hq => exact .inl ⟨.inr rfl, hq.not_returned⟩
  | retry q hpc hown hq => exact .inl ⟨.inl rfl, hq.not_returned⟩
  | close hclose hpc => exact absurd hclose hm
  | undo k hpc => exact absurd hpc (hR.consistent.kept i k)
  | list hpc | sweep _ _ hpc _ | removePid hpc | scan _ hpc _ | unlink _ hpc | rmdir _ hpc =>
    exact (hclosing (by rw [hpc]; rfl)).elim
  | _ => exact .inl ⟨.inl rfl, nofun⟩

/-- A returned constructor takes no step in the race. -/
theorem not_returned_of_effect (hm : m ≠ .close)
    (he : Effect alive (pid i) m c.shared (c.locals i) fs p) : ¬ (c.locals i).pc.returned := by
  rintro ⟨h, hpc⟩
  cases he with
  | close hclose _ => exact hm hclose
  | retry q hun hown hq => simp [hpc, Pc.unregistered] at hun
  | _ => simp_all

variable [DecidableEq ι]

theorem Race.step (hR : Race pid c) (hm : m ≠ .close)
    (he : Effect alive (pid i) m c.shared (c.locals i) fs p) :
    Race pid ⟨fs, Function.update c.locals i p⟩ where
  consistent := hR.consistent.step he fun _ hpc => by
    have hracing := (hR.racer i).racing
    simp [hpc, Pc.closing] at hracing
  racer := Config.forall_update (fun _ p => Racer fs p) (hR.racer_self hm he) fun j hj =>
    hR.racer_other he hj
  count := by
    obtain ⟨hle, hzero⟩ := hR.count
    rcases hR.link_step he with ⟨hlink, hcount⟩ | ⟨hlink, hlink', hcount, -⟩
    · rw [hlink, hcount]
      exact ⟨hle, hzero⟩
    · have h0 : c.shared.count = 0 := hzero hlink
      exact ⟨by rw [hcount, h0], fun h => absurd h hlink'⟩
  creator h := by
    rcases hR.link_step he with ⟨hlink, -⟩ | ⟨-, -, -, hcreated⟩
    · rw [hlink] at h
      obtain ⟨j, hj⟩ := hR.creator h
      by_cases hji : j = i
      · subst hji
        exact ⟨j, by simpa using hR.hasCreated_step hm he hj⟩
      · exact Config.exists_update (fun _ (p : Proc) => p.pc.hasCreated = true) hji hj
    · exact ⟨i, by simpa using hcreated⟩
  others := by
    rcases hR.dir_step hm he with ⟨hdir | rfl, -⟩ | ⟨hwrite, -⟩
    · intro d hd
      exact hR.others d (hdir ▸ hd)
    · exact hR.others.makedirs
    · exact hR.others.of_writePid hwrite
  listed q := by
    have hreturned : (∃ j, (Function.update c.locals i p j).pc.returned ∧ pid j = q) ↔
        (∃ j, (c.locals j).pc.returned ∧ pid j = q) ∨ p.pc.returned ∧ pid i = q :=
      Config.exists_update_iff (fun j (p : Proc) => p.pc.returned ∧ pid j = q) fun h =>
        not_returned_of_effect hm he h.1
    rw [hreturned, ← hR.listed q]
    rcases hR.dir_step hm he with ⟨hdir | rfl, hp⟩ | ⟨hwrite, hp⟩
    · simp [Fs.listPids, hdir, hp]
    · simp [hp]
    · rw [Fs.listPids_of_writePid _ hwrite]
      simp [hp, or_comm, eq_comm]

theorem race_of_reach {alive : ℕ → Bool} {pid : ι → ℕ} {c : State ι}
    (h : (system alive pid Unlinked).Reach Racing c) : Race pid c := by
  refine h.invariant (Race pid) (fun c hc => .unlinked hc) fun c a c' _ hR hok hs => ?_
  obtain ⟨fs, p, he, rfl⟩ := effect_of_system_step hs
  exact hR.step hok.1 he

/-- Racing creators agree: at most one segment is ever created, by at most one constructor; every
constructor that has returned maps the linked segment at its full size, which is at least what it
requested; none has mapped a segment that still waits for its `ftruncate`; and when all
constructors that have started have returned, exactly one of them is the creator and the pid
directory lists exactly their processes. -/
theorem racers_agree (alive : ℕ → Bool) (pid : ι → ℕ) {c : State ι}
    (h : (system alive pid Unlinked).Reach Racing c) :
    (c.shared.count ≤ 1 ∧ ∀ i j, (c.locals i).pc.hasCreated = true →
      (c.locals j).pc.hasCreated = true → i = j) ∧
    (∀ i h, (c.locals i).pc = .opened h → c.shared.link = some h.seg ∧
      h.size = c.shared.size h.seg ∧ (c.locals i).req.size ≤ h.size) ∧
    (∀ i h, (c.locals i).pc = .writePid h ∨ (c.locals i).pc = .opened h →
      ∀ j k, (c.locals j).pc ≠ .ftruncate k h.seg) ∧
    ((∃ i, (c.locals i).pc.returned) →
      (∀ i, (c.locals i).pc = .idle ∨ (c.locals i).pc.returned) →
      (∃! i, ∃ h, (c.locals i).pc = .opened h ∧ h.created = true) ∧
      ∃ d, c.shared.dir = some d ∧ d.others = ∅ ∧
        ∀ q, q ∈ d.pids ↔ ∃ i, (c.locals i).pc.returned ∧ pid i = q) := by
  have hR := race_of_reach h
  refine ⟨⟨hR.count.1, hR.consistent.unique⟩, fun i h hpc => ?_, fun i h hpc j k hj => ?_,
    fun ⟨i₀, h₀, hpc₀⟩ hall => ⟨?_, ?_⟩⟩
  · have hlink : c.shared.link = some h.seg := hR.consistent.held i h.seg (by rw [hpc]; rfl)
    exact ⟨hlink, (hR.racer i).full h (by rw [hpc]; rfl)⟩
  · have hmapping : (c.locals i).pc.mapping = some h := by
      rcases hpc with hpc | hpc <;> rw [hpc] <;> rfl
    exact (hR.racer i).not_empty hmapping ((hR.racer j).empty k h.seg hj)
  · have hlink : c.shared.link = some h₀.seg := hR.consistent.held i₀ h₀.seg (by rw [hpc₀]; rfl)
    obtain ⟨i, hi⟩ := hR.creator (by simp [hlink])
    have hcreator (j : ι) : (c.locals j).pc.hasCreated = true ↔
        ∃ h, (c.locals j).pc = .opened h ∧ h.created = true := by
      rcases hall j with hj | ⟨h, hj⟩ <;> simp [hj, Pc.hasCreated]
    exact ⟨i, (hcreator i).1 hi, fun j hj => hR.consistent.unique j i ((hcreator j).2 hj) hi⟩
  · have hdir : c.shared.dir ≠ none := fun hnone => by
      have hlisted : pid i₀ ∈ c.shared.listPids := (hR.listed _).2 ⟨i₀, ⟨h₀, hpc₀⟩, rfl⟩
      simp [Fs.listPids, hnone, Dir.empty] at hlisted
    obtain ⟨d, hd⟩ := Option.ne_none_iff_exists'.1 hdir
    refine ⟨d, hd, hR.others d hd, fun q => ?_⟩
    have hlisted := hR.listed q
    rwa [Fs.listPids, hd] at hlisted

instance (c : State ι) (a : ι × Move) : Decidable (Racing c a) :=
  match h : a.2 with
  | .construct r => decidable_of_iff (r.attachOnly = false) (by simp [Racing, h])
  | .close | .next | .cleanup _ => decidable_of_iff (a.2 ≠ .close) (by simp [Racing, h])

/-- Process `b` loses the creation, finds the segment empty, and attaches when it has its size. -/
def raced : State Tid :=
  (system (fun _ => true) pids Unlinked).exec Racing unused
    [(.a, .construct (request 63)), (.b, .construct (request 15)), (.a, .next), (.b, .next),
      (.a, .next), (.b, .next), (.a, .next), (.b, .next), (.b, .next), (.b, .next), (.a, .next),
      (.b, .next), (.b, .next), (.b, .next), (.b, .next), (.a, .next), (.a, .next), (.a, .next)]

theorem racers_agree_raced :
    (∃! i, ∃ h, (raced.locals i).pc = .opened h ∧ h.created = true) ∧
      ∃ d, raced.shared.dir = some d ∧ d.others = ∅ ∧
        ∀ q, q ∈ d.pids ↔ ∃ i, (raced.locals i).pc.returned ∧ pids i = q :=
  have hall : ∀ i, (raced.locals i).pc = .idle ∨ (raced.locals i).pc.returned := by decide +kernel
  (racers_agree (fun _ => true) pids
    (.exec _ (.init ⟨unused_unused, rfl, rfl, .inl rfl⟩))).2.2.2 ⟨.a, by decide +kernel⟩ hall

end GuardedSharedMemory
