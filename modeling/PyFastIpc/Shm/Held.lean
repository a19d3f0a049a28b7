import PyFastIpc.Shm.Steps

/-!
# The segment that is in use

Whoever has a segment open or mapped has the one that is linked under the name, and at most one
process has created it (`Consistent`).  The invariant needs one thing of `close`: when it unlinks
the name, nobody else has the segment open.
-/

namespace GuardedSharedMemory

/-- A creator finds the segment at the size it gave it. -/
def Proc.Sized (fs : Fs) (p : Proc) : Prop :=
  (∀ k seg, p.pc = .fstat k seg true → p.req.size ≤ fs.size seg) ∧
    ∀ k h, p.pc = .mmap k h → h.created = true → h.size ≤ fs.size h.seg

variable {ι : Type*}

/-- The segment that is in use is the linked one. -/
structure Consistent (c : State ι) : Prop where
  held : ∀ i seg, (c.locals i).pc.segment = some seg → c.shared.link = some seg
  unique : ∀ i j, (c.locals i).pc.hasCreated = true → (c.locals j).pc.hasCreated = true → i = j
  sized : ∀ i, (c.locals i).Sized c.shared
  kept : ∀ i k, (c.locals i).pc ≠ .undo k

theorem Consistent.unused {c : State ι} (hc : Unused c) : Consistent c where
  held i seg hi := by simp [hc i, Pc.segment] at hi
  unique i j hi := by simp [hc i, Pc.hasCreated] at hi
  sized i := ⟨fun k seg hi => by simp [hc i] at hi, fun k h hi => by simp [hc i] at hi⟩
  kept i k hi := by simp [hc i] at hi

section Groups

variable {p : Pc} {r : Request}

theorem Pc.retries.segment (h : p.retries r) : p.segment = none := by
  rcases h with ⟨k, rfl | rfl⟩ | rfl | ⟨-, rfl⟩ <;> rfl

theorem Pc.retries.not_returned (h : p.retries r) : ¬ p.returned := by
  rintro ⟨h', rfl⟩
  simp [retries] at h

theorem cleanupFrom_segment (todo : Finset ℕ) : (cleanupFrom todo).segment = none := by
  unfold cleanupFrom
  split_ifs <;> rfl

theorem cleanupFrom_ne_undo (todo : Finset ℕ) (k : ℕ) : cleanupFrom todo ≠ .undo k := by
  unfold cleanupFrom
  split_ifs <;> simp

theorem Pc.hasCreated_of_segment (h : p.segment = none) : p.hasCreated = false := by
  cases p <;> simp_all [hasCreated, segment]

theorem Proc.sized_of_segment {fs : Fs} {p : Proc} (h : p.pc.segment = none) : p.Sized fs := by
  refine ⟨fun k seg hp => ?_, fun k h' hp => ?_⟩ <;> simp [hp, Pc.segment] at h

theorem Proc.sized_of_ne {fs : Fs} {p : Proc} (hfstat : ∀ k seg, p.pc ≠ .fstat k seg true)
    (hmmap : ∀ k h, p.pc ≠ .mmap k h) : p.Sized fs :=
  ⟨fun k seg hp => absurd hp (hfstat k seg), fun k h hp => absurd hp (hmmap k h)⟩

end Groups

/-- A creator does not undo its creation. -/
theorem Consistent.not_spoiled {c : State ι} (hC : Consistent c) {i : ι} {k : ℕ}
    (hpc : (∃ seg, (c.locals i).pc = .fstat k seg true ∧
        c.shared.size seg < (c.locals i).req.size) ∨
      ∃ h, (c.locals i).pc = .mmap k h ∧ h.created = true ∧ c.shared.size h.seg < h.size) :
    False := by
  rcases hpc with ⟨seg, hpc, hsize⟩ | ⟨h, hpc, hc, hsize⟩
  · exact absurd ((hC.sized i).1 k seg hpc) (Nat.not_le_of_lt hsize)
  · exact absurd ((hC.sized i).2 k h hpc hc) (Nat.not_le_of_lt hsize)

variable [DecidableEq ι] {c : State ι} {i : ι} {fs : Fs} {p : Proc}

/-- A step that leaves the link and the sizes alone. -/
theorem Consistent.advance (hC : Consistent c) (hlink : fs.link = c.shared.link)
    (hsize : fs.size = c.shared.size)
    (hheld : ∀ seg, p.pc.segment = some seg → c.shared.link = some seg)
    (hcreated : p.pc.hasCreated = true → (c.locals i).pc.hasCreated = true)
    (hsized : p.Sized c.shared) (hkept : ∀ k, p.pc ≠ .undo k) :
    Consistent ⟨fs, Function.update c.locals i p⟩ where
  held := by
    rw [hlink]
    exact Config.forall_update (fun _ (p : Proc) => ∀ seg, p.pc.segment = some seg →
      c.shared.link = some seg) hheld fun j _ => hC.held j
  unique := by
    have hback (j : ι) (hj : (Function.update c.locals i p j).pc.hasCreated = true) :
        (c.locals j).pc.hasCreated = true :=
      Config.forall_update (fun j (p : Proc) => p.pc.hasCreated = true →
        (c.locals j).pc.hasCreated = true) hcreated (fun _ _ => id) j hj
    exact fun j k hj hk => hC.unique j k (hback j hj) (hback k hk)
  sized := by
    have hsame (p : Proc) (hp : p.Sized c.shared) : p.Sized fs := by
      unfold Proc.Sized
      rw [hsize]
      exact hp
    exact Config.forall_update (fun _ (p : Proc) => p.Sized fs) (hsame p hsized) fun j _ =>
      hsame _ (hC.sized j)
  kept := Config.forall_update (fun _ (p : Proc) => ∀ k, p.pc ≠ .undo k) hkept fun j _ => hC.kept j

/-- A step after which the process has no segment open. -/
theorem Consistent.advance_none (hC : Consistent c) (hlink : fs.link = c.shared.link)
    (hsize : fs.size = c.shared.size) (hseg : p.pc.segment = none) (hkept : ∀ k, p.pc ≠ .undo k) :
    Consistent ⟨fs, Function.update c.locals i p⟩ := by
  refine hC.advance hlink hsize (fun seg h => ?_) (fun h => ?_) (p.sized_of_segment hseg) hkept
  · simp [hseg] at h
  · simp [Pc.hasCreated_of_segment hseg] at h

/-- A step that keeps the segment of the process. -/
theorem Consistent.keep (hC : Consistent c) {q : Pc} (hlink : fs.link = c.shared.link)
    (hsize : fs.size = c.shared.size) (hseg : (c.locals i).pc.segment = q.segment)
    (hcreated : (c.locals i).pc.hasCreated = q.hasCreated)
    (hsized : ((c.locals i).goto q).Sized c.shared) (hkept : ∀ k, q ≠ .undo k) :
    Consistent ⟨fs, Function.update c.locals i ((c.locals i).goto q)⟩ := by
  refine hC.advance hlink hsize (fun seg h => hC.held i seg ?_) (fun h => ?_) hsized hkept
  · rw [hseg]
    exact h
  · rw [hcreated]
    exact h

theorem Consistent.create (hC : Consistent c) (hlink : c.shared.link = none) (k : ℕ) :
    Consistent ⟨c.shared.create,
      Function.update c.locals i ((c.locals i).goto (.ftruncate k c.shared.count))⟩ := by
  have hnone (j : ι) : (c.locals j).pc.segment = none := by
    rw [Option.eq_none_iff_forall_ne_some]
    intro seg hj
    simp [hC.held j seg hj] at hlink
  have hbefore (j : ι) : (c.locals j).pc.hasCreated = false := Pc.hasCreated_of_segment (hnone j)
  refine ⟨?_, ?_, ?_, ?_⟩
  · refine Config.forall_update (fun _ (p : Proc) => ∀ seg, p.pc.segment = some seg →
      some c.shared.count = some seg) (fun seg h => h) fun j _ seg hj => ?_
    simp [hnone j] at hj
  · have hself (j : ι) : (Function.update c.locals i
        ((c.locals i).goto (.ftruncate k c.shared.count)) j).pc.hasCreated = true → j = i :=
      Config.forall_update (fun j (p : Proc) => p.pc.hasCreated = true → j = i) (fun _ => rfl)
        (fun j _ hj => by simp [hbefore j] at hj) j
    exact fun j l hj hl => (hself j hj).trans (hself l hl).symm
  · exact Config.forall_update (fun _ (p : Proc) => p.Sized c.shared.create)
      (Proc.sized_of_ne (fun _ _ => nofun) fun _ _ => nofun) fun j _ =>
        Proc.sized_of_segment (hnone j)
  · exact Config.forall_update (fun _ (p : Proc) => ∀ k, p.pc ≠ .undo k) (fun _ => nofun) fun j _ =>
      hC.kept j

theorem Consistent.ftruncate (hC : Consistent c) {k seg : ℕ}
    (hpc : (c.locals i).pc = .ftruncate k seg) :
    Consistent ⟨c.shared.ftruncate seg (c.locals i).req.size,
      Function.update c.locals i ((c.locals i).goto (.fstat k seg true))⟩ := by
  have hcreated : (c.locals i).pc.hasCreated = true := by rw [hpc]; rfl
  refine ⟨?_, ?_, ?_, ?_⟩
  · refine Config.forall_update (fun _ (p : Proc) => ∀ seg, p.pc.segment = some seg →
      c.shared.link = some seg) (fun s h => ?_) fun j _ => hC.held j
    exact hC.held i s (by rw [hpc]; exact h)
  · have hback (j : ι) : (Function.update c.locals i
        ((c.locals i).goto (.fstat k seg true)) j).pc.hasCreated = true →
        (c.locals j).pc.hasCreated = true :=
      Config.forall_update (fun j (p : Proc) => p.pc.hasCreated = true →
        (c.locals j).pc.hasCreated = true) (fun _ => hcreated) (fun _ _ => id) j
    exact fun j l hj hl => hC.unique j l (hback j hj) (hback l hl)
  · refine Config.forall_update (fun _ (p : Proc) => p.Sized _) ⟨?_, ?_⟩ fun j hj => ?_
    · intro k' s h
      obtain ⟨-, rfl⟩ : k = k' ∧ seg = s := by simpa [Proc.goto] using h
      simp [Fs.ftruncate, Proc.goto]
    · exact fun _ _ h => by simp [Proc.goto] at h
    · -- the other processes are not creators
      have hother : (c.locals j).pc.hasCreated ≠ true := fun h => hj (hC.unique j i h hcreated)
      refine ⟨fun k' s h => ?_, fun k' h' h hc => ?_⟩
      · simp [h, Pc.hasCreated] at hother
      · simp [h, Pc.hasCreated, hc] at hother
  · exact Config.forall_update (fun _ (p : Proc) => ∀ k, p.pc ≠ .undo k) (fun _ => nofun) fun j _ =>
      hC.kept j

/-- Every step keeps the invariant, if nobody else has the segment open when a name is unlinked. -/
theorem Consistent.step {alive : ℕ → Bool} {pid : ℕ} {m : Move} (hC : Consistent c)
    (he : Effect alive pid m c.shared (c.locals i) fs p)
    (hunlink : m = .next → (c.locals i).pc = .unlink → c.shared.link ≠ none →
      ∀ j, j ≠ i → (c.locals j).pc.segment = none) :
    Consistent ⟨fs, Function.update c.locals i p⟩ := by
  cases he with
  | construct r hm hpc => exact hC.advance_none rfl rfl rfl fun _ => nofun
  | close hm hpc => exact hC.advance_none rfl rfl rfl fun _ => nofun
  | makedirs q hpc hq =>
    refine hC.advance_none rfl rfl hq.segment fun k h => ?_
    obtain rfl : q = .undo k := h
    simp [Pc.retries] at hq
  | retry q hpc hown hq =>
    refine hC.advance_none rfl rfl hq.segment fun k h => ?_
    obtain rfl : q = .undo k := h
    simp [Pc.retries] at hq
  | attach k seg hpc hlink =>
    refine hC.advance rfl rfl (fun s h => ?_) nofun ?_ fun _ => nofun
    · rw [hlink]
      exact h
    · exact Proc.sized_of_ne (fun _ _ => nofun) fun _ _ => nofun
  | create k hpc hlink => exact hC.create hlink k
  | ftruncate k seg hpc => exact hC.ftruncate hpc
  | fstat k seg created hpc hsize =>
    refine hC.keep rfl rfl (by rw [hpc]; rfl) (by rw [hpc]; rfl) ⟨fun _ _ => nofun, ?_⟩ fun _ =>
      nofun
    intro k' h h' _
    obtain ⟨-, rfl⟩ : k = k' ∧ _ = h := by simpa [Proc.goto] using h'
    exact le_rfl
  | mmap k h hpc =>
    exact hC.keep rfl rfl (by rw [hpc]; rfl) (by rw [hpc]; rfl)
      (Proc.sized_of_ne (fun _ _ => nofun) fun _ _ => nofun) fun _ => nofun
  | spoil k hpc => exact (hC.not_spoiled hpc).elim
  | undo k hpc => exact absurd hpc (hC.kept i k)
  | writePid h fs' hpc hd =>
    obtain ⟨d, -, rfl⟩ := Option.map_eq_some_iff.1 hd
    exact hC.keep rfl rfl (by rw [hpc]; rfl) (by rw [hpc]; rfl)
      (Proc.sized_of_ne (fun _ _ => nofun) fun _ _ => nofun) fun _ => nofun
  | missing h hpc hd => exact hC.advance_none rfl rfl rfl fun _ => nofun
  | list hpc => exact hC.advance_none rfl rfl (cleanupFrom_segment _) (cleanupFrom_ne_undo _)
  | sweep q todo hpc hq =>
    exact hC.advance_none rfl rfl (cleanupFrom_segment _) (cleanupFrom_ne_undo _)
  | removePid hpc => exact hC.advance_none rfl rfl rfl fun _ => nofun
  | scan q hpc hq =>
    refine hC.advance_none rfl rfl ?_ fun k h => ?_
    · rw [hq]
      split_ifs <;> rfl
    · obtain rfl : q = .undo k := h
      split_ifs at hq
  | unlink hm hpc =>
    by_cases hlink : c.shared.link = none
    · exact hC.advance_none hlink.symm rfl rfl fun _ => nofun
    · -- nobody has the segment open any more
      have hnone := Config.forall_update (i := i) (x := (c.locals i).goto .rmdir)
        (fun _ (p : Proc) => p.pc.segment = none) rfl (hunlink hm hpc hlink)
      refine ⟨fun j seg h => ?_, fun j l h => ?_, fun j => Proc.sized_of_segment (hnone j), ?_⟩
      · simp [hnone j] at h
      · simp [Pc.hasCreated_of_segment (hnone j)] at h
      · exact Config.forall_update (fun _ (p : Proc) => ∀ k, p.pc ≠ .undo k) (fun _ => nofun)
          fun j _ => hC.kept j
  | rmdir hm hpc => exact hC.advance_none (Fs.link_rmdir _) (Fs.size_rmdir _) rfl fun _ => nofun

end GuardedSharedMemory
