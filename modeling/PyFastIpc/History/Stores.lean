import PyFastIpc.History.Creation
import PyFastIpc.History.Slots

/-!
# What the methods leave alone

A publish stores behind the header of the segment, apart from the increment of the index
(`BehindHeader`), and no method touches the fields that `create` sets (`gentle_of_effect`).
-/

namespace NamedHistoryBuffer.Creation

variable {ι : Type*}

/-! ## The accesses of a publish -/

/-- The offsets of a publish lie behind the header once it has computed them. -/
structure BehindHeader (k : Stage) (r : Regs) : Prop where
  off : Stage.locate.rank < k.rank → headerSize ≤ r.off
  payloadOff : Stage.relocate.rank < k.rank → headerSize ≤ r.payloadOff

section Access

variable {now size : ℕ} {m m' : Memory} {r r' : Regs} {k : Stage}

theorem headerSize_le_calcSlotOffset (m : Memory) (slot : ℕ) : headerSize ≤ calcSlotOffset m slot :=
  Nat.le_add_right _ _

theorem BehindHeader.next (h : BehindHeader k r) {k' : Stage} (hk : k.next = some k')
    (hoff : headerSize ≤ r'.off ∨ k ≠ .locate ∧ r'.off = r.off)
    (hpayload : headerSize ≤ r'.payloadOff ∨ k ≠ .relocate ∧ r'.payloadOff = r.payloadOff) :
    BehindHeader k' r' where
  off hlt := by
    rw [Stage.rank_next hk] at hlt
    rcases hoff with hle | ⟨hne, heq⟩
    · exact hle
    · rw [heq]
      exact h.off (lt_of_le_of_ne (Nat.le_of_lt_succ hlt) fun he =>
        hne (Stage.rank_injective he).symm)
  payloadOff hlt := by
    rw [Stage.rank_next hk] at hlt
    rcases hpayload with hle | ⟨hne, heq⟩
    · exact hle
    · rw [heq]
      exact h.payloadOff (lt_of_le_of_ne (Nat.le_of_lt_succ hlt) fun he =>
        hne (Stage.rank_injective he).symm)

/-- What an access of the `try` block leaves alone in the header. -/
structure Spares (m m' : Memory) (k : Stage) : Prop where
  fields : ∀ a, a + 8 ≤ 32 → m'.u64 a = m.u64 a
  msgIdx : k ≠ .storeNext → NamedHistoryBuffer.msgIdx m' = NamedHistoryBuffer.msgIdx m

/-- A store behind the header. -/
theorem Spares.write {off : ℕ} {bs : Bytes} (hoff : headerSize ≤ off) :
    Spares m (m.write off bs) k where
  fields a ha := by
    refine Memory.u64_write (.inr (.inr (.inr ?_)))
    unfold headerSize at hoff
    omega
  msgIdx _ := msgIdx_write hoff

theorem Spares.load : Spares m m k where
  fields _ _ := rfl
  msgIdx _ := rfl

/-- An access of the `try` block stores behind the header, or into the index. -/
theorem BehindHeader.access (h : BehindHeader k r)
    (ha : NamedHistoryBuffer.access now size m r k = .ok (r', m')) :
    (∀ k', k.next = some k' → BehindHeader k' r') ∧ Spares m m' k := by
  cases k with
  | loadIdx | loadNext =>
    simp only [NamedHistoryBuffer.access, Except.ok.injEq, Prod.mk.injEq] at ha
    obtain ⟨rfl, rfl⟩ := ha
    exact ⟨fun k' hk => h.next hk (.inr ⟨by decide, rfl⟩) (.inr ⟨by decide, rfl⟩), .load⟩
  | loadNumSlots =>
    simp only [NamedHistoryBuffer.access] at ha
    split_ifs at ha
    simp only [Except.ok.injEq, Prod.mk.injEq] at ha
    obtain ⟨rfl, rfl⟩ := ha
    exact ⟨fun k' hk => h.next hk (.inr ⟨by decide, rfl⟩) (.inr ⟨by decide, rfl⟩), .load⟩
  | locate =>
    simp only [NamedHistoryBuffer.access] at ha
    split_ifs at ha
    simp only [Except.ok.injEq, Prod.mk.injEq] at ha
    obtain ⟨rfl, rfl⟩ := ha
    exact ⟨fun k' hk => h.next hk (.inl (headerSize_le_calcSlotOffset m _))
      (.inr ⟨by decide, rfl⟩), .load⟩
  | relocate =>
    simp only [NamedHistoryBuffer.access, Except.ok.injEq, Prod.mk.injEq] at ha
    obtain ⟨rfl, rfl⟩ := ha
    exact ⟨fun k' hk => h.next hk (.inr ⟨by decide, rfl⟩)
      (.inl ((headerSize_le_calcSlotOffset m _).trans (Nat.le_add_right _ _))), .load⟩
  | storeSize | storeStart | storeEnd =>
    simp only [NamedHistoryBuffer.access, Except.ok.injEq, Prod.mk.injEq] at ha
    obtain ⟨rfl, rfl⟩ := ha
    have hoff := h.off (by decide)
    exact ⟨fun k' hk => h.next hk (.inr ⟨by decide, rfl⟩) (.inr ⟨by decide, rfl⟩),
      .write (by omega)⟩
  | storePayload =>
    obtain rfl := regs_of_stores rfl ha
    simp only [NamedHistoryBuffer.access] at ha
    split_ifs at ha
    simp only [Except.ok.injEq, Prod.mk.injEq, true_and] at ha
    subst ha
    have hoff := h.payloadOff (by decide)
    exact ⟨fun k' hk => h.next hk (.inr ⟨by decide, rfl⟩) (.inr ⟨by decide, rfl⟩),
      .write hoff⟩
  | storeNext =>
    simp only [NamedHistoryBuffer.access, Except.ok.injEq, Prod.mk.injEq] at ha
    obtain ⟨rfl, rfl⟩ := ha
    exact ⟨fun k' hk => (by cases hk), fun a ha => Memory.u64_setU64_of_disjoint (.inr ha),
      fun hk => absurd rfl hk⟩

end Access

/-! ## One step of a method -/

section Step

variable [DecidableEq ι] {i : ι} {pid : UInt32}

theorem afterAcquire_body {data : Bytes} {q : FutexMutex.Pc} {k : Stage} {r : Regs}
    (h : afterAcquire data q = .body k r) : k = .loadIdx := by
  unfold afterAcquire at h
  split at h
  · cases h
  · exact (Pc.body.inj h).1.symm
  · cases h

theorem afterRelease_body {e : Option Error} {q : FutexMutex.Pc} {k : Stage} {r : Regs} :
    afterRelease e q ≠ .body k r := by
  unfold afterRelease
  split
  · simp
  · split <;> simp
  · simp

/-- What a step of a method leaves alone. -/
structure Gentle (sh : Shared ι) (p : Proc ι) (sh' : Shared ι) (p' : Proc ι) : Prop where
  fields : ∀ a, a + 8 ≤ 32 → sh'.seg.mem.u64 a = sh.seg.mem.u64 a
  index : sh'.done = [] → sh.done = [] ∧ msgIdx sh'.seg.mem = msgIdx sh.seg.mem
  regs : ∀ k r, p'.pc = .body k r → BehindHeader k r
  magic : sh'.seg.mutex.magic = sh.seg.mutex.magic

theorem gentle_of_effect {sh sh' : Shared ι} {p p' : Proc ι}
    (hregs : ∀ k r, p.pc = .body k r → BehindHeader k r)
    (he : NamedHistoryBuffer.Effect i pid sh p sh' p') : Gentle sh p sh' p' := by
  cases he with
  | read p' hread =>
    obtain ⟨-, hto, -⟩ := hread.outside
    refine ⟨fun _ _ => rfl, fun h => ⟨h, rfl⟩, fun k r hpc => ?_, rfl⟩
    simp [hpc, Pc.outside] at hto
  | enter data hpc hfits =>
    exact ⟨fun _ _ => rfl, fun h => ⟨h, rfl⟩, fun k r h => (by cases h), rfl⟩
  | acquire data n h t hpc hs =>
    refine ⟨fun _ _ => by simp, fun h => ?_, fun k r h => ?_, ?_⟩
    · rw [Shared.enter_done] at h
      exact ⟨h, by simp⟩
    · obtain rfl := afterAcquire_body h
      exact ⟨fun hlt => absurd hlt (by decide), fun hlt => absurd hlt (by decide)⟩
    · rw [Shared.enter_seg]
      exact (FutexMutex.effect_of_step hs).magic
  | access now k r r' mem hpc ha =>
    obtain ⟨hnext, hspares⟩ := (hregs k r hpc).access ha
    refine ⟨fun a hle => ?_, fun hnil => ?_, fun k' r'' h => ?_, ?_⟩
    · rw [Shared.record_seg]
      exact hspares.fields a hle
    · have hne : k ≠ .storeNext := by
        rintro rfl
        exact List.append_ne_nil_of_right_ne_nil _ (List.cons_ne_nil _ _) hnil
      rw [Shared.record_seg]
      refine ⟨?_, hspares.msgIdx hne⟩
      cases k with
      | storeNext => exact absurd rfl hne
      | _ => exact hnil
    · cases hk : k.next with
      | none =>
        rw [hk] at h
        cases h
      | some k₁ =>
        rw [hk] at h
        obtain ⟨rfl, rfl⟩ := Pc.body.inj h
        exact hnext _ hk
    · rw [Shared.record_seg]
      rfl
  | fail now k r e hpc ha =>
    exact ⟨fun _ _ => rfl, fun h => ⟨h, rfl⟩, fun k r h => (by cases h), rfl⟩
  | release pending n h t hpc hs =>
    exact ⟨fun _ _ => rfl, fun h => ⟨h, rfl⟩, fun k r h => absurd h afterRelease_body,
      (FutexMutex.effect_of_step hs).magic⟩

theorem rangeOf_eq_nil {p q : Pc} (hp : p.publishing = false) : rangeOf p q = [] := by
  unfold rangeOf
  split
  · rfl
  · cases hp
  · rfl

end Step

end NamedHistoryBuffer.Creation
