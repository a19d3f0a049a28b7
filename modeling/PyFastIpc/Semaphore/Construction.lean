import PyFastIpc.Semaphore.Named

/-!
# Constructing a named semaphore while others use it

The store of the initial count replaces whatever count it finds, so the tokens that processes with a
returned constructor have posted by then, less those taken, are lost.  `Stocked` is the balance that
holds in every run: the count is what the constructors stored plus what posts added, minus what
waits took, minus what the store of the creator replaced.
-/

namespace NamedSemaphore

open FutexSemaphore

variable {ι : Type*}

/-- The count that the constructor of process `i` has stored. -/
def Proc.stored [DecidableEq ι] (creator i : ι) (initial : Option ℤ) (p : Proc) : ℤ :=
  if i = creator ∧ p.ctor = .done then initial.getD 0 else 0

/-- What a process has contributed to the count. -/
def Proc.account [DecidableEq ι] (creator i : ι) (initial : Option ℤ) (p : Proc) : ℤ :=
  p.stored creator i initial + p.added - p.sem.taken - p.found.toNat

/-- Only the creator stores a count, and it is the one that it was given. -/
structure ProcInv (creator i : ι) (initial : Option ℤ) (p : Proc) : Prop where
  store : ∀ v, p.ctor = .store v → i = creator ∧ initial.getD 0 = v.toNat
  found : i ≠ creator ∨ p.ctor ≠ .done → p.found = 0

/-- The count is the sum of the contributions. -/
def Stocked [Fintype ι] [DecidableEq ι] (creator : ι) (initial : ι → Option ℤ) (c : State ι) :
    Prop :=
  (c.shared.count.word.toNat : ℤ) = ∑ i, (c.locals i).account creator i (initial i)

/-- If the step is the store of the initial count, the count is 0. -/
def StoreFindsZero (c : State ι) (a : ι × Move ι) : Prop :=
  a.2 = .ctor → (∃ v, (c.locals a.1).ctor = .store v) → c.shared.count.word = 0

theorem afterMagic_store {initial : Option ℤ} {v : UInt32} (h : afterMagic initial = .store v) :
    initial.getD 0 = v.toNat := by
  cases initial with
  | none => cases h
  | some n =>
    rw [afterMagic] at h
    split_ifs at h with hn
    obtain rfl := Ctor.store.inj h
    rw [Option.getD_some, UInt32.toNat_ofNat']
    omega

theorem afterMagic_done {initial : Option ℤ} (h : afterMagic initial = .done) : initial = none := by
  cases initial with
  | none => rfl
  | some n =>
    rw [afterMagic] at h
    split_ifs at h

section Step

variable [DecidableEq ι] {creator i : ι} {pid : UInt32} {initial : Option ℤ} {m : Move ι}
  {h h' : Header ι} {p p' : Proc}

/-- A method changes the count by the tokens that it adds and takes. -/
theorem count_of_effect {n : FutexSemaphore.Move ι} {t t' : Thread}
    (he : FutexSemaphore.Effect i pid n h t h' t') :
    (h'.count.word.toNat : ℤ) + t'.taken = h.count.word.toNat + t.taken + addedBy t t' := by
  have hno (hpc : casAmount t.pc = 0) : addedBy t t' = 0 := by simp [addedBy, hpc]
  cases he with
  | add add cur room hm hpc hcur =>
    have hsum : (cur + add).toNat = cur.toNat + add.toNat := by
      rw [UInt32.toNat_add, Nat.mod_eq_of_lt room]
    have hadd : addedBy t (t.add (if cur = 0 then .wake add else .idle (some .none))) =
        add.toNat := by
      rw [addedBy, hpc, if_neg]
      · rfl
      · simp only [Thread.add]
        split_ifs <;> simp [retrying]
    rw [hadd]
    simp only [Thread.add, Futex.store_word, hsum, hcur]
    omega
  | retry add cur room hpc => simp [addedBy, Thread.goto, retrying]
  | take w k v pos hpc hv =>
    have hpos : 1 ≤ v.toNat := Nat.one_le_iff_ne_zero.2 fun h0 => pos (UInt32.toNat_inj.1 h0)
    have hsub : (v - 1).toNat = v.toNat - 1 :=
      UInt32.toNat_sub_of_le _ _ (UInt32.le_iff_toNat_le.2 hpos)
    rw [hno (by rw [hpc]; rfl)]
    simp only [Thread.take, Futex.store_word, hsub, hv]
    omega
  | wake add s who hpc hs =>
    rw [hno (by rw [hpc]; rfl), Futex.wake_word hs]
    simp [Thread.goto]
  | call f hm hpc =>
    obtain ⟨r, hpc⟩ := hpc
    rw [hno (by rw [hpc]; rfl)]
    simp [Thread.begin]
  | search w q hpc hq hout =>
    have hzero : casAmount t.pc = 0 := by cases hp : t.pc <;> simp_all [Pc.looping, casAmount]
    rw [hno hzero]
    simp [Thread.goto]
  | peeked hpc | refused add hpc hov | seen add cur room hpc | sleep w hpc hword
  | leave w q hpc hin hq | storeLastPid hpc | storeLastNs now hpc =>
    rw [hno (by rw [hpc]; rfl)]
    simp [Thread.goto]

theorem ProcInv.step (hp : ProcInv creator i initial p)
    (he : Effect creator i pid initial m h p h' p') : ProcInv creator i initial p' := by
  cases he with
  | magic hpc =>
    refine ⟨fun v hv => ?_, fun _ => hp.found (.inr (by simp [hpc]))⟩
    dsimp only at hv
    split_ifs at hv with hi
    · exact ⟨hi, afterMagic_store hv⟩
    · cases hv
  | store v hm hpc =>
    refine ⟨fun w hw => (by cases hw), fun hor => ?_⟩
    exact absurd (hp.store v hpc).1 (hor.resolve_right fun hne => hne rfl)
  | method n h' t hpc hf => exact ⟨hp.store, hp.found⟩

/-- A step changes the count and the contribution of the process by the same amount. -/
theorem Effect.account (hp : ProcInv creator i initial p)
    (he : Effect creator i pid initial m h p h' p') :
    (h'.count.word.toNat : ℤ) - p'.account creator i initial =
      h.count.word.toNat - p.account creator i initial := by
  cases he with
  | magic hpc =>
    have hstored : ({ p with ctor := afterMagic (if i = creator then initial else none) } :
        Proc).stored creator i initial = p.stored creator i initial := by
      unfold Proc.stored
      rw [if_neg (fun h : i = creator ∧ p.ctor = .done => by simp [hpc] at h)]
      split_ifs with hi hdone hdone
      · rw [afterMagic_done hdone.2]
        rfl
      · rfl
      · exact absurd hdone.1 hi
      · rfl
    unfold Proc.account
    rw [hstored]
  | store v hm hpc =>
    obtain ⟨rfl, hv⟩ := hp.store v hpc
    have hfound : p.found = 0 := hp.found (.inr (by simp [hpc]))
    simp only [Proc.account, Proc.stored, hpc, hfound, hv, Futex.store_word, reduceCtorEq, and_true,
      and_false, if_true, if_false, UInt32.toNat_zero]
    omega
  | method n h' t hpc hf =>
    have hcount := count_of_effect hf
    simp only [Proc.account, Proc.stored, hpc]
    push_cast
    omega

end Step

section Run

variable [DecidableEq ι] [Fintype ι] {creator : ι} {pid : ι → UInt32} {initial : ι → Option ℤ}
  {c : State ι}

theorem Stocked.step {i : ι} {m : Move ι} {hd : Header ι} {p : Proc}
    (hs : Stocked creator initial c) (hp : ProcInv creator i (initial i) (c.locals i))
    (he : Effect creator i (pid i) (initial i) m c.shared (c.locals i) hd p) :
    Stocked creator initial ⟨hd, Function.update c.locals i p⟩ := by
  have hsum := Config.sum_update_index c.locals i p fun j p => p.account creator j (initial j)
  have hstep := he.account hp
  unfold Stocked at hs ⊢
  dsimp only
  omega

theorem stocked_of_reach {ok : State ι → ι × Move ι → Prop}
    (h : (system creator pid initial).Reach ok c) :
    (∀ i, ProcInv creator i (initial i) (c.locals i)) ∧ Stocked creator initial c := by
  refine h.invariant (fun c => (∀ i, ProcInv creator i (initial i) (c.locals i)) ∧
    Stocked creator initial c) ?_ fun c a c' _ hI _ hs => ?_
  · rintro c rfl
    refine ⟨fun i => ⟨fun v hv => (by cases hv), fun _ => rfl⟩, ?_⟩
    simp [Stocked, start, Futex.zero, Proc.account, Proc.stored, Proc.fresh, Thread.fresh]
  · obtain ⟨hd, p, he, rfl⟩ := effect_of_system_step hs
    exact ⟨Config.forall_update (fun i p => ProcInv creator i (initial i) p)
      ((hI.1 a.1).step he) fun j _ => hI.1 j, hI.2.step (hI.1 a.1) he⟩

/-- When all constructors have returned, only what the creator's store replaced is missing. -/
theorem count_of_done (h : Stocked creator initial c)
    (hinv : ∀ i, ProcInv creator i (initial i) (c.locals i))
    (hdone : ∀ i, (c.locals i).ctor = .done) :
    (c.shared.count.word.toNat : ℤ) = (initial creator).getD 0 + ∑ i, ((c.locals i).added : ℤ) -
      ∑ i, (c.locals i).sem.taken - (c.locals creator).found.toNat := by
  have hstored : ∑ i, (c.locals i).stored creator i (initial i) = (initial creator).getD 0 := by
    simp [Proc.stored, hdone, Finset.sum_ite_eq']
  have hfound : ∑ i, ((c.locals i).found.toNat : ℤ) = (c.locals creator).found.toNat := by
    refine Finset.sum_eq_single creator (fun i _ hi => ?_) fun hc => absurd (Finset.mem_univ _) hc
    simp [(hinv i).found (.inl hi)]
  unfold Stocked Proc.account at h
  rw [h, Finset.sum_sub_distrib, Finset.sum_sub_distrib, Finset.sum_add_distrib, hstored, hfound]

omit [Fintype ι] in
/-- With the condition, the creator's store replaces nothing. -/
theorem found_of_reach (h : (system creator pid initial).Reach StoreFindsZero c) :
    ∀ i, (c.locals i).found = 0 := by
  refine h.invariant (fun c => ∀ i, (c.locals i).found = 0) ?_ fun c a c' _ hI hok hs => ?_
  · rintro c rfl i
    rfl
  · obtain ⟨hd, p, he, rfl⟩ := effect_of_system_step hs
    refine Config.forall_update (fun _ (p : Proc) => p.found = 0) ?_ fun j _ => hI j
    cases he with
    | magic hpc => exact hI a.1
    | store v hm hpc => exact hok hm ⟨v, hpc⟩
    | method n h' t hpc hf => exact hI a.1

end Run

end NamedSemaphore
