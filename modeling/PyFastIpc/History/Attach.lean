import PyFastIpc.History.Stores
import PyFastIpc.History.Order

/-!
# Attaching to a buffer that is being created

The magic number is the first store of `create`, so a constructor can attach to a buffer whose
fields are still 0, and the later stores of `create` can undo what its process has done.

`AttachOrder` orders the returns and the publishes of the attaching processes after stores of
`create`.  `Inv` holds in runs in this order: the creator has stored the fields up to its program
point, the mutex implements the ideal lock, and as long as `create` has something to store, nobody
has published (`Quiet`).
-/

namespace NamedHistoryBuffer.Creation

open FutexMutex (Procs Implements)

variable {ι : Type*}

/-- The mutex of the buffer. -/
def State.mutex (c : State ι) : FutexMutex.State ι :=
  ⟨c.shared.base.seg.mutex, fun i => (c.locals i).proc.mx⟩

/-- The place of a store in `create`. -/
def Store.rank : Store → ℕ
  | .magic => 0
  | .metaSize => 1
  | .numSlots => 2
  | .slotSize => 3
  | .msgIdx => 4
  | .wipe => 5
  | .mutexMagic => 6
  | .force => 7
  | .metaCopy => 8

/-- The creator at this point has executed the store. -/
def Ctor.past (s : Store) : Ctor → Bool
  | .create s' => decide (s.rank < s'.rank)
  | _ => true

/-- The creator has no byte left to store. -/
def Ctor.finished (A : Params) (x : Ctor) : Prop :=
  x.past .metaCopy = true ∨ A.metaEncoded = [] ∧ x.past .force = true

/-- The order of `create` and the other processes. -/
structure AttachOrder (A : Params) (creator : ι) (c : State ι) (a : ι × Move ι) : Prop where
  /-- A constructor returns after `create` has stored the magic word of the mutex. -/
  ret : (c.locals a.1).ctor = .ret → (c.locals creator).ctor.past .mutexMagic = true
  /-- A publish begins after the last store of `create`. -/
  publish : ∀ data, a.2 = .method (.call (.publish data)) → (c.locals creator).ctor.finished A

/-! ## The invariant -/

/-- What is known about one process. -/
structure LocalInv (A : Params) (q : Process ι) : Prop where
  outside : q.ctor ≠ .done → q.proc.pc = .idle none ∧ q.proc.mx.taken = false
  calm : q.ctor ≠ .done → q.ctor ≠ .create .force → ∃ r, q.proc.mx.pc = .idle r
  force : q.ctor = .create .force → q.proc.mx.pc.forcing
  done : q.ctor = .done → ProcInv A.slotSize q.proc

/-- The fields, when the creator is at `x`. -/
structure FieldsAt (A : Params) (x : Ctor) (m : Memory) : Prop where
  metaSize : metaSize m = if x.past .metaSize then A.metaEncoded.length else 0
  numSlots : numSlots m = if x.past .numSlots then A.numSlots else 0
  slotSize : slotSize m = if x.past .slotSize then A.slotSize else 0

/-- Nobody has published, nor begun to. -/
structure Quiet (c : State ι) : Prop where
  done : c.shared.base.done = []
  written : c.shared.written = []
  owner : c.shared.base.seg.mutex.ownerPid = 0
  calm : ∀ i, (c.locals i).proc.pc.publishing = false ∧ (c.locals i).proc.mx.taken = false

/-- What holds in every state. -/
structure Inv (P : Procs ι) (A : Params) (creator : ι) (c : State ι) : Prop where
  procs : ∀ i, LocalInv A (c.locals i)
  only : ∀ i s, (c.locals i).ctor = .create s → i = creator
  lock : ∃ h, Implements P c.mutex h
  fields : FieldsAt A (c.locals creator).ctor c.shared.base.seg.mem
  attached : (∃ i, (c.locals i).ctor = .done) → (c.locals creator).ctor.past .mutexMagic = true
  magic : (c.locals creator).ctor.past .mutexMagic = true →
    c.shared.base.seg.mutex.magic = FutexMutex.magicMUTX
  index : c.shared.base.done = [] → msgIdx c.shared.base.seg.mem = 0
  regs : ∀ i k r, (c.locals i).proc.pc = .body k r → BehindHeader k r
  quiet : ¬ (c.locals creator).ctor.finished A → Quiet c

theorem attachNext_ne {size : ℕ} {m : Memory} {x y : Ctor} (h : attachNext size m x = some y) :
    (∀ s, x ≠ .create s) ∧ x ≠ .done ∧ (∀ s, y ≠ .create s) ∧ (y = .done → x = .ret) := by
  cases x with
  | check | map total | recheck =>
    obtain rfl := Option.some.inj h
    refine ⟨fun s => by simp, by simp, fun s => ?_, fun hy => ?_⟩
    · split_ifs <;> simp
    · split_ifs at hy
  | loadNumSlots | loadSlotSize n | loadMetaSize n s | ret =>
    obtain rfl := Option.some.inj h
    simp
  | create s | mutexInit | done | failed e => cases h

theorem past_of_ne {x : Ctor} (h : ∀ s, x ≠ .create s) (f : Store) : x.past f = true := by
  cases x with
  | create s => exact absurd rfl (h s)
  | _ => rfl

/-- A store of `create` is past when the next one follows. -/
theorem past_next {s : Store} (hs : s ≠ .force) (f : Store) :
    s.next.past f = ((Ctor.create s).past f || decide (f = s)) := by
  cases s <;> first | exact absurd rfl hs | (cases f <;> rfl)

theorem past_afterForce {f : Store} (hf : f.rank < Store.force.rank) (p : FutexMutex.Pc) :
    (afterForce p).past f = true := by
  unfold afterForce
  split
  · exact decide_eq_true (hf.trans (by decide))
  · exact decide_eq_true hf

theorem past_le {x : Ctor} {f g : Store} (h : x.past g = true) (hle : f.rank ≤ g.rank) :
    x.past f = true := by
  cases x with
  | create s => exact decide_eq_true (hle.trans_lt (of_decide_eq_true h))
  | _ => rfl

/-- While the creator is in `create`, it has something to store, or the metadata is empty and comes
next. -/
theorem finished_create {A : Params} {s : Store} :
    (Ctor.create s).finished A ↔ A.metaEncoded = [] ∧ s = .metaCopy := by
  cases s <;> simp [Ctor.finished, Ctor.past, Store.rank]

theorem Ctor.finished_mono {A : Params} {x y : Ctor} (h : x.finished A)
    (hle : ∀ f : Store, x.past f = true → y.past f = true) : y.finished A :=
  h.imp (hle _) fun ⟨hnil, hforce⟩ => ⟨hnil, hle _ hforce⟩

/-- Once the fields are stored they are what `create` was given. -/
theorem FieldsAt.stored {A : Params} {x : Ctor} {m : Memory} (h : FieldsAt A x m)
    (hx : x.past .mutexMagic = true) : NamedHistoryBuffer.metaSize m = A.metaEncoded.length ∧
      NamedHistoryBuffer.numSlots m = A.numSlots ∧
      NamedHistoryBuffer.slotSize m = A.slotSize := by
  refine ⟨?_, ?_, ?_⟩
  · rw [h.metaSize, if_pos (past_le hx (by decide))]
  · rw [h.numSlots, if_pos (past_le hx (by decide))]
  · rw [h.slotSize, if_pos (past_le hx (by decide))]

theorem FieldsAt.mono {A : Params} {x y : Ctor} {m m' : Memory} (h : FieldsAt A x m)
    (hm : ∀ a, a + 8 ≤ 32 → m'.u64 a = m.u64 a)
    (hxy : ∀ f : Store, f.rank < Store.msgIdx.rank → y.past f = x.past f) : FieldsAt A y m' where
  metaSize := by
    rw [hxy _ (by decide)]
    exact (hm 8 (by omega)).trans h.metaSize
  numSlots := by
    rw [hxy _ (by decide)]
    exact (hm 16 (by omega)).trans h.numSlots
  slotSize := by
    rw [hxy _ (by decide)]
    exact (hm 24 (by omega)).trans h.slotSize

/-- The stores of `create` set the fields one after the other. -/
theorem FieldsAt.store {A : Params} {s : Store} {m : Memory} (h : FieldsAt A (.create s) m)
    (hs : s ≠ .force) (hM : A.metaEncoded.length < 2 ^ 64) (hN : A.numSlots < 2 ^ 64)
    (hS : A.slotSize < 2 ^ 64) : FieldsAt A s.next (s.mem A m) := by
  -- a store that is not one of the three fields
  have hother (hkeep : ∀ a, 8 ≤ a → a + 8 ≤ 32 → (s.mem A m).u64 a = m.u64 a)
      (hne : s ≠ .metaSize ∧ s ≠ .numSlots ∧ s ≠ .slotSize) : FieldsAt A s.next (s.mem A m) := by
    have hpast (f : Store) (hf : f ≠ s) : s.next.past f = (Ctor.create s).past f := by
      rw [past_next hs, decide_eq_false hf, Bool.or_false]
    refine ⟨?_, ?_, ?_⟩
    · rw [hpast _ hne.1.symm]
      exact (hkeep 8 (by omega) (by omega)).trans h.metaSize
    · rw [hpast _ hne.2.1.symm]
      exact (hkeep 16 (by omega) (by omega)).trans h.numSlots
    · rw [hpast _ hne.2.2.symm]
      exact (hkeep 24 (by omega) (by omega)).trans h.slotSize
  have hset {off v : ℕ} (hv : v < 2 ^ 64) : (m.setU64 off v).u64 off = v := by
    rw [Memory.u64_setU64, Nat.mod_eq_of_lt hv]
  have hkeep {off a v : ℕ} (hne : off + 8 ≤ a ∨ a + 8 ≤ off) :
      (m.setU64 off v).u64 a = m.u64 a := Memory.u64_setU64_of_disjoint hne
  cases s with
  | magic => exact hother (fun a h8 _ => hkeep (.inl h8)) (by decide)
  | metaSize => exact ⟨hset hM, (hkeep (.inl (by omega))).trans h.numSlots,
      (hkeep (.inl (by omega))).trans h.slotSize⟩
  | numSlots => exact ⟨(hkeep (.inr (by omega))).trans h.metaSize, hset hN,
      (hkeep (.inl (by omega))).trans h.slotSize⟩
  | slotSize => exact ⟨(hkeep (.inr (by omega))).trans h.metaSize,
      (hkeep (.inr (by omega))).trans h.numSlots, hset hS⟩
  | msgIdx => exact hother (fun a _ ha => hkeep (.inr ha)) (by decide)
  | wipe | mutexMagic => exact hother (fun _ _ _ => rfl) (by decide)
  | force => exact absurd rfl hs
  | metaCopy =>
    refine hother (fun a _ ha => Memory.u64_write (.inr (.inr (.inr ?_)))) (by decide)
    unfold calcMetaOffset headerSize
    omega

/-! ## One step -/

theorem Store.next_ne (s : Store) : s.next ≠ .done ∧ (s.next = .create .force →
    s = .mutexMagic ∨ s = .force) := by
  cases s <;> simp [Store.next]

theorem afterForce_ne (p : FutexMutex.Pc) : afterForce p ≠ .done := by
  unfold afterForce
  split <;> simp

theorem call_of_ne {s : Store} (hs : s ≠ .mutexMagic) (p : Proc ι) : s.call p = p := by
  cases s <;> first | rfl | exact absurd rfl hs

theorem ownerPid_header (s : Store) (h : FutexMutex.Header ι) :
    (s.header h).ownerPid = h.ownerPid ∨ (s.header h).ownerPid = 0 := by
  cases s with
  | wipe => exact .inr rfl
  | _ => exact .inl rfl

/-- While `create` has something to store, nobody has the lock. -/
theorem Inv.free {P : Procs ι} {A : Params} {creator : ι} {c : State ι} (hc : Inv P A creator c)
    {h : Option ι} (hI : Implements P c.mutex h)
    (hcreate : ¬ (c.locals creator).ctor.finished A) : h = none :=
  hI.eq_none_of_free fun j => ((hc.quiet hcreate).calm j).2

/-- Then the state word is 0. -/
theorem Inv.word {P : Procs ι} {A : Params} {creator : ι} {c : State ι} (hc : Inv P A creator c)
    (hcreate : ¬ (c.locals creator).ctor.finished A) :
    c.shared.base.seg.mutex.state.word = 0 := by
  obtain ⟨h, hI⟩ := hc.lock
  by_contra hne
  exact hI.word.1 hne (hc.free hI hcreate)

section Step

variable [DecidableEq ι] {i : ι} {pid : UInt32}

variable {P : Procs ι} {A : Params} {creator : ι} {c : State ι} {m : Move ι} {t : Traced ι}
  {q : Process ι}

theorem LocalInv.step {t₀ : Traced ι} {q₀ : Process ι} (hinv : LocalInv A q₀)
    (hslot : q₀.ctor = .done → slotSize t₀.base.seg.mem = A.slotSize)
    (hinside : q₀.proc.mx.pc.inside = true → q₀.proc.mx.taken = true)
    (he : Effect A i pid m t₀ q₀ t q) : LocalInv A q := by
  cases he with
  | store s hs hpc =>
    have hout := hinv.outside (by simp [hpc])
    have hcalm := hinv.calm (by simp [hpc]) (by simp [hpc, hs])
    by_cases hmagic : s = .mutexMagic
    · subst hmagic
      exact ⟨fun _ => hout, fun _ h => absurd rfl h, fun _ => .inl rfl, fun h => by cases h⟩
    · rw [call_of_ne hmagic]
      refine ⟨fun _ => hout, fun _ _ => hcalm, fun h => ?_, fun h => absurd h s.next_ne.1⟩
      rcases s.next_ne.2 h with h | h
      · exact absurd h hmagic
      · exact absurd h hs
  | force n h mx hpc he =>
    obtain ⟨hidle, htaken⟩ := hinv.outside (by simp [hpc])
    have hforce := FutexMutex.force_step he (hinv.force hpc)
    refine ⟨fun _ => ⟨hidle, hforce.taken htaken⟩, fun _ hne => ?_, fun h => ?_,
      fun h => absurd h (afterForce_ne _)⟩
    · rcases hforce.pc with hleave | hdone
      · refine absurd ?_ hne
        change afterForce mx.pc = _
        cases hp : mx.pc <;> first | rfl | simp [hp, FutexMutex.Pc.leaving] at hleave
      · exact hdone
    · rcases hforce.pc with hleave | ⟨r, hdone⟩
      · exact .inr hleave
      · change afterForce mx.pc = _ at h
        rw [hdone] at h
        cases h
  | mutexInit hpc =>
    exact ⟨fun _ => hinv.outside (by simp [hpc]), fun _ _ => hinv.calm (by simp [hpc])
      (by simp [hpc]), fun h => (by cases h), fun h => by cases h⟩
  | attach x hx =>
    obtain ⟨hcreate, hdone, hcreate', hdone'⟩ := attachNext_ne hx
    have hout := hinv.outside hdone
    have hcalm := hinv.calm hdone (hcreate .force)
    exact ⟨fun _ => hout, fun _ _ => hcalm, fun h => absurd h (hcreate' _),
      fun _ => .of_outside (by rw [hout.1]; rfl) hcalm⟩
  | method n sh p hm hpc hs =>
    exact ⟨fun h => absurd hpc h, fun h => absurd hpc h, fun h => by simp [hpc] at h,
      fun _ => (hinv.done hpc).step (hslot hpc) hinside (NamedHistoryBuffer.effect_of_step hs)⟩

/-- Only the creator is in `create`. -/
theorem Inv.create_of (hc : Inv P A creator c)
    (he : Effect A i pid m c.shared (c.locals i) t q) {s : Store} (hq : q.ctor = .create s) :
    i = creator := by
  cases he with
  | store s' hs hpc => exact hc.only i s' hpc
  | force n h mx hpc he => exact hc.only i _ hpc
  | mutexInit hpc => cases hq
  | attach x hx => exact absurd hq ((attachNext_ne hx).2.2.1 s)
  | method n sh p hm hpc hs => exact absurd (hpc.symm.trans hq) (by simp)

theorem State.mutex_update (c : State ι) (i : ι) (t : Traced ι) (q : Process ι) :
    State.mutex ⟨t, Function.update c.locals i q⟩ =
      ⟨t.base.seg.mutex, Function.update c.mutex.locals i q.proc.mx⟩ :=
  congrArg (Config.mk t.base.seg.mutex)
    (Function.comp_update (fun q : Process ι => q.proc.mx) c.locals i q)

/-- A step outside the calls of the mutex changes its words only. -/
theorem State.mutex_update_same {c : State ι} {i : ι} {q : Process ι} (t : Traced ι)
    (hq : q.proc.mx = (c.locals i).proc.mx) :
    State.mutex ⟨t, Function.update c.locals i q⟩ = ⟨t.base.seg.mutex, c.mutex.locals⟩ := by
  rw [State.mutex_update, hq]
  exact congrArg (Config.mk _) (Function.update_eq_self i c.mutex.locals)

theorem Inv.lock_step (hc : Inv P A creator c) (halone : ∀ i, P.Alone i)
    (he : Effect A i (P.pid i) m c.shared (c.locals i) t q) :
    ∃ h, Implements P (State.mutex ⟨t, Function.update c.locals i q⟩) h := by
  obtain ⟨h, hI⟩ := hc.lock
  have hsame := State.mutex_update_same (c := c) (i := i) (q := q) t
  cases he with
  | store s hs hpc =>
    by_cases hmagic : s = .mutexMagic
    · subst hmagic
      have hcall : FutexMutex.Effect i (P.pid i) (.call .forceRelease) c.mutex.shared
          (c.mutex.locals i) c.mutex.shared ((c.mutex.locals i).begin .forceRelease) :=
        .call _ rfl ((hc.procs i).calm (by simp [hpc]) (by simp [hpc]))
      have hidle : (c.mutex.locals i).pc ≠ .forceXchg := fun hf => by
        obtain ⟨r, hr⟩ := (hc.procs i).calm (by simp [hpc]) (by simp [hpc])
        cases hr.symm.trans hf
      obtain ⟨h', -, hI'⟩ := hI.step hcall (fun hm => by cases hm) fun hf => absurd hf hidle
      rw [State.mutex_update]
      exact ⟨h', hI'.write rfl (.inl rfl)⟩
    · rw [hsame (by rw [call_of_ne hmagic])]
      refine ⟨h, hI.write ?_ ?_⟩
      · cases s with
        | wipe =>
          obtain rfl := hc.only i _ hpc
          exact (hc.word fun h => by simp [hpc, finished_create] at h).symm
        | _ => rfl
      · cases s with
        | wipe => exact .inr rfl
        | _ => exact .inl rfl
  | force n hd mx hpc hf =>
    obtain rfl := hc.only i _ hpc
    have hfree : h = none := hc.free hI fun h => by simp [hpc, finished_create] at h
    obtain ⟨h', -, hI'⟩ := hI.step hf (fun _ => .inl (halone i)) fun _ => .inl hfree
    rw [State.mutex_update]
    exact ⟨h', hI'⟩
  | mutexInit hpc =>
    rw [hsame rfl]
    exact ⟨h, hI.write rfl (.inl rfl)⟩
  | attach x hx =>
    rw [hsame rfl]
    exact ⟨h, hI⟩
  | method n sh p hm hpc hs =>
    have he := NamedHistoryBuffer.effect_of_step hs
    rcases he.mutex ((hc.procs i).done hpc) with ⟨hseg, hmx⟩ | ⟨n, hn⟩
    · rw [hsame hmx]
      exact ⟨h, hI.write (congrArg (·.state.word) hseg) (.inl (congrArg (·.ownerPid) hseg))⟩
    · obtain ⟨h', -, hI'⟩ := hI.step hn (fun _ => .inl (halone i)) fun hx =>
        absurd hx ((hc.procs i).done hpc).ne_forceXchg
      rw [State.mutex_update]
      exact ⟨h', hI'⟩

/-- Other steps than those of `create` leave a process that has passed all stores. -/
theorem past_step (he : Effect A i pid m c.shared (c.locals i) t q)
    (hne : ∀ s, (c.locals i).ctor ≠ .create s) (f : Store) : q.ctor.past f = true := by
  refine past_of_ne (fun s hq => ?_) f
  cases he with
  | store s' hs hpc => exact hne s' hpc
  | force n h mx hpc he => exact hne _ hpc
  | mutexInit hpc => cases hq
  | attach x hx => exact (attachNext_ne hx).2.2.1 s hq
  | method n sh p hm hpc hs => exact absurd (hpc.symm.trans hq) (by simp)

variable (creator) in
theorem past_update (he : Effect A i pid m c.shared (c.locals i) t q)
    (hne : ∀ s, (c.locals i).ctor ≠ .create s) (f : Store) :
    (Function.update c.locals i q creator).ctor.past f = (c.locals creator).ctor.past f := by
  by_cases hi : creator = i
  · subst hi
    rw [Function.update_self, past_step he hne, past_of_ne hne]
  · rw [Function.update_of_ne hi]

/-- A store of `create` stays past. -/
theorem past_mono (hc : Inv P A creator c) (he : Effect A i pid m c.shared (c.locals i) t q)
    {f : Store} (hf : (c.locals creator).ctor.past f = true) :
    (Function.update c.locals i q creator).ctor.past f = true := by
  have hother (hne : ∀ s, (c.locals i).ctor ≠ .create s) :
      (Function.update c.locals i q creator).ctor.past f = true := by
    rw [past_update creator he hne]
    exact hf
  cases he with
  | store s hs hpc =>
    obtain rfl := hc.only i s hpc
    rw [hpc] at hf
    rw [Function.update_self, past_next hs, hf]
    rfl
  | force n h mx hpc he =>
    obtain rfl := hc.only i _ hpc
    rw [hpc] at hf
    rw [Function.update_self]
    exact past_afterForce (of_decide_eq_true hf) mx.pc
  | mutexInit hpc => exact hother fun s => by simp [hpc]
  | attach x hx => exact hother (attachNext_ne hx).1
  | method n sh p hm hpc hs => exact hother fun s => by simp [hpc]

theorem Inv.fields_step (hc : Inv P A creator c) (hM : A.metaEncoded.length < 2 ^ 64)
    (hN : A.numSlots < 2 ^ 64) (hS : A.slotSize < 2 ^ 64)
    (he : Effect A i pid m c.shared (c.locals i) t q) :
    FieldsAt A (Function.update c.locals i q creator).ctor t.base.seg.mem := by
  have hpast := past_update creator he
  cases he with
  | store s hs hpc =>
    obtain rfl := hc.only i s hpc
    have hfields := hc.fields
    rw [hpc] at hfields
    rw [Function.update_self]
    exact hfields.store hs hM hN hS
  | force n h mx hpc he =>
    obtain rfl := hc.only i _ hpc
    refine hc.fields.mono (fun _ _ => rfl) fun f hf => ?_
    have hlt : f.rank < Store.force.rank := hf.trans (by decide)
    rw [Function.update_self, hpc]
    exact (past_afterForce hlt mx.pc).trans (decide_eq_true hlt).symm
  | mutexInit hpc =>
    exact hc.fields.mono (fun _ _ => rfl) fun f _ => hpast (fun s => by simp [hpc]) f
  | attach x hx =>
    exact hc.fields.mono (fun _ _ => rfl) fun f _ => hpast (attachNext_ne hx).1 f
  | method n sh p hm hpc hs =>
    have hgentle := gentle_of_effect (hc.regs i) (NamedHistoryBuffer.effect_of_step hs)
    exact hc.fields.mono hgentle.fields fun f _ =>
      hpast (fun s => by simp [hpc]) f

/-- A process is done after the step when it was before, or its constructor returns in it. -/
theorem done_of_step (he : Effect A i pid m c.shared (c.locals i) t q) {j : ι}
    (hj : (Function.update c.locals i q j).ctor = .done) :
    (c.locals j).ctor = .done ∨ j = i ∧ (c.locals i).ctor = .ret := by
  by_cases hji : j = i
  · subst hji
    rw [Function.update_self] at hj
    cases he with
    | store s hs hpc => exact absurd hj s.next_ne.1
    | force n h mx hpc he => exact absurd hj (afterForce_ne _)
    | mutexInit hpc => cases hj
    | attach x hx => exact .inr ⟨rfl, (attachNext_ne hx).2.2.2 hj⟩
    | method n sh p hm hpc hs => exact .inl hpc
  · rw [Function.update_of_ne hji] at hj
    exact .inl hj

theorem Inv.attached_step (hc : Inv P A creator c) (hok : AttachOrder A creator c (i, m))
    (he : Effect A i pid m c.shared (c.locals i) t q)
    (hex : ∃ j, (Function.update c.locals i q j).ctor = .done) :
    (Function.update c.locals i q creator).ctor.past .mutexMagic = true := by
  obtain ⟨j, hj⟩ := hex
  refine past_mono hc he ?_
  rcases done_of_step he hj with hdone | ⟨-, hret⟩
  · exact hc.attached ⟨j, hdone⟩
  · exact hok.ret hret

/-- The magic word of the mutex is there once `create` has stored it: the wipe is past. -/
theorem Inv.magic_step (hc : Inv P A creator c) (he : Effect A i pid m c.shared (c.locals i) t q)
    (hpast : (Function.update c.locals i q creator).ctor.past .mutexMagic = true) :
    t.base.seg.mutex.magic = FutexMutex.magicMUTX := by
  have hkept (hne : ∀ s, (c.locals i).ctor ≠ .create s) :
      c.shared.base.seg.mutex.magic = FutexMutex.magicMUTX :=
    hc.magic ((past_update creator he hne _).symm.trans hpast)
  cases he with
  | store s hs hpc =>
    obtain rfl := hc.only i s hpc
    have hnext : s.next.past .mutexMagic = true := by simpa using hpast
    cases s with
    | mutexMagic => rfl
    | metaCopy => exact hc.magic (by rw [hpc]; rfl)
    | force => exact absurd rfl hs
    | magic | metaSize | numSlots | slotSize | msgIdx | wipe => cases hnext
  | force n h mx hpc hf =>
    obtain rfl := hc.only i _ hpc
    exact hf.magic.trans (hc.magic (by rw [hpc]; rfl))
  | mutexInit hpc => rfl
  | attach x hx => exact hkept (attachNext_ne hx).1
  | method n sh p hm hpc hs =>
    exact (gentle_of_effect (hc.regs i) (NamedHistoryBuffer.effect_of_step hs)).magic.trans
      (hkept fun s => by simp [hpc])

/-- Only `msgIdx` among the stores of `create` is one into the index. -/
theorem msgIdx_store (A : Params) (m : Memory) {s : Store} (hs : s ≠ .msgIdx) :
    msgIdx (s.mem A m) = msgIdx m := by
  have hset {off v : ℕ} (hoff : off + 8 ≤ 32) : msgIdx (m.setU64 off v) = msgIdx m :=
    congrArg (fun n : ℕ => wrap64 n) (Memory.u64_setU64_of_disjoint (.inl hoff))
  cases s with
  | magic | metaSize | numSlots | slotSize => exact hset (by omega)
  | msgIdx => exact absurd rfl hs
  | wipe | mutexMagic | force => rfl
  | metaCopy => exact msgIdx_write le_rfl

theorem Inv.index_step (hc : Inv P A creator c) (he : Effect A i pid m c.shared (c.locals i) t q)
    (hnil : t.base.done = []) : msgIdx t.base.seg.mem = 0 := by
  cases he with
  | store s hs hpc =>
    by_cases hidx : s = .msgIdx
    · subst hidx
      exact msgIdx_setMsgIdx 0
    · exact (msgIdx_store A _ hidx).trans (hc.index hnil)
  | force n h mx hpc hf => exact hc.index hnil
  | mutexInit hpc => exact hc.index hnil
  | attach x hx => exact hc.index hnil
  | method n sh p hm hpc hs =>
    have hgentle := gentle_of_effect (hc.regs i) (NamedHistoryBuffer.effect_of_step hs)
    obtain ⟨hbefore, hsame⟩ := hgentle.index hnil
    exact hsame.trans (hc.index hbefore)

theorem Inv.regs_step (hc : Inv P A creator c) (he : Effect A i pid m c.shared (c.locals i) t q) :
    ∀ k r, q.proc.pc = .body k r → BehindHeader k r := by
  intro k r hq
  cases he with
  | store s hs hpc =>
    have hout := ((hc.procs i).outside (by simp [hpc])).1
    cases s <;> cases hout.symm.trans hq
  | force n h mx hpc hf => exact hc.regs i k r hq
  | mutexInit hpc => exact hc.regs i k r hq
  | attach x hx => exact hc.regs i k r hq
  | method n sh p hm hpc hs =>
    exact (gentle_of_effect (hc.regs i) (NamedHistoryBuffer.effect_of_step hs)).regs k r hq

/-- Nobody publishes before `create` is finished. -/
theorem Inv.quiet_step (hc : Inv P A creator c) (hok : AttachOrder A creator c (i, m))
    (he : Effect A i pid m c.shared (c.locals i) t q)
    (hcreate : ¬ (Function.update c.locals i q creator).ctor.finished A) :
    Quiet ⟨t, Function.update c.locals i q⟩ := by
  have hbefore : ¬ (c.locals creator).ctor.finished A := fun h =>
    hcreate (Ctor.finished_mono h fun f => past_mono hc he)
  obtain ⟨hdone, hwritten, howner, hcalm⟩ := hc.quiet hbefore
  -- a step that does not begin a publish
  have hquiet (hdone' : t.base.done = []) (hwritten' : t.written = [])
      (howner' : t.base.seg.mutex.ownerPid = 0) (hpc : q.proc.pc.publishing = false)
      (htaken : q.proc.mx.taken = false) : Quiet ⟨t, Function.update c.locals i q⟩ :=
    ⟨hdone', hwritten', howner', Config.forall_update
      (fun _ (q : Process ι) => q.proc.pc.publishing = false ∧ q.proc.mx.taken = false)
      ⟨hpc, htaken⟩ fun j _ => hcalm j⟩
  cases he with
  | store s hs hpc =>
    refine hquiet hdone hwritten ?_ ?_ ?_
    · exact (ownerPid_header s _).elim (fun hsame => hsame.trans howner) id
    · cases s <;> exact (hcalm i).1
    · cases s <;> exact (hcalm i).2
  | force n h mx hpc hf =>
    have hforce := FutexMutex.force_step hf ((hc.procs i).force hpc)
    refine hquiet hdone hwritten ?_ (hcalm i).1 (hforce.taken (hcalm i).2)
    exact hforce.owner.elim (fun hsame => hsame.trans howner) fun hzero => hzero.2
  | mutexInit hpc => exact hquiet hdone hwritten howner (hcalm i).1 (hcalm i).2
  | attach x hx => exact hquiet hdone hwritten howner (hcalm i).1 (hcalm i).2
  | method n sh p hm hpc hs =>
    obtain ⟨rfl, hread, hmx⟩ := publishing_of_step hs (hcalm i).1 fun data hn =>
      hbefore (hok.publish data (by rw [hm, hn]))
    refine hquiet hdone ?_ howner hread (by rw [hmx]; exact (hcalm i).2)
    change c.shared.written ++ rangeOf _ _ = []
    rw [hwritten, rangeOf_eq_nil (hcalm i).1]
    rfl

theorem Fresh.inv (h : Fresh A creator c) : Inv P A creator c := by
  have hproc (i : ι) : (c.locals i).proc = .fresh := by
    by_cases hi : i = creator
    · rw [hi, h.creating]
    · rw [h.attaching i hi]
  have hctor (i : ι) : (c.locals i).ctor = .create .magic ∨ (c.locals i).ctor = .check := by
    by_cases hi : i = creator
    · rw [hi, h.creating]
      exact .inl rfl
    · rw [h.attaching i hi]
      exact .inr rfl
  have hne (i : ι) : (c.locals i).ctor ≠ .done ∧ (c.locals i).ctor ≠ .create .force := by
    rcases hctor i with hi | hi <;> simp [hi]
  refine ⟨fun i => ?_, fun i s hi => ?_, ⟨none, .fresh ⟨?_, ?_, fun i => ?_⟩⟩, ?_, ?_,
    fun hpast => ?_, fun _ => ?_, fun i k r hpc => ?_, fun _ => ?_⟩
  · refine ⟨fun _ => ?_, fun _ _ => ?_, fun hf => absurd hf (hne i).2,
      fun hd => absurd hd (hne i).1⟩
    · rw [hproc]
      exact ⟨rfl, rfl⟩
    · rw [hproc]
      exact ⟨none, rfl⟩
  · by_contra hic
    rw [h.attaching i hic] at hi
    cases hi
  · exact congrArg (·.state) h.mutex
  · exact congrArg (·.ownerPid) h.mutex
  · exact congrArg (·.mx) (hproc i)
  · rw [h.creating, h.mem]
    exact ⟨Memory.u64_blank 8, Memory.u64_blank 16, Memory.u64_blank 24⟩
  · rintro ⟨i, hi⟩
    exact absurd hi (hne i).1
  · rw [h.creating] at hpast
    cases hpast
  · rw [h.mem]
    rw [msgIdx, Memory.i64, Memory.u64_blank, Nat.cast_zero, wrap64_zero]
  · rw [hproc i] at hpc
    cases hpc
  · refine ⟨h.histories.1, h.histories.2, congrArg (·.ownerPid) h.mutex, fun i => ?_⟩
    rw [hproc i]
    exact ⟨rfl, rfl⟩

theorem inv_of_reach (halone : ∀ i, P.Alone i) (hM : A.metaEncoded.length < 2 ^ 64)
    (hN : A.numSlots < 2 ^ 64) (hS : A.slotSize < 2 ^ 64)
    (h : (system P A creator).Reach (AttachOrder A creator) c) : Inv P A creator c := by
  refine h.invariant (Inv P A creator) (fun c (hc : Fresh A creator c) => hc.inv)
    fun c a c' _ hc hok hs => ?_
  obtain ⟨t, q, he, rfl⟩ := effect_of_system_step hs
  obtain ⟨hd, hI⟩ := hc.lock
  have hslot (hdone : (c.locals a.1).ctor = .done) :
      slotSize c.shared.base.seg.mem = A.slotSize :=
    (hc.fields.stored (hc.attached ⟨a.1, hdone⟩)).2.2
  exact {
    procs := Config.forall_update (fun _ q => LocalInv A q)
      ((hc.procs a.1).step hslot (hI.thread a.1).inside he) fun j _ => hc.procs j
    only := fun j s => Config.forall_update
      (fun j (q : Process ι) => q.ctor = .create s → j = creator)
      (fun hq => hc.create_of he hq) (fun j _ hj => hc.only j s hj) j
    lock := hc.lock_step halone he
    fields := hc.fields_step hM hN hS he
    attached := hc.attached_step hok he
    magic := hc.magic_step he
    index := hc.index_step he
    regs := Config.forall_update
      (fun _ (q : Process ι) => ∀ k r, q.proc.pc = .body k r → BehindHeader k r)
      (hc.regs_step he) fun j _ => hc.regs j
    quiet := hc.quiet_step hok he }

end Step

end NamedHistoryBuffer.Creation
