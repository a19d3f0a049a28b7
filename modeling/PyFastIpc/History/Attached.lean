import PyFastIpc.History.Attach

/-!
# What an attached process sees of `create`

`attached_is_whole`: when constructors return and publishes begin in order (`AttachOrder`), a
process whose constructor has returned reads the fields that `create` was given, and no later step
of another constructor changes the index, the mutex or a byte of a slot.  Without the order it can
read fields that are still 0, and `create` can undo what it has done (`half_done_create`).
-/

namespace NamedHistoryBuffer.Creation

open FutexMutex (Procs)

variable {ι : Type*}

section Step

variable [DecidableEq ι] {i : ι} {P : Procs ι} {A : Params} {creator : ι} {c : State ι} {m : Move ι}
  {t : Traced ι} {q : Process ι}

/-- The words of the mutex. -/
def words (h : FutexMutex.Header ι) : UInt32 × UInt32 × UInt32 × UInt32 × UInt64 :=
  (h.magic, h.flags, h.state.word, h.ownerPid, h.lastAcquiredNs)

/-- What a step of a constructor leaves alone once a process has attached. -/
theorem Inv.words_kept (hc : Inv P A creator c) (hne : (c.locals i).ctor ≠ .done)
    (hattached : ∃ j, (c.locals j).ctor = .done)
    (he : Effect A i (P.pid i) m c.shared (c.locals i) t q) :
    words t.base.seg.mutex = words c.shared.base.seg.mutex := by
  have hpast := hc.attached hattached
  have hset : ({ c.shared.base.seg.mutex with magic := FutexMutex.magicMUTX } :
      FutexMutex.Header ι) = c.shared.base.seg.mutex := by rw [← hc.magic hpast]
  cases he with
  | store s hs hpc =>
    obtain rfl := hc.only i s hpc
    cases s with
    | wipe => simp [hpc, Ctor.past, Store.rank] at hpast
    | mutexMagic => exact congrArg words hset
    | _ => rfl
  | force n h mx hpc hf =>
    obtain rfl := hc.only i _ hpc
    have hcreate : ¬ (c.locals i).ctor.finished A := fun h => by simp [hpc, finished_create] at h
    have hstep := FutexMutex.force_step hf ((hc.procs i).force hpc)
    obtain ⟨hmagic, hflags, hns⟩ := hstep.rest
    have hword : h.state.word = c.shared.base.seg.mutex.state.word :=
      hstep.word.elim id fun hzero => hzero.2.trans (hc.word hcreate).symm
    have howner : h.ownerPid = c.shared.base.seg.mutex.ownerPid :=
      hstep.owner.elim id fun hzero => hzero.2.trans (hc.quiet hcreate).owner.symm
    change words h = words c.shared.base.seg.mutex
    rw [words, words, hmagic, hflags, hns, hword, howner]
  | mutexInit hpc => exact congrArg words hset
  | attach x hx => rfl
  | method n sh p hm hpc hs => exact absurd hpc hne

/-- The index is 0 when `create` stores into it. -/
theorem Inv.msgIdx_kept (hc : Inv P A creator c) (hne : (c.locals i).ctor ≠ .done)
    (he : Effect A i (P.pid i) m c.shared (c.locals i) t q) :
    msgIdx t.base.seg.mem = msgIdx c.shared.base.seg.mem := by
  cases he with
  | store s hs hpc =>
    by_cases hidx : s = .msgIdx
    · subst hidx
      obtain rfl := hc.only i _ hpc
      have hcreate : ¬ (c.locals i).ctor.finished A := fun h => by simp [hpc, finished_create] at h
      exact (msgIdx_setMsgIdx 0).trans (hc.index (hc.quiet hcreate).done).symm
    · exact msgIdx_store A _ hidx
  | force n h mx hpc hf => rfl
  | mutexInit hpc => rfl
  | attach x hx => rfl
  | method n sh p hm hpc hs => exact absurd hpc hne

/-- When a publish has stored into a slot, `create` has no byte left to store. -/
theorem Inv.written_kept (hc : Inv P A creator c) (hne : (c.locals i).ctor ≠ .done)
    (he : Effect A i (P.pid i) m c.shared (c.locals i) t q) :
    ∀ x ∈ c.shared.written, t.base.seg.mem.read x.1 x.2 = c.shared.base.seg.mem.read x.1 x.2 := by
  intro x hx
  have hfinished : (c.locals creator).ctor.finished A := by
    by_contra hcreate
    rw [(hc.quiet hcreate).written] at hx
    cases hx
  cases he with
  | store s hs hpc =>
    obtain rfl := hc.only i s hpc
    rw [hpc, finished_create] at hfinished
    obtain ⟨hnil, rfl⟩ := hfinished
    exact Memory.read_write_of_disjoint (.inl (congrArg List.length hnil))
  | force n h mx hpc hf => rfl
  | mutexInit hpc => rfl
  | attach x hx => rfl
  | method n sh p hm hpc hs => exact absurd hpc hne

/-- In a run in which constructors return and publishes begin in order, a process whose constructor
has returned reads the fields that `create` was given, and from then on no step of a constructor
changes the index, a word of the mutex or a byte that a publish has stored into a slot. -/
theorem attached_is_whole (P : Procs ι) (hinj : Function.Injective P.pid) (A : Params)
    (hM : A.metaEncoded.length < 2 ^ 64) (hN : A.numSlots < 2 ^ 64) (hS : A.slotSize < 2 ^ 64)
    (creator : ι) {c : State ι} (h : (system P A creator).Reach (AttachOrder A creator) c)
    {j : ι} (hj : (c.locals j).ctor = .done) :
    (metaSize c.shared.base.seg.mem = A.metaEncoded.length ∧
      numSlots c.shared.base.seg.mem = A.numSlots ∧
      slotSize c.shared.base.seg.mem = A.slotSize) ∧
    ∀ i m t q, (c.locals i).ctor ≠ .done →
      step A i (P.pid i) m c.shared (c.locals i) = some (t, q) →
      msgIdx t.base.seg.mem = msgIdx c.shared.base.seg.mem ∧
      words t.base.seg.mutex = words c.shared.base.seg.mutex ∧
      ∀ x ∈ c.shared.written,
        t.base.seg.mem.read x.1 x.2 = c.shared.base.seg.mem.read x.1 x.2 := by
  have hc := inv_of_reach (FutexMutex.alone_of_injective hinj) hM hN hS h
  refine ⟨hc.fields.stored (hc.attached ⟨j, hj⟩), fun i m t q hne hs => ?_⟩
  have he := effect_of_step hs
  exact ⟨hc.msgIdx_kept hne he, hc.words_kept hne ⟨j, hj⟩ he, hc.written_kept hne he⟩

end Step

/-! ## Two runs -/

instance (A : Params) (x : Ctor) : Decidable (x.finished A) :=
  inferInstanceAs (Decidable (_ ∨ _))

instance (A : Params) (x : Ctor) (m : Move Tid) :
    Decidable (∀ data, m = .method (.call (.publish data)) → x.finished A) :=
  match m with
  | .method (.call (.publish data)) => decidable_of_iff (x.finished A)
      ⟨fun h _ _ => h, fun h => h data rfl⟩
  | .ctor | .force _ | .method (.call .getLatest) | .method (.call .getMeta) | .method .next
  | .method (.access _) | .method (.mutex _) => .isTrue fun _ hm => nomatch hm

instance (A : Params) (creator : Tid) (c : State Tid) (a : Tid × Move Tid) :
    Decidable (AttachOrder A creator c a) :=
  decidable_of_iff
    (((c.locals a.1).ctor = .ret → (c.locals creator).ctor.past .mutexMagic = true) ∧
      ∀ data, a.2 = .method (.call (.publish data)) → (c.locals creator).ctor.finished A)
    ⟨fun ⟨hret, hpublish⟩ => ⟨hret, hpublish⟩, fun h => ⟨h.ret, h.publish⟩⟩

/-- One slot of two bytes and one byte of metadata. -/
def tiny : Params := ⟨1, 2, [65]⟩

/-- A new segment of 258 bytes. -/
def blank : State Tid :=
  ⟨⟨⟨⟨258, fun _ => 0, ⟨0, 0, Futex.zero, 0, 0⟩⟩, [], [], fun _ => none, fun _ => none⟩, []⟩,
    fun i => if i = .a then ⟨.create .magic, .fresh⟩ else ⟨.check, .fresh⟩⟩

theorem fresh_blank : Fresh tiny .a blank where
  size := by decide
  mem := rfl
  mutex := rfl
  histories := ⟨rfl, rfl⟩
  creating := rfl
  attaching i hi := if_neg hi

/-- Process `i` makes the next `n` accesses of its constructor. -/
def construct (i : Tid) (n : ℕ) : List (Tid × Move Tid) := List.replicate n (i, .ctor)

/-- Process `b` attaches while the creator `a` has only the metadata left to copy. -/
def complete : State Tid :=
  (system FutexMutex.procs tiny .a).exec (AttachOrder tiny .a) blank
    (construct .a 7 ++ ([(.a, .force .next), (.a, .force .next)] : List (Tid × Move Tid)) ++
      construct .b 8)

theorem reach_complete : (system FutexMutex.procs tiny .a).Reach (AttachOrder tiny .a) complete :=
  .exec _ (.init fresh_blank)

theorem attached_is_whole_complete :
    (metaSize complete.shared.base.seg.mem = 1 ∧ numSlots complete.shared.base.seg.mem = 1 ∧
      slotSize complete.shared.base.seg.mem = 2) ∧
    ∀ t q, step tiny .a 1 .ctor complete.shared (complete.locals .a) = some (t, q) →
      msgIdx t.base.seg.mem = 0 :=
  have hwhole := attached_is_whole FutexMutex.procs FutexMutex.injective_procs tiny (by decide)
    (by decide) (by decide) .a (j := .b) reach_complete (by decide +kernel)
  ⟨hwhole.1, fun t q hs => by
    have hidx := (hwhole.2 .a .ctor t q (by decide +kernel) hs).1
    rw [hidx]
    decide +kernel⟩

/-- Process `b` attaches after the first store of the creator. -/
def early : State Tid :=
  (system FutexMutex.procs tiny .a).exec (fun _ _ => True) blank
    (construct .a 1 ++ construct .b 8)

/-- Process `b` attaches and publishes before the creator stores into the index. -/
def hasty : State Tid :=
  (system FutexMutex.procs tiny .a).exec (fun _ _ => True) blank
    (construct .a 4 ++ construct .b 8 ++
      ((.b, .method (.call (.publish [7]))) ::
        [.next, .mutex .next, .mutex .next, .mutex .next, .mutex (.stamp 5)].map
          (fun m => (.b, .method m)) : List (Tid × Move Tid)) ++
      List.replicate 10 (Tid.b, Move.method (.access 9)))

/-- The creator then resets the index. -/
def rewound : State Tid :=
  (system FutexMutex.procs tiny .a).exec (fun _ _ => True) hasty (construct .a 1)

/-- And it frees the mutex. -/
def freed : State Tid :=
  (system FutexMutex.procs tiny .a).exec (fun _ _ => True) rewound
    (construct .a 2 ++ ([(.a, .force .next), (.a, .force .next)] : List (Tid × Move Tid)))

/-- Without the order, an attached process reads fields that are not stored yet, and `create`
resets the index, frees a mutex that is held and overwrites a slot. -/
theorem half_done_create :
    (¬ ∀ c, (system FutexMutex.procs tiny .a).Reach (fun _ _ => True) c →
      ∀ j, (c.locals j).ctor = .done → slotSize c.shared.base.seg.mem = tiny.slotSize) ∧
    (¬ ∀ c, (system FutexMutex.procs tiny .a).Reach (fun _ _ => True) c →
      ∀ j, (c.locals j).ctor = .done → ∀ t q, (c.locals .a).ctor ≠ .done →
        step tiny .a 1 .ctor c.shared (c.locals .a) = some (t, q) →
        msgIdx t.base.seg.mem = msgIdx c.shared.base.seg.mem) ∧
    (¬ ∀ c, (system FutexMutex.procs tiny .a).Reach (fun _ _ => True) c →
      ∀ j, (c.locals j).ctor = .done → ∀ t q, (c.locals .a).ctor ≠ .done →
        step tiny .a 1 .ctor c.shared (c.locals .a) = some (t, q) →
        words t.base.seg.mutex = words c.shared.base.seg.mutex) ∧
    (¬ ∀ c, (system FutexMutex.procs tiny .a).Reach (fun _ _ => True) c →
      ∀ j, (c.locals j).ctor = .done → ∀ t q, (c.locals .a).ctor ≠ .done →
        step tiny .a 1 .ctor c.shared (c.locals .a) = some (t, q) →
        ∀ x ∈ c.shared.written,
          t.base.seg.mem.read x.1 x.2 = c.shared.base.seg.mem.read x.1 x.2) := by
  have hearly : (system FutexMutex.procs tiny .a).Reach (fun _ _ => True) early :=
    .exec _ (.init fresh_blank)
  have hhasty : (system FutexMutex.procs tiny .a).Reach (fun _ _ => True) hasty :=
    .exec _ (.init fresh_blank)
  have hrewound : (system FutexMutex.procs tiny .a).Reach (fun _ _ => True) rewound :=
    hhasty.exec _
  refine ⟨fun hall => ?_, fun hall => ?_, fun hall => ?_, fun hall => ?_⟩
  · exact absurd (hall early hearly .b (by decide +kernel)) (by decide +kernel)
  · have hreset : (step tiny .a 1 .ctor hasty.shared (hasty.locals .a)).map
        (fun u => msgIdx u.1.base.seg.mem) = some 0 := by decide +kernel
    obtain ⟨⟨t, q⟩, hs, hidx⟩ := Option.map_eq_some_iff.1 hreset
    have hkept := hall hasty hhasty .b (by decide +kernel) t q (by decide +kernel) hs
    exact absurd (hidx.symm.trans hkept) (by decide +kernel)
  · have hwipe : (step tiny .a 1 .ctor rewound.shared (rewound.locals .a)).map
        (fun u => words u.1.base.seg.mutex) = some (0, 0, 0, 0, 0) := by decide +kernel
    obtain ⟨⟨t, q⟩, hs, hwords⟩ := Option.map_eq_some_iff.1 hwipe
    have hkept := hall rewound hrewound .b (by decide +kernel) t q (by decide +kernel) hs
    exact absurd (hwords.symm.trans hkept) (by decide +kernel)
  · have hcopy : (step tiny .a 1 .ctor freed.shared (freed.locals .a)).map
        (fun u => u.1.base.seg.mem.read 128 1) = some [65] := by decide +kernel
    obtain ⟨⟨t, q⟩, hs, hbyte⟩ := Option.map_eq_some_iff.1 hcopy
    have hkept := hall freed (hrewound.exec _) .b (by decide +kernel) t q (by decide +kernel) hs
      (128, 8) (by decide +kernel)
    have hfirst := congrArg (List.take 1) hkept
    exact absurd (hbyte.symm.trans hfirst) (by decide +kernel)

end NamedHistoryBuffer.Creation
