import PyFastIpc.History.Order

/-!
# A publish that runs alone

When no other process interferes, the accesses of `publish` one after the other are the function
`publish` of the sequential model (`alone_publish`).  The `try` block is `store`
(`tryBlock_eq_store`).
-/

namespace NamedHistoryBuffer

open FutexMutex (Procs)

variable {ι : Type*}

/-- The accesses of the `try` block from access `k` on, at most `n` of them. -/
def tryBlock (now : Stage → ℕ) (size : ℕ) : ℕ → Stage → Regs → Memory → Except Error Unit × Memory
  | 0, _, _, m => (.ok (), m)
  | n + 1, k, r, m =>
    match access (now k) size m r k with
    | .error e => (.error e, m)
    | .ok (r', m') =>
      match k.next with
      | some k' => tryBlock now size n k' r' m'
      | none => (.ok (), m')

section TryBlock

variable {now : Stage → ℕ} {size n : ℕ} {k k' : Stage} {r r' : Regs} {m m' : Memory}

theorem tryBlock_next (hk : k.next = some k') (ha : access (now k) size m r k = .ok (r', m')) :
    tryBlock now size (n + 1) k r m = tryBlock now size n k' r' m' := by
  simp only [tryBlock, ha, hk]

theorem tryBlock_error {e : Error} (ha : access (now k) size m r k = .error e) :
    tryBlock now size (n + 1) k r m = (.error e, m) := by
  simp only [tryBlock, ha]

theorem tryBlock_last (hk : k.next = none) (ha : access (now k) size m r k = .ok (r', m')) :
    tryBlock now size (n + 1) k r m = (.ok (), m') := by
  simp only [tryBlock, ha, hk]

theorem access_loadNumSlots {t : ℕ} (h : numSlots m ≠ 0) :
    access t size m r .loadNumSlots = .ok ({ r with slot := (r.id % numSlots m).toNat }, m) := by
  rw [access, if_neg h]

theorem access_locate {t : ℕ} (h : ¬ size < calcSlotOffset m r.slot + slotHeaderSize) :
    access t size m r .locate = .ok ({ r with off := calcSlotOffset m r.slot }, m) := by
  rw [access, if_neg h]

theorem access_locate_error {t : ℕ} (h : size < calcSlotOffset m r.slot + slotHeaderSize) :
    access t size m r .locate = .error .bufferTooSmall := by
  rw [access, if_pos h]

theorem access_storePayload_error {t : ℕ}
    (h : sliceLength size r.payloadOff r.data.length ≠ r.data.length) :
    access t size m r .storePayload = .error .lengthMismatch := by
  rw [access, if_pos h]

theorem access_storePayload {t : ℕ}
    (h : sliceLength size r.payloadOff r.data.length = r.data.length) :
    access t size m r .storePayload = .ok (r, m.write r.payloadOff r.data) :=
  by rw [access, if_neg (not_not.2 h)]

/-- The `try` block of `publish` is the function `store`. -/
theorem tryBlock_eq_store (now : Stage → ℕ) (size : ℕ) (data : Bytes) (m : Memory) :
    tryBlock now size 10 .loadIdx (.start data) m =
      store data (now .storeStart) (now .storeEnd) size m := by
  have hidx : access (now .loadIdx) size m (.start data) .loadIdx =
    .ok ({ Regs.start data with id := msgIdx m }, m) := rfl
  unfold store
  dsimp only
  generalize msgIdx m = idx at hidx ⊢
  rw [tryBlock_next rfl hidx]
  by_cases hnum : numSlots m = 0
  · rw [if_pos hnum]
    exact tryBlock_error (by rw [access, if_pos hnum])
  · rw [if_neg hnum, tryBlock_next rfl (access_loadNumSlots hnum)]
    dsimp only [Regs.start]
    generalize (idx % numSlots m).toNat = slot
    by_cases hsize : size < calcSlotOffset m slot + slotHeaderSize
    · rw [if_pos hsize]
      exact tryBlock_error (access_locate_error hsize)
    · rw [if_neg hsize]
      refine Eq.trans (tryBlock_next rfl (access_locate hsize)) ?_
      refine Eq.trans (tryBlock_next rfl rfl) ?_
      refine Eq.trans (tryBlock_next rfl rfl) ?_
      refine Eq.trans (tryBlock_next rfl rfl) ?_
      dsimp only
      generalize setStartVersion _ _ _ = m₁
      by_cases hslice : sliceLength size (calcSlotOffset m₁ slot + slotHeaderSize) data.length =
          data.length
      · rw [if_neg (not_not.2 hslice)]
        refine Eq.trans (tryBlock_next rfl (access_storePayload hslice)) ?_
        refine Eq.trans (tryBlock_next rfl rfl) ?_
        refine Eq.trans (tryBlock_next rfl rfl) ?_
        exact tryBlock_last rfl rfl
      · rw [if_pos hslice]
        exact tryBlock_error (access_storePayload_error hslice)

end TryBlock

/-! ## Runs of one process -/

section Alone

theorem record_done {sh : Shared ι} {i : ι} {k k' : Stage} {r : Regs}
    (hk : k.next = some k') :
    (sh.record i r k).done = sh.done := by
  cases k <;> first | rfl | cases hk

variable [DecidableEq ι]

/-- A run of process `i` alone. -/
def alone (i : ι) (pid : UInt32) : List (Move ι) → Shared ι → Proc ι → Option (Shared ι × Proc ι)
  | [], sh, p => some (sh, p)
  | m :: ms, sh, p =>
    match step i pid m sh p with
    | some (sh', p') => alone i pid ms sh' p'
    | none => none

variable {i : ι} {pid : UInt32} {sh sh' : Shared ι} {p p' : Proc ι} {ms ms' : List (Move ι)}

theorem alone_append (h : alone i pid ms sh p = some (sh', p')) :
    alone i pid (ms ++ ms') sh p = alone i pid ms' sh' p' := by
  induction ms generalizing sh p with
  | nil =>
    obtain ⟨rfl, rfl⟩ := by simpa [alone] using h
    rfl
  | cons m ms ih =>
    rw [List.cons_append, alone]
    rw [alone] at h
    split at h
    next sh₁ p₁ hs => exact ih h
    next => cases h

/-- The system can make the run. -/
theorem reach_alone {P : Procs ι} {N S M : ℕ} {l : ι → Proc ι}
    (hr : (system P N S M).Reach (fun _ _ => True) ⟨sh, Function.update l i p⟩)
    (h : alone i (P.pid i) ms sh p = some (sh', p')) :
    (system P N S M).Reach (fun _ _ => True) ⟨sh', Function.update l i p'⟩ := by
  induction ms generalizing sh p with
  | nil =>
    obtain ⟨rfl, rfl⟩ := by simpa [alone] using h
    exact hr
  | cons m ms ih =>
    rw [alone] at h
    split at h
    next sh₁ p₁ hs =>
      have hstep := Config.interleave_update (l := l) (fun i => step i (P.pid i)) hs
      exact ih (.step (i, m) hr trivial hstep) h
    next => cases h

/-- Process `i` has acquired the mutex to publish `data`. -/
def Shared.locked (sh : Shared ι) (i : ι) (pid : UInt32) (now : UInt64) (data : Bytes) : Shared ι :=
  { sh.setMutex { sh.seg.mutex with
      state := sh.seg.mutex.state.store 1, ownerPid := pid, lastAcquiredNs := now } with
    order := sh.order ++ [(i, data)] }

/-- The process is at the beginning of the `try` block. -/
def Proc.inside (p : Proc ι) (data : Bytes) : Proc ι :=
  { p with
    pc := .body .loadIdx (.start data)
    mx := ⟨.idle (some (.bool true)), true, true, false⟩ }

/-- The way into the `try` block, with a free mutex. -/
theorem alone_enter (i : ι) {data : Bytes} (now : UInt64) (hpc : ∃ r, p.pc = .idle r)
    (htaken : p.mx.taken = false)
    (hfits : data.length ≤ slotSize sh.seg.mem) (howner : sh.seg.mutex.ownerPid ≠ pid)
    (hfree : sh.seg.mutex.state.word = 0) :
    alone i pid [.call (.publish data), .next, .mutex .next, .mutex .next, .mutex .next,
        .mutex (.stamp now)] sh p =
      some (sh.locked i pid now data, p.inside data) := by
  obtain ⟨r, hpc⟩ := hpc
  simp [alone, step, nextLoad, Proc.begin, Proc.goto, Proc.enter, hpc, htaken, howner, hfree,
    not_lt.2 hfits, FutexMutex.step, FutexMutex.next, FutexMutex.Thread.begin,
    FutexMutex.Call.entry, FutexMutex.Acquire.entry, FutexMutex.acquireFast,
    FutexMutex.Thread.goto, FutexMutex.Thread.take, FutexMutex.Thread.succeed,
    FutexMutex.Acquire.ret, FutexMutex.Call.releases, afterAcquire, Shared.setMutex, Shared.enter,
    Shared.locked, Proc.inside]

/-- The `try` block, when it raises nothing. -/
theorem alone_tryBlock (i : ι) (pid : UInt32) {sh : Shared ι} {p : Proc ι} {now : Stage → ℕ} {n : ℕ}
    {k : Stage} {r : Regs} {mem : Memory} (hn : Stage.storeNext.rank < n + k.rank)
    (hpc : p.pc = .body k r) (ht : tryBlock now sh.seg.size n k r sh.seg.mem = (.ok (), mem)) :
    ∃ ms sh', alone i pid ms sh p = some (sh', p.leave none) ∧
      sh'.seg = { sh.seg with mem := mem } ∧ sh'.done.length = sh.done.length + 1 := by
  induction n generalizing k r sh p with
  | zero =>
    rw [zero_add] at hn
    cases k <;> exact absurd hn (by decide)
  | succ n ih =>
    cases ha : access (now k) sh.seg.size sh.seg.mem r k with
    | error e =>
      rw [tryBlock_error ha] at ht
      cases (Prod.mk.inj ht).1
    | ok u =>
      have hstep : step i pid (.access (now k)) sh p =
          some ((sh.setMem u.2).record i u.1 k, p.advance u.1 k.next) := by
        simp only [step, hpc, ha]
      cases hk : k.next with
      | some k' =>
        rw [tryBlock_next hk ha] at ht
        have hseg : ((sh.setMem u.2).record i u.1 k).seg = { sh.seg with mem := u.2 } :=
          Shared.record_seg _ i u.1 k
        have ht' : tryBlock now ((sh.setMem u.2).record i u.1 k).seg.size n k' u.1
            ((sh.setMem u.2).record i u.1 k).seg.mem = (.ok (), mem) := by
          rw [hseg]
          exact ht
        have hn' : Stage.storeNext.rank < n + k'.rank := by
          rw [Stage.rank_next hk]
          omega
        obtain ⟨ms, sh', hms, hseg', hdone⟩ := ih (p := p.goto (.body k' u.1)) hn' rfl ht'
        refine ⟨.access (now k) :: ms, sh', ?_, ?_, ?_⟩
        · rw [alone, hstep, hk]
          exact hms
        · rw [hseg', hseg]
        · rw [hdone, record_done hk]
          rfl
      | none =>
        rw [tryBlock_last hk ha] at ht
        obtain rfl : k = .storeNext := by
          cases k <;> first | rfl | cases hk
        obtain rfl : u.2 = mem := (Prod.mk.inj ht).2
        refine ⟨[.access (now .storeNext)], (sh.setMem u.2).record i u.1 .storeNext, ?_, rfl, ?_⟩
        · rw [alone, hstep]
          rfl
        · exact List.length_append

/-- The way out of the `try` block, with a mutex that nobody waits for. -/
theorem alone_leave (i : ι) (p : Proc ι) (howner : sh.seg.mutex.ownerPid = pid)
    (hword : sh.seg.mutex.state.word = 1) :
    alone i pid [.mutex .next, .mutex .next, .mutex .next] sh (p.leave none) =
      some (sh.setMutex { sh.seg.mutex with state := sh.seg.mutex.state.store 0, ownerPid := 0 },
        { p with
          pc := .idle (some .none), mx := ⟨.idle (some .none), false, false, p.mx.taken⟩ }) := by
  simp [alone, step, Proc.leave, howner, hword, FutexMutex.step, FutexMutex.next,
    FutexMutex.Thread.begin, FutexMutex.Call.entry, FutexMutex.Thread.goto, FutexMutex.Thread.drop,
    FutexMutex.Call.releases, afterRelease, Shared.setMutex]

/-- Alone, the accesses of `publish` do what the function `publish` says. -/
theorem alone_publish {N S M : ℕ} (i : ι) (data : Bytes) (h : SegInv N S M sh) (hN : 0 < N)
    (hfits : data.length ≤ S) (hpc : ∃ r, p.pc = .idle r) (htaken : p.mx.taken = false)
    (howner : sh.seg.mutex.ownerPid ≠ pid) (hfree : sh.seg.mutex.state.word = 0) (now : UInt64)
    (startNs endNs : ℕ) :
    ∃ ms sh' p', alone i pid ms sh p = some (sh', p') ∧
      publish pid now startNs endNs data sh.seg = some (.ok (), sh'.seg) ∧
      sh'.done.length = sh.done.length + 1 ∧
      p'.pc = .idle (some .none) ∧ p'.mx.taken = false := by
  -- the two values of `monotonic_ns`
  let times : Stage → ℕ
    | .storeStart => startNs
    | _ => endNs
  have hslot : data.length ≤ slotSize sh.seg.mem := by rwa [h.configured.slotSize]
  have henter := alone_enter i now hpc htaken hslot howner hfree
  have hblock := tryBlock_eq_store times sh.seg.size data sh.seg.mem
  rw [store_eq h.configured hN h.room hfits] at hblock
  have hpublish := publish_eq h.configured hN h.room hfits howner hfree now startNs endNs
  have hrun := alone_tryBlock i pid (p := p.inside data) (by decide) rfl
    (show tryBlock times (sh.locked i pid now data).seg.size _ _ _ _ = _ from hblock)
  obtain ⟨ms, sh₂, hms, hseg, hdone⟩ := hrun
  have hleave := alone_leave i (p.inside data)
    (show sh₂.seg.mutex.ownerPid = pid by rw [hseg]; rfl) (by rw [hseg]; rfl)
  refine ⟨_, _, _, (alone_append henter).trans ((alone_append hms).trans hleave), ?_, hdone,
    rfl, rfl⟩
  rw [hpublish, Shared.setMutex, hseg]
  rfl

end Alone

end NamedHistoryBuffer
