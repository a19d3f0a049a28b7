import PyFastIpc.History.Solo

/-!
# A publish that is interrupted

A crash or an exception stops `publish` before it increments the message index.  Whatever has been
stored by then lies in the slot of the next message (`interrupted_beside`), which is neither the
slot that `get_latest` reads nor one of the last `num_slots - 1`.  `Session.Safe` is what still
holds between two calls; it says nothing about the mutex, which a crash leaves locked.
-/

namespace NamedHistoryBuffer

variable {ι : Type*}

/-- Where a publish of `data` stops: the accesses before `stage` have been executed, with the times
`now`, and of the store at `stage` the bytes `part`. -/
structure Interruption where
  data : Bytes
  now : Stage → ℕ
  stage : Stage
  part : ℕ → Bool

/-- The bytes that an interrupted `try` block leaves behind.  The index has not been stored. -/
def interrupted (x : Interruption) (size : ℕ) (m : Memory) : Memory := fun a =>
  if x.stage ≠ .storeNext ∧ x.part a = true then
    (tryBlock x.now size (x.stage.rank + 1) .loadIdx (.start x.data) m).2 a
  else (tryBlock x.now size x.stage.rank .loadIdx (.start x.data) m).2 a

/-- A `publish` of the process `pid` that is interrupted in its `try` block.  When the process has
`crashed`, the `finally` block does not run. -/
def publishInterrupted (pid : UInt32) (now : UInt64) (x : Interruption) (crashed : Bool)
    (s : Segment ι) : Option (Segment ι) :=
  if slotSize s.mem < x.data.length then none
  else
    match FutexMutex.acquireAlone pid now s.mutex with
    | some (.ok locked) =>
      let mem := interrupted x s.size s.mem
      if crashed then some { s with mem := mem, mutex := locked }
      else
        match FutexMutex.releaseAlone pid locked with
        | some (.ok unlocked) => some { s with mem := mem, mutex := unlocked }
        | _ => none
    | _ => none

/-! ## Inside a slot -/

/-- The bytes outside a slot are the same. -/
def Beside (slotSize slot : ℕ) (m m' : Memory) : Prop :=
  ∀ a, a < slotOffset slotSize slot ∨ slotOffset slotSize slot + (slotHeaderSize + slotSize) ≤ a →
    m' a = m a

section Beside

variable {N S M slot slot' off : ℕ} {m m' m'' : Memory} {bs p : Bytes}

theorem Beside.refl (S slot : ℕ) (m : Memory) : Beside S slot m m := fun _ _ => rfl

theorem Beside.trans (h : Beside S slot m m') (h' : Beside S slot m' m'') :
    Beside S slot m m'' := fun a ha => (h' a ha).trans (h a ha)

theorem Beside.write (hlo : slotOffset S slot ≤ off)
    (hhi : off + bs.length ≤ slotOffset S slot + (slotHeaderSize + S)) :
    Beside S slot m (m.write off bs) := by
  intro a ha
  apply Memory.write_of_outside
  omega

theorem Beside.msgIdx (h : Beside S slot m m') :
    NamedHistoryBuffer.msgIdx m' = NamedHistoryBuffer.msgIdx m := by
  have hle := headerSize_le_slotOffset S slot
  unfold headerSize at hle
  have hword : m'.u64 32 = m.u64 32 := Memory.u64_congr fun a _ ha => h a (by omega)
  exact congrArg (fun n : ℕ => wrap64 n) hword

theorem Configured.beside (hc : Configured N S M m) (h : Beside S slot m m') :
    Configured N S M m' := by
  have hle := headerSize_le_slotOffset S slot
  unfold headerSize at hle
  have hword (k : ℕ) (hk : k + 8 ≤ 128) : m'.u64 k = m.u64 k :=
    Memory.u64_congr fun a _ ha => h a (by omega)
  exact ⟨(hword 0 (by omega)).trans hc.magic, (hword 8 (by omega)).trans hc.metaSize,
    (hword 16 (by omega)).trans hc.numSlots, (hword 24 (by omega)).trans hc.slotSize⟩

/-- No byte of another slot is different. -/
theorem Beside.other (h : Beside S slot m m') (hne : slot ≠ slot') {a : ℕ}
    (hlo : slotOffset S slot' ≤ a) (hhi : a < slotOffset S slot' + (slotHeaderSize + S)) :
    m' a = m a := by
  apply h
  rcases slots_disjoint (S := S) hne with h0 | h0 | hle | hle
  · unfold slotHeaderSize at h0
    omega
  · unfold slotHeaderSize at h0
    omega
  · right
    omega
  · left
    omega

theorem Holds.beside (hold : Holds S m slot' p) (hp : p.length ≤ S) (h : Beside S slot m m')
    (hne : slot ≠ slot') : Holds S m' slot' p where
  size := by
    refine Eq.trans (Memory.u64_congr fun a hlo hhi => h.other hne hlo ?_) hold.size
    unfold slotHeaderSize
    omega
  payload := by
    refine Eq.trans (Memory.read_congr fun a hlo hhi => h.other hne ?_ ?_) hold.payload
    · omega
    · omega

end Beside

/-! ## The accesses before the increment -/

section Accesses

variable {N S M t n size : ℕ} {sh : Shared ι} {i : ι} {k : Stage} {r r' : Regs} {mem : Memory}

/-- An access before the increment stays inside the slot of the next message. -/
theorem BodyInv.beside (hb : BodyInv N S sh i k r) (hk : k ≠ .storeNext)
    (ha : NamedHistoryBuffer.access t size sh.seg.mem r k = .ok (r', mem)) :
    Beside S (msgIdx sh.seg.mem % N).toNat sh.seg.mem mem := by
  have hslot (hlt : Stage.loadNumSlots.rank < k.rank) :
      r.slot = (msgIdx sh.seg.mem % N).toNat := by
    have hid : r.id = msgIdx sh.seg.mem :=
      hb.earlier .loadIdx (Nat.lt_of_le_of_lt (Nat.zero_le _) hlt)
    rw [← hid]
    exact hb.earlier .loadNumSlots hlt
  have hoff (hlt : Stage.locate.rank < k.rank) :
      r.off = slotOffset S (msgIdx sh.seg.mem % N).toNat := by
    rw [← hslot (Nat.lt_trans (by decide) hlt)]
    exact hb.earlier .locate hlt
  cases k with
  | loadIdx | relocate | loadNext =>
    obtain rfl := (Prod.mk.inj (Except.ok.inj ha)).2
    exact Beside.refl S _ _
  | loadNumSlots | locate =>
    simp only [NamedHistoryBuffer.access] at ha
    split_ifs at ha
    obtain rfl := (Prod.mk.inj (Except.ok.inj ha)).2
    exact Beside.refl S _ _
  | storeSize | storeStart | storeEnd =>
    obtain rfl := (Prod.mk.inj (Except.ok.inj ha)).2
    rw [hoff (by decide)]
    refine Beside.write (by omega) ?_
    rw [length_toLE, slotHeaderSize]
    omega
  | storePayload =>
    simp only [NamedHistoryBuffer.access] at ha
    split_ifs at ha
    obtain rfl := (Prod.mk.inj (Except.ok.inj ha)).2
    have hfits := hb.fits
    have hpayload : r.payloadOff = slotOffset S r.slot + slotHeaderSize :=
      hb.earlier .relocate (by decide)
    rw [hpayload, hslot (by decide)]
    exact Beside.write (by omega) (by omega)
  | storeNext => exact absurd rfl hk

theorem tryBlock_beside [DecidableEq ι] (now : Stage → ℕ) (hb : BodyInv N S sh i k r)
    (h : SegInv N S M sh) (hN : 0 < N) (hn : n + k.rank ≤ Stage.storeNext.rank) :
    Beside S (msgIdx sh.seg.mem % N).toNat sh.seg.mem
      (tryBlock now sh.seg.size n k r sh.seg.mem).2 := by
  induction n generalizing sh k r with
  | zero => exact Beside.refl S _ _
  | succ n ih =>
    obtain ⟨r', mem, ha, hinv, -, hnext⟩ := hb.access h hN (now k)
    cases hk : k.next with
    | none =>
      obtain rfl : k = .storeNext := by
        cases k <;> first | rfl | cases hk
      exact absurd hn (by omega)
    | some k' =>
      have hne : k ≠ .storeNext := by
        rintro rfl
        cases hk
      have hfirst := hb.beside hne ha
      have hseg : ((sh.setMem mem).record i r' k).seg = { sh.seg with mem := mem } :=
        Shared.record_seg _ i r' k
      have hrest := ih (hnext k' hk) hinv (by rw [Stage.rank_next hk]; omega)
      rw [hseg] at hrest
      rw [tryBlock_next hk ha]
      rw [hfirst.msgIdx] at hrest
      exact hfirst.trans hrest

/-- An interrupted publish leaves everything outside the slot of the next message as it was. -/
theorem interrupted_beside {x : Interruption} {m : Memory} (hconf : Configured N S M m)
    (hroom : requestedSize N S M ≤ size) (hidx : msgIdx m = wrap64 n) (hN : 0 < N)
    (hfits : x.data.length ≤ S) :
    Beside S (msgIdx m % N).toNat m (interrupted x size m) := by
  -- the segment in the hands of one process, with nothing known about the slots
  let sh : Shared Unit :=
    ⟨⟨size, m, ⟨0, 0, Futex.zero, 0, 0⟩⟩, [], List.replicate n ⟨0, (), []⟩, fun _ => none,
      fun _ => none⟩
  have hstored : Stored S m sh.sized sh.held := by
    constructor <;> simp [sh]
  have hinv : SegInv N S M sh :=
    ⟨hconf, hroom, by rw [List.length_replicate]; exact hidx, hstored⟩
  have hbody : BodyInv N S sh () .loadIdx (.start x.data) := ⟨hfits, fun j hj => by cases hj⟩
  have hrank : x.stage.rank ≤ Stage.storeNext.rank := by
    cases x.stage <;> decide
  have hbefore := tryBlock_beside x.now hbody hinv hN hrank
  intro a ha
  unfold interrupted
  split_ifs with hpart
  · have hlt : x.stage.rank < Stage.storeNext.rank :=
      lt_of_le_of_ne hrank fun heq => hpart.1 (Stage.rank_injective heq)
    exact tryBlock_beside x.now hbody hinv hN hlt a ha
  · exact hbefore a ha

end Accesses

/-! ## Sessions with interruptions -/

/-- What can happen to a history buffer: a complete call, an interrupted publish, and a
`force_release` of the mutex. -/
inductive Incident (ι : Type*) where
  | call (op : Op ι)
  | interrupt (i : ι) (now : UInt64) (x : Interruption) (crashed : Bool)
  | forceRelease

/-- The segment after a `force_release` of the mutex. -/
def Segment.freed (s : Segment ι) : Segment ι :=
  { s with mutex := { s.mutex with state := s.mutex.state.store 0, ownerPid := 0 } }

/-- An interrupted publish is not accepted. -/
def Session.incident (P : FutexMutex.Procs ι) (s : Session ι) : Incident ι → Option (Session ι)
  | .call op => s.call P op
  | .interrupt i now x crashed =>
    (publishInterrupted (P.pid i) now x crashed s.seg).map fun seg => { s with seg := seg }
  | .forceRelease => some { s with seg := s.seg.freed }

/-- `create` on any segment that is large enough, then incidents one after the other. -/
def interruptible (P : FutexMutex.Procs ι) (numSlots slotSize : ℕ) (metaText : String) :
    Transition (Session ι) (Incident ι) where
  Init := (sessions P numSlots slotSize metaText).Init
  step s a := s.incident P a

/-- What holds between two incidents. -/
structure Session.Safe (N S M : ℕ) (s : Session ι) : Prop where
  configured : Configured N S M s.seg.mem
  room : requestedSize N S M ≤ s.seg.size
  msgIdx : msgIdx s.seg.mem = wrap64 s.accepted.length
  fits : ∀ p ∈ s.accepted, p.length ≤ S
  retains : s.accepted.length < 2 ^ 63 → Retains N (N - 1) s.accepted (Holds S s.seg.mem)

section Safe

variable {P : FutexMutex.Procs ι} {N S M : ℕ} {metaText : String} {s : Session ι}

theorem Session.Kept.safe (hk : s.Kept N S M) : s.Safe N S M where
  configured := hk.configured
  room := hk.room
  msgIdx := hk.msgIdx
  fits := hk.fits
  retains hn := (hk.retains hn).mono (Nat.sub_le N 1)

/-- A `publish` that comes to an end has been refused, or it has been accepted. -/
theorem eq_of_publish {s seg : Segment ι} {pid : UInt32} {now : UInt64} {startNs endNs : ℕ}
    {data : Bytes} {r : Except Error Unit} (hconf : Configured N S M s.mem) (hN : 0 < N)
    (hroom : requestedSize N S M ≤ s.size)
    (h : publish pid now startNs endNs data s = some (r, seg)) :
    (∃ e, r = .error e ∧ seg = s) ∨
      r = .ok () ∧ data.length ≤ S ∧ seg = s.published N S now startNs endNs data := by
  rcases Nat.lt_or_ge S data.length with hlt | hle
  · unfold publish at h
    rw [hconf.slotSize, if_pos hlt] at h
    obtain ⟨rfl, rfl⟩ := Prod.mk.inj (Option.some.inj h)
    exact .inl ⟨_, rfl, rfl⟩
  · by_cases howner : s.mutex.ownerPid = pid
    · unfold publish FutexMutex.acquireAlone at h
      rw [hconf.slotSize, if_neg (not_lt.2 hle), if_pos howner] at h
      obtain ⟨rfl, rfl⟩ := Prod.mk.inj (Option.some.inj h)
      exact .inl ⟨_, rfl, rfl⟩
    · by_cases hfree : s.mutex.state.word = 0
      · rw [publish_eq hconf hN hroom hle howner hfree] at h
        obtain ⟨rfl, rfl⟩ := Prod.mk.inj (Option.some.inj h)
        exact .inr ⟨rfl, hle, rfl⟩
      · unfold publish FutexMutex.acquireAlone at h
        rw [hconf.slotSize, if_neg (not_lt.2 hle), if_neg howner, if_neg hfree] at h
        cases h

/-- An interrupted publish stores an interrupted `try` block. -/
theorem eq_of_publishInterrupted {s seg : Segment ι} {pid : UInt32} {now : UInt64}
    {x : Interruption} {crashed : Bool} (h : publishInterrupted pid now x crashed s = some seg) :
    x.data.length ≤ slotSize s.mem ∧
      ∃ mutex, seg = { s with mem := interrupted x s.size s.mem, mutex := mutex } := by
  unfold publishInterrupted at h
  by_cases hlong : slotSize s.mem < x.data.length
  · rw [if_pos hlong] at h
    cases h
  · rw [if_neg hlong] at h
    refine ⟨not_lt.1 hlong, ?_⟩
    split at h
    next locked hlocked =>
      cases crashed with
      | true =>
        obtain rfl := Option.some.inj h
        exact ⟨locked, rfl⟩
      | false =>
        rw [FutexMutex.releaseAlone_of_acquireAlone hlocked] at h
        obtain rfl := Option.some.inj h
        exact ⟨_, rfl⟩
    next => cases h

/-- Other bytes in the slot of the next message, and any words of the mutex. -/
theorem Session.Safe.beside (hs : s.Safe N S M) {m' : Memory}
    (h : Beside S (NamedHistoryBuffer.msgIdx s.seg.mem % N).toNat s.seg.mem m')
    (mutex : FutexMutex.Header ι) :
    Session.Safe N S M ⟨{ s.seg with mem := m', mutex := mutex }, s.accepted⟩ where
  configured := hs.configured.beside h
  room := hs.room
  msgIdx := h.msgIdx.trans hs.msgIdx
  fits := hs.fits
  retains hn := by
    have hslot := toNat_emod_of_wrap (N := N) hs.msgIdx hn
    rw [hslot] at h
    exact (hs.retains hn).overwrite fun slot hne p hp hold =>
      hold.beside (hs.fits p hp) h (Ne.symm hne)

theorem Session.Safe.interrupted (hs : s.Safe N S M) (hN : 0 < N) {x : Interruption}
    (hfits : x.data.length ≤ S) (mutex : FutexMutex.Header ι) :
    Session.Safe N S M ⟨{ s.seg with
      mem := NamedHistoryBuffer.interrupted x s.seg.size s.seg.mem, mutex := mutex },
      s.accepted⟩ :=
  hs.beside (interrupted_beside hs.configured hs.room hs.msgIdx hN hfits) mutex

/-- An accepted publish keeps the invariant. -/
theorem Session.Safe.published (hs : s.Safe N S M) (hN : 0 < N) (hS : S < 2 ^ 64) {data : Bytes}
    (hdata : data.length ≤ S) (now : UInt64) (startNs endNs : ℕ) :
    Session.Safe N S M
      ⟨s.seg.published N S now startNs endNs data, s.accepted ++ [data]⟩ where
  configured := hs.configured.filled.write (by decide)
  room := hs.room
  msgIdx := by
    refine (msgIdx_setMsgIdx _).trans ?_
    rw [hs.msgIdx, wrap64_wrap64_add, List.length_append, List.length_singleton, Nat.cast_succ]
  fits p hp := by
    rcases List.mem_append.1 hp with hp | hp
    · exact hs.fits p hp
    · rwa [List.mem_singleton.1 hp]
  retains hn := by
    rw [List.length_append, List.length_singleton] at hn
    have hslot := toNat_emod_of_wrap (N := N) hs.msgIdx (by omega)
    have hretains : Retains N N (s.accepted ++ [data])
        (Holds S (s.seg.published N S now startNs endNs data).mem) :=
      retains_publish (hs.retains (by omega)) hN (by omega) hs.fits hdata hslot
    exact hretains.mono (Nat.sub_le N 1)

/-- A call that comes to an end keeps the invariant. -/
theorem Session.Safe.call (hs : s.Safe N S M) (hN : 0 < N) (hS : S < 2 ^ 64) {op : Op ι}
    {s' : Session ι} (h : s.call P op = some s') : s'.Safe N S M := by
  cases op with
  | attach =>
    rw [Session.call, attach_eq hs.configured hs.room] at h
    obtain rfl := Option.some.inj h
    exact { hs with }
  | publish i now startNs endNs data =>
    rw [Session.call] at h
    cases hp : NamedHistoryBuffer.publish (P.pid i) now startNs endNs data s.seg with
    | none =>
      rw [hp] at h
      cases h
    | some u =>
      obtain ⟨r, seg⟩ := u
      rw [hp] at h
      rcases eq_of_publish hs.configured hN hs.room hp with ⟨e, rfl, rfl⟩ | ⟨rfl, hle, rfl⟩
      · obtain rfl := Option.some.inj h
        exact hs
      · obtain rfl := Option.some.inj h
        exact hs.published hN hS hle now startNs endNs

theorem Session.Safe.incident (hs : s.Safe N S M) (hN : 0 < N) (hS : S < 2 ^ 64)
    {a : Incident ι} {s' : Session ι} (h : s.incident P a = some s') : s'.Safe N S M := by
  cases a with
  | call op => exact hs.call hN hS h
  | interrupt i now x crashed =>
    rw [Session.incident] at h
    obtain ⟨seg, hp, rfl⟩ := Option.map_eq_some_iff.1 h
    obtain ⟨hfits, mutex, rfl⟩ := eq_of_publishInterrupted hp
    rw [hs.configured.slotSize] at hfits
    exact hs.interrupted hN hfits mutex
  | forceRelease =>
    rw [Session.incident] at h
    obtain rfl := Option.some.inj h
    exact { hs with }

theorem safe_of_reach (hN : 0 < N) (hN64 : N < 2 ^ 64) (hS : S < 2 ^ 64)
    (hM : (encodeUTF8 metaText).length < 2 ^ 64) {ok : Session ι → Incident ι → Prop}
    (h : (interruptible P N S metaText).Reach ok s) : s.Safe N S (encodeUTF8 metaText).length := by
  refine h.invariant (fun s => s.Safe N S (encodeUTF8 metaText).length) ?_
    fun s a s' _ hs _ hstep => hs.incident hN hS hstep
  intro s hinit
  have hreach : (sessions P N S metaText).Reach (fun _ _ => True) s := .init hinit
  exact (kept_of_reach hN hN64 hS hM hreach).safe

/-- `get_latest` returns the last accepted payload. -/
theorem Session.Safe.getLatest (hs : s.Safe N S M) (hN : 2 ≤ N)
    (hn : s.accepted.length < 2 ^ 63) :
    NamedHistoryBuffer.getLatest s.seg =
      match s.accepted.getLast? with
      | some p => .ok p
      | none => .error .noEntries :=
  getLatest_of_retains hs.configured hs.room hs.msgIdx hs.fits (hs.retains hn) (by omega)
    (by omega) hn

/-- A publish that is interrupted before it increments the index, at any store and with any part of
it, does not disturb the latest message, whatever has become of the mutex.  `get_latest` still
returns the last accepted payload or raises; the slots of the last `num_slots - 1` messages are
unchanged; and a later publish makes `get_latest` return its own payload. It comes to an end once
the mutex is free. -/
theorem interrupted_publish (P : FutexMutex.Procs ι) (hN : 2 ≤ N) (hN64 : N < 2 ^ 64)
    (hS : S < 2 ^ 64) (hM : (encodeUTF8 metaText).length < 2 ^ 64)
    (h : (interruptible P N S metaText).Reach (fun _ _ => True) s)
    (hn : s.accepted.length < 2 ^ 63 - 1) (x : Interruption) (hfits : x.data.length ≤ S)
    (mutex : FutexMutex.Header ι) :
    let mem := NamedHistoryBuffer.interrupted x s.seg.size s.seg.mem
    let seg : Segment ι := { s.seg with mem := mem, mutex := mutex }
    NamedHistoryBuffer.getLatest seg =
      (match s.accepted.getLast? with
      | some p => .ok p
      | none => .error .noEntries) ∧
    (∀ k p, s.accepted[k]? = some p → s.accepted.length < k + N →
      (∀ a, calcSlotOffset s.seg.mem (k % N) ≤ a →
        a < calcSlotOffset s.seg.mem (k % N) + (slotHeaderSize + S) → mem a = s.seg.mem a) ∧
      size mem (calcSlotOffset mem (k % N)) = p.length ∧
      mem.read (calcSlotOffset mem (k % N) + slotHeaderSize) p.length = p) ∧
    ∀ pid now startNs endNs data,
      (∀ seg', publish pid now startNs endNs data seg = some (.ok (), seg') →
        NamedHistoryBuffer.getLatest seg' = .ok data) ∧
      (mutex.state.word = 0 → mutex.ownerPid ≠ pid → data.length ≤ S →
        ∃ seg', publish pid now startNs endNs data seg = some (.ok (), seg')) := by
  intro mem seg
  have hlen : s.accepted.length < 2 ^ 63 := by omega
  have hs := safe_of_reach (by omega) hN64 hS hM h
  have hafter := hs.interrupted (by omega) hfits mutex
  have hbeside := interrupted_beside hs.configured hs.room hs.msgIdx (by omega) hfits
  refine ⟨hafter.getLatest hN hlen, fun k p hk hlt => ?_, fun pid now startNs endNs data => ?_⟩
  · have hkn : k < s.accepted.length := (List.getElem?_eq_some_iff.1 hk).1
    have hne : s.accepted.length % N ≠ k % N := (mod_ne_mod_of_lt hkn hlt).symm
    rw [toNat_emod_of_wrap hs.msgIdx hlen] at hbeside
    have hold := hafter.retains hlen k p hk (show s.accepted.length ≤ k + (N - 1) by omega)
    rw [hs.configured.calcSlotOffset, hafter.configured.calcSlotOffset]
    exact ⟨fun a hlo hhi => hbeside.other hne hlo hhi, hold.size, hold.payload⟩
  · constructor
    · intro seg' hp
      rcases eq_of_publish hafter.configured (by omega) hafter.room hp with
        ⟨e, he, -⟩ | ⟨-, hle, rfl⟩
      · cases he
      · have hpublished := hafter.published (by omega) hS hle now startNs endNs
        have hmore : (s.accepted ++ [data]).length < 2 ^ 63 := by
          rw [List.length_append, List.length_singleton]
          omega
        have hlatest := hpublished.getLatest hN hmore
        rw [List.getLast?_concat] at hlatest
        exact hlatest
    · intro hfree howner hle
      exact ⟨_, publish_eq hafter.configured (by omega) hafter.room hle howner hfree now startNs
        endNs⟩

end Safe

/-- A publish of three bytes, stopped by an exception when two of them have been stored. -/
def halfway : Interruption := ⟨[9, 9, 9], fun _ => 5, .storePayload, fun a => a != 261⟩

/-- A message, a publish whose process crashes halfway, and the release of the mutex. -/
def recovered : Session Tid :=
  (interruptible FutexMutex.procs 2 3 "hi").exec (fun _ _ => True) fresh
    [.call (.publish .a 5 10 11 [1, 2, 3]), .interrupt .b 6 halfway true, .forceRelease]

theorem interrupted_publish_recovered :
    NamedHistoryBuffer.getLatest { recovered.seg with
      mem := NamedHistoryBuffer.interrupted halfway recovered.seg.size recovered.seg.mem } =
        .ok [1, 2, 3] :=
  have hacc : recovered.accepted = [[1, 2, 3]] := by decide +kernel
  have hlatest := (interrupted_publish FutexMutex.procs (by decide) (by decide) (by decide)
    (by decide +kernel) (.exec _ (.init init_fresh)) (s := recovered) (by rw [hacc]; decide)
    halfway (by decide) recovered.seg.mutex).1
  by rwa [hacc] at hlatest

end NamedHistoryBuffer
