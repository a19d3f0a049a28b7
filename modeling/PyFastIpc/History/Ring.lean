import PyFastIpc.History.Buffer
import PyFastIpc.Lib.Ring
import PyFastIpc.Mutex.Exclusion

/-!
# The ring contract

Calls through any handles, one at a time, on a segment with arbitrary contents before `create`.
`Session.Kept` is the invariant: the header is as `create` wrote it, the mutex is free, the message
index is the number of accepted payloads, and the slots retain the last of them.
-/

namespace NamedHistoryBuffer

section Store

variable {N S M slot size startNs endNs : ℕ} {m : Memory} {data p : Bytes}

/-- The segment after the four stores of `publish` into a slot. -/
def filled (slotSize slot : ℕ) (data : Bytes) (startNs endNs : ℕ) (m : Memory) : Memory :=
  let off := slotOffset slotSize slot
  let m := setStartVersion (setSize m off data.length) off startNs
  setEndVersion (m.write (off + slotHeaderSize) data) off endNs

/-- A slot ends inside the segment. -/
theorem slot_le_requestedSize (hslot : slot < N) :
    slotOffset S slot + (slotHeaderSize + S) ≤ requestedSize N S M := by
  have hle : (slot + 1) * (slotHeaderSize + S) ≤ N * (slotHeaderSize + S) :=
    Nat.mul_le_mul_right _ hslot
  rw [Nat.succ_mul] at hle
  unfold slotOffset requestedSize
  omega

/-- The slot index of a message number. -/
theorem toNat_emod_lt (hN : 0 < N) (idx : ℤ) : (idx % N).toNat < N := by
  have h0 : 0 ≤ idx % N := Int.emod_nonneg _ (by omega)
  have hlt : idx % N < N := Int.emod_lt_of_pos _ (by omega)
  omega

theorem Configured.filled (h : Configured N S M m) :
    Configured N S M (filled S slot data startNs endNs m) := by
  have hoff := headerSize_le_slotOffset S slot
  unfold headerSize at hoff
  exact (((h.write (by omega)).write (by omega)).write (by omega)).write (by omega)

theorem msgIdx_filled : msgIdx (filled S slot data startNs endNs m) = msgIdx m := by
  have hoff := headerSize_le_slotOffset S slot
  exact (msgIdx_write (by omega)).trans <| (msgIdx_write (by omega)).trans <|
    (msgIdx_write (by omega)).trans (msgIdx_write hoff)

/-- The four stores stay inside the slot. -/
theorem filled_of_outside {a : ℕ} (hdata : data.length ≤ S)
    (ha : a < slotOffset S slot ∨ slotOffset S slot + (slotHeaderSize + S) ≤ a) :
    filled S slot data startNs endNs m a = m a := by
  have hword (k : ℕ) (hk : k + 8 ≤ slotHeaderSize) (v : ℕ) :
      a < slotOffset S slot + k ∨ slotOffset S slot + k + (toLE 8 v).length ≤ a := by
    rw [length_toLE]
    omega
  unfold slotHeaderSize at hword
  exact (Memory.write_of_outside (hword 16 (by omega) _)).trans <|
    (Memory.write_of_outside (by omega)).trans <|
    (Memory.write_of_outside (hword 8 (by omega) _)).trans
      (Memory.write_of_outside (hword 0 (by omega) _))

theorem Holds.filled_self (hdata : data.length < 2 ^ 64) :
    Holds S (filled S slot data startNs endNs m) slot data where
  size := by
    refine (Memory.u64_write (.inr (.inr (.inr (by omega))))).trans <|
      (Memory.u64_write (.inr (.inr (.inr (by unfold slotHeaderSize; omega))))).trans <|
      (Memory.u64_write (.inr (.inr (.inr (by omega))))).trans ?_
    rw [setSize, Memory.u64_setU64, Nat.mod_eq_of_lt hdata]
  payload := by
    refine (Memory.read_write_of_disjoint (.inr (.inr (.inl ?_)))).trans (Memory.read_write _ _)
    rw [length_toLE, slotHeaderSize]
    omega

theorem Holds.filled_other {slot' : ℕ} (h : Holds S m slot' p) (hp : p.length ≤ S)
    (hdata : data.length ≤ S) (hne : slot ≠ slot') :
    Holds S (filled S slot data startNs endNs m) slot' p := by
  have hword (k : ℕ) (hk : k + 8 ≤ slotHeaderSize) (v : ℕ) : slotOffset S slot + k +
      (toLE 8 v).length ≤ slotOffset S slot + (slotHeaderSize + S) := by
    rw [length_toLE]
    omega
  unfold slotHeaderSize at hword
  exact (((h.write_other hp hne (by omega) (hword 0 (by omega) _)).write_other hp hne (by omega)
    (hword 8 (by omega) _)).write_other hp hne (by omega) (by omega)).write_other hp hne (by omega)
      (hword 16 (by omega) _)

/-- `publish` of a payload that fits stores it into the slot of its number, and nothing else. -/
theorem store_eq (h : Configured N S M m) (hN : 0 < N) (hsize : requestedSize N S M ≤ size)
    (hdata : data.length ≤ S) :
    store data startNs endNs size m =
      (.ok (), setMsgIdx (filled S (msgIdx m % N).toNat data startNs endNs m) (msgIdx m + 1)) := by
  have hslot := slot_le_requestedSize (S := S) (M := M) (toNat_emod_lt hN (msgIdx m))
  have hoff := h.calcSlotOffset (msgIdx m % N).toNat
  have hstart : calcSlotOffset (setStartVersion (setSize m (slotOffset S (msgIdx m % N).toNat)
      data.length) (slotOffset S (msgIdx m % N).toNat) startNs) (msgIdx m % N).toNat =
      slotOffset S (msgIdx m % N).toNat := by
    have hle := headerSize_le_slotOffset S (msgIdx m % N).toNat
    unfold headerSize at hle
    exact ((h.write (by omega)).write (by omega)).calcSlotOffset _
  have hslice : sliceLength size (slotOffset S (msgIdx m % N).toNat + slotHeaderSize)
      data.length = data.length := sliceLength_of_le (by omega)
  unfold store
  rw [h.numSlots, if_neg hN.ne']
  dsimp only
  rw [hoff, if_neg (by omega), hstart, if_neg (not_not.2 hslice)]
  rw [show msgIdx (setEndVersion _ _ endNs) = msgIdx m from msgIdx_filled]
  rfl

/-- The slot of message number `n`, as long as the index has not wrapped. -/
theorem toNat_emod_of_wrap {n : ℕ} (h : msgIdx m = wrap64 n) (hn : n < 2 ^ 63) :
    (msgIdx m % N).toNat = n % N := by
  rw [h, wrap64_of_range (by omega) (by omega), ← Int.natCast_mod, Int.toNat_natCast]

/-- The slots after a `publish`. -/
theorem retains_publish {xs : List Bytes} {v : ℤ} (h : Retains N (N - 1) xs (Holds S m))
    (hN : 0 < N) (hS : data.length < 2 ^ 64) (hfits : ∀ p ∈ xs, p.length ≤ S)
    (hdata : data.length ≤ S) (hslot : slot = xs.length % N) :
    Retains N N (xs ++ [data])
      (Holds S (setMsgIdx (filled S slot data startNs endNs m) v)) := by
  subst hslot
  refine (h.overwrite fun slot' hne p hp hold => ?_).push hN ?_
  · exact (hold.filled_other (hfits p hp) hdata hne.symm).setMsgIdx (hfits p hp) v
  · exact (Holds.filled_self hS).setMsgIdx hdata v

end Store

/-! ## Sessions -/

variable {ι : Type*}

/-- A call through some handle.  `attach` opens a further one. -/
inductive Op (ι : Type*) where
  | attach
  | publish (i : ι) (now : UInt64) (startNs endNs : ℕ) (data : Bytes)

/-- The segment, and the payloads accepted since `create`. -/
structure Session (ι : Type*) where
  seg : Segment ι
  accepted : List Bytes

open FutexMutex in
/-- A complete call.  A call that raises leaves the history as it is. -/
def Session.call (P : Procs ι) (s : Session ι) : Op ι → Option (Session ι)
  | .attach =>
    match attach s.seg with
    | some (.ok seg) => some { s with seg := seg }
    | some (.error _) => some s
    | none => none
  | .publish i now startNs endNs data =>
    match publish (P.pid i) now startNs endNs data s.seg with
    | some (.ok _, seg) => some ⟨seg, s.accepted ++ [data]⟩
    | some (.error _, seg) => some { s with seg := seg }
    | none => none

/-- `create` on any segment that is large enough, then calls one after the other. -/
def sessions (P : FutexMutex.Procs ι) (numSlots slotSize : ℕ) (metaText : String) :
    Transition (Session ι) (Op ι) where
  Init s := (∃ s₀, create numSlots slotSize metaText s₀ = some s.seg) ∧ s.accepted = []
  step s op := s.call P op

/-- What holds between two calls. -/
structure Session.Kept (N S M : ℕ) (s : Session ι) : Prop where
  configured : Configured N S M s.seg.mem
  room : requestedSize N S M ≤ s.seg.size
  free : s.seg.mutex.state.word = 0 ∧ s.seg.mutex.ownerPid = 0
  msgIdx : msgIdx s.seg.mem = wrap64 s.accepted.length
  fits : ∀ p ∈ s.accepted, p.length ≤ S
  retains : s.accepted.length < 2 ^ 63 → Retains N N s.accepted (Holds S s.seg.mem)

section Kept

variable {P : FutexMutex.Procs ι} {N S : ℕ} {metaText : String} {s : Session ι}

/-- The bytes after the stores of `create`. -/
def created (numSlots slotSize : ℕ) (metaEncoded : Bytes) (m : Memory) : Memory :=
  (setMsgIdx (setSlotSize (setNumSlots (setMetaSize (setMagic m magicPFHB) metaEncoded.length)
    numSlots) slotSize) 0).write calcMetaOffset metaEncoded

/-- The segment after `create`. -/
def Segment.created (s₀ : Segment ι) (numSlots slotSize : ℕ) (metaEncoded : Bytes) : Segment ι :=
  { s₀ with
    mem := NamedHistoryBuffer.created numSlots slotSize metaEncoded s₀.mem
    mutex := ⟨FutexMutex.magicMUTX, 0, s₀.mutex.state.store 0, 0, 0⟩ }

/-- The segment after a `publish` that was accepted. -/
def Segment.published (s : Segment ι) (numSlots slotSize : ℕ) (now : UInt64) (startNs endNs : ℕ)
    (data : Bytes) : Segment ι :=
  { s with
    mem := setMsgIdx
      (filled slotSize (msgIdx s.mem % numSlots).toNat data startNs endNs s.mem) (msgIdx s.mem + 1)
    mutex := { s.mutex with
      state := s.mutex.state.store 0, ownerPid := 0, lastAcquiredNs := now } }

theorem create_eq {s₀ : Segment ι}
    (hsize : requestedSize N S (encodeUTF8 metaText).length ≤ s₀.size) :
    create N S metaText s₀ = some (s₀.created N S (encodeUTF8 metaText)) := by
  unfold create
  dsimp only
  rw [if_neg (not_lt.2 hsize)]
  rfl

theorem eq_of_create {s₀ seg : Segment ι} (h : create N S metaText s₀ = some seg) :
    requestedSize N S (encodeUTF8 metaText).length ≤ s₀.size ∧
      seg = s₀.created N S (encodeUTF8 metaText) := by
  by_cases hsize : s₀.size < requestedSize N S (encodeUTF8 metaText).length
  · unfold create at h
    dsimp only at h
    rw [if_pos hsize] at h
    cases h
  · rw [create_eq (not_lt.1 hsize)] at h
    exact ⟨not_lt.1 hsize, (Option.some.inj h).symm⟩

/-- `create` stores into the header and the metadata. -/
theorem created_of_outside {bs : Bytes} {m : Memory} {a : ℕ}
    (ha : headerSize + bs.length ≤ a) : created N S bs m a = m a := by
  unfold headerSize at ha
  have hword (k v : ℕ) (hk : k + 8 ≤ 128) : a < k ∨ k + (toLE 8 v).length ≤ a := by
    rw [length_toLE]
    omega
  exact (Memory.write_of_outside (.inr ha)).trans <|
    (Memory.write_of_outside (hword 32 _ (by omega))).trans <|
    (Memory.write_of_outside (hword 24 _ (by omega))).trans <|
    (Memory.write_of_outside (hword 16 _ (by omega))).trans <|
    (Memory.write_of_outside (hword 8 _ (by omega))).trans
      (Memory.write_of_outside (hword 0 _ (by omega)))

/-- The header that `create` writes. -/
theorem configured_created (hN : N < 2 ^ 64) (hS : S < 2 ^ 64) {bs : Bytes}
    (hM : bs.length < 2 ^ 64) (m : Memory) :
    Configured N S bs.length (created N S bs m) ∧ msgIdx (created N S bs m) = 0 := by
  have hmeta : Configured N S bs.length (setMsgIdx (setSlotSize (setNumSlots (setMetaSize
      (setMagic m magicPFHB) bs.length) N) S) 0) := by
    constructor <;>
      simp (disch := omega) only [magic, metaSize, numSlots, slotSize, setMsgIdx, setSlotSize,
        setNumSlots, setMetaSize, setMagic, Memory.setI64, Memory.u64_setU64_of_disjoint,
        Memory.u64_setU64]
    · rfl
    · exact Nat.mod_eq_of_lt hM
    · exact Nat.mod_eq_of_lt hN
    · exact Nat.mod_eq_of_lt hS
  refine ⟨hmeta.write (by decide), (msgIdx_write le_rfl).trans ?_⟩
  rw [msgIdx_setMsgIdx]
  rfl

theorem kept_created (hN : N < 2 ^ 64) (hS : S < 2 ^ 64) {bs : Bytes} (hM : bs.length < 2 ^ 64)
    (s₀ : Segment ι) (hsize : requestedSize N S bs.length ≤ s₀.size) :
    Session.Kept N S bs.length ⟨s₀.created N S bs, []⟩ where
  configured := (configured_created hN hS hM s₀.mem).1
  room := hsize
  free := ⟨rfl, rfl⟩
  msgIdx := by
    rw [List.length_nil, Nat.cast_zero, wrap64_zero]
    exact (configured_created hN hS hM s₀.mem).2
  fits := by simp
  retains := fun _ => .nil

/-- `publish` of a payload that fits, with a free mutex. -/
theorem publish_eq {M : ℕ} {s : Segment ι} {pid : UInt32} {data : Bytes}
    (h : Configured N S M s.mem) (hN : 0 < N) (hsize : requestedSize N S M ≤ s.size)
    (hdata : data.length ≤ S) (howner : s.mutex.ownerPid ≠ pid) (hfree : s.mutex.state.word = 0)
    (now : UInt64) (startNs endNs : ℕ) :
    NamedHistoryBuffer.publish pid now startNs endNs data s =
      some (.ok (), s.published N S now startNs endNs data) := by
  have hacquire : FutexMutex.acquireAlone pid now s.mutex = some (.ok
      { s.mutex with
        state := s.mutex.state.store 1, ownerPid := pid, lastAcquiredNs := now }) := by
    rw [FutexMutex.acquireAlone, if_neg howner, if_pos hfree]
  unfold NamedHistoryBuffer.publish
  rw [h.slotSize, if_neg (by omega), hacquire]
  dsimp only
  rw [FutexMutex.releaseAlone_of_acquireAlone hacquire, store_eq h hN hsize hdata]
  rfl

theorem Session.Kept.publish {M : ℕ} (hk : s.Kept N S M) (hN : 0 < N) {data : Bytes}
    (hdata : data.length ≤ S) (i : ι) (now : UInt64) (startNs endNs : ℕ) :
    NamedHistoryBuffer.publish (P.pid i) now startNs endNs data s.seg =
      some (.ok (), s.seg.published N S now startNs endNs data) := by
  obtain ⟨hfree, howner⟩ := hk.free
  refine publish_eq hk.configured hN hk.room hdata ?_ hfree now startNs endNs
  rw [howner]
  exact (P.pid_ne_zero i).symm

/-- `publish` of a payload that does not fit. -/
theorem Session.Kept.publish_tooLarge {M : ℕ} (hk : s.Kept N S M) {data : Bytes}
    (hdata : S < data.length) (pid : UInt32) (now : UInt64) (startNs endNs : ℕ) :
    NamedHistoryBuffer.publish pid now startNs endNs data s.seg =
      some (.error (.tooLarge data.length S), s.seg) := by
  unfold NamedHistoryBuffer.publish
  rw [hk.configured.slotSize, if_pos hdata]

/-- The attaching constructor finds what `create` left. -/
theorem attach_eq {M : ℕ} {seg : Segment ι} (hconf : Configured N S M seg.mem)
    (hroom : requestedSize N S M ≤ seg.size) :
    NamedHistoryBuffer.attach seg =
      some (.ok { seg with mutex := { seg.mutex with magic := FutexMutex.magicMUTX } }) := by
  have hheader : headerSize ≤ seg.size := by
    refine le_trans ?_ hroom
    unfold requestedSize
    omega
  unfold NamedHistoryBuffer.attach
  rw [if_neg (by omega), if_neg (not_not.2 hconf.magic), hconf.calcTotalSize, if_neg (by omega)]

theorem Session.Kept.attach {M : ℕ} (hk : s.Kept N S M) :
    NamedHistoryBuffer.attach s.seg =
      some (.ok { s.seg with mutex := { s.seg.mutex with magic := FutexMutex.magicMUTX } }) :=
  attach_eq hk.configured hk.room

/-- An accepted `publish` keeps the invariant. -/
theorem Session.Kept.published {M : ℕ} (hk : s.Kept N S M) (hN : 0 < N) (hS : S < 2 ^ 64)
    {data : Bytes} (hdata : data.length ≤ S) (now : UInt64) (startNs endNs : ℕ) :
    Session.Kept N S M
      ⟨s.seg.published N S now startNs endNs data, s.accepted ++ [data]⟩ where
  configured := hk.configured.filled.write (by decide)
  room := hk.room
  free := ⟨rfl, rfl⟩
  msgIdx := by
    refine (msgIdx_setMsgIdx _).trans ?_
    rw [hk.msgIdx, wrap64_wrap64_add, List.length_append, List.length_singleton, Nat.cast_succ]
  fits p hp := by
    rcases List.mem_append.1 hp with hp | hp
    · exact hk.fits p hp
    · rwa [List.mem_singleton.1 hp]
  retains hn := by
    rw [List.length_append, List.length_singleton] at hn
    have hretains := (hk.retains (by omega)).mono (Nat.sub_le N 1)
    exact retains_publish hretains hN (by omega) hk.fits hdata
      (toNat_emod_of_wrap hk.msgIdx (by omega))

theorem Session.Kept.call_publish {M : ℕ} (hk : s.Kept N S M) (hN : 0 < N) {data : Bytes}
    (hdata : data.length ≤ S) (i : ι) (now : UInt64) (startNs endNs : ℕ) :
    s.call P (.publish i now startNs endNs data) =
      some ⟨s.seg.published N S now startNs endNs data, s.accepted ++ [data]⟩ := by
  rw [Session.call, hk.publish hN hdata]

theorem Session.Kept.call {M : ℕ} (hk : s.Kept N S M) (hN : 0 < N) (hS : S < 2 ^ 64) {op : Op ι}
    {s' : Session ι} (h : s.call P op = some s') : s'.Kept N S M := by
  cases op with
  | attach =>
    rw [Session.call, hk.attach] at h
    obtain rfl := Option.some.inj h
    exact { hk with }
  | publish i now startNs endNs data =>
    rcases Nat.lt_or_ge S data.length with hlt | hle
    · rw [Session.call, hk.publish_tooLarge hlt] at h
      obtain rfl := Option.some.inj h
      exact hk
    · rw [hk.call_publish hN hle] at h
      obtain rfl := Option.some.inj h
      exact hk.published hN hS hle now startNs endNs

theorem kept_of_reach (hN : 0 < N) (hN64 : N < 2 ^ 64) (hS : S < 2 ^ 64)
    (hM : (encodeUTF8 metaText).length < 2 ^ 64) {ok : Session ι → Op ι → Prop}
    (h : (sessions P N S metaText).Reach ok s) : s.Kept N S (encodeUTF8 metaText).length := by
  refine h.invariant (fun s => s.Kept N S (encodeUTF8 metaText).length) ?_
    fun s op s' _ hk _ hs => hk.call hN hS hs
  rintro ⟨seg, accepted⟩ ⟨⟨s₀, hs₀⟩, hacc⟩
  obtain rfl : accepted = [] := hacc
  obtain ⟨hsize, rfl⟩ := eq_of_create hs₀
  exact kept_created hN64 hS hM s₀ hsize

/-- `get_latest` returns the last payload, if the slots retain it. -/
theorem getLatest_of_retains {M d : ℕ} {seg : Segment ι} {xs : List Bytes}
    (hconf : Configured N S M seg.mem) (hroom : requestedSize N S M ≤ seg.size)
    (hidx : NamedHistoryBuffer.msgIdx seg.mem = wrap64 xs.length) (hfits : ∀ p ∈ xs, p.length ≤ S)
    (hretains : Retains N d xs (Holds S seg.mem)) (hd : 0 < d) (hN : 0 < N)
    (hn : xs.length < 2 ^ 63) :
    NamedHistoryBuffer.getLatest seg =
      match xs.getLast? with
      | some p => .ok p
      | none => .error .noEntries := by
  rw [wrap64_of_range (by omega) (by omega)] at hidx
  unfold NamedHistoryBuffer.getLatest
  dsimp only
  rw [hidx]
  cases hlast : xs.getLast? with
  | none =>
    obtain hnil := List.getLast?_eq_none_iff.1 hlast
    simp [hnil]
  | some p =>
    have hpos : 0 < xs.length := by
      rw [List.length_pos_iff]
      rintro hnil
      simp [hnil] at hlast
    have hslot : (((xs.length : ℤ) - 1) % N).toNat = (xs.length - 1) % N := by
      rw [← Nat.cast_pred hpos, ← Int.natCast_mod, Int.toNat_natCast]
    have hhold : Holds S seg.mem ((xs.length - 1) % N) p := hretains.last hd hlast
    have hle : p.length ≤ S := hfits p (List.mem_of_getLast? hlast)
    have hend := slot_le_requestedSize (S := S) (M := M) (Nat.mod_lt (xs.length - 1) hN)
    rw [if_neg (by omega), hconf.numSlots, if_neg hN.ne', hslot, hconf.calcSlotOffset,
      if_neg (by omega), hhold.size, sliceLength_of_le (by omega), hhold.payload]

theorem Session.Kept.getLatest {M : ℕ} (hk : s.Kept N S M) (hN : 0 < N)
    (hn : s.accepted.length < 2 ^ 63) :
    NamedHistoryBuffer.getLatest s.seg =
      match s.accepted.getLast? with
      | some p => .ok p
      | none => .error .noEntries :=
  getLatest_of_retains hk.configured hk.room hk.msgIdx hk.fits (hk.retains hn) hN hN hn

/-- The calls of a history buffer, made one at a time after `create` on a large enough segment.  The
attaching constructor computes the size that `create` requested; the slots keep the last payloads
with their sizes; `get_latest` returns the last one or raises; every slot lies inside the segment,
and `publish` changes no byte outside; a payload that is too long is refused without any change. -/
theorem ring_contract (P : FutexMutex.Procs ι) (hN : 1 ≤ N) (hN64 : N < 2 ^ 64) (hS : S < 2 ^ 64)
    (hM : (encodeUTF8 metaText).length < 2 ^ 64)
    (h : (sessions P N S metaText).Reach (fun _ _ => True) s)
    (hn : s.accepted.length < 2 ^ 63) :
    calcTotalSize s.seg.mem = requestedSize N S (encodeUTF8 metaText).length ∧
    (∀ k p, s.accepted[k]? = some p → s.accepted.length ≤ k + N →
      size s.seg.mem (calcSlotOffset s.seg.mem (k % N)) = p.length ∧
      s.seg.mem.read (calcSlotOffset s.seg.mem (k % N) + slotHeaderSize) p.length = p) ∧
    NamedHistoryBuffer.getLatest s.seg =
      (match s.accepted.getLast? with
      | some p => .ok p
      | none => .error .noEntries) ∧
    (∀ slot < N, calcSlotOffset s.seg.mem slot + slotHeaderSize + S ≤ s.seg.size) ∧
    (∀ i now startNs endNs data, data.length ≤ S →
      ∃ seg, NamedHistoryBuffer.publish (P.pid i) now startNs endNs data s.seg =
        some (.ok (), seg) ∧ ∀ a, s.seg.size ≤ a → seg.mem a = s.seg.mem a) ∧
    (∀ i now startNs endNs data, S < data.length →
      NamedHistoryBuffer.publish (P.pid i) now startNs endNs data s.seg =
        some (.error (.tooLarge data.length S), s.seg)) ∧
    (∃ seg, NamedHistoryBuffer.attach s.seg = some (.ok seg) ∧ seg.mem = s.seg.mem) ∧
    (∀ s₀ : Segment ι, requestedSize N S (encodeUTF8 metaText).length ≤ s₀.size →
      ∃ seg, create N S metaText s₀ = some seg ∧ ∀ a, s₀.size ≤ a → seg.mem a = s₀.mem a) := by
  have hk := kept_of_reach hN hN64 hS hM h
  refine ⟨hk.configured.calcTotalSize, fun k p hp hle => ?_, hk.getLatest hN hn,
    fun slot hslot => ?_,
    fun i now startNs endNs data hdata => ⟨_, hk.publish hN hdata i now startNs endNs, ?_⟩,
    fun i now startNs endNs data hdata => hk.publish_tooLarge hdata _ now startNs endNs,
    ⟨_, hk.attach, rfl⟩, fun s₀ hsize => ?_⟩
  · rw [hk.configured.calcSlotOffset]
    exact ⟨(hk.retains hn k p hp hle).size, (hk.retains hn k p hp hle).payload⟩
  · rw [hk.configured.calcSlotOffset]
    have := slot_le_requestedSize (S := S) (M := (encodeUTF8 metaText).length) hslot
    have := hk.room
    omega
  · intro a ha
    have hend := slot_le_requestedSize (S := S) (M := (encodeUTF8 metaText).length)
      (toNat_emod_lt hN (NamedHistoryBuffer.msgIdx s.seg.mem))
    have hhead : 40 ≤ requestedSize N S (encodeUTF8 metaText).length := by
      unfold requestedSize headerSize
      omega
    have hroom := hk.room
    refine (Memory.write_of_outside (.inr ?_)).trans (filled_of_outside hdata (.inr (by omega)))
    rw [length_toLE]
    omega
  · rw [create_eq hsize]
    refine ⟨_, rfl, fun a ha => created_of_outside ?_⟩
    unfold requestedSize at hsize
    omega

end Kept

/-- A segment of 4096 bytes 7 whose mutex looks locked. -/
def used : Segment Tid := ⟨4096, fun _ => 7, ⟨7, 7, ⟨7, ∅⟩, 7, 7⟩⟩

/-- Two slots of three bytes on it. -/
def fresh : Session Tid := ⟨used.created 2 3 (encodeUTF8 "hi"), []⟩

theorem init_fresh : (sessions FutexMutex.procs 2 3 "hi").Init fresh :=
  ⟨⟨used, create_eq (by decide +kernel)⟩, rfl⟩

/-- Three payloads through the creator's handle and an attached one, and a refused one. -/
def wrapped : Session Tid :=
  (sessions FutexMutex.procs 2 3 "hi").exec (fun _ _ => True) fresh
    [.publish .a 5 10 11 [1, 2, 3], .attach, .publish .b 6 12 13 [4],
      .publish .b 7 14 15 [1, 2, 3, 4], .publish .a 8 16 17 [5, 6]]

theorem ring_contract_wrapped :
    wrapped.accepted = [[1, 2, 3], [4], [5, 6]] ∧
      NamedHistoryBuffer.getLatest wrapped.seg = .ok [5, 6] :=
  have hacc : wrapped.accepted = [[1, 2, 3], [4], [5, 6]] := by decide +kernel
  ⟨hacc, by
    have hlatest := (ring_contract FutexMutex.procs (by decide) (by decide) (by decide)
      (by decide +kernel) (.exec _ (.init init_fresh)) (s := wrapped) (by decide +kernel)).2.2.1
    rwa [hacc] at hlatest⟩

end NamedHistoryBuffer
