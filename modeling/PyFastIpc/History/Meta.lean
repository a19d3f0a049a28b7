import PyFastIpc.History.Ring

/-!
# The metadata of a history buffer

`calc_meta_offset` and `calc_slot_offset(0)` are the same: the metadata and the first slot share
their bytes, although `create` allocates room for both.  The first `publish` writes its slot header
over the metadata (`meta_overwritten`).

So the metadata survives exactly if there is none, apart from metadata of zero bytes that the size
field of an always empty slot happens to equal (`meta_survives_iff`).
-/

namespace NamedHistoryBuffer

variable {ι : Type*}

/-- `get_meta` gives the metadata of `create` between any two calls. -/
def MetaSurvives (P : FutexMutex.Procs ι) (numSlots slotSize : ℕ) (metaText : String) : Prop :=
  ∀ s, (sessions P numSlots slotSize metaText).Reach (fun _ _ => True) s →
    getMeta s.seg = .ok metaText

/-- The header, the metadata and the slots lie apart from each other, in the requested size. -/
structure Separate (numSlots slotSize metaLength : ℕ) : Prop where
  header_meta : RangesDisjoint 0 headerSize calcMetaOffset metaLength
  header_slot : ∀ slot < numSlots,
    RangesDisjoint 0 headerSize (slotOffset slotSize slot) (slotHeaderSize + slotSize)
  meta_slot : ∀ slot < numSlots, RangesDisjoint calcMetaOffset metaLength
    (slotOffset slotSize slot) (slotHeaderSize + slotSize)
  slot_slot : ∀ slot < numSlots, ∀ slot' < numSlots, slot ≠ slot' →
    RangesDisjoint (slotOffset slotSize slot) (slotHeaderSize + slotSize)
      (slotOffset slotSize slot') (slotHeaderSize + slotSize)
  meta_room : calcMetaOffset + metaLength ≤ requestedSize numSlots slotSize metaLength
  slot_room : ∀ slot < numSlots, slotOffset slotSize slot + (slotHeaderSize + slotSize) ≤
    requestedSize numSlots slotSize metaLength

/-- The first slot begins where the metadata does. -/
theorem slotOffset_zero (S : ℕ) : slotOffset S 0 = calcMetaOffset := by
  simp [slotOffset, calcMetaOffset]

theorem separate_iff {N S M : ℕ} (hN : 0 < N) : Separate N S M ↔ M = 0 := by
  constructor
  · intro h
    have hzero := h.meta_slot 0 hN
    rw [slotOffset_zero] at hzero
    unfold RangesDisjoint slotHeaderSize at hzero
    omega
  · rintro rfl
    exact {
      header_meta := .inr (.inl rfl)
      header_slot := fun slot _ => .inr (.inr (.inl (by
        rw [Nat.zero_add]
        exact headerSize_le_slotOffset S slot)))
      meta_slot := fun slot _ => .inl rfl
      slot_slot := fun slot _ slot' _ hne => slots_disjoint hne
      meta_room := by
        unfold requestedSize calcMetaOffset
        omega
      slot_room := fun slot hslot => slot_le_requestedSize hslot }

theorem encodeUTF8_of_decodeUTF8 {bs : Bytes} {s : String} (h : decodeUTF8 bs = some s) :
    encodeUTF8 s = bs := by
  unfold decodeUTF8 String.fromUTF8? at h
  split_ifs at h
  obtain rfl := Option.some.inj h
  simp [encodeUTF8, String.fromUTF8]

section Bytes

variable {S slot startNs endNs k : ℕ} {m : Memory} {data : Bytes}

/-- The size field of a slot that was filled. -/
theorem filled_size (hk : k < 8) : filled S slot data startNs endNs m (slotOffset S slot + k) =
    (toLE 8 data.length).getD k 0 := by
  refine (Memory.write_of_outside (.inl (by omega))).trans <|
    (Memory.write_of_outside (.inl (by unfold slotHeaderSize; omega))).trans <|
    (Memory.write_of_outside (.inl (by omega))).trans ?_
  exact Memory.write_getD (by rwa [length_toLE])

/-- Its start version. -/
theorem filled_startVersion (hk : k < 8) :
    filled S slot data startNs endNs m (slotOffset S slot + 8 + k) =
      (toLE 8 startNs).getD k 0 := by
  refine (Memory.write_of_outside (.inl (by omega))).trans <|
    (Memory.write_of_outside (.inl (by unfold slotHeaderSize; omega))).trans ?_
  exact Memory.write_getD (by rwa [length_toLE])

theorem toLE_getD (n : ℕ) : (toLE 8 n).getD 0 0 = UInt8.ofNat n := rfl

theorem toLE_zero_getD (k : ℕ) : (toLE 8 0).getD k 0 = 0 := by
  have hzeros : toLE 8 0 = List.replicate 8 0 := rfl
  rw [hzeros, List.getD_eq_getElem?_getD, List.getElem?_replicate]
  split_ifs <;> rfl

/-- An empty payload leaves zeros in the size field of the first slot. -/
theorem filled_zero (hk : k < 8) (h : m (calcMetaOffset + k) = 0) :
    filled 0 slot [] startNs endNs m (calcMetaOffset + k) = 0 := by
  rcases Nat.eq_zero_or_pos slot with rfl | hpos
  · rw [← slotOffset_zero 0, filled_size hk, List.length_nil, toLE_zero_getD]
  · refine (filled_of_outside (Nat.zero_le 0) (.inl ?_)).trans h
    unfold slotOffset calcMetaOffset slotHeaderSize
    omega

end Bytes

section Run

variable {P : FutexMutex.Procs ι} {N S : ℕ} {metaText : String} {s : Session ι}

/-- What `get_meta` reads. -/
theorem getMeta_iff {M : ℕ} (hk : s.Kept N S M) :
    getMeta s.seg = .ok metaText ↔ s.seg.mem.read calcMetaOffset M = encodeUTF8 metaText := by
  have hroom := hk.room
  have hslice : sliceLength s.seg.size calcMetaOffset M = M := by
    refine sliceLength_of_le (le_trans ?_ hroom)
    unfold requestedSize calcMetaOffset
    omega
  unfold getMeta
  dsimp only
  rw [hk.configured.metaSize, hslice]
  constructor
  · intro h
    split at h
    next text hdecode =>
      obtain rfl := Except.ok.inj h
      exact (encodeUTF8_of_decodeUTF8 hdecode).symm
    next => cases h
  · intro h
    rw [h, decodeUTF8_encodeUTF8]

/-- The bytes that a `publish` straight after `create` leaves where the metadata was. -/
theorem read_of_survives [Nonempty ι] (hN : 0 < N) (hN64 : N < 2 ^ 64) (hS : S < 2 ^ 64)
    (hM : (encodeUTF8 metaText).length < 2 ^ 64) (h : MetaSurvives P N S metaText) {data : Bytes}
    (hdata : data.length ≤ S) (startNs endNs : ℕ) :
    (filled S 0 data startNs endNs (created N S (encodeUTF8 metaText) fun _ => 0)).read
      calcMetaOffset (encodeUTF8 metaText).length = encodeUTF8 metaText := by
  obtain ⟨i⟩ := ‹Nonempty ι›
  let s₀ : Segment ι :=
    ⟨requestedSize N S (encodeUTF8 metaText).length, fun _ => 0, ⟨0, 0, Futex.zero, 0, 0⟩⟩
  have hinit : (sessions P N S metaText).Init ⟨s₀.created N S (encodeUTF8 metaText), []⟩ :=
    ⟨⟨s₀, create_eq le_rfl⟩, rfl⟩
  have hk := kept_created hN64 hS hM s₀ le_rfl
  have hcall := hk.call_publish (P := P) hN hdata i 0 startNs endNs
  have hread := (getMeta_iff (hk.call hN hS hcall)).1
    (h _ (.step (.publish i 0 startNs endNs data) (.init hinit) trivial hcall))
  have hidx : msgIdx (s₀.created N S (encodeUTF8 metaText)).mem = 0 :=
    (configured_created hN64 hS hM s₀.mem).2
  simp only [Segment.published, hidx, Int.zero_emod, Int.toNat_zero] at hread
  refine (Memory.read_write_of_disjoint ?_).symm.trans hread
  refine .inr (.inr (.inl ?_))
  rw [length_toLE]
  decide

/-- A payload of another length changes the first byte of the metadata, and another start time the
ninth one. -/
theorem meta_of_survives [Nonempty ι] (hN : 0 < N) (hN64 : N < 2 ^ 64) (hS : S < 2 ^ 64)
    (hM : (encodeUTF8 metaText).length < 2 ^ 64) (h : MetaSurvives P N S metaText)
    (hne : metaText ≠ "") :
    S = 0 ∧ ∃ k ≤ 8, encodeUTF8 metaText = List.replicate k 0 := by
  have hbyte (data : Bytes) (hdata : data.length ≤ S) (startNs k : ℕ)
      (hk : k < (encodeUTF8 metaText).length) :
      (encodeUTF8 metaText)[k] = filled S 0 data startNs 0
        (created N S (encodeUTF8 metaText) fun _ => 0) (slotOffset S 0 + k) := by
    have hread := read_of_survives hN hN64 hS hM h hdata startNs 0
    rw [slotOffset_zero]
    exact (List.getElem_of_eq hread.symm hk).trans (Memory.getElem_read _)
  have hpos : 0 < (encodeUTF8 metaText).length := by
    rw [List.length_pos_iff]
    exact fun hnil => hne (encodeUTF8_eq_nil.1 hnil)
  have hS0 : S = 0 := by
    by_contra hS0
    have hempty := hbyte [] (Nat.zero_le S) 0 0 hpos
    have hone := hbyte [0] (Nat.one_le_iff_ne_zero.2 hS0) 0 0 hpos
    rw [filled_size (by omega), toLE_getD] at hempty hone
    exact absurd (hempty.symm.trans hone) (by decide)
  have hlen : (encodeUTF8 metaText).length ≤ 8 := by
    by_contra hlen
    have hzero := hbyte [] (Nat.zero_le S) 0 8 (by omega)
    have hone := hbyte [] (Nat.zero_le S) 1 8 (by omega)
    rw [← Nat.add_zero (slotOffset S 0 + 8), filled_startVersion (by omega), toLE_getD]
      at hzero hone
    exact absurd (hzero.symm.trans hone) (by decide)
  refine ⟨hS0, (encodeUTF8 metaText).length, hlen, List.eq_replicate_iff.2 ⟨rfl, ?_⟩⟩
  intro x hx
  obtain ⟨k, hk, rfl⟩ := List.getElem_of_mem hx
  rw [hbyte [] (Nat.zero_le S) 0 k hk, filled_size (by omega), List.length_nil, toLE_zero_getD]

/-- The size field of empty payloads is zero. -/
theorem survives_of_zeros (hN : 0 < N) (hN64 : N < 2 ^ 64) {k : ℕ} (hk : k ≤ 8)
    (hmeta : encodeUTF8 metaText = List.replicate k 0) : MetaSurvives P N 0 metaText := by
  have hlen : (encodeUTF8 metaText).length = k := by rw [hmeta, List.length_replicate]
  have hM : (encodeUTF8 metaText).length < 2 ^ 64 := by omega
  intro s hs
  have hzero : ∀ j < k, s.seg.mem (calcMetaOffset + j) = 0 := by
    refine hs.invariant (fun s => ∀ j < k, s.seg.mem (calcMetaOffset + j) = 0) ?_ ?_
    · rintro ⟨seg, accepted⟩ ⟨⟨s₀, hs₀⟩, -⟩ j hj
      obtain ⟨-, rfl⟩ := eq_of_create hs₀
      refine (Memory.write_inside (by omega)).trans ?_
      simp only [hmeta, List.getElem_replicate]
    · intro s op s' hr hzero _ hcall j hj
      have hkept := kept_of_reach hN hN64 (by decide) hM hr
      change s.call P op = some s' at hcall
      cases op with
      | attach =>
        rw [Session.call, hkept.attach] at hcall
        obtain rfl := Option.some.inj hcall
        exact hzero j hj
      | publish i now startNs endNs data =>
        rcases Nat.lt_or_ge 0 data.length with hlt | hle
        · rw [Session.call, hkept.publish_tooLarge hlt] at hcall
          obtain rfl := Option.some.inj hcall
          exact hzero j hj
        · rw [hkept.call_publish hN hle] at hcall
          obtain rfl := Option.some.inj hcall
          obtain rfl : data = [] := List.length_eq_zero_iff.1 (Nat.le_zero.1 hle)
          refine (Memory.write_of_outside (.inr ?_)).trans ?_
          · rw [length_toLE, calcMetaOffset, headerSize]
            omega
          · exact filled_zero (by omega) (hzero j hj)
  refine (getMeta_iff (kept_of_reach hN hN64 (by decide) hM hs)).2 ?_
  rw [hlen, hmeta]
  exact Memory.read_eq_replicate hzero

theorem survives_of_empty (hN : 0 < N) (hN64 : N < 2 ^ 64) (hS : S < 2 ^ 64) :
    MetaSurvives P N S "" := by
  intro s hs
  have hk := kept_of_reach hN hN64 hS (by decide) hs
  exact (getMeta_iff hk).2 rfl

/-- The metadata survives every sequence of calls, and the regions lie apart, exactly if there is no
metadata.  It survives alone also if it is at most eight zero bytes and only empty payloads fit. -/
theorem meta_survives_iff [Nonempty ι] (P : FutexMutex.Procs ι) (hN : 1 ≤ N) (hN64 : N < 2 ^ 64)
    (hS : S < 2 ^ 64) (hM : (encodeUTF8 metaText).length < 2 ^ 64) :
    (MetaSurvives P N S metaText ∧ Separate N S (encodeUTF8 metaText).length ↔ metaText = "") ∧
    (MetaSurvives P N S metaText ↔
      metaText = "" ∨ S = 0 ∧ ∃ k ≤ 8, encodeUTF8 metaText = List.replicate k 0) := by
  refine ⟨?_, ?_⟩
  · rw [separate_iff hN, List.length_eq_zero_iff, encodeUTF8_eq_nil]
    constructor
    · exact And.right
    · rintro rfl
      exact ⟨survives_of_empty hN hN64 hS, rfl⟩
  · constructor
    · intro h
      by_cases hempty : metaText = ""
      · exact .inl hempty
      · exact .inr (meta_of_survives hN hN64 hS hM h hempty)
    · rintro (rfl | ⟨rfl, k, hk, hmeta⟩)
      · exact survives_of_empty hN hN64 hS
      · exact survives_of_zeros hN hN64 hk hmeta

theorem meta_survives_iff_empty :
    MetaSurvives FutexMutex.procs 2 3 "" ∧ Separate 2 3 (encodeUTF8 "").length :=
  (meta_survives_iff FutexMutex.procs (by decide) (by decide) (by decide) (by decide)).1.2 rfl

end Run

/-- One slot of one byte, with the metadata 'A'. -/
def labelled : Session Tid := ⟨used.created 1 1 (encodeUTF8 "A"), []⟩

/-- Process `b` has published the byte 9 through an attached handle. -/
def relabelled : Session Tid :=
  (sessions FutexMutex.procs 1 1 "A").exec (fun _ _ => True) labelled
    [.attach, .publish .b 5 10 11 [9]]

/-- The metadata has become the length of the payload. -/
theorem meta_overwritten :
    ¬ MetaSurvives FutexMutex.procs 1 1 "A" ∧ getMeta relabelled.seg = .ok "\x01" := by
  have hinit : (sessions FutexMutex.procs 1 1 "A").Init labelled :=
    ⟨⟨used, create_eq (by decide +kernel)⟩, rfl⟩
  have hmeta : getMeta relabelled.seg = .ok "\x01" := by decide +kernel
  refine ⟨fun h => ?_, hmeta⟩
  have hlabel := h relabelled (.exec _ (.init hinit))
  rw [hmeta] at hlabel
  exact absurd (Except.ok.inj hlabel) (by decide)

end NamedHistoryBuffer
