import PyFastIpc.History.Steps
import PyFastIpc.History.Ring

/-!
# The slots under single accesses

`SegInv` ties the bytes of the segment to the histories: the header, the index, and in each slot the
size and the payload that were stored in it last.  `BodyInv` is what the registers of a publish hold
before each access of its `try` block.  An access succeeds and keeps both (`BodyInv.access`).
-/

namespace NamedHistoryBuffer

variable {ι : Type*}

/-- The place of an access in the `try` block. -/
def Stage.rank : Stage → ℕ
  | .loadIdx => 0
  | .loadNumSlots => 1
  | .locate => 2
  | .storeSize => 3
  | .storeStart => 4
  | .relocate => 5
  | .storePayload => 6
  | .storeEnd => 7
  | .loadNext => 8
  | .storeNext => 9

theorem Stage.rank_next {k k' : Stage} (h : k.next = some k') : k'.rank = k.rank + 1 := by
  cases k <;> cases h <;> rfl

theorem Stage.rank_injective : Function.Injective Stage.rank := by
  intro j k h
  cases j <;> cases k <;> first | rfl | cases h

/-- The accesses that store. -/
def Stage.stores : Stage → Bool
  | .storeSize | .storeStart | .storePayload | .storeEnd | .storeNext => true
  | _ => false

/-- A store changes no register. -/
theorem regs_of_stores {now size : ℕ} {m mem : Memory} {r r' : Regs} {k : Stage}
    (hk : k.stores = true) (ha : access now size m r k = .ok (r', mem)) : r = r' := by
  cases k with
  | storeSize | storeStart | storeEnd | storeNext => exact (Prod.mk.inj (Except.ok.inj ha)).1
  | storePayload =>
    simp only [access] at ha
    split_ifs at ha
    exact (Prod.mk.inj (Except.ok.inj ha)).1
  | _ => cases hk

/-- Each slot has the size and the payload that were stored in it last. -/
structure Stored (S : ℕ) (m : Memory) (sized held : ℕ → Option (Entry ι)) : Prop where
  size : ∀ s e, sized s = some e → size m (slotOffset S s) = e.data.length
  payload : ∀ s e, held s = some e → m.read (slotOffset S s + slotHeaderSize) e.data.length = e.data
  fits : ∀ s e, sized s = some e ∨ held s = some e → e.data.length ≤ S

/-- The segment agrees with the histories. -/
structure SegInv (N S M : ℕ) (sh : Shared ι) : Prop where
  configured : Configured N S M sh.seg.mem
  room : requestedSize N S M ≤ sh.seg.size
  msgIdx : msgIdx sh.seg.mem = wrap64 sh.done.length
  stored : Stored S sh.seg.mem sh.sized sh.held

/-- What access `k` of process `i` has established when it has been executed. -/
def Established (N S : ℕ) (sh : Shared ι) (i : ι) (r : Regs) : Stage → Prop
  | .loadIdx => r.id = NamedHistoryBuffer.msgIdx sh.seg.mem
  | .loadNumSlots => r.slot = (r.id % N).toNat
  | .locate => r.off = slotOffset S r.slot
  | .storeSize => sh.sized r.slot = some ⟨r.id, i, r.data⟩
  | .relocate => r.payloadOff = slotOffset S r.slot + slotHeaderSize
  | .storePayload => sh.held r.slot = some ⟨r.id, i, r.data⟩
  | .loadNext => r.idx = NamedHistoryBuffer.msgIdx sh.seg.mem
  | .storeStart | .storeEnd | .storeNext => True

/-- The registers of process `i` before access `k`. -/
structure BodyInv (N S : ℕ) (sh : Shared ι) (i : ι) (k : Stage) (r : Regs) : Prop where
  fits : r.data.length ≤ S
  earlier : ∀ j : Stage, j.rank < k.rank → Established N S sh i r j

/-! ## Stores and slots -/

section Stored

variable {N S M slot off v : ℕ} {m : Memory} {bs : Bytes} {sized held : ℕ → Option (Entry ι)}
  {e : Entry ι}

theorem Stored.write (h : Stored S m sized held)
    (hsize : ∀ s, RangesDisjoint off bs.length (slotOffset S s) 8)
    (hpayload : ∀ s, RangesDisjoint off bs.length (slotOffset S s + slotHeaderSize) S) :
    Stored S (m.write off bs) sized held where
  size s e he := (Memory.u64_write (hsize s)).trans (h.size s e he)
  payload s e he := by
    have hfits := h.fits s e (.inr he)
    exact (Memory.read_write_of_disjoint ((hpayload s).mono le_rfl le_rfl le_rfl (by omega))).trans
      (h.payload s e he)
  fits := h.fits

/-- A part of a slot has nothing in common with another slot. -/
theorem range_disjoint_of_ne {s a n b l : ℕ} (hne : slot ≠ s) (ha : slotOffset S slot ≤ a)
    (hn : a + n ≤ slotOffset S slot + (slotHeaderSize + S)) (hb : slotOffset S s ≤ b)
    (hl : b + l ≤ slotOffset S s + (slotHeaderSize + S)) : RangesDisjoint a n b l :=
  (slots_disjoint hne).mono ha hn hb hl

/-- A store into the slot header behind the size. -/
theorem Stored.writeHeader (h : Stored S m sized held) (slot : ℕ)
    (hlo : slotOffset S slot + 8 ≤ off)
    (hhi : off + bs.length ≤ slotOffset S slot + slotHeaderSize) :
    Stored S (m.write off bs) sized held := by
  refine h.write (fun s => ?_) fun s => ?_
  · by_cases hs : slot = s
    · subst hs
      exact .inr (.inr (.inr hlo))
    · exact range_disjoint_of_ne hs (by omega) (by omega) le_rfl (by unfold slotHeaderSize; omega)
  · by_cases hs : slot = s
    · subst hs
      exact .inr (.inr (.inl hhi))
    · exact range_disjoint_of_ne (S := S) hs (by omega) (by omega) (by omega) (by omega)

/-- The store of the size. -/
theorem Stored.setSize (h : Stored S m sized held) (slot : ℕ) (e : Entry ι)
    (hfits : e.data.length ≤ S) (hS : e.data.length < 2 ^ 64) :
    Stored S (setSize m (slotOffset S slot) e.data.length)
      (Function.update sized slot (some e)) held where
  size s e' he := by
    by_cases hs : s = slot
    · subst hs
      rw [Function.update_self] at he
      obtain rfl := Option.some.inj he
      rw [NamedHistoryBuffer.size, NamedHistoryBuffer.setSize, Memory.u64_setU64,
        Nat.mod_eq_of_lt hS]
    · rw [Function.update_of_ne hs] at he
      refine (Memory.u64_write ?_).trans (h.size s e' he)
      rw [length_toLE]
      exact range_disjoint_of_ne (Ne.symm hs) le_rfl (by unfold slotHeaderSize; omega) le_rfl
        (by unfold slotHeaderSize; omega)
  payload s e' he := by
    have hle := h.fits s e' (.inr he)
    refine (Memory.read_write_of_disjoint ?_).trans (h.payload s e' he)
    rw [length_toLE]
    by_cases hs : s = slot
    · subst hs
      exact .inr (.inr (.inl (by unfold slotHeaderSize; omega)))
    · exact range_disjoint_of_ne (Ne.symm hs) le_rfl (by unfold slotHeaderSize; omega) (by omega)
        (by omega)
  fits s e' he := by
    by_cases hs : s = slot
    · subst hs
      rcases he with he | he
      · rw [Function.update_self] at he
        obtain rfl := Option.some.inj he
        exact hfits
      · exact h.fits s e' (.inr he)
    · rw [Function.update_of_ne hs] at he
      exact h.fits s e' he

/-- The store of the payload. -/
theorem Stored.setPayload (h : Stored S m sized held) (slot : ℕ) (e : Entry ι)
    (hfits : e.data.length ≤ S) :
    Stored S (m.write (slotOffset S slot + slotHeaderSize) e.data) sized
      (Function.update held slot (some e)) where
  size s e' he := by
    refine (Memory.u64_write ?_).trans (h.size s e' he)
    by_cases hs : s = slot
    · subst hs
      exact .inr (.inr (.inr (by unfold slotHeaderSize; omega)))
    · exact range_disjoint_of_ne (Ne.symm hs) (by omega) (by omega) le_rfl
        (by unfold slotHeaderSize; omega)
  payload s e' he := by
    by_cases hs : s = slot
    · subst hs
      rw [Function.update_self] at he
      obtain rfl := Option.some.inj he
      exact Memory.read_write _ _
    · rw [Function.update_of_ne hs] at he
      have hle := h.fits s e' (.inr he)
      have hdis : RangesDisjoint (slotOffset S slot + slotHeaderSize) e.data.length
          (slotOffset S s + slotHeaderSize) e'.data.length :=
        range_disjoint_of_ne (S := S) (Ne.symm hs) (by omega) (by omega) (by omega) (by omega)
      exact (Memory.read_write_of_disjoint hdis).trans (h.payload s e' he)
  fits s e' he := by
    by_cases hs : s = slot
    · subst hs
      rcases he with he | he
      · exact h.fits s e' (.inl he)
      · rw [Function.update_self] at he
        obtain rfl := Option.some.inj he
        exact hfits
    · rw [Function.update_of_ne hs] at he
      exact h.fits s e' he

/-- The store of the index. -/
theorem Stored.setMsgIdx (h : Stored S m sized held) (v : ℤ) :
    Stored S (setMsgIdx m v) sized held := by
  have hoff (s : ℕ) : 40 ≤ slotOffset S s := by
    have := headerSize_le_slotOffset S s
    unfold headerSize at this
    omega
  refine h.write (fun s => ?_) fun s => ?_
  · rw [length_toLE]
    exact .inr (.inr (.inl (hoff s)))
  · have := hoff s
    rw [length_toLE]
    exact .inr (.inr (.inl (by omega)))

end Stored

/-! ## One access -/

section Access

variable {N S M now : ℕ} {sh : Shared ι} {i : ι} {k k' : Stage} {r r' : Regs} {mem : Memory}

/-- A store behind the header fields keeps what the header says. -/
theorem SegInv.write (h : SegInv N S M sh) {off : ℕ} {bs : Bytes} (hoff : headerSize ≤ off)
    {sized held : ℕ → Option (Entry ι)} (hstored : Stored S (sh.seg.mem.write off bs) sized held) :
    SegInv N S M { sh.setMem (sh.seg.mem.write off bs) with sized := sized, held := held } where
  configured := h.configured.write (by unfold headerSize at hoff; omega)
  room := h.room
  msgIdx := (msgIdx_write hoff).trans h.msgIdx
  stored := hstored

/-- The slot of a publish lies inside the segment. -/
theorem SegInv.slot_le (h : SegInv N S M sh) (hN : 0 < N) (hslot : r.slot = (r.id % N).toNat) :
    slotOffset S r.slot + (slotHeaderSize + S) ≤ sh.seg.size := by
  have hlt : r.slot < N := hslot ▸ toNat_emod_lt hN r.id
  exact (slot_le_requestedSize hlt).trans h.room

theorem Established.setIdx {j : Stage} (h : Established N S sh i r j) (hj : j ≠ .loadNext)
    (idx : ℤ) : Established N S sh i { r with idx := idx } j := by
  cases j with
  | loadNext => exact absurd rfl hj
  | _ => exact h

/-- The slot of a publish that has computed it, as long as the index has not wrapped. -/
theorem BodyInv.slot_eq (hb : BodyInv N S sh i k r) (h : SegInv N S M sh)
    (hk : Stage.loadNumSlots.rank < k.rank) (hn : sh.done.length < 2 ^ 63) :
    r.slot = sh.done.length % N := by
  have hid : r.id = msgIdx sh.seg.mem :=
    hb.earlier .loadIdx (Nat.lt_of_le_of_lt (Nat.zero_le _) hk)
  have hslot : r.slot = (r.id % N).toNat := hb.earlier .loadNumSlots hk
  rw [hslot, hid]
  exact toNat_emod_of_wrap h.msgIdx hn

/-- The segment as other accesses than the process's own leave it. -/
theorem BodyInv.frame {sh' : Shared ι} (hb : BodyInv N S sh i k r)
    (hmsg : msgIdx sh'.seg.mem = msgIdx sh.seg.mem)
    (hsized : Stage.storeSize.rank < k.rank → sh'.sized r.slot = sh.sized r.slot)
    (hheld : Stage.storePayload.rank < k.rank → sh'.held r.slot = sh.held r.slot) :
    BodyInv N S sh' i k r where
  fits := hb.fits
  earlier j hj := by
    have hold := hb.earlier j hj
    cases j with
    | loadIdx | loadNext => exact hold.trans hmsg.symm
    | storeSize => exact (hsized hj).trans hold
    | storePayload => exact (hheld hj).trans hold
    | _ => exact hold

/-- The next access, when access `k` has been executed. -/
theorem BodyInv.next (hb : BodyInv N S sh i k r) (hk : k.next = some k')
    (hnew : Established N S sh i r k) : BodyInv N S sh i k' r where
  fits := hb.fits
  earlier j hj := by
    rw [Stage.rank_next hk] at hj
    rcases Nat.lt_succ_iff_lt_or_eq.1 hj with hlt | heq
    · exact hb.earlier j hlt
    · obtain rfl := Stage.rank_injective heq
      exact hnew

/-- An access of the `try` block raises nothing, and keeps the segment and the registers right. -/
theorem BodyInv.access (hb : BodyInv N S sh i k r) (h : SegInv N S M sh) (hN : 0 < N) (now : ℕ) :
    ∃ r' mem, NamedHistoryBuffer.access now sh.seg.size sh.seg.mem r k = .ok (r', mem) ∧
      SegInv N S M ((sh.setMem mem).record i r' k) ∧ r'.data = r.data ∧
      ∀ k', k.next = some k' → BodyInv N S ((sh.setMem mem).record i r' k) i k' r' := by
  have hS : S < 2 ^ 64 := h.configured.slotSize ▸ Memory.u64_lt 24
  have hfits := hb.fits
  cases k with
  | loadIdx =>
    refine ⟨_, _, rfl, h, rfl, fun k' hk => BodyInv.next ⟨hfits, fun j hj => ?_⟩ hk rfl⟩
    cases j <;> cases hj
  | loadNumSlots =>
    have hnum := h.configured.numSlots
    refine ⟨{ r with slot := (r.id % N).toNat }, sh.seg.mem, ?_, h, rfl, fun k' hk =>
      BodyInv.next ⟨hfits, fun j hj => ?_⟩ hk rfl⟩
    · rw [NamedHistoryBuffer.access, hnum, if_neg hN.ne']
    · cases j with
      | loadIdx => exact hb.earlier .loadIdx hj
      | _ => exact absurd hj (by decide)
  | locate =>
    have hle := h.slot_le hN (hb.earlier .loadNumSlots (by decide))
    have hoff := h.configured.calcSlotOffset r.slot
    refine ⟨{ r with off := slotOffset S r.slot }, sh.seg.mem, ?_, h, rfl, fun k' hk =>
      BodyInv.next ⟨hfits, fun j hj => ?_⟩ hk rfl⟩
    · rw [NamedHistoryBuffer.access, hoff, if_neg (by omega)]
    · cases j with
      | loadIdx => exact hb.earlier .loadIdx hj
      | loadNumSlots => exact hb.earlier .loadNumSlots hj
      | _ => exact absurd hj (by decide)
  | storeSize =>
    have hoff : r.off = slotOffset S r.slot := hb.earlier .locate (by decide)
    have hstored := h.stored.setSize r.slot ⟨r.id, i, r.data⟩ hfits (hfits.trans_lt hS)
    have hle := headerSize_le_slotOffset S r.slot
    refine ⟨r, setSize sh.seg.mem r.off r.data.length, rfl, ?_, rfl, fun k' hk =>
      BodyInv.next (hb.frame ?_ (fun hj => absurd hj (by decide)) fun _ => rfl) hk ?_⟩
    · rw [hoff]
      exact h.write hle hstored
    · rw [hoff]
      exact msgIdx_write hle
    · exact Function.update_self r.slot _ _
  | storeStart =>
    have hoff : r.off = slotOffset S r.slot := hb.earlier .locate (by decide)
    have hle := headerSize_le_slotOffset S r.slot
    refine ⟨r, setStartVersion sh.seg.mem r.off now, rfl, ?_, rfl, fun k' hk =>
      BodyInv.next (hb.frame ?_ (fun _ => rfl) fun _ => rfl) hk trivial⟩
    · rw [hoff]
      refine h.write (by omega) (h.stored.writeHeader r.slot le_rfl ?_)
      rw [length_toLE, slotHeaderSize]
      omega
    · rw [hoff]
      exact msgIdx_write (by omega)
  | relocate =>
    have hoff := h.configured.calcSlotOffset r.slot
    refine ⟨{ r with payloadOff := slotOffset S r.slot + slotHeaderSize }, sh.seg.mem, ?_, h, rfl,
      fun k' hk => BodyInv.next ⟨hfits, fun j hj => ?_⟩ hk rfl⟩
    · rw [NamedHistoryBuffer.access, hoff]
    · cases j with
      | loadIdx => exact hb.earlier .loadIdx hj
      | loadNumSlots => exact hb.earlier .loadNumSlots hj
      | locate => exact hb.earlier .locate hj
      | storeSize => exact hb.earlier .storeSize hj
      | storeStart => trivial
      | _ => exact absurd hj (by decide)
  | storePayload =>
    have hoff : r.payloadOff = slotOffset S r.slot + slotHeaderSize :=
      hb.earlier .relocate (by decide)
    have hle := h.slot_le hN (hb.earlier .loadNumSlots (by decide))
    have hlow := headerSize_le_slotOffset S r.slot
    have hslice : sliceLength sh.seg.size r.payloadOff r.data.length = r.data.length :=
      sliceLength_of_le (by omega)
    have hstored := h.stored.setPayload r.slot ⟨r.id, i, r.data⟩ hfits
    refine ⟨r, sh.seg.mem.write r.payloadOff r.data, ?_, ?_, rfl, fun k' hk =>
      BodyInv.next (hb.frame ?_ (fun _ => rfl) fun hj => absurd hj (by decide)) hk ?_⟩
    · rw [NamedHistoryBuffer.access, if_neg (not_not.2 hslice)]
    · rw [hoff]
      exact h.write (by omega) hstored
    · exact msgIdx_write (by omega)
    · exact Function.update_self r.slot _ _
  | storeEnd =>
    have hoff : r.off = slotOffset S r.slot := hb.earlier .locate (by decide)
    have hle := headerSize_le_slotOffset S r.slot
    refine ⟨r, setEndVersion sh.seg.mem r.off now, rfl, ?_, rfl, fun k' hk =>
      BodyInv.next (hb.frame ?_ (fun _ => rfl) fun _ => rfl) hk trivial⟩
    · rw [hoff]
      refine h.write (by omega) (h.stored.writeHeader r.slot (by omega) ?_)
      rw [length_toLE, slotHeaderSize]
      omega
    · rw [hoff]
      exact msgIdx_write (by omega)
  | loadNext =>
    refine ⟨{ r with idx := msgIdx sh.seg.mem }, sh.seg.mem, rfl, h, rfl, fun k' hk =>
      BodyInv.next ⟨hfits, fun j hj => (hb.earlier j hj).setIdx ?_ _⟩ hk rfl⟩
    rintro rfl
    exact absurd hj (by decide)
  | storeNext =>
    have hidx : r.idx = msgIdx sh.seg.mem := hb.earlier .loadNext (by decide)
    have hconf : Configured N S M (setMsgIdx sh.seg.mem (r.idx + 1)) :=
      h.configured.write (by decide)
    have hmsg : msgIdx (setMsgIdx sh.seg.mem (r.idx + 1)) = wrap64 (sh.done.length + 1) := by
      rw [msgIdx_setMsgIdx, hidx, h.msgIdx, wrap64_wrap64_add]
    refine ⟨r, setMsgIdx sh.seg.mem (r.idx + 1), rfl, ⟨hconf, h.room, ?_, h.stored.setMsgIdx _⟩,
      rfl, fun k' hk => by cases hk⟩
    refine hmsg.trans (congrArg wrap64 ?_)
    simp [Shared.record, Shared.setMem]

end Access

end NamedHistoryBuffer
