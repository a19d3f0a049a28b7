import PyFastIpc.History.Publishers

/-!
# Reading without the lock

`get_latest` loads the index, then the size of a slot, then copies the payload, while publishers
fill slots.  It does not compare the two versions of the slot, so it can load the size of one
message and copy the payload of another one, or one that is never published (`torn_read`).  When no
publish that has stored its payload in the slot has its index increment before it, and the size is
that of the payload stored last (`CopiesWhole`), the copied bytes are the payload of one published
message, and of no message older than those that were published when the call began
(`get_latest_whole`).
-/

namespace NamedHistoryBuffer

open FutexMutex (Procs Implements)

variable {ι : Type*}

/-- The index has not wrapped. -/
def NotWrapped (c : State ι) : Prop := c.shared.done.length < 2 ^ 63

/-- The slot whose payload the next access copies. -/
def Pc.copySlot : Pc → Option ℕ
  | .latest .copy v => some v.slot
  | _ => none

/-- The slot in which a publish has stored its payload, when it has not incremented the index. -/
def Pc.fills : Pc → Option ℕ
  | .body k r => if Stage.storePayload.rank < k.rank then some r.slot else none
  | _ => none

/-- If the step is the copy of a `get_latest`, no publish is between its payload store in the slot
and its index increment, and the message whose size was loaded has the length of the message whose
payload was stored in the slot last. -/
def CopiesWhole (c : State ι) (a : ι × Move ι) : Prop :=
  ∀ s ∈ (c.locals a.1).pc.copySlot, (∀ j, (c.locals j).pc.fills ≠ some s) ∧
    ∀ e ∈ (c.locals a.1).seen, ∀ e' ∈ c.shared.held s, e.data.length = e'.data.length

/-- The place of an access in `get_latest`. -/
def Look.rank : Look → ℕ
  | .loadIdx => 0
  | .loadNumSlots => 1
  | .locate => 2
  | .relocate => 3
  | .loadSize => 4
  | .copy => 5

/-- The slot of a published message has a size. -/
def SlotInv (N : ℕ) (sh : Shared ι) : Prop :=
  sh.done.length < 2 ^ 63 → ∀ j < sh.done.length, ∃ e, sh.sized (j % N) = some e

/-- The payloads of the last messages are in their slots, all of them unless a publish has stored
another payload in the slot of the next message. -/
def Payloads (N : ℕ) (sh : Shared ι) (l : ι → Proc ι) : Prop :=
  sh.done.length < 2 ^ 63 → (∀ i, (l i).pc.fills ≠ some (sh.done.length % N)) →
    Retains N N sh.done fun s e => sh.held s = some e

/-- What access `k` of a `get_latest` has established. -/
def Known (N S : ℕ) (sh : Shared ι) (p : Proc ι) (v : View) : Look → Prop
  | .loadIdx => ∃ m : ℕ, v.idx = m + 1 ∧ p.since ≤ m + 1 ∧ m < sh.done.length
  | .loadNumSlots => v.slot = ((v.idx - 1) % N).toNat
  | .locate => v.off = slotOffset S v.slot
  | .relocate => v.payloadOff = slotOffset S v.slot + slotHeaderSize
  | .loadSize => ∃ e, p.seen = some e ∧ v.n = e.data.length
  | .copy => True

/-- What is known about a reader: in its call, and after it about its result. -/
def ReaderInv (N S : ℕ) (sh : Shared ι) (p : Proc ι) : Prop :=
  match p.pc with
  | .latest k v => p.since ≤ sh.done.length ∧ ∀ j : Look, j.rank < k.rank → Known N S sh p v j
  | .idle (some (.bytes b)) => ∃ (k : ℕ) (e : Entry ι), sh.done[k]? = some e ∧ e.data = b ∧
      p.since ≤ k + 1
  | _ => True

section Frame

variable {N S M : ℕ} {sh sh' : Shared ι} {p : Proc ι}

theorem Look.rank_next {k k' : Look} (h : k.next = some k') : k'.rank = k.rank + 1 := by
  cases k <;> cases h <;> rfl

theorem Look.rank_injective : Function.Injective Look.rank := by
  intro j k h
  cases j <;> cases k <;> first | rfl | cases h

theorem getElem?_of_prefix {α : Type*} {xs ys : List α} (h : xs <+: ys) {k : ℕ} {x : α}
    (hk : xs[k]? = some x) : ys[k]? = some x := by
  obtain ⟨zs, rfl⟩ := h
  rw [List.getElem?_append_left (List.getElem?_eq_some_iff.1 hk).1, hk]

/-- What a reader knows stays true when the histories grow. -/
theorem ReaderInv.frame (h : ReaderInv N S sh p) (hdone : sh.done <+: sh'.done) :
    ReaderInv N S sh' p := by
  unfold ReaderInv at h ⊢
  split at h
  next k v hpc =>
    refine ⟨h.1.trans hdone.length_le, fun j hj => ?_⟩
    have hold := h.2 j hj
    cases j with
    | loadIdx =>
      obtain ⟨m, hidx, hsince, hm⟩ := hold
      exact ⟨m, hidx, hsince, hm.trans_le hdone.length_le⟩
    | _ => exact hold
  next b hpc =>
    obtain ⟨k, e, hk, he, hsince⟩ := h
    exact ⟨k, e, getElem?_of_prefix hdone hk, he, hsince⟩
  next => trivial

/-- Every other program point says nothing. -/
theorem ReaderInv.of_pc (hlatest : ∀ k v, p.pc ≠ .latest k v)
    (hbytes : ∀ b, p.pc ≠ .idle (some (.bytes b))) : ReaderInv N S sh p := by
  unfold ReaderInv
  split
  next k v hpc => exact absurd hpc (hlatest k v)
  next b hpc => exact absurd hpc (hbytes b)
  next => trivial

theorem ReaderInv.latest {k : Look} {v : View} (h : ReaderInv N S sh p)
    (hpc : p.pc = .latest k v) : p.since ≤ sh.done.length ∧
      ∀ j : Look, j.rank < k.rank → Known N S sh p v j := by
  simpa only [ReaderInv, hpc] using h

/-- The slot that a reader reads is the one of a published message. -/
theorem slot_of_known {v : View} {m : ℕ} (hidx : v.idx = m + 1)
    (hslot : v.slot = ((v.idx - 1) % N).toNat) : v.slot = m % N := by
  rw [hslot, hidx, add_sub_cancel_right, ← Int.natCast_mod, Int.toNat_natCast]

end Frame

section Step

variable {P : Procs ι} {N S M : ℕ} {c : State ι} {i : ι} {sh : Shared ι} {p : Proc ι}

/-- A step that changes no size and increments no index. -/
theorem SlotInv.same (h : SlotInv N c.shared) (hdone : sh.done = c.shared.done)
    (hsized : sh.sized = c.shared.sized) : SlotInv N sh := by
  unfold SlotInv
  rw [hdone, hsized]
  exact h

/-- A load of `get_latest` leaves what the earlier ones have established. -/
theorem known_earlier {j k : Look} {v v' : View}
    (hlook : NamedHistoryBuffer.look c.shared.seg.size c.shared.seg.mem v k = .ok v')
    (hj : j.rank < k.rank) (h : Known N S c.shared p v j) (pc : Pc) :
    Known N S c.shared { p with pc := pc, seen := p.look c.shared v k } v' j := by
  cases k with
  | loadIdx => exact absurd hj (Nat.not_lt_zero _)
  | loadNumSlots =>
    simp only [NamedHistoryBuffer.look] at hlook
    split_ifs at hlook
    obtain rfl := Except.ok.inj hlook
    cases j with
    | loadIdx => exact h
    | _ => exact absurd hj (by decide)
  | locate =>
    simp only [NamedHistoryBuffer.look] at hlook
    split_ifs at hlook
    obtain rfl := Except.ok.inj hlook
    cases j with
    | loadIdx | loadNumSlots => exact h
    | _ => exact absurd hj (by decide)
  | relocate =>
    obtain rfl := Except.ok.inj hlook
    cases j with
    | loadIdx | loadNumSlots | locate => exact h
    | _ => exact absurd hj (by decide)
  | loadSize =>
    obtain rfl := Except.ok.inj hlook
    cases j with
    | loadIdx | loadNumSlots | locate | relocate => exact h
    | _ => exact absurd hj (by decide)
  | copy =>
    obtain rfl := Except.ok.inj hlook
    exact h

/-- A load of `get_latest` that raises nothing establishes its fact. -/
theorem known_self {k k' : Look} {v v' : View} (hc : SegInv N S M c.shared)
    (hs : SlotInv N c.shared) (hN : 0 < N) (hn : NotWrapped c)
    (hsince : p.since ≤ c.shared.done.length)
    (hknown : ∀ j : Look, j.rank < k.rank → Known N S c.shared p v j) (hnext : k.next = some k')
    (hlook : NamedHistoryBuffer.look c.shared.seg.size c.shared.seg.mem v k = .ok v') (pc : Pc) :
    Known N S c.shared { p with pc := pc, seen := p.look c.shared v k } v' k := by
  unfold NotWrapped at hn
  cases k with
  | loadIdx =>
    have hidx : msgIdx c.shared.seg.mem = c.shared.done.length :=
      hc.msgIdx.trans (wrap64_of_range (by omega) (by omega))
    simp only [NamedHistoryBuffer.look] at hlook
    split_ifs at hlook with hzero
    obtain rfl := Except.ok.inj hlook
    refine ⟨c.shared.done.length - 1, ?_, ?_, ?_⟩
    · change msgIdx c.shared.seg.mem = _
      omega
    · change p.since ≤ _
      omega
    · omega
  | loadNumSlots =>
    simp only [NamedHistoryBuffer.look, hc.configured.numSlots, if_neg hN.ne'] at hlook
    obtain rfl := Except.ok.inj hlook
    rfl
  | locate =>
    simp only [NamedHistoryBuffer.look, hc.configured.calcSlotOffset] at hlook
    split_ifs at hlook
    obtain rfl := Except.ok.inj hlook
    rfl
  | relocate =>
    simp only [NamedHistoryBuffer.look, hc.configured.calcSlotOffset] at hlook
    obtain rfl := Except.ok.inj hlook
    rfl
  | loadSize =>
    obtain ⟨m, hidx, -, hm⟩ : Known N S c.shared p v .loadIdx := hknown .loadIdx (by decide)
    have hslot : v.slot = m % N := slot_of_known hidx (hknown .loadNumSlots (by decide))
    have hoff : v.off = slotOffset S v.slot := hknown .locate (by decide)
    have hpayload : v.payloadOff = slotOffset S v.slot + slotHeaderSize :=
      hknown .relocate (by decide)
    obtain ⟨e, he⟩ := hs hn m hm
    rw [← hslot] at he
    have hfits := hc.stored.fits v.slot e (.inl he)
    have hend := slot_le_requestedSize (S := S) (M := M) (hslot ▸ Nat.mod_lt m hN : v.slot < N)
    have hroom := hc.room
    simp only [NamedHistoryBuffer.look, hoff, hc.stored.size v.slot e he] at hlook
    rw [sliceLength_of_le (by omega)] at hlook
    obtain rfl := Except.ok.inj hlook
    exact ⟨e, he, rfl⟩
  | copy => cases hnext

/-- What is known when a load of `get_latest` raises nothing. -/
theorem known_look {k k' : Look} {v v' : View} (hc : SegInv N S M c.shared)
    (hs : SlotInv N c.shared) (hN : 0 < N) (hn : NotWrapped c)
    (hsince : p.since ≤ c.shared.done.length)
    (hknown : ∀ j : Look, j.rank < k.rank → Known N S c.shared p v j) (hnext : k.next = some k')
    (hlook : NamedHistoryBuffer.look c.shared.seg.size c.shared.seg.mem v k = .ok v') (pc : Pc)
    {j : Look} (hj : j.rank < k'.rank) :
    Known N S c.shared { p with pc := pc, seen := p.look c.shared v k } v' j := by
  rw [Look.rank_next hnext] at hj
  rcases Nat.lt_succ_iff_lt_or_eq.1 hj with hlt | heq
  · exact known_earlier hlook hlt (hknown j hlt) pc
  · obtain rfl := Look.rank_injective heq
    exact known_self hc hs hN hn hsince hknown hnext hlook pc

theorem ReaderInv.look {k k' : Look} {v v' : View} (h : ReaderInv N S c.shared p)
    (hc : SegInv N S M c.shared) (hs : SlotInv N c.shared) (hN : 0 < N) (hn : NotWrapped c)
    (hpc : p.pc = .latest k v) (hnext : k.next = some k')
    (hlook : NamedHistoryBuffer.look c.shared.seg.size c.shared.seg.mem v k = .ok v') :
    ReaderInv N S c.shared { p with pc := .latest k' v', seen := p.look c.shared v k } := by
  obtain ⟨hsince, hknown⟩ := h.latest hpc
  exact ⟨hsince, fun j hj => known_look hc hs hN hn hsince hknown hnext hlook _ hj⟩

/-- The last payload stored in the slot of a published message is that of the message or of a later
one, if no publish is between its payload store in the slot and its index increment. -/
theorem held_of_published (hring : RingInv N c.shared c.locals)
    (hheld : Payloads N c.shared c.locals) (hN : 0 < N) (hn : NotWrapped c) {m : ℕ}
    (hm : m < c.shared.done.length) (hfills : ∀ j, (c.locals j).pc.fills ≠ some (m % N)) :
    ∃ (k : ℕ) (e : Entry ι), c.shared.done[k]? = some e ∧ c.shared.held (m % N) = some e ∧
      m ≤ k := by
  obtain ⟨k, hle, hlt, hclose, hmod⟩ := exists_last_mod hN hm
  have he : c.shared.done[k]? = some c.shared.done[k] := List.getElem?_eq_getElem hlt
  refine ⟨k, _, he, ?_, hle⟩
  rw [← hmod] at hfills ⊢
  by_cases hlast : c.shared.done.length = k + N
  · -- the slot is the one of the next message
    refine hheld hn (fun j => ?_) k _ he hclose
    rw [hlast, Nat.add_mod_right]
    exact hfills j
  · exact (hring.kept hn k _ he (by omega)).2

/-- The copy, when the length is that of the payload. -/
theorem ReaderInv.copy {v : View} (h : ReaderInv N S c.shared p) (hc : SegInv N S M c.shared)
    (hring : RingInv N c.shared c.locals) (hheld : Payloads N c.shared c.locals) (hN : 0 < N)
    (hn : NotWrapped c) (hpc : p.pc = .latest .copy v)
    (hfills : ∀ j, (c.locals j).pc.fills ≠ some v.slot)
    (hwhole : ∀ e e', p.seen = some e → c.shared.held v.slot = some e' →
      e.data.length = e'.data.length) :
    ReaderInv N S c.shared
      (p.goto (.idle (some (.bytes (c.shared.seg.mem.read v.payloadOff v.n))))) := by
  obtain ⟨hsince, hknown⟩ := h.latest hpc
  obtain ⟨m, hidx, hm, hlt⟩ : Known N S c.shared p v .loadIdx := hknown .loadIdx (by decide)
  have hslot : v.slot = m % N := slot_of_known hidx (hknown .loadNumSlots (by decide))
  have hoff : v.payloadOff = slotOffset S v.slot + slotHeaderSize := hknown .relocate (by decide)
  obtain ⟨e, hseen, hlen⟩ : Known N S c.shared p v .loadSize := hknown .loadSize (by decide)
  rw [hslot] at hfills
  obtain ⟨k, e', hk, he', hle⟩ := held_of_published hring hheld hN hn hlt hfills
  rw [← hslot] at he'
  refine ⟨k, e', hk, ?_, by change p.since ≤ k + 1; omega⟩
  rw [hoff, hlen, hwhole e e' hseen he', hc.stored.payload v.slot e' he']

theorem ReaderInv.read (h : ReaderInv N S c.shared (c.locals i)) (hc : SegInv N S M c.shared)
    (hs : SlotInv N c.shared) (hring : RingInv N c.shared c.locals)
    (hheld : Payloads N c.shared c.locals) (hN : 0 < N) (hn : NotWrapped c) {m : Move ι}
    (hwhole : CopiesWhole c (i, m)) (hread : Reads c.shared (c.locals i) p) :
    ReaderInv N S c.shared p := by
  cases hread with
  | call f hpc =>
    cases f with
    | getLatest => exact ⟨le_rfl, fun j hj => absurd hj (Nat.not_lt_zero _)⟩
    | publish data | getMeta => trivial
  | look k k' v v' hpc hnext hlook => exact h.look hc hs hN hn hpc hnext hlook
  | copy v hpc =>
    obtain ⟨hfills, hlength⟩ := hwhole v.slot (by rw [hpc]; rfl)
    exact h.copy hc hring hheld hN hn hpc hfills fun e e' he he' => hlength e he e' he'
  | metaCopy n r hpc hr => exact .of_pc (fun k v hp => by cases hp) fun b hp => hr b (by
      simpa [Proc.goto] using hp)
  | refused data hpc hlong | lost k v e hpc | metaSize hpc => trivial

variable [DecidableEq ι]

theorem Effect.done_prefix {pid : UInt32} (he : Effect i pid c.shared (c.locals i) sh p) :
    c.shared.done <+: sh.done := by
  cases he with
  | acquire data n h' t hpc hs =>
    rw [Shared.enter_done]
    exact List.prefix_rfl
  | access now k r r' mem hpc ha =>
    cases k with
    | storeNext => exact List.prefix_append _ _
    | _ => exact List.prefix_rfl
  | _ => exact List.prefix_rfl

theorem SlotInv.step (h : SlotInv N c.shared) (hc : Inv P N S M c) (hN : 0 < N)
    (he : Effect i (P.pid i) c.shared (c.locals i) sh p) : SlotInv N sh := by
  cases he with
  | read p' hread | enter data hpc hfits | release pending n h' t hpc hs => exact h.same rfl rfl
  | acquire data n h' t hpc hs =>
    exact h.same (Shared.enter_done _ i data _ _) (Shared.enter_sized _ i data _ _)
  | fail now k r e hpc ha =>
    obtain ⟨r₁, mem₁, ha₁, -⟩ := (hc.body i k r hpc).access hc.seg hN now
    rw [ha₁] at ha
    cases ha
  | access now k r r' mem hpc ha =>
    have hb := hc.body i k r hpc
    cases k with
    | storeSize =>
      obtain rfl := regs_of_stores rfl ha
      intro hn j hj
      by_cases hs : j % N = r.slot
      · exact ⟨⟨r.id, i, r.data⟩, hs ▸ Function.update_self r.slot _ _⟩
      · obtain ⟨e, he⟩ := h hn j hj
        exact ⟨e, (Function.update_of_ne hs _ _).trans he⟩
    | storeNext =>
      obtain rfl := regs_of_stores rfl ha
      have hsized : c.shared.sized r.slot = some ⟨r.id, i, r.data⟩ :=
        hb.earlier .storeSize (by decide)
      intro hn j hj
      simp only [Shared.record, Shared.setMem, List.length_append, List.length_singleton] at hn hj
      rcases Nat.lt_succ_iff_lt_or_eq.1 hj with hlt | rfl
      · exact h (by omega) j hlt
      · rw [← hb.slot_eq hc.seg (by decide) (by omega)]
        exact ⟨_, hsized⟩
    | _ => exact h.same rfl rfl

/-- A step that stores no payload and increments no index, and after which the process still fills
the slot that it filled before. -/
theorem Payloads.same (h : Payloads N c.shared c.locals) (hdone : sh.done = c.shared.done)
    (hheld : sh.held = c.shared.held)
    (hfills : ∀ s, (c.locals i).pc.fills = some s → p.pc.fills = some s) :
    Payloads N sh (Function.update c.locals i p) := by
  unfold Payloads
  rw [hdone, hheld]
  intro hn hall
  refine h hn fun j hj => ?_
  by_cases hji : j = i
  · subst hji
    refine hall j ?_
    rw [Function.update_self]
    exact hfills _ hj
  · refine hall j ?_
    rwa [Function.update_of_ne hji]

theorem Payloads.step (h : Payloads N c.shared c.locals) (hc : Inv P N S M c)
    (hring : RingInv N c.shared c.locals) (hN : 0 < N)
    (he : Effect i (P.pid i) c.shared (c.locals i) sh p) :
    Payloads N sh (Function.update c.locals i p) := by
  cases he with
  | read p' hread =>
    refine h.same rfl rfl fun s hs => ?_
    have hfrom := hread.outside.1
    cases hpc : (c.locals i).pc <;> simp_all [Pc.fills, Pc.outside]
  | enter data hpc hfits => exact h.same rfl rfl fun s hs => by simp [hpc, Pc.fills] at hs
  | acquire data n h' t hpc hs =>
    exact h.same (Shared.enter_done _ i data _ _) (Shared.enter_held _ i data _ _)
      fun s hs => by simp [hpc, Pc.fills] at hs
  | fail now k r e hpc ha =>
    obtain ⟨r₁, mem₁, ha₁, -⟩ := (hc.body i k r hpc).access hc.seg hN now
    rw [ha₁] at ha
    cases ha
  | release pending n h' t hpc hs => exact h.same rfl rfl fun s hs => by simp [hpc, Pc.fills] at hs
  | access now k r r' mem hpc ha =>
    have hb := hc.body i k r hpc
    cases k with
    | storePayload =>
      -- the publish fills the slot of the next message
      obtain rfl := regs_of_stores rfl ha
      intro hn hall
      refine absurd ?_ (hall i)
      rw [Function.update_self]
      exact congrArg some (hb.slot_eq hc.seg (by decide) hn)
    | storeNext =>
      obtain rfl := regs_of_stores rfl ha
      intro hn _
      have hheld : c.shared.held r.slot = some ⟨r.id, i, r.data⟩ :=
        hb.earlier .storePayload (by decide)
      simp only [Shared.record, Shared.setMem, List.length_append, List.length_singleton] at hn
      have hkept : Retains N (N - 1) c.shared.done fun s e => c.shared.held s = some e :=
        fun j x hx hle => (hring.kept (by omega) j x hx hle).2
      refine hkept.push hN ?_
      rw [← hb.slot_eq hc.seg (by decide) (by omega)]
      exact hheld
    | storeEnd =>
      obtain rfl := regs_of_stores rfl ha
      refine h.same rfl rfl fun s hs => ?_
      rw [hpc] at hs
      exact hs
    | loadNext =>
      obtain ⟨rfl, -⟩ := Prod.mk.inj (Except.ok.inj ha)
      refine h.same rfl rfl fun s hs => ?_
      rw [hpc] at hs
      exact hs
    | _ => exact h.same rfl rfl fun s hs => by simp [hpc, Pc.fills, Stage.rank] at hs

theorem ReaderInv.step (h : ReaderInv N S c.shared (c.locals i)) (hc : Inv P N S M c)
    (hs : SlotInv N c.shared) (hring : RingInv N c.shared c.locals)
    (hheld : Payloads N c.shared c.locals) (hN : 0 < N) (hn : NotWrapped c) {m : Move ι}
    (hwhole : CopiesWhole c (i, m)) (he : Effect i (P.pid i) c.shared (c.locals i) sh p) :
    ReaderInv N S sh p := by
  cases he with
  | read p' hread => exact h.read hc.seg hs hring hheld hN hn hwhole hread
  | enter data hpc hfits | fail now k r e hpc ha => trivial
  | acquire data n h' t hpc hs =>
    cases FutexMutex.acquire_step hs ((hc.procs i).acquiring hpc).1 with
    | take _ _ _ hpost | go _ hpost =>
      rw [afterAcquire_of_acquiring data hpost]
      trivial
    | done _ hpost | refused _ hpost =>
      rw [hpost]
      trivial
  | access now k r r' mem hpc ha =>
    cases k.next with
    | some k' => trivial
    | none => trivial
  | release pending n h' t hpc hs =>
    have hrel := (hc.procs i).releasing hpc
    rcases FutexMutex.release_step (FutexMutex.effect_of_step hs) hrel with hpost | ⟨x, hpost⟩
    · rw [afterRelease_of_releasing pending hpost]
      trivial
    · rw [hpost]
      obtain ⟨r', hr, hne⟩ := afterRelease_idle pending x
      rw [hr]
      exact .of_pc (fun k v hp => by cases hp) fun b hp => hne b (by simpa using hp)

theorem reader_of_reach (halone : ∀ i, P.Alone i) (hN : 0 < N)
    (h : (system P N S M).Reach (fun c a => NotWrapped c ∧ CopiesWhole c a) c) :
    SlotInv N c.shared ∧ Payloads N c.shared c.locals ∧
      ∀ i, ReaderInv N S c.shared (c.locals i) := by
  refine h.invariant (fun c => SlotInv N c.shared ∧ Payloads N c.shared c.locals ∧
    ∀ i, ReaderInv N S c.shared (c.locals i)) (fun c hc => ?_) fun c a c' hr hI hok hs => ?_
  · obtain ⟨-, hdone, -, -⟩ := hc.histories
    refine ⟨fun _ j hj => ?_, fun _ _ => ?_, fun i => ?_⟩
    · simp [hdone] at hj
    · rw [hdone]
      exact .nil
    · rw [hc.locals]
      trivial
  · obtain ⟨sh, p, he, rfl⟩ := effect_of_system_step hs
    have hc := inv_of_reach halone hN hr
    have hring := ringInv_of_reach halone hN hr
    obtain ⟨hslot, hheld, hreader⟩ := hI
    refine ⟨hslot.step hc hN he, hheld.step hc hring hN he,
      Config.forall_update (fun _ p => ReaderInv N S sh p) ?_ fun j _ => ?_⟩
    · exact (hreader a.1).step hc hslot hring hheld hN hok.1 hok.2 he
    · exact (hreader j).frame he.done_prefix

/-- In runs with fewer than 2 ^ 63 messages in which every `get_latest` copies a payload as long as
the message whose size it loaded, while no publish is between its payload store in that slot and its
index increment, the bytes that it returns are the payload of one published message, and that
message is not older than the last one published before the call began. -/
theorem get_latest_whole (P : Procs ι) (hinj : Function.Injective P.pid) (hN : 1 ≤ N)
    (h : (system P N S M).Reach (fun c a => NotWrapped c ∧ CopiesWhole c a) c) {i : ι} {b : Bytes}
    (hpc : (c.locals i).pc = .idle (some (.bytes b))) :
    ∃ (k : ℕ) (e : Entry ι), c.shared.done[k]? = some e ∧ e.data = b ∧
      (c.locals i).since ≤ k + 1 := by
  have hreader := (reader_of_reach (FutexMutex.alone_of_injective hinj) hN h).2.2 i
  simpa only [ReaderInv, hpc] using hreader

end Step

/-! ## A torn read -/

instance (c : State Tid) : Decidable (NotWrapped c) := inferInstanceAs (Decidable (_ < _))

instance (c : State Tid) (a : Tid × Move Tid) : Decidable (CopiesWhole c a) :=
  inferInstanceAs (Decidable (∀ s ∈ _, (∀ _, _ ≠ _) ∧ ∀ e ∈ _, ∀ e' ∈ _, _))

/-- One slot of two bytes, with a first message of one byte. -/
def first : State Tid :=
  (system FutexMutex.procs 1 2 0).exec (fun _ _ => True) (opened (used.created 1 2 []))
    (entered .a [1] ++ stored .a ++
      ([(.a, .mutex .next), (.a, .mutex .next), (.a, .mutex .next)] : List (Tid × Move Tid)))

/-- The loads of `get_latest` by process `c`, up to the copy. -/
def looked : List (Tid × Move Tid) := (.c, .call .getLatest) :: List.replicate 5 (.c, .next)

/-- Process `c` reads while no other process does anything. -/
def whole : State Tid :=
  (system FutexMutex.procs 1 2 0).exec (fun c a => NotWrapped c ∧ CopiesWhole c a)
    (opened (used.created 1 2 []))
    (entered .a [1] ++ stored .a ++ looked ++ [(Tid.c, Move.next)])

theorem init_opened : (system FutexMutex.procs 1 2 0).Init (opened (used.created 1 2 [])) :=
  created_opened "" (by decide) (by decide) (by decide +kernel) rfl
    (create_eq (by decide +kernel))

theorem reach_whole : (system FutexMutex.procs 1 2 0).Reach
    (fun c a => NotWrapped c ∧ CopiesWhole c a) whole :=
  .exec _ (.init init_opened)

theorem pc_whole : (whole.locals .c).pc = .idle (some (.bytes [1])) := by decide +kernel

theorem get_latest_whole_alone :
    (whole.locals .c).pc = .idle (some (.bytes [1])) ∧
      ∃ (k : ℕ) (e : Entry Tid), whole.shared.done[k]? = some e ∧ e.data = [1] ∧
        (whole.locals .c).since ≤ k + 1 :=
  ⟨pc_whole, get_latest_whole FutexMutex.procs FutexMutex.injective_procs le_rfl reach_whole
    pc_whole⟩

/-- Process `b` has stored the size of its message, but not yet the payload, when process `c`
reads. -/
def torn : State Tid :=
  (system FutexMutex.procs 1 2 0).exec (fun _ _ => True) first
    (entered .b [2, 3] ++ List.replicate 4 (Tid.b, Move.access 9) ++ looked ++
      [(Tid.c, Move.next)])

/-- The bytes that `get_latest` returns are the payload of no message. -/
theorem torn_read :
    (¬ ∀ c, (system FutexMutex.procs 1 2 0).Reach (fun _ _ => True) c → ∀ i b,
      (c.locals i).pc = .idle (some (.bytes b)) →
        ∃ (k : ℕ) (e : Entry Tid), c.shared.done[k]? = some e ∧ e.data = b ∧
          (c.locals i).since ≤ k + 1) ∧
    (torn.locals .c).pc = .idle (some (.bytes [1, 7])) ∧
    torn.shared.order = [(.a, [1]), (.b, [2, 3])] ∧ torn.shared.done = [⟨0, .a, [1]⟩] := by
  have hpc : (torn.locals .c).pc = .idle (some (.bytes [1, 7])) := by decide +kernel
  have hdone : torn.shared.done = [⟨0, .a, [1]⟩] := by decide +kernel
  refine ⟨fun hall => ?_, hpc, by decide +kernel, hdone⟩
  obtain ⟨k, e, hk, he, -⟩ := hall torn (.exec _ (.exec _ (.init init_opened))) .c [1, 7] hpc
  have hnone : ∀ e ∈ torn.shared.done, e.data ≠ [1, 7] := by
    rw [hdone]
    decide
  exact hnone e (List.mem_of_getElem? hk) he

end NamedHistoryBuffer
