import PyFastIpc.History.Solo

/-!
# Racing publishers

Between two critical sections the index is the number of messages published, the messages have the
numbers 0, 1, 2, … in the order in which their publishers took the mutex, and the slots have the
last of them (`publishers_lose_nothing`).  The index is a `c_int64`, so this is right for fewer than
2 ^ 63 messages and wrong from then on (`index_wraps`).
-/

namespace NamedHistoryBuffer

open FutexMutex (Procs Implements)

variable {ι : Type*}

/-- In the `try` block of `publish`. -/
def Pc.inBody : Pc → Bool
  | .body _ _ => true
  | _ => false

/-- The message is in the slot, with its size and its payload. -/
def InSlot (sh : Shared ι) (s : ℕ) (e : Entry ι) : Prop := sh.sized s = some e ∧ sh.held s = some e

/-- The slots have the last messages, all of them unless a publish has begun to fill the next slot.
The numbers of the slots are right as long as the index has not wrapped. -/
structure RingInv (N : ℕ) (sh : Shared ι) (l : ι → Proc ι) : Prop where
  kept : sh.done.length < 2 ^ 63 → Retains N (N - 1) sh.done (InSlot sh)
  full : sh.done.length < 2 ^ 63 →
    (∀ i k r, (l i).pc = .body k r → k.rank ≤ Stage.storeSize.rank) →
      Retains N N sh.done (InSlot sh)

section Step

variable {P : Procs ι} {N S M : ℕ} {c : State ι} {i : ι} {sh : Shared ι}
  {p : Proc ι}

/-- The slot of a message that the ring retains has its size and its payload. -/
theorem Stored.holds {e : Entry ι} {s : ℕ} (h : Stored S sh.seg.mem sh.sized sh.held)
    (he : InSlot sh s e) : Holds S sh.seg.mem s e.data :=
  ⟨h.size s e he.1, h.payload s e he.2⟩

/-- Between two publishes of process `i`, no other process having the mutex. -/
def Between (i : ι) (c : State ι) : Prop :=
  (∃ r, (c.locals i).pc = .idle r) ∧ ∀ j, (c.locals j).mx.taken = false

theorem Between.inBody (hc : Inv P N S M c) (hb : Between i c) (j : ι) :
    (c.locals j).pc.inBody = false := by
  cases hpc : (c.locals j).pc with
  | body k r =>
    have htaken := (hc.procs j).body hpc
    simp [hb.2 j] at htaken
  | _ => rfl

variable [DecidableEq ι]

/-- A step that stores into no slot. -/
theorem RingInv.same (h : RingInv N c.shared c.locals) (hdone : sh.done = c.shared.done)
    (hsized : sh.sized = c.shared.sized) (hheld : sh.held = c.shared.held)
    (hbefore : (∀ k r, p.pc = .body k r → k.rank ≤ Stage.storeSize.rank) →
      ∀ k r, (c.locals i).pc = .body k r → k.rank ≤ Stage.storeSize.rank) :
    RingInv N sh (Function.update c.locals i p) := by
  have hin : InSlot sh = InSlot c.shared := by
    unfold InSlot
    rw [hsized, hheld]
  constructor
  · rw [hdone, hin]
    exact h.kept
  · rw [hdone, hin]
    intro hn hall
    refine h.full hn fun j k r hpc => ?_
    by_cases hj : j = i
    · subst hj
      exact hbefore (fun k r hp => hall j k r (by rwa [Function.update_self])) k r hpc
    · exact hall j k r (by rwa [Function.update_of_ne hj])

/-- A step after which process `i` has begun to fill the slot of the next message. -/
theorem RingInv.fill (h : RingInv N c.shared c.locals) (hdone : sh.done = c.shared.done) {slot : ℕ}
    (hslot : c.shared.done.length < 2 ^ 63 → slot = c.shared.done.length % N)
    (hother : ∀ s, s ≠ slot → ∀ e, InSlot c.shared s e → InSlot sh s e)
    {k : Stage} {r : Regs} (hpc : p.pc = .body k r) (hk : ¬ k.rank ≤ Stage.storeSize.rank) :
    RingInv N sh (Function.update c.locals i p) where
  kept := by
    rw [hdone]
    intro hn
    refine (h.kept hn).overwrite fun s hs e _ => hother s ?_ e
    rwa [hslot hn]
  full _ hall := absurd (hall i k r (by rwa [Function.update_self])) hk

theorem RingInv.step (h : RingInv N c.shared c.locals) (hc : Inv P N S M c) (hN : 0 < N)
    (he : Effect i (P.pid i) c.shared (c.locals i) sh p) :
    RingInv N sh (Function.update c.locals i p) := by
  cases he with
  | read p' hread =>
    refine h.same rfl rfl rfl fun _ k r hp => ?_
    have hfrom := hread.outside.1
    simp [hp, Pc.outside] at hfrom
  | enter data hpc hfits => exact h.same rfl rfl rfl fun _ k r hp => by simp [hpc] at hp
  | acquire data n h' t hpc hs =>
    exact h.same (Shared.enter_done _ i data _ _) (Shared.enter_sized _ i data _ _)
      (Shared.enter_held _ i data _ _) fun _ k r hp => by simp [hpc] at hp
  | access now k r r' mem hpc ha =>
    have hb := hc.body i k r hpc
    cases k with
    | storeSize =>
      obtain rfl := regs_of_stores rfl ha
      refine h.fill rfl (hb.slot_eq hc.seg (by decide)) (fun s hs e hin => ⟨?_, hin.2⟩) rfl
        (by decide)
      exact (Function.update_of_ne hs _ _).trans hin.1
    | storePayload =>
      obtain rfl := regs_of_stores rfl ha
      refine h.fill rfl (hb.slot_eq hc.seg (by decide)) (fun s hs e hin => ⟨hin.1, ?_⟩) rfl
        (by decide)
      exact (Function.update_of_ne hs _ _).trans hin.2
    | storeNext =>
      obtain rfl := regs_of_stores rfl ha
      have hpush (hn : (c.shared.done ++ [(⟨r.id, i, r.data⟩ : Entry ι)]).length < 2 ^ 63) :
          Retains N N (c.shared.done ++ [(⟨r.id, i, r.data⟩ : Entry ι)]) (InSlot c.shared) := by
        rw [List.length_append, List.length_singleton] at hn
        refine (h.kept (by omega)).push hN ?_
        rw [← hb.slot_eq hc.seg (by decide) (by omega)]
        exact ⟨hb.earlier .storeSize (by decide), hb.earlier .storePayload (by decide)⟩
      exact ⟨fun hn => (hpush hn).mono (Nat.sub_le _ _), fun hn _ => hpush hn⟩
    | _ =>
      refine h.same rfl rfl rfl fun hall k' r' hp => ?_
      rw [hpc] at hp
      obtain ⟨rfl, rfl⟩ := Pc.body.inj hp
      first
      | decide
      | exact absurd (hall _ _ rfl) (by decide)
  | fail now k r e hpc ha =>
    obtain ⟨r₁, mem₁, ha₁, -⟩ := (hc.body i k r hpc).access hc.seg hN now
    rw [ha₁] at ha
    cases ha
  | release pending n h' t hpc hs => exact h.same rfl rfl rfl fun _ k r hp => by simp [hpc] at hp

theorem ringInv_of_reach {ok : State ι → ι × Move ι → Prop} (halone : ∀ i, P.Alone i) (hN : 0 < N)
    (h : (system P N S M).Reach ok c) : RingInv N c.shared c.locals := by
  refine h.invariant (fun c => RingInv N c.shared c.locals) (fun c hc => ?_)
    fun c a c' hr hring _ hs => ?_
  · have hdone := hc.histories.2.1
    constructor
    · rw [hdone]
      exact fun _ => .nil
    · rw [hdone]
      exact fun _ _ => .nil
  · obtain ⟨sh, p, he, rfl⟩ := effect_of_system_step hs
    exact hring.step (inv_of_reach halone hN hr) hN he

/-- Publishes of single-threaded processes race for one buffer, refused ones among them.  In a state
in which no publish is in its `try` block, and fewer than 2 ^ 63 have executed their index
increment, the index is their number; their messages have the numbers 0, 1, 2, … in the order in
which they took the mutex; no other publish took it, unless it is about to enter its `try` block;
and each of the last messages is in its slot with its complete size and payload. -/
theorem publishers_lose_nothing (P : Procs ι) (hinj : Function.Injective P.pid) (hN : 1 ≤ N)
    (h : (system P N S M).Reach (fun _ _ => True) c)
    (hidle : ∀ i, (c.locals i).pc.inBody = false) (hn : c.shared.done.length < 2 ^ 63) :
    msgIdx c.shared.seg.mem = c.shared.done.length ∧
    (∀ (k : ℕ) (e : Entry ι), c.shared.done[k]? = some e →
      e.id = k ∧ c.shared.order[k]? = some e.message) ∧
    ((∀ i, (c.locals i).inflight = none) → c.shared.order = c.shared.done.map Entry.message) ∧
    (∀ (k : ℕ) (e : Entry ι), c.shared.done[k]? = some e → c.shared.done.length ≤ k + N →
      size c.shared.seg.mem (calcSlotOffset c.shared.seg.mem (k % N)) = e.data.length ∧
      c.shared.seg.mem.read (calcSlotOffset c.shared.seg.mem (k % N) + slotHeaderSize)
        e.data.length = e.data) := by
  have halone := FutexMutex.alone_of_injective hinj
  have hc := inv_of_reach halone hN h
  have hring := ringInv_of_reach halone hN h
  refine ⟨?_, fun k e he => ?_, hc.order.idle, fun k e he hle => ?_⟩
  · rw [hc.seg.msgIdx, wrap64_of_range (by omega) (by omega)]
  · have hlt : k < c.shared.done.length := (List.getElem?_eq_some_iff.1 he).1
    refine ⟨?_, ?_⟩
    · rw [hc.order.ids k e he, wrap64_of_range (by omega) (by omega)]
    · have hmap : (c.shared.done.map Entry.message)[k]? = some e.message := by
        rw [List.getElem?_map, he, Option.map_some]
      by_cases hfl : ∃ i data, (c.locals i).inflight = some data
      · obtain ⟨i, data, hfl⟩ := hfl
        rwa [hc.order.inflight i data hfl, List.getElem?_append_left (by simpa using hlt)]
      · rwa [hc.order.idle fun i => ?_]
        by_contra hne
        exact hfl ⟨i, Option.ne_none_iff_exists'.1 hne⟩
  · have hfull : Retains N N c.shared.done (InSlot c.shared) := by
      refine hring.full hn fun i k r hpc => ?_
      have hi := hidle i
      rw [hpc] at hi
      cases hi
    have hholds := hc.seg.stored.holds (hfull k e he hle)
    rw [hc.seg.configured.calcSlotOffset]
    exact ⟨hholds.size, hholds.payload⟩

/-! ## The end of the count -/

/-- One more publish of process `i`. -/
theorem Between.publish (halone : ∀ i, P.Alone i) (hN : 0 < N)
    (h : (system P N S M).Reach (fun _ _ => True) c) (hb : Between i c) :
    ∃ c', (system P N S M).Reach (fun _ _ => True) c' ∧ Between i c' ∧
      c'.shared.done.length = c.shared.done.length + 1 := by
  have hc := inv_of_reach halone hN h
  obtain ⟨⟨r, hpc⟩, hfree⟩ := hb
  obtain ⟨holder, hI⟩ := hc.lock
  have hword : c.shared.seg.mutex.state.word = 0 := by
    by_contra hne
    exact hI.word.1 hne (hI.eq_none_of_free hfree)
  have howner : c.shared.seg.mutex.ownerPid ≠ P.pid i := fun ho => by
    obtain ⟨x, hidle⟩ := (hc.procs i).outside (by rw [hpc]; rfl)
    have hidle : (c.mutex.locals i).pc = .idle x := hidle
    have htaken : (c.mutex.locals i).taken = false := hfree i
    simpa [hidle, htaken] using (hI.thread i).owner (halone i) ho
  obtain ⟨ms, sh, p, hms, -, hdone, hpc', htaken⟩ :=
    alone_publish i [] hc.seg hN (Nat.zero_le _) ⟨r, hpc⟩ (hfree i) howner hword 0 0 0
  refine ⟨⟨sh, Function.update c.locals i p⟩, reach_alone ?_ hms, ⟨⟨some .none, ?_⟩, fun j => ?_⟩,
    hdone⟩
  · rwa [Function.update_eq_self]
  · change (Function.update c.locals i p i).pc = _
    rw [Function.update_self, hpc']
  · exact Config.forall_update (fun _ (p : Proc ι) => p.mx.taken = false) htaken
      (fun j _ => hfree j) j

theorem exists_published (halone : ∀ i, P.Alone i) (hN : 0 < N)
    (h : (system P N S M).Reach (fun _ _ => True) c) (hb : Between i c) (n : ℕ) :
    ∃ c', (system P N S M).Reach (fun _ _ => True) c' ∧ Between i c' ∧
      c'.shared.done.length = c.shared.done.length + n := by
  induction n with
  | zero => exact ⟨c, h, hb, rfl⟩
  | succ n ih =>
    obtain ⟨c₁, hr₁, hb₁, hn₁⟩ := ih
    obtain ⟨c₂, hr₂, hb₂, hn₂⟩ := hb₁.publish halone hN hr₁
    exact ⟨c₂, hr₂, hb₂, by omega⟩

end Step

/-- The buffer that `create` made, with no call made yet. -/
def opened (seg : Segment ι) : State ι :=
  ⟨⟨seg, [], [], fun _ => none, fun _ => none⟩, fun _ => .fresh⟩

theorem created_opened {N S : ℕ} (metaText : String) {s₀ seg : Segment ι} (hN : N < 2 ^ 64)
    (hS : S < 2 ^ 64) (hM : (encodeUTF8 metaText).length < 2 ^ 64)
    (hasleep : s₀.mutex.state.sleepers = ∅) (h : create N S metaText s₀ = some seg) :
    Created N S (encodeUTF8 metaText).length (opened seg) := by
  obtain ⟨hsize, rfl⟩ := eq_of_create h
  obtain ⟨hconf, hidx⟩ := configured_created hN hS hM s₀.mem
  refine ⟨hconf, hsize, hidx, ⟨?_, rfl⟩, ⟨rfl, rfl, fun _ => rfl, fun _ => rfl⟩, fun _ => rfl⟩
  change (⟨0, s₀.mutex.state.sleepers⟩ : Futex ι) = ⟨0, ∅⟩
  rw [hasleep]

/-- The steps of process `i` into its `try` block. -/
def entered (i : Tid) (data : Bytes) : List (Tid × Move Tid) :=
  [(i, .call (.publish data)), (i, .next), (i, .mutex .next), (i, .mutex .next), (i, .mutex .next),
    (i, .mutex (.stamp 5))]

/-- The accesses of process `i` in its `try` block. -/
def stored (i : Tid) : List (Tid × Move Tid) := List.replicate 10 (i, .access 7)

theorem create_used : create 1 1 "" used = some (used.created 1 1 []) :=
  create_eq (by decide +kernel)

/-- One slot of one byte, for a single message. -/
def single : State Tid := opened (used.created 1 1 [])

theorem init_single : (system FutexMutex.procs 1 1 0).Init single :=
  created_opened "" (by decide) (by decide) (by decide +kernel) rfl create_used

/-- Process `b` publishes after process `a`, on whose release it waits, and `c` is refused. -/
def raced : State Tid :=
  (system FutexMutex.procs 1 1 0).exec (fun _ _ => True) single
    (entered .a [1] ++
      ([(.b, .call (.publish [2])), (.b, .next), (.b, .mutex .next), (.b, .mutex .next),
        (.b, .mutex .next), (.b, .mutex .next), (.c, .call (.publish [3, 4])),
        (.c, .next)] : List (Tid × Move Tid)) ++
      stored .a ++
      ([(.a, .mutex .next), (.a, .mutex .next), (.a, .mutex .next), (.a, .mutex (.wake {.b})),
        (.b, .mutex .next), (.b, .mutex .next), (.b, .mutex .next),
        (.b, .mutex (.stamp 6))] : List (Tid × Move Tid)) ++
      stored .b)

theorem publishers_lose_nothing_raced :
    raced.shared.done = [⟨0, .a, [1]⟩, ⟨1, .b, [2]⟩] ∧
      (raced.locals .c).pc = .idle (some (.raised (.tooLarge 2 1))) ∧
      msgIdx raced.shared.seg.mem = raced.shared.done.length :=
  ⟨by decide +kernel, by decide +kernel,
    (publishers_lose_nothing FutexMutex.procs FutexMutex.injective_procs le_rfl
      (.exec _ (.init init_single)) (by decide +kernel) (by decide +kernel)).1⟩

/-- The index is negative when 2 ^ 63 messages have been published. -/
theorem index_wraps :
    ¬ ∀ c, (system FutexMutex.procs 1 1 0).Reach (fun _ _ => True) c →
      (∀ i, (c.locals i).pc.inBody = false) →
        msgIdx c.shared.seg.mem = c.shared.done.length := by
  have halone := FutexMutex.alone_of_injective FutexMutex.injective_procs
  intro hall
  obtain ⟨c, hr, hb, hn⟩ := exists_published (i := .a) halone one_pos (.init init_single)
    ⟨⟨none, rfl⟩, fun _ => rfl⟩ (2 ^ 63)
  have hc := inv_of_reach halone one_pos hr
  have hidx := hall c hr (hb.inBody hc)
  have hdone : c.shared.done.length = 2 ^ 63 := hn.trans (Nat.zero_add _)
  rw [hc.seg.msgIdx, hdone] at hidx
  revert hidx
  decide

end NamedHistoryBuffer
