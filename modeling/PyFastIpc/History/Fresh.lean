import PyFastIpc.History.Reader

/-!
# Reads that are not overtaken

The slot of the message that was the latest when a `get_latest` loaded the index is filled again by
the message `N` numbers later.  As long as fewer than `N - 1` further messages have been published,
the size and the payload that the call reads are those of that message (`copy_fresh`), whatever the
lengths of the messages: the call takes effect at its index load.  With `copy=False` the caller gets
the slice itself, and the copy is its later read of it.

`Watched` keeps the answers of the calls.  In runs in which no read is overtaken (`Timely`) each
answer is the payload of the message that its index names, and the indices of a process do not go
back (`reads_linearise`).
-/

namespace NamedHistoryBuffer

open FutexMutex (Procs)

variable {ι : Type*}

/-- If the step is the copy of a `get_latest`, fewer than `N - 1` messages have been published since
its index load. -/
def Timely (N : ℕ) (c : State ι) (a : ι × Move ι) : Prop :=
  ∀ v, (c.locals a.1).pc = .latest .copy v → (c.shared.done.length : ℤ) + 1 < v.idx + N

/-- What the loads of a `get_latest` have established, and whose size it has as long as it is not
overtaken. -/
structure Loads (N S : ℕ) (sh : Shared ι) (p : Proc ι) (k : Look) (v : View) : Prop where
  since : p.since ≤ sh.done.length
  known : ∀ j : Look, j.rank < k.rank → Known N S sh p v j
  seen : Look.loadSize.rank < k.rank → ∀ m : ℕ, v.idx = m + 1 → sh.done.length + 1 < m + 1 + N →
    ∃ e, sh.done[m]? = some e ∧ p.seen = some e

/-- What is known about a process that reads. -/
def Reading (N S : ℕ) (sh : Shared ι) (p : Proc ι) : Prop :=
  ∀ k v, p.pc = .latest k v → Loads N S sh p k v

section Step

variable {P : Procs ι} {N S M : ℕ} {c : State ι} {i : ι} {sh sh' : Shared ι} {p : Proc ι}

theorem Reading.frame (h : Reading N S sh p) (hdone : sh.done <+: sh'.done) :
    Reading N S sh' p := by
  intro k v hpc
  have hold := h k v hpc
  refine ⟨hold.since.trans hdone.length_le, fun j hj => ?_, fun hk m hidx hless => ?_⟩
  · have hknown := hold.known j hj
    cases j with
    | loadIdx =>
      obtain ⟨m, hidx, hsince, hm⟩ := hknown
      exact ⟨m, hidx, hsince, hm.trans_le hdone.length_le⟩
    | _ => exact hknown
  · have hle := hdone.length_le
    obtain ⟨e, he, hseen⟩ := hold.seen hk m hidx (by omega)
    exact ⟨e, getElem?_of_prefix hdone he, hseen⟩

/-- The published messages that a reader knows are in their slots. -/
theorem Loads.inSlot {k : Look} {v : View} (h : Loads N S sh p k v) {l : ι → Proc ι}
    (hring : RingInv N sh l) (hn : sh.done.length < 2 ^ 63) (hk : Look.locate.rank ≤ k.rank)
    {m : ℕ} (hidx : v.idx = m + 1) (hless : sh.done.length + 1 < m + 1 + N) :
    ∃ e, sh.done[m]? = some e ∧ v.slot = m % N ∧ InSlot sh v.slot e := by
  have hslot : v.slot = m % N := slot_of_known hidx (h.known .loadNumSlots hk)
  obtain ⟨m', hidx', -, hm⟩ : Known N S sh p v .loadIdx :=
    h.known .loadIdx (lt_of_lt_of_le (by decide) hk)
  have hmm : m' = m := by omega
  subst hmm
  have he : sh.done[m']? = some sh.done[m'] := List.getElem?_eq_getElem hm
  refine ⟨_, he, hslot, ?_⟩
  rw [hslot]
  exact hring.kept hn m' _ he (by omega)

theorem Reading.look {k k' : Look} {v v' : View} (h : Reading N S c.shared p)
    (hc : SegInv N S M c.shared) (hs : SlotInv N c.shared) {l : ι → Proc ι}
    (hring : RingInv N c.shared l) (hN : 0 < N) (hn : NotWrapped c) (hpc : p.pc = .latest k v)
    (hnext : k.next = some k')
    (hlook : NamedHistoryBuffer.look c.shared.seg.size c.shared.seg.mem v k = .ok v') :
    Reading N S c.shared { p with pc := .latest k' v', seen := p.look c.shared v k } := by
  have hold := h k v hpc
  rintro _ _ ⟨⟩
  refine ⟨hold.since, fun j hj => ?_, fun hk m hidx hless => ?_⟩
  · exact known_look hc hs hN hn hold.since hold.known hnext hlook _ hj
  · -- the size was loaded in this step
    rw [Look.rank_next hnext] at hk
    obtain rfl : k = .loadSize := by
      cases k with
      | loadSize => rfl
      | copy => cases hnext
      | _ => exact absurd hk (by decide)
    have hsame : v'.idx = v.idx := by
      simp only [NamedHistoryBuffer.look] at hlook
      obtain rfl := Except.ok.inj hlook
      rfl
    obtain ⟨e, he, -, hin⟩ := hold.inSlot hring hn (by decide) (hsame ▸ hidx) hless
    exact ⟨e, he, hin.1⟩

/-- The copy of a read that is not overtaken. -/
theorem Reading.copy {v : View} (h : Reading N S c.shared (c.locals i))
    (hc : SegInv N S M c.shared) {l : ι → Proc ι} (hring : RingInv N c.shared l)
    (hn : NotWrapped c) (hpc : (c.locals i).pc = .latest .copy v) {m : Move ι}
    (htimely : Timely N c (i, m)) :
    ∃ (k : ℕ) (e : Entry ι), v.idx = k + 1 ∧ (c.locals i).since ≤ k + 1 ∧
      c.shared.done[k]? = some e ∧ c.shared.seg.mem.read v.payloadOff v.n = e.data := by
  have hloads := h .copy v hpc
  have hless := htimely v hpc
  obtain ⟨k, hidx, hsince, -⟩ : Known N S c.shared (c.locals i) v .loadIdx :=
    hloads.known .loadIdx (by decide)
  have hoff : v.payloadOff = slotOffset S v.slot + slotHeaderSize :=
    hloads.known .relocate (by decide)
  obtain ⟨e', hseen', hlen⟩ : Known N S c.shared (c.locals i) v .loadSize :=
    hloads.known .loadSize (by decide)
  obtain ⟨e, he, -, hin⟩ := hloads.inSlot hring hn (by decide) hidx (by omega)
  obtain ⟨e'', he'', hseen⟩ := hloads.seen (by decide) k hidx (by omega)
  obtain rfl : e'' = e := Option.some.inj (he''.symm.trans he)
  obtain rfl : e' = e'' := Option.some.inj (hseen'.symm.trans hseen)
  exact ⟨k, e', hidx, hsince, he, by rw [hoff, hlen]; exact hc.stored.payload v.slot e' hin.2⟩

/-- Of the loads only that of the index raises, and only when nothing was published. -/
theorem Loads.error {k : Look} {v : View} {e : Error} (h : Loads N S sh p k v)
    (hc : SegInv N S M sh) (hN : 0 < N) (hn : sh.done.length < 2 ^ 63)
    (hlook : NamedHistoryBuffer.look sh.seg.size sh.seg.mem v k = .error e) :
    k = .loadIdx ∧ e = .noEntries ∧ sh.done = [] := by
  cases k with
  | loadIdx =>
    have hidx : msgIdx sh.seg.mem = sh.done.length :=
      hc.msgIdx.trans (wrap64_of_range (by omega) (by omega))
    simp only [NamedHistoryBuffer.look, hidx, Nat.cast_eq_zero, List.length_eq_zero_iff] at hlook
    split_ifs at hlook with hempty
    exact ⟨rfl, (Except.error.inj hlook).symm, hempty⟩
  | loadNumSlots =>
    simp only [NamedHistoryBuffer.look, hc.configured.numSlots, if_neg hN.ne'] at hlook
    cases hlook
  | locate =>
    obtain ⟨m, hidx, -, -⟩ : Known N S sh p v .loadIdx := h.known .loadIdx (by decide)
    have hslot : v.slot = m % N := slot_of_known hidx (h.known .loadNumSlots (by decide))
    have hend := slot_le_requestedSize (S := S) (M := M) (hslot ▸ Nat.mod_lt m hN : v.slot < N)
    have hroom := hc.room
    simp only [NamedHistoryBuffer.look, hc.configured.calcSlotOffset] at hlook
    rw [if_neg (by omega)] at hlook
    cases hlook
  | relocate | loadSize | copy => cases hlook

variable [DecidableEq ι]

/-- A process that is in `get_latest` after a step has only read. -/
theorem Effect.reads_of_latest (hc : Inv P N S M c)
    (he : Effect i (P.pid i) c.shared (c.locals i) sh p) {k : Look} {v : View}
    (hpc : p.pc = .latest k v) : sh = c.shared ∧ Reads c.shared (c.locals i) p := by
  cases he with
  | read p' hread => exact ⟨rfl, hread⟩
  | enter data hp hfits | fail now k r e hp ha => cases hpc
  | acquire data n h' t hp hs =>
    cases FutexMutex.acquire_step hs ((hc.procs i).acquiring hp).1 with
    | take _ _ _ hpost | go _ hpost =>
      rw [afterAcquire_of_acquiring data hpost] at hpc
      cases hpc
    | done _ hpost | refused _ hpost =>
      rw [hpost] at hpc
      cases hpc
  | access now k' r r' mem hp ha => cases hk : k'.next <;> rw [hk] at hpc <;> cases hpc
  | release pending n h' t hp hs =>
    have hrel := (hc.procs i).releasing hp
    rcases FutexMutex.release_step (FutexMutex.effect_of_step hs) hrel with hpost | ⟨x, hpost⟩
    · rw [afterRelease_of_releasing pending hpost] at hpc
      cases hpc
    · rw [hpost] at hpc
      obtain ⟨r', hr, -⟩ := afterRelease_idle pending x
      rw [hr] at hpc
      cases hpc

theorem Reading.step (h : Reading N S c.shared (c.locals i)) (hc : Inv P N S M c)
    (hs : SlotInv N c.shared) (hring : RingInv N c.shared c.locals) (hN : 0 < N)
    (hn : NotWrapped c) (he : Effect i (P.pid i) c.shared (c.locals i) sh p) :
    Reading N S sh p := by
  intro k v hpc
  obtain ⟨rfl, hread⟩ := he.reads_of_latest hc hpc
  cases hread with
  | call f hidle =>
    cases f with
    | getLatest =>
      obtain ⟨rfl, rfl⟩ := Pc.latest.inj hpc
      exact ⟨le_rfl, fun j hj => absurd hj (Nat.not_lt_zero _), fun hk => absurd hk (by decide)⟩
    | publish data | getMeta => cases hpc
  | look k₀ k' v₀ v' hp hnext hlook => exact h.look hc.seg hs hring hN hn hp hnext hlook k v hpc
  | refused data hp hlong | lost k v e hp | copy v hp | metaSize hp | metaCopy n r hp hr =>
    cases hpc

theorem reading_of_reach {ok : State ι → ι × Move ι → Prop} (hok : ∀ c a, ok c a → NotWrapped c)
    (halone : ∀ i, P.Alone i) (hN : 0 < N) (h : (system P N S M).Reach ok c) :
    SlotInv N c.shared ∧ ∀ i, Reading N S c.shared (c.locals i) := by
  refine h.invariant (fun c => SlotInv N c.shared ∧ ∀ i, Reading N S c.shared (c.locals i))
    (fun c hc => ?_) fun c a c' hr hI hguard hs => ?_
  · obtain ⟨-, hdone, -, -⟩ := hc.histories
    refine ⟨fun _ j hj => ?_, fun i k v hpc => ?_⟩
    · simp [hdone] at hj
    · simp [hc.locals, Proc.fresh] at hpc
  · obtain ⟨sh, p, he, rfl⟩ := effect_of_system_step hs
    have hc := inv_of_reach halone hN hr
    have hring := ringInv_of_reach halone hN hr
    refine ⟨hI.1.step hc hN he, Config.forall_update (fun _ p => Reading N S sh p) ?_ fun j _ => ?_⟩
    · exact (hI.2 a.1).step hc hI.1 hring hN (hok _ _ hguard) he
    · exact (hI.2 j).frame he.done_prefix

end Step

/-! ## The answers of a run -/

/-- What a finished `get_latest` of process `who` has returned, with the index that it loaded and
the number of messages published when it began. -/
structure Answer (ι : Type*) where
  who : ι
  idx : ℤ
  since : ℕ
  bytes : Bytes

/-- A state with the answers given so far. -/
structure Watched (ι : Type*) where
  state : State ι
  answers : List (Answer ι)

/-- The answer that a step gives. -/
def answer (c : State ι) (a : ι × Move ι) : List (Answer ι) :=
  match a.2, (c.locals a.1).pc with
  | .next, .latest .copy v =>
    [⟨a.1, v.idx, (c.locals a.1).since, c.shared.seg.mem.read v.payloadOff v.n⟩]
  | _, _ => []

theorem eq_of_mem_answer {c : State ι} {a : ι × Move ι} {x : Answer ι} (hx : x ∈ answer c a) :
    ∃ v, (c.locals a.1).pc = .latest .copy v ∧
      x = ⟨a.1, v.idx, (c.locals a.1).since, c.shared.seg.mem.read v.payloadOff v.n⟩ := by
  unfold answer at hx
  split at hx
  next v _ hpc => exact ⟨v, hpc, List.mem_singleton.1 hx⟩
  next => cases hx

theorem pairwise_answer (c : State ι) (a : ι × Move ι) (R : Answer ι → Answer ι → Prop) :
    (answer c a).Pairwise R := by
  unfold answer
  split
  · exact List.pairwise_singleton R _
  · exact .nil

variable [DecidableEq ι] {P : Procs ι} {N S M : ℕ}

/-- The processes with a record of the answers. -/
def watched (P : Procs ι) (N S M : ℕ) : Transition (Watched ι) (ι × Move ι) where
  Init w := Created N S M w.state ∧ w.answers = []
  step w a := ((system P N S M).step w.state a).map fun c => ⟨c, w.answers ++ answer w.state a⟩

/-- What the answers given so far say. -/
structure Watched.Linear (w : Watched ι) : Prop where
  exact : ∀ x ∈ w.answers, ∃ (k : ℕ) (e : Entry ι), x.idx = k + 1 ∧ x.since ≤ k + 1 ∧
    w.state.shared.done[k]? = some e ∧ x.bytes = e.data
  session : ∀ i k v, (w.state.locals i).pc = .latest k v → ∀ x ∈ w.answers, x.who = i →
    x.idx ≤ (w.state.locals i).since
  order : w.answers.Pairwise fun x y => x.who = y.who → x.idx ≤ y.idx

omit [DecidableEq ι] in
theorem Watched.Linear.past {w : Watched ι} (hw : w.Linear) {x : Answer ι} (hx : x ∈ w.answers) :
    x.idx ≤ w.state.shared.done.length := by
  obtain ⟨k, e, hidx, -, he, -⟩ := hw.exact x hx
  have hlt := (List.getElem?_eq_some_iff.1 he).1
  omega

theorem Watched.Linear.step {w : Watched ι} (hw : w.Linear) {a : ι × Move ι}
    {c : State ι} (hc : Inv P N S M w.state) (hring : RingInv N w.state.shared w.state.locals)
    (hread : Reading N S w.state.shared (w.state.locals a.1)) (hn : NotWrapped w.state)
    (htimely : Timely N w.state a) (hs : (system P N S M).step w.state a = some c) :
    Watched.Linear ⟨c, w.answers ++ answer w.state a⟩ := by
  obtain ⟨sh, p, he, rfl⟩ := effect_of_system_step hs
  have hdone := he.done_prefix
  refine ⟨fun x hx => ?_, fun i k v hpc x hx hwho => ?_, List.pairwise_append.2
    ⟨hw.order, pairwise_answer _ _ _, fun x hx y hy hwho => ?_⟩⟩
  · rcases List.mem_append.1 hx with hx | hx
    · obtain ⟨k, e, hidx, hsince, he, hbytes⟩ := hw.exact x hx
      exact ⟨k, e, hidx, hsince, getElem?_of_prefix hdone he, hbytes⟩
    · obtain ⟨v, hpc, rfl⟩ := eq_of_mem_answer hx
      obtain ⟨k, e, hidx, hsince, he, hbytes⟩ := hread.copy hc.seg hring hn hpc htimely
      exact ⟨k, e, hidx, hsince, getElem?_of_prefix hdone he, hbytes⟩
  · by_cases hi : i = a.1
    · subst hi
      dsimp only at hpc ⊢
      rw [Function.update_self] at hpc ⊢
      obtain ⟨rfl, hreads⟩ := he.reads_of_latest hc hpc
      cases hreads with
      | call f hidle =>
        obtain ⟨r, hidle⟩ := hidle
        rcases List.mem_append.1 hx with hold | hnew
        · cases f with
          | getLatest => exact hw.past hold
          | publish data | getMeta => cases hpc
        · obtain ⟨v', hcopy, -⟩ := eq_of_mem_answer hnew
          simp [hidle] at hcopy
      | look k₀ k' v₀ v' hp hnext hlook =>
        rcases List.mem_append.1 hx with hx | hx
        · exact hw.session a.1 k₀ v₀ hp x hx hwho
        · obtain ⟨v'', hcopy, -⟩ := eq_of_mem_answer hx
          obtain ⟨rfl, -⟩ := Pc.latest.inj (hp.symm.trans hcopy)
          cases hnext
      | refused data hp hlong | lost k v e hp | copy v hp | metaSize hp | metaCopy n r hp hr =>
        cases hpc
    · dsimp only at hpc ⊢
      rw [Function.update_of_ne hi] at hpc ⊢
      rcases List.mem_append.1 hx with hx | hx
      · exact hw.session i k v hpc x hx hwho
      · obtain ⟨v', -, rfl⟩ := eq_of_mem_answer hx
        exact absurd hwho.symm hi
  · obtain ⟨v, hpc, rfl⟩ := eq_of_mem_answer hy
    obtain ⟨k, hidx, hsince, -⟩ : Known N S w.state.shared (w.state.locals a.1) v .loadIdx :=
      (hread .copy v hpc).known .loadIdx (by decide)
    have hle := hw.session a.1 .copy v hpc x hx hwho
    dsimp only
    omega

/-- The runs with answers are runs. -/
theorem reach_of_watched {ok : State ι → ι × Move ι → Prop} {w : Watched ι}
    (h : (watched P N S M).Reach (fun w a => ok w.state a) w) :
    (system P N S M).Reach ok w.state := by
  refine h.invariant (fun w => (system P N S M).Reach ok w.state) (fun w hw => ?_)
    fun w a w' _ hr hok hs => ?_
  · exact .init hw.1
  · obtain ⟨c, hc, rfl⟩ := Option.map_eq_some_iff.1 hs
    exact .step a hr hok hc

/-- Reads that are not overtaken are linearisable.  In runs with fewer than 2 ^ 63 messages in which
every `get_latest` copies before `N - 1` further messages were published, a call returns exactly the
payload of the message that was the last one published when it loaded the index, however long the
messages are; that message is not older than the last one published before the call began; and the
answers of one process never go back.  A call raises only if nothing was published by its index
load. -/
theorem reads_linearise (P : Procs ι) (hinj : Function.Injective P.pid) (hN : 1 ≤ N)
    {w : Watched ι}
    (h : (watched P N S M).Reach (fun w a => NotWrapped w.state ∧ Timely N w.state a) w) :
    (∀ x ∈ w.answers, ∃ (k : ℕ) (e : Entry ι), x.idx = k + 1 ∧ x.since ≤ k + 1 ∧
      w.state.shared.done[k]? = some e ∧ x.bytes = e.data) ∧
    w.answers.Pairwise (fun x y => x.who = y.who → x.idx ≤ y.idx) ∧
    (NotWrapped w.state → ∀ i k v, (w.state.locals i).pc = .latest k v →
      (∀ e, look w.state.shared.seg.size w.state.shared.seg.mem v k = .error e →
        k = .loadIdx ∧ e = .noEntries ∧ w.state.shared.done = []) ∧
      ∀ v', look w.state.shared.seg.size w.state.shared.seg.mem v .loadIdx = .ok v' →
        v'.idx = w.state.shared.done.length) := by
  have halone := FutexMutex.alone_of_injective hinj
  have hlinear : w.Linear := by
    refine h.invariant Watched.Linear (fun w hw => ?_) fun w a w' hr hw hok hs => ?_
    · refine ⟨fun x hx => ?_, fun i k v _ x hx => ?_, ?_⟩
      · simp [hw.2] at hx
      · simp [hw.2] at hx
      · rw [hw.2]
        exact .nil
    · obtain ⟨c, hc, rfl⟩ := Option.map_eq_some_iff.1 hs
      have hreach : (system P N S M).Reach (fun c a => NotWrapped c ∧ Timely N c a) w.state :=
        reach_of_watched hr
      exact hw.step (inv_of_reach halone hN hreach) (ringInv_of_reach halone hN hreach)
        ((reading_of_reach (fun _ _ hok => hok.1) halone hN hreach).2 a.1) hok.1 hok.2 hc
  have hreach : (system P N S M).Reach (fun c a => NotWrapped c ∧ Timely N c a) w.state :=
    reach_of_watched h
  have hseg := (inv_of_reach halone hN hreach).seg
  refine ⟨hlinear.exact, hlinear.order, fun hn i k v hpc => ⟨fun e hlook => ?_, fun v' hlook => ?_⟩⟩
  · have hloads := (reading_of_reach (fun _ _ hok => hok.1) halone hN hreach).2 i k v hpc
    exact hloads.error hseg hN hn hlook
  · unfold NotWrapped at hn
    simp only [look] at hlook
    split_ifs at hlook
    obtain rfl := Except.ok.inj hlook
    exact hseg.msgIdx.trans (wrap64_of_range (by omega) (by omega))

instance (N : ℕ) (c : State Tid) (a : Tid × Move Tid) : Decidable (Timely N c a) :=
  match hpc : (c.locals a.1).pc with
  | .latest .copy v => decidable_of_iff ((c.shared.done.length : ℤ) + 1 < v.idx + N)
      ⟨fun h v' hv => by
        obtain ⟨-, rfl⟩ := Pc.latest.inj (hpc.symm.trans hv)
        exact h, fun h => h v hpc⟩
  | .idle _ | .check _ | .acquiring _ | .body _ _ | .releasing _ | .metaSize | .metaCopy _
  | .latest .loadIdx _ | .latest .loadNumSlots _ | .latest .locate _ | .latest .relocate _
  | .latest .loadSize _ => .isTrue fun v hv => by rw [hpc] at hv; cases hv

/-- Three slots of two bytes.  Process `c` loads the size of the message of `a`, `b` publishes a
longer one, and then `c` copies. -/
def crossed : Watched Tid :=
  (watched FutexMutex.procs 3 2 0).exec
    (fun w a => NotWrapped w.state ∧ Timely 3 w.state a) ⟨opened (used.created 3 2 []), []⟩
    (entered .a [1] ++ stored .a ++
      ([(.a, .mutex .next), (.a, .mutex .next), (.a, .mutex .next)] : List (Tid × Move Tid)) ++
      looked ++ entered .b [2, 3] ++ stored .b ++ ([(.c, .next)] : List (Tid × Move Tid)))

theorem init_crossed :
    (watched FutexMutex.procs 3 2 0).Init ⟨opened (used.created 3 2 []), []⟩ :=
  ⟨created_opened "" (by decide) (by decide) (by decide +kernel) rfl
    (create_eq (by decide +kernel)), rfl⟩

theorem reads_linearise_crossed :
    crossed.state.shared.done = [⟨0, .a, [1]⟩, ⟨1, .b, [2, 3]⟩] ∧
      ∀ x ∈ crossed.answers, ∃ (k : ℕ) (e : Entry Tid), x.idx = k + 1 ∧ x.since ≤ k + 1 ∧
        crossed.state.shared.done[k]? = some e ∧ x.bytes = e.data :=
  ⟨by decide +kernel, (reads_linearise FutexMutex.procs FutexMutex.injective_procs (by decide)
    (.exec _ (.init init_crossed))).1⟩

end NamedHistoryBuffer
