import PyFastIpc.History.Slots
import PyFastIpc.Mutex.Exclusion

/-!
# The order of the publishes

Any number of single-threaded processes publish through one buffer.  The writer mutex implements the
ideal lock, so at most one publish is between taking it and incrementing the index
(`Inv.unique`), and the accesses of a `try` block see the segment as the block itself leaves it.  So
the messages get their numbers in the order in which their publishers took the mutex.
-/

namespace NamedHistoryBuffer

open FutexMutex (Procs Implements)

variable {ι : Type*}

/-! ## The invariant -/

/-- The payload of a publish that has taken the mutex and not yet incremented the index. -/
def Proc.inflight (p : Proc ι) : Option Bytes :=
  match p.pc with
  | .acquiring data => if p.mx.pc.inside then some data else none
  | .body _ r => some r.data
  | _ => none

/-- Who published what. -/
def Entry.message (e : Entry ι) : ι × Bytes := (e.who, e.data)

/-- What is known about one process. -/
def ProcInv (S : ℕ) (p : Proc ι) : Prop :=
  match p.pc with
  | .acquiring data => p.mx.pc.acquiring = true ∧ data.length ≤ S
  | .body _ _ => p.mx.taken = true ∧ ∃ r, p.mx.pc = .idle r
  | .releasing _ => p.mx.pc.releasing = true
  | _ => ∃ r, p.mx.pc = .idle r

/-- The messages have their numbers in the order in which their publishers took the mutex. -/
structure OrderInv (sh : Shared ι) (l : ι → Proc ι) : Prop where
  ids : ∀ (k : ℕ) (e : Entry ι), sh.done[k]? = some e → e.id = wrap64 k
  idle : (∀ i, (l i).inflight = none) → sh.order = sh.done.map Entry.message
  inflight : ∀ i data, (l i).inflight = some data →
    sh.order = sh.done.map Entry.message ++ [(i, data)]

/-- What holds in every state. -/
structure Inv (P : Procs ι) (N S M : ℕ) (c : State ι) : Prop where
  lock : ∃ h, Implements P c.mutex h
  procs : ∀ i, ProcInv S (c.locals i)
  seg : SegInv N S M c.shared
  body : ∀ i k r, (c.locals i).pc = .body k r → BodyInv N S c.shared i k r
  order : OrderInv c.shared c.locals

section ProcInv

variable {S : ℕ} {p : Proc ι}

theorem ProcInv.acquiring (h : ProcInv S p) {data : Bytes} (hpc : p.pc = .acquiring data) :
    p.mx.pc.acquiring = true ∧ data.length ≤ S := by
  simpa only [ProcInv, hpc] using h

theorem ProcInv.body (h : ProcInv S p) {k : Stage} {r : Regs} (hpc : p.pc = .body k r) :
    p.mx.taken = true ∧ ∃ r, p.mx.pc = .idle r := by
  simpa only [ProcInv, hpc] using h

theorem ProcInv.releasing (h : ProcInv S p) {e : Option Error} (hpc : p.pc = .releasing e) :
    p.mx.pc.releasing = true := by
  simpa only [ProcInv, hpc] using h

theorem ProcInv.outside (h : ProcInv S p) (hpc : p.pc.outside = true) :
    ∃ r, p.mx.pc = .idle r := by
  cases hp : p.pc <;> simp_all [ProcInv, Pc.outside]

theorem ProcInv.of_outside (hpc : p.pc.outside = true) (hidle : ∃ r, p.mx.pc = .idle r) :
    ProcInv S p := by
  cases hp : p.pc <;> simp_all [ProcInv, Pc.outside]

theorem ProcInv.ne_forceXchg (h : ProcInv S p) : p.mx.pc ≠ .forceXchg := by
  intro hf
  cases hpc : p.pc with
  | acquiring data => simpa [hf, FutexMutex.Pc.acquiring] using (h.acquiring hpc).1
  | body k r => simpa [hf] using (h.body hpc).2
  | releasing e => simpa [hf, FutexMutex.Pc.releasing] using h.releasing hpc
  | _ => simpa [hf] using h.outside (by rw [hpc]; rfl)

end ProcInv

/-- A publish in flight has the mutex. -/
theorem taken_of_inflight {P : Procs ι} {S : ℕ} {c : State ι} {h : Option ι}
    (hI : Implements P c.mutex h) {i : ι} (hinv : ProcInv S (c.locals i)) {data : Bytes}
    (hfl : (c.locals i).inflight = some data) : (c.locals i).mx.taken = true := by
  unfold Proc.inflight at hfl
  split at hfl
  next d hpc =>
    split_ifs at hfl with hin
    exact (hI.thread i).inside hin
  next k r hpc => exact (hinv.body hpc).1
  next => cases hfl

theorem inflight_of_body {p : Proc ι} {k : Stage} {r : Regs} (hpc : p.pc = .body k r) :
    p.inflight = some r.data := by
  unfold Proc.inflight
  rw [hpc]

theorem inflight_of_outside {p : Proc ι} (h : p.pc.outside = true) : p.inflight = none := by
  unfold Proc.inflight
  split
  next hpc => simp [hpc, Pc.outside] at h
  next hpc => simp [hpc, Pc.outside] at h
  next => rfl

theorem inflight_of_acquiring {p : Proc ι} {data : Bytes} (hpc : p.pc = .acquiring data) :
    p.inflight = if p.mx.pc.inside then some data else none := by
  unfold Proc.inflight
  rw [hpc]

theorem inflight_of_releasing {p : Proc ι} {e : Option Error} (hpc : p.pc = .releasing e) :
    p.inflight = none := by
  unfold Proc.inflight
  rw [hpc]

/-- At most one publish is in flight. -/
theorem Inv.unique {P : Procs ι} {N S M : ℕ} {c : State ι} (hc : Inv P N S M c) {i j : ι}
    {d d' : Bytes} (hi : (c.locals i).inflight = some d) (hj : (c.locals j).inflight = some d') :
    i = j := by
  obtain ⟨h, hI⟩ := hc.lock
  exact hI.agrees.unique (taken_of_inflight hI (hc.procs i) hi)
    (taken_of_inflight hI (hc.procs j) hj)

theorem inv_created {P : Procs ι} {N S M : ℕ} {c : State ι} (h : Created N S M c) :
    Inv P N S M c where
  lock := ⟨none, .fresh ⟨h.mutex.1, h.mutex.2, fun i => by
    change (c.locals i).mx = .fresh
    rw [h.locals]
    rfl⟩⟩
  procs i := by
    rw [h.locals]
    exact ⟨none, rfl⟩
  seg := by
    obtain ⟨-, hdone, hsized, hheld⟩ := h.histories
    refine ⟨h.configured, h.room, ?_, fun s e he => ?_, fun s e he => ?_, fun s e he => ?_⟩
    · rw [h.msgIdx, hdone, List.length_nil, Nat.cast_zero, wrap64_zero]
    · simp [hsized] at he
    · simp [hheld] at he
    · simp [hsized, hheld] at he
  body i k r hpc := by
    rw [h.locals] at hpc
    cases hpc
  order := by
    obtain ⟨horder, hdone, -, -⟩ := h.histories
    refine ⟨fun k e he => ?_, fun _ => ?_, fun i data hfl => ?_⟩
    · simp [hdone] at he
    · rw [horder, hdone]
      rfl
    · rw [h.locals] at hfl
      cases hfl

/-! ## One step -/

section Step

variable [DecidableEq ι] {P : Procs ι} {N S M : ℕ} {c : State ι} {i : ι} {sh : Shared ι}
  {p : Proc ι}

/-- Every step is a step of the mutex or leaves it alone. -/
theorem Effect.mutex {pid : UInt32} {sh₀ sh : Shared ι} {p₀ p : Proc ι}
    (he : Effect i pid sh₀ p₀ sh p) (hinv : ProcInv S p₀) :
    (sh.seg.mutex = sh₀.seg.mutex ∧ p.mx = p₀.mx) ∨
      ∃ n, FutexMutex.Effect i pid n sh₀.seg.mutex p₀.mx sh.seg.mutex p.mx := by
  cases he with
  | read p' hread => exact .inl ⟨rfl, hread.outside.2.2⟩
  | enter data hpc hfits =>
    exact .inr ⟨_, .call .acquire rfl (hinv.outside (by rw [hpc]; rfl))⟩
  | acquire data n h t hpc hs =>
    refine .inr ⟨n, ?_⟩
    rw [Shared.enter_seg]
    exact FutexMutex.effect_of_step hs
  | access now k r r' mem hpc ha =>
    rw [Shared.record_seg]
    cases hk : k.next with
    | some k' => exact .inl ⟨rfl, rfl⟩
    | none => exact .inr ⟨_, .call .release rfl (hinv.body hpc).2⟩
  | fail now k r e hpc ha => exact .inr ⟨_, .call .release rfl (hinv.body hpc).2⟩
  | release pending n h t hpc hs => exact .inr ⟨n, FutexMutex.effect_of_step hs⟩

theorem Inv.lock_step (hc : Inv P N S M c) (halone : ∀ i, P.Alone i)
    (he : Effect i (P.pid i) c.shared (c.locals i) sh p) :
    ∃ h, Implements P (State.mutex ⟨sh, Function.update c.locals i p⟩) h := by
  obtain ⟨h, hI⟩ := hc.lock
  rw [State.mutex_update]
  rcases he.mutex (hc.procs i) with ⟨hseg, hmx⟩ | ⟨n, hn⟩
  · rw [hseg, hmx, Function.update_eq_self i fun j => (c.locals j).mx]
    exact ⟨h, hI⟩
  · obtain ⟨h', -, hI'⟩ := hI.step hn (fun _ => .inl (halone i)) fun hf =>
      absurd hf (hc.procs i).ne_forceXchg
    exact ⟨h', hI'⟩

/-- A process keeps its invariant, when it has the mutex between taking it and returning. -/
theorem ProcInv.step {pid : UInt32} {sh₀ sh : Shared ι} {p₀ p : Proc ι} (hinv : ProcInv S p₀)
    (hslot : slotSize sh₀.seg.mem = S) (hinside : p₀.mx.pc.inside = true → p₀.mx.taken = true)
    (he : Effect i pid sh₀ p₀ sh p) : ProcInv S p := by
  cases he with
  | read p' hread =>
    obtain ⟨hfrom, hto, hmx⟩ := hread.outside
    refine .of_outside hto ?_
    rw [hmx]
    exact hinv.outside hfrom
  | enter data hpc hfits =>
    rw [hslot] at hfits
    exact ⟨rfl, hfits⟩
  | acquire data n h' t hpc hs =>
    obtain ⟨hacq, hfits⟩ := hinv.acquiring hpc
    cases FutexMutex.acquire_step hs hacq with
    | take hfree hin hin' hpost htaken | go hin hpost htaken =>
      rw [afterAcquire_of_acquiring data hpost]
      exact ⟨hpost, hfits⟩
    | done hin hpost htaken =>
      rw [hpost]
      exact ⟨htaken.trans (hinside hin), _, hpost⟩
    | refused hin hpost htaken =>
      rw [hpost]
      exact ⟨_, hpost⟩
  | access now k r r' mem hpc ha =>
    have hbody := hinv.body hpc
    cases hk : k.next with
    | some k' => exact hbody
    | none => rfl
  | fail now k r e hpc ha => rfl
  | release pending n h' t hpc hs =>
    have hrel := hinv.releasing hpc
    rcases FutexMutex.release_step (FutexMutex.effect_of_step hs) hrel with hpost | ⟨r, hpost⟩
    · rw [afterRelease_of_releasing pending hpost]
      exact hpost
    · rw [hpost]
      obtain ⟨r', hr, -⟩ := afterRelease_idle pending r
      rw [hr]
      exact ⟨_, hpost⟩

theorem Inv.proc_step (hc : Inv P N S M c) (he : Effect i (P.pid i) c.shared (c.locals i) sh p) :
    ProcInv S p := by
  obtain ⟨h, hI⟩ := hc.lock
  exact (hc.procs i).step hc.seg.configured.slotSize (hI.thread i).inside he

/-- What a step changes in the segment and the histories. -/
theorem Inv.seg_step (hc : Inv P N S M c) (hN : 0 < N)
    (he : Effect i (P.pid i) c.shared (c.locals i) sh p) :
    SegInv N S M sh ∧
      ∀ j k r, (Function.update c.locals i p j).pc = .body k r → BodyInv N S sh j k r := by
  -- the other processes, when the step leaves the bytes and the histories of the slots alone
  have hquiet (hmem : sh.seg.mem = c.shared.seg.mem) (hsized : sh.sized = c.shared.sized)
      (hheld : sh.held = c.shared.held) {j : ι} {k : Stage} {r : Regs}
      (hpc : (c.locals j).pc = .body k r) : BodyInv N S sh j k r :=
    (hc.body j k r hpc).frame (by rw [hmem]) (fun _ => by rw [hsized]) fun _ => by rw [hheld]
  have hseg := hc.seg
  cases he with
  | read p' hread =>
    refine ⟨hseg, Config.forall_update (fun j (p : Proc ι) => ∀ k r, p.pc = .body k r →
      BodyInv N S c.shared j k r) (fun k r hp => ?_) fun j _ k r hp => hc.body j k r hp⟩
    have hto := hread.outside.2.1
    simp [hp, Pc.outside] at hto
  | enter data hpc hfits =>
    exact ⟨hseg, Config.forall_update (fun j (p : Proc ι) => ∀ k r, p.pc = .body k r →
      BodyInv N S c.shared j k r) (fun k r hp => by cases hp) fun j _ k r hp => hc.body j k r hp⟩
  | acquire data n h' t hpc hs =>
    have hinv := (hc.procs i).acquiring hpc
    refine ⟨⟨?_, ?_, ?_, ?_⟩, Config.forall_update (fun j (p : Proc ι) => ∀ k r,
      p.pc = .body k r → BodyInv N S _ j k r) (fun k r hp => ?_) fun j _ k r hp => ?_⟩
    · simpa using hseg.configured
    · simpa using hseg.room
    · simpa [Shared.setMutex] using hseg.msgIdx
    · simpa [Shared.setMutex] using hseg.stored
    · -- the body begins
      cases FutexMutex.acquire_step hs hinv.1 with
      | take _ _ _ hpost | go _ hpost =>
        rw [afterAcquire_of_acquiring data hpost] at hp
        cases hp
      | done _ hpost =>
        rw [hpost] at hp
        obtain ⟨rfl, rfl⟩ := Pc.body.inj hp
        exact ⟨hinv.2, fun j hj => absurd hj (Nat.not_lt_zero _)⟩
      | refused _ hpost =>
        rw [hpost] at hp
        cases hp
    · exact hquiet (by simp) (by simp [Shared.setMutex]) (by simp [Shared.setMutex]) hp
  | access now k r r' mem hpc ha =>
    obtain ⟨r₁, mem₁, ha₁, hseg', hdata, hnext⟩ := (hc.body i k r hpc).access hseg hN now
    obtain ⟨rfl, rfl⟩ : r₁ = r' ∧ mem₁ = mem := by simpa [ha₁] using ha
    refine ⟨hseg', Config.forall_update (fun j (p : Proc ι) => ∀ k r, p.pc = .body k r →
      BodyInv N S _ j k r) (fun k' r' hp => ?_) fun j hj k' r' hp => ?_⟩
    · cases hk : k.next with
      | some k'' =>
        rw [hk] at hp
        obtain ⟨rfl, rfl⟩ := Pc.body.inj hp
        exact hnext _ hk
      | none =>
        rw [hk] at hp
        cases hp
    · -- two publishes would be in flight
      exact absurd (hc.unique (inflight_of_body hp) (inflight_of_body hpc)) hj
  | fail now k r e hpc ha =>
    obtain ⟨r₁, mem₁, ha₁, -⟩ := (hc.body i k r hpc).access hseg hN now
    rw [ha₁] at ha
    cases ha
  | release pending n h' t hpc hs =>
    have hrel := (hc.procs i).releasing hpc
    refine ⟨⟨hseg.configured, hseg.room, hseg.msgIdx, hseg.stored⟩, Config.forall_update
      (fun j (p : Proc ι) => ∀ k r, p.pc = .body k r → BodyInv N S _ j k r) (fun k r hp => ?_)
      fun j _ k r hp => hquiet rfl rfl rfl hp⟩
    rcases FutexMutex.release_step (FutexMutex.effect_of_step hs) hrel with hpost | ⟨x, hpost⟩
    · rw [afterRelease_of_releasing pending hpost] at hp
      cases hp
    · rw [hpost] at hp
      obtain ⟨r', hr, -⟩ := afterRelease_idle pending x
      rw [hr] at hp
      cases hp

/-- A step that moves no publish into flight or out of it. -/
theorem OrderInv.same (h : OrderInv c.shared c.locals) (hfl : p.inflight = (c.locals i).inflight)
    (horder : sh.order = c.shared.order) (hdone : sh.done = c.shared.done) :
    OrderInv sh (Function.update c.locals i p) := by
  have hall (j : ι) : (Function.update c.locals i p j).inflight = (c.locals j).inflight := by
    by_cases hj : j = i
    · subst hj
      rw [Function.update_self, hfl]
    · rw [Function.update_of_ne hj]
  refine ⟨?_, fun hnone => ?_, fun j data hj => ?_⟩
  · rw [hdone]
    exact h.ids
  · rw [horder, hdone]
    exact h.idle fun j => (hall j).symm.trans (hnone j)
  · rw [horder, hdone]
    exact h.inflight j data ((hall j).symm.trans hj)

/-- The publish of process `i` gets into flight, while there is no other. -/
theorem OrderInv.start (h : OrderInv c.shared c.locals)
    (hnone : ∀ j, (c.locals j).inflight = none) (data : Bytes) (hfl : p.inflight = some data)
    (horder : sh.order = c.shared.order ++ [(i, data)]) (hdone : sh.done = c.shared.done) :
    OrderInv sh (Function.update c.locals i p) := by
  refine ⟨?_, fun hall => ?_, fun j d hj => ?_⟩
  · rw [hdone]
    exact h.ids
  · have hi := hall i
    rw [Function.update_self, hfl] at hi
    cases hi
  · by_cases hji : j = i
    · subst hji
      rw [Function.update_self, hfl] at hj
      obtain rfl := Option.some.inj hj
      rw [horder, hdone, h.idle hnone]
    · rw [Function.update_of_ne hji, hnone j] at hj
      cases hj

/-- The publish of process `i` increments the index. -/
theorem OrderInv.finish (h : OrderInv c.shared c.locals) {e : Entry ι} (he : e.who = i)
    (hfl : (c.locals i).inflight = some e.data) (hid : e.id = wrap64 c.shared.done.length)
    (hother : ∀ j, j ≠ i → (c.locals j).inflight = none) (hp : p.inflight = none)
    (horder : sh.order = c.shared.order) (hdone : sh.done = c.shared.done ++ [e]) :
    OrderInv sh (Function.update c.locals i p) := by
  have hnew : sh.order = sh.done.map Entry.message := by
    rw [horder, hdone, h.inflight i e.data hfl, List.map_append, ← he]
    rfl
  refine ⟨fun k x hx => ?_, fun _ => hnew, fun j d hj => ?_⟩
  · rw [hdone] at hx
    rcases Nat.lt_or_ge k c.shared.done.length with hlt | hge
    · rw [List.getElem?_append_left hlt] at hx
      exact h.ids k x hx
    · have hk : k = c.shared.done.length := by
        have hlt := (List.getElem?_eq_some_iff.1 hx).1
        rw [List.length_append, List.length_singleton] at hlt
        omega
      subst hk
      rw [List.getElem?_concat_length] at hx
      obtain rfl := Option.some.inj hx
      exact hid
  · by_cases hji : j = i
    · subst hji
      rw [Function.update_self, hp] at hj
      cases hj
    · rw [Function.update_of_ne hji, hother j hji] at hj
      cases hj

theorem Inv.order_step (hc : Inv P N S M c) (hN : 0 < N)
    (he : Effect i (P.pid i) c.shared (c.locals i) sh p) :
    OrderInv sh (Function.update c.locals i p) := by
  obtain ⟨h, hI⟩ := hc.lock
  have ho := hc.order
  cases he with
  | read p' hread =>
    obtain ⟨hfrom, hto, -⟩ := hread.outside
    exact ho.same ((inflight_of_outside hto).trans (inflight_of_outside hfrom).symm) rfl rfl
  | enter data hpc hfits =>
    have hold : (c.locals i).inflight = none := inflight_of_outside (by rw [hpc]; rfl)
    refine ho.same ?_ rfl rfl
    rw [hold]
    rfl
  | acquire data n h' t hpc hs =>
    have hold := inflight_of_acquiring hpc
    cases FutexMutex.acquire_step hs ((hc.procs i).acquiring hpc).1 with
    | take hfree hin hin' hpost htaken =>
      -- nobody has the mutex, so no publish is in flight
      have hnone : h = none := by
        by_contra hne
        exact hI.word.2 hne hfree
      have hout (j : ι) : (c.locals j).mx.taken = false := by
        have htaken : (c.locals j).mx.taken = true ↔ h = some j := (hI.thread j).taken_iff
        simpa [hnone] using htaken
      refine ho.start (fun j => ?_) data ?_ (Shared.enter_order _ i data (hout i) htaken)
        (Shared.enter_done _ i data _ _)
      · cases hj : (c.locals j).inflight with
        | none => rfl
        | some d =>
          have := taken_of_inflight hI (hc.procs j) hj
          simp [hout j] at this
      · rw [afterAcquire_of_acquiring data hpost]
        exact if_pos hin'
    | go hin hpost htaken =>
      rw [Shared.enter_of_taken_eq _ i data htaken]
      refine ho.same ?_ rfl rfl
      rw [afterAcquire_of_acquiring data hpost, hold, ← hin]
      rfl
    | done hin hpost htaken =>
      rw [Shared.enter_of_taken_eq _ i data htaken]
      refine ho.same ?_ rfl rfl
      rw [hpost, hold, if_pos hin]
      rfl
    | refused hin hpost htaken =>
      rw [Shared.enter_of_taken_eq _ i data htaken]
      refine ho.same ?_ rfl rfl
      rw [hpost, hold, hin]
      rfl
  | access now k r r' mem hpc ha =>
    have hb := hc.body i k r hpc
    obtain ⟨r₁, mem₁, ha₁, -, hdata, -⟩ := hb.access hc.seg hN now
    obtain ⟨rfl, rfl⟩ : r₁ = r' ∧ mem₁ = mem := by simpa [ha₁] using ha
    have hold := inflight_of_body hpc
    cases k with
    | storeNext =>
      obtain rfl := regs_of_stores rfl ha
      have hid : r.id = msgIdx c.shared.seg.mem := hb.earlier .loadIdx (by decide)
      refine ho.finish (e := ⟨r.id, i, r.data⟩) rfl hold (hid.trans hc.seg.msgIdx)
        (fun j hj => ?_) rfl rfl rfl
      cases hfl : (c.locals j).inflight with
      | none => rfl
      | some d => exact absurd (hc.unique hfl hold) hj
    | _ => exact ho.same ((congrArg some hdata).trans hold.symm) rfl rfl
  | fail now k r e hpc ha =>
    obtain ⟨r₁, mem₁, ha₁, -⟩ := (hc.body i k r hpc).access hc.seg hN now
    rw [ha₁] at ha
    cases ha
  | release pending n h' t hpc hs =>
    have hrel := (hc.procs i).releasing hpc
    refine ho.same ?_ rfl rfl
    rw [inflight_of_releasing hpc]
    rcases FutexMutex.release_step (FutexMutex.effect_of_step hs) hrel with hpost | ⟨x, hpost⟩
    · rw [afterRelease_of_releasing pending hpost]
      rfl
    · rw [hpost]
      obtain ⟨r', hr, -⟩ := afterRelease_idle pending x
      rw [hr]
      rfl

theorem inv_of_reach {ok : State ι → ι × Move ι → Prop} (halone : ∀ i, P.Alone i) (hN : 0 < N)
    (h : (system P N S M).Reach ok c) : Inv P N S M c := by
  refine h.invariant (Inv P N S M) (fun c hc => inv_created hc) fun c a c' _ hc _ hs => ?_
  obtain ⟨sh, p, he, rfl⟩ := effect_of_system_step hs
  obtain ⟨hseg, hbody⟩ := hc.seg_step hN he
  exact {
    lock := hc.lock_step halone he
    procs := Config.forall_update (fun _ p => ProcInv S p) (hc.proc_step he) fun j _ => hc.procs j
    seg := hseg
    body := hbody
    order := hc.order_step hN he }

end Step

end NamedHistoryBuffer
