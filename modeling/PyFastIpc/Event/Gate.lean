import PyFastIpc.Event.Clients

/-!
# An event that nobody clears

Clients of an event without a call of `clear` use it as a gate.  Whether all of them can finish is
read off their lists at first, and then every run ends so: the event is set, or somebody will set it
before any wait of his own that has no timeout, or there is no such wait at all (`Openable`).  The
condition is an invariant in both directions, because a wait beside the word 0 does not end and
whoever sets the event makes the word nonzero for good (`Closed`).
-/

namespace EventClients

open NamedEvent

variable {ι : Type*}

/-- A wait without a timeout. -/
def blocks : Call → Bool
  | .wait timeoutNs => decide (timeoutNs < 0)
  | _ => false

/-- The timeout fits into `long long`. -/
def Proper : Call → Prop
  | .wait timeoutNs => -2 ^ 63 ≤ timeoutNs ∧ timeoutNs < 2 ^ 63
  | _ => True

instance (f : Call) : Decidable (Proper f) :=
  match f with
  | .wait timeoutNs => inferInstanceAs (Decidable (-2 ^ 63 ≤ timeoutNs ∧ timeoutNs < 2 ^ 63))
  | .set | .clear | .isSet => isTrue trivial

/-- There is a `set`, and no wait without a timeout before it. -/
def opens : List Call → Bool
  | [] => false
  | f :: fs => decide (f = .set) || !blocks f && opens fs

/-- The event is set, or will be, or nobody relies on it. -/
def Openable (word : UInt32) (work : ι → List Call) : Prop :=
  word ≠ 0 ∨ (∃ i, opens (work i) = true) ∨ ∀ i, ∀ f ∈ work i, blocks f = false

/-- Calls that `all_pass_iff` is about. -/
structure Gate (work : ι → List Call) : Prop where
  proper : ∀ i, ∀ f ∈ work i, Proper f
  noClear : ∀ i, .clear ∉ work i

/-- While the word is 0, no client has come to the wake of a `set`, and nobody in a sleep has been
woken. -/
def Closed (c : State ι) : Prop :=
  c.shared.object.word = 0 → ∀ i, (c.locals i).thread.pc ≠ .setWake ∧
    ∀ timed, (c.locals i).thread.pc = .inWait timed → i ∈ c.shared.object.sleepers

/-- What is still to come opens the gate. -/
def State.Openable (c : State ι) : Prop :=
  EventClients.Openable c.shared.object.word fun i => (c.locals i).todo

theorem entry_ne_setWake (f : Call) : f.entry ≠ .setWake := by
  cases f with
  | wait timeoutNs =>
    rw [Call.entry]
    split_ifs <;> simp
  | _ => simp [Call.entry]

theorem entry_ne_inWait (f : Call) (timed : Bool) : f.entry ≠ .inWait timed := by
  cases f with
  | wait timeoutNs =>
    rw [Call.entry]
    split_ifs <;> simp
  | _ => simp [Call.entry]

section Step

variable [DecidableEq ι] {c : State ι} {i : ι} {asleep : Finset (ι × ℕ)} {sh : Shared ι}
  {w : Client ι} {jobs : List Call}

/-- The gate is open before and after the step, or about to be opened. -/
theorem openable_of_word (hword : sh.object.word ≠ 0)
    (hbefore : c.shared.object.word ≠ 0 ∨ opens (c.locals i).todo = true) :
    State.Openable ⟨sh, Function.update c.locals i w⟩ ↔ c.Openable := by
  apply iff_of_true
  · exact .inl hword
  · rcases hbefore with hne | hopens
    · exact .inl hne
    · exact .inr (.inl ⟨i, hopens⟩)

/-- The step leaves the word, and a call that neither opens the gate nor waits for it. -/
theorem openable_of_todo (hword : sh.object.word = c.shared.object.word)
    (hopens : opens w.todo = opens (c.locals i).todo)
    (hblocks : (∀ f ∈ w.todo, blocks f = false) ↔ ∀ f ∈ (c.locals i).todo, blocks f = false) :
    State.Openable ⟨sh, Function.update c.locals i w⟩ ↔ c.Openable := by
  have hall (j : ι) : opens (Function.update c.locals i w j).todo = opens (c.locals j).todo ∧
      ((∀ f ∈ (Function.update c.locals i w j).todo, blocks f = false) ↔
        ∀ f ∈ (c.locals j).todo, blocks f = false) :=
    Config.forall_update (fun j (w : Client ι) => opens w.todo = opens (c.locals j).todo ∧
      ((∀ f ∈ w.todo, blocks f = false) ↔ ∀ f ∈ (c.locals j).todo, blocks f = false))
      ⟨hopens, hblocks⟩ (fun _ _ => ⟨rfl, Iff.rfl⟩) j
  rw [State.Openable, State.Openable, EventClients.Openable, EventClients.Openable]
  apply or_congr
  · exact not_congr (by rw [hword])
  · apply or_congr
    · exact exists_congr fun j => by rw [(hall j).1]
    · exact forall_congr' fun j => (hall j).2

/-- A call of the list that neither opens the gate nor waits for it. -/
theorem openable_of_tail {f : Call} {rest : List Call}
    (hword : sh.object.word = c.shared.object.word)
    (htodo : (c.locals i).todo = f :: rest) (hw : w.todo = rest) (hset : f ≠ .set)
    (hblocks : blocks f = false) :
    State.Openable ⟨sh, Function.update c.locals i w⟩ ↔ c.Openable := by
  apply openable_of_todo hword
  · simp [htodo, hw, opens, hset, hblocks]
  · simp [htodo, hw, hblocks]

/-- Threads other than the one that steps stay in their sleeps. -/
theorem Closed.frame (hC : Closed c) (hword : sh.object.word = 0 → c.shared.object.word = 0)
    (hself : w.thread.pc ≠ .setWake ∧
      ∀ timed, w.thread.pc = .inWait timed → i ∈ sh.object.sleepers)
    (hsleepers : ∀ j, j ≠ i → j ∈ c.shared.object.sleepers → j ∈ sh.object.sleepers) :
    Closed ⟨sh, Function.update c.locals i w⟩ := by
  intro hzero
  apply Config.forall_update (fun j (w : Client ι) => w.thread.pc ≠ .setWake ∧
    ∀ timed, w.thread.pc = .inWait timed → j ∈ sh.object.sleepers) hself
  intro j hj
  obtain ⟨hpc, hsleep⟩ := hC (hword hzero) j
  exact ⟨hpc, fun timed ht => hsleepers j hj (hsleep timed ht)⟩

/-- A step to a nonzero word. -/
theorem gate_of_word (hword : sh.object.word ≠ 0)
    (hbefore : c.shared.object.word ≠ 0 ∨ opens (c.locals i).todo = true) :
    Closed ⟨sh, Function.update c.locals i w⟩ ∧
      (State.Openable ⟨sh, Function.update c.locals i w⟩ ↔ c.Openable) :=
  ⟨fun hzero => absurd hzero hword, openable_of_word hword hbefore⟩

omit [DecidableEq ι] in
theorem runs_inWait {g : Call} {timed : Bool} (h : Runs g (.inWait timed)) :
    ∃ timeoutNs, g = .wait timeoutNs ∧ timed = decide (0 ≤ timeoutNs) := by
  cases g with
  | wait timeoutNs => exact ⟨timeoutNs, rfl, by simpa [Runs] using h⟩
  | _ => simp [Runs] at h

omit [DecidableEq ι] in
theorem todo_of_idle {t : Thread ι} {g : Call} {rest : List Call} (hidle : isIdle t.pc = true)
    (htodo : w.todo = g :: rest) : ((rules ι).resume w t).todo = rest := by
  rw [Clients.Jobs.resume_of_done (R := rules ι) hidle, htodo, List.tail_cons]

omit [DecidableEq ι] in
theorem idle_outside {t : Thread ι} {S : Finset ι} (hidle : isIdle t.pc = true) :
    ((rules ι).resume w t).thread.pc ≠ .setWake ∧
      ∀ timed, ((rules ι).resume w t).thread.pc = .inWait timed → i ∈ S := by
  obtain ⟨r, hr⟩ := exists_of_isIdle hidle
  simp [Clients.Jobs.resume, hr]

/-- What one step does to the gate. -/
theorem gate_step (hI : ClientInv jobs (c.locals i)) (hclear : .clear ∉ jobs) (hC : Closed c)
    (he : Effect i asleep c.shared (c.locals i) sh w) :
    Closed ⟨sh, Function.update c.locals i w⟩ ∧
      (State.Openable ⟨sh, Function.update c.locals i w⟩ ↔ c.Openable) := by
  cases he with
  | call g rest hidle hraised htodo =>
    refine ⟨hC.frame id ⟨?_, fun timed hpc => ?_⟩ fun _ _ => id, openable_of_todo rfl rfl Iff.rfl⟩
    · exact entry_ne_setWake g
    · exact absurd hpc (entry_ne_inWait g timed)
  | access m k f t hm hk hs =>
    obtain ⟨g, hg, hruns⟩ := hI.busy (busy_of_step hm hs)
    obtain ⟨rest, htodo⟩ := List.head?_eq_some_iff.1 hg
    have he := NamedEvent.effect_of_step hs
    -- beside the word 0 nobody has been woken and nobody is about to wake others
    have hset (hne : c.shared.object.word ≠ 0) (hf : f.word = c.shared.object.word) :
        Closed ⟨⟨f, k⟩, Function.update c.locals i ((rules ι).resume (c.locals i) t)⟩ ∧
        (State.Openable ⟨⟨f, k⟩, Function.update c.locals i ((rules ι).resume (c.locals i) t)⟩ ↔
          c.Openable) := gate_of_word (by rw [hf]; exact hne) (.inl hne)
    cases he with
    | call g hpc =>
      obtain ⟨r, hpc⟩ := hpc
      have hbusy := busy_of_step hm hs
      rw [hpc] at hbusy
      cases hbusy
    | set hpc =>
      refine gate_of_word (by simp) (.inr ?_)
      cases g with
      | set => simp [htodo, opens]
      | _ => simp [Runs, hpc] at hruns
    | wake f' who hpc hw =>
      refine hset (fun hzero => (hC hzero i).1 hpc) (Futex.wake_word hw)
    | clear hpc =>
      cases g with
      | clear => exact absurd (hI.suffix.subset (by simp [htodo])) hclear
      | _ => simp [Runs, hpc] at hruns
    | sleep timed _ hpc hword =>
      refine ⟨hC.frame id ⟨by simp [Clients.Jobs.resume, Thread.sleep], fun _ _ => ?_⟩
        fun j _ hj => ?_, openable_of_todo rfl rfl Iff.rfl⟩
      · exact Finset.mem_insert_self _ _
      · exact Finset.mem_insert_of_mem hj
    | leave timed p hpc hin hp =>
      have hsleepers : ∀ j, j ≠ i → j ∈ c.shared.object.sleepers →
          j ∈ c.shared.object.sleepers.erase i := fun j hj => Finset.mem_erase_of_ne_of_mem hj
      obtain ⟨timeoutNs, rfl, htimed⟩ := runs_inWait (hpc ▸ hruns)
      rcases retry_of_leave hm hpc hin hs with ⟨htrue, hidle⟩ | ⟨-, -, hpc'⟩
      · have hnone : blocks (.wait timeoutNs) = false := by
          simp only [blocks, decide_eq_false_iff_not, not_lt]
          exact of_decide_eq_true (htimed.symm.trans htrue)
        refine ⟨hC.frame id (idle_outside hidle) hsleepers, ?_⟩
        exact openable_of_tail rfl htodo (todo_of_idle hidle htodo) (by simp) hnone
      · refine ⟨hC.frame id ⟨by simp [Clients.Jobs.resume, hpc'], fun _ hp => ?_⟩ hsleepers, ?_⟩
        · simp [Clients.Jobs.resume, hpc'] at hp
        · apply openable_of_todo rfl <;> simp [Clients.Jobs.resume, hpc', isIdle]
    | again timed _ hpc hword => exact hset hword rfl
    | woken timed hpc hout => exact hset (fun hzero => hout ((hC hzero i).2 timed hpc)) rfl
    | load b hpc =>
      refine ⟨hC.frame id (idle_outside rfl) fun _ _ => id, ?_⟩
      cases g with
      | isSet => exact openable_of_tail rfl htodo (todo_of_idle rfl htodo) (by simp) rfl
      | _ => simp [Runs, hpc] at hruns

/-- No call raises. -/
theorem returned_step (hI : ClientInv jobs (c.locals i)) (hproper : ∀ f ∈ jobs, Proper f)
    (he : Effect i asleep c.shared (c.locals i) sh w) : raised w.thread.pc = false := by
  cases he with
  | call g rest hidle hraised htodo =>
    have hg := hproper g (hI.suffix.subset (by simp [htodo]))
    change raised g.entry = false
    cases g with
    | wait timeoutNs =>
      have hfits : -2 ^ 63 ≤ timeoutNs ∧ timeoutNs < 2 ^ 63 := hg
      rw [Call.entry, if_pos hfits]
      rfl
    | _ => rfl
  | access m k f t hm hk hs =>
    obtain ⟨g, -, hruns⟩ := hI.busy (busy_of_step hm hs)
    exact (runs_of_effect (NamedEvent.effect_of_step hs) hruns).1

end Step

section Runs

variable [DecidableEq ι] {word₀ : UInt32} {work : ι → List Call} {c : State ι}

/-- The gate stays closed or opens, as the lists say. -/
theorem gate_of_reach (hG : Gate work) (h : (system word₀ work).Reach (fun _ _ => True) c) :
    Closed c ∧ (c.Openable ↔ Openable word₀ work) := by
  apply h.invariant (fun c => Closed c ∧ (c.Openable ↔ Openable word₀ work))
  · intro c hc
    obtain ⟨hfutex, hlocals⟩ : Fresh word₀ work c := hc
    constructor
    · intro _ i
      simp [hlocals, Thread.fresh]
    · rw [State.Openable, hfutex, funext hlocals]
  · intro c a c' hr hinv _ hs
    obtain ⟨hC, hO⟩ := hinv
    have hI := clientInv_of_reach hr a.1
    obtain ⟨sh, w, he, rfl⟩ := effect_of_system_step hs
    obtain ⟨hC', hO'⟩ := gate_step hI (hG.noClear a.1) hC he
    exact ⟨hC', hO'.trans hO⟩

theorem returned_of_reach (hG : Gate work) (h : (system word₀ work).Reach (fun _ _ => True) c) :
    ∀ i, raised (c.locals i).thread.pc = false := by
  apply h.invariant (fun c => ∀ i, raised (c.locals i).thread.pc = false)
  · intro c hc i
    obtain ⟨-, hlocals⟩ : Fresh word₀ work c := hc
    rw [hlocals]
    rfl
  · intro c a c' hr hinv _ hs
    have hI := clientInv_of_reach hr a.1
    obtain ⟨sh, w, he, rfl⟩ := effect_of_system_step hs
    exact Config.forall_update (fun _ (w : Client ι) => raised w.thread.pc = false)
      (returned_step hI (hG.proper a.1) he) fun j _ => hinv j

/-- Where somebody still sleeps at rest, the gate cannot be opened any more. -/
theorem finished_of_rest (hG : Gate work) (hO : Openable word₀ work)
    (h : (system word₀ work).Reach (fun _ _ => True) c) (hrest : AtRest c) : Finished c := by
  have hI := clientInv_of_reach h
  have hreturned := returned_of_reach hG h
  have hover (j : ι) (hj : (c.locals j).Over (interface ι)) :
      (c.locals j).Finished (interface ι) := by
    rcases hj with hraised | ⟨hidle, htodo⟩
    · cases (hreturned j).symm.trans hraised
    · exact ⟨hidle, hreturned j, htodo⟩
  -- a sleeper stands before a wait without a timeout
  have hasleep (j : ι) (hj : (c.locals j).thread.pc = .inWait false) :
      ∃ f rest, (c.locals j).todo = f :: rest ∧ blocks f = true := by
    obtain ⟨f, hf, hruns⟩ := (hI j).busy (by rw [hj]; rfl)
    obtain ⟨rest, htodo⟩ := List.head?_eq_some_iff.1 hf
    obtain ⟨timeoutNs, rfl, htimed⟩ := runs_inWait (hj ▸ hruns)
    exact ⟨_, rest, htodo, by simpa [blocks] using htimed⟩
  intro i
  rcases hrest.stopped i with hi | ⟨hpc, hin⟩
  · exact hover i hi
  · exfalso
    rcases ((gate_of_reach hG h).2.2 hO) with hne | ⟨j, hj⟩ | hnone
    · exact hne (hrest.word ⟨i, hin⟩)
    · rcases hrest.stopped j with hjover | ⟨hjpc, -⟩
      · simp [(hover j hjover).todo, opens] at hj
      · obtain ⟨f, rest, htodo, hblocks⟩ := hasleep j hjpc
        have hset : f ≠ .set := by
          rintro rfl
          cases hblocks
        simp [htodo, opens, hset, hblocks] at hj
    · obtain ⟨f, rest, htodo, hblocks⟩ := hasleep i hpc
      have := hnone i f (by simp [htodo])
      simp [hblocks] at this

/-- Clients that do not clear the event: in every reachable state, all of them can still finish
exactly when the event is set at first, or the list of one of them has a `set` with no wait without
a timeout before it, or there is no such wait at all; and then every run ends so. -/
theorem all_pass_iff [Fintype ι] (hfew : Fintype.card ι < 2 ^ 31) (word₀ : UInt32)
    {work : ι → List Call} (hG : Gate work)
    (h : (system word₀ work).Reach (fun _ _ => True) c) :
    ((∃ c', ((system word₀ work).startAt c).Reach (fun _ _ => True) c' ∧ Finished c') ↔
      Openable word₀ work) ∧
    (Openable word₀ work → (system word₀ work).Inevitable (fun _ _ => True) Finished c) := by
  have hall (hO : Openable word₀ work) :
      (system word₀ work).Inevitable (fun _ _ => True) Finished c :=
    inevitable_of_rest hfew (fun _ hr hrest => finished_of_rest hG hO hr hrest) h
  refine ⟨⟨?_, fun hO => (hall hO).exists_reach⟩, hall⟩
  rintro ⟨c', hr, hdone⟩
  apply (gate_of_reach hG (h.trans hr)).2.1
  refine .inr (.inr fun i f hf => ?_)
  simp [(hdone i).todo] at hf

end Runs

/-- One client opens the gate, after a look at it, and two wait for it, one of them twice. -/
def gateWork : Tid → List Call
  | .a => [.isSet, .set]
  | .b => [.wait (-1), .isSet]
  | .c => [.wait (-1), .wait 5, .wait (-1)]

theorem gate_gateWork : Gate gateWork :=
  ⟨fun i => by cases i <;> decide, fun i => by cases i <;> decide⟩

/-- Both waiters sleep. -/
def waiting : State Tid :=
  (system 0 gateWork).exec (fun _ _ => True) ⟨⟨⟨0, ∅⟩, 0⟩, fun i => ⟨.fresh, gateWork i⟩⟩
    [(.b, .call), (.b, .access .next), (.c, .call), (.c, .access .next), (.a, .call)]

theorem all_pass_iff_waiting :
    waiting.shared.object.sleepers = {.b, .c} ∧
      (system 0 gateWork).Inevitable (fun _ _ => True) Finished waiting :=
  ⟨by decide +kernel, (all_pass_iff (by decide) 0 gate_gateWork
    (.exec _ (.init ⟨rfl, fun _ => rfl⟩))).2 (.inr (.inl ⟨.a, rfl⟩))⟩

end EventClients
