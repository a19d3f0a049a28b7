import PyFastIpc.Lib.Clients
import PyFastIpc.Event.Wakeup
import Mathlib.Algebra.Order.BigOperators.Group.Finset
import Mathlib.Data.List.Infix

/-!
# Clients of the event

A client makes a list of calls, one after the other, until one of them raises.  The clients are
threads of the event of `Event/Model.lean`: `State.event` forgets the lists (`event_reach`).

No call of the event goes round except after a signal, so every run with finitely many signals is
finite, and it ends when each client is done or sleeps without a timeout beside the word 0
(`events_come_to_rest`).
-/

namespace EventClients

open NamedEvent

/-- The last call raised. -/
def raised : Pc → Bool
  | .idle (some .overflow) => true
  | _ => false

def isIdle : Pc → Bool
  | .idle _ => true
  | _ => false

/-- The calls of the event; a signal is a setback. -/
@[simps] def interface (ι : Type*) : Clients.Interface Call (Move ι) (Thread ι) where
  call := .call
  called
    | .call f => some f
    | _ => none
  called_eq_some m f := by cases m <;> simp
  setback
    | .signal => true
    | _ => false
  begin f t := t.begin f
  idle t := isIdle t.pc = true
  raised t := raised t.pc
  idle_of_raised t h := by cases hpc : t.pc <;> simp_all [raised, isIdle]

/-- The event as thread `i` sees it, when the threads and sleeps `asleep` are in the queue. -/
def object {ι : Type*} [DecidableEq ι] (i : ι) (asleep : Finset (ι × ℕ)) :
    Clients.Object (interface ι) (Futex ι) where
  step := NamedEvent.step i asleep
  step_call g f t s := by
    cases hpc : t.pc with
    | idle r => simp [NamedEvent.step, hpc, isIdle, eq_comm]
    | _ => simp [NamedEvent.step, hpc, isIdle]

/-- The jobs are calls, each made once. -/
@[simps] def rules (ι : Type*) : Clients.Jobs Call (Thread ι) Call where
  call := id
  done t := isIdle t.pc

abbrev Client (ι : Type*) := Clients.Client (Thread ι) Call

/-- The word.  At most `setbacks` more sleeps end by a signal. -/
abbrev Shared (ι : Type*) := Clients.Shared (Futex ι)

abbrev Act (ι : Type*) := Clients.Act (Move ι)

variable {ι : Type*}

abbrev State (ι : Type*) := Config ι (Shared ι) (Client ι)

/-- The threads of the clients, without their lists. -/
def State.event (c : State ι) : NamedEvent.State ι :=
  ⟨c.shared.object, fun i => (c.locals i).thread⟩

/-- The clients have their calls before them, and the word is `word₀`. -/
structure Fresh (word₀ : UInt32) (work : ι → List Call) (c : State ι) : Prop where
  word : c.shared.object = ⟨word₀, ∅⟩
  locals : ∀ i, c.locals i = ⟨.fresh, work i⟩

/-- Clients with the calls `work` of one event whose word is `word₀` at first. -/
def system [DecidableEq ι] (word₀ : UInt32) (work : ι → List Call) :
    Transition (State ι) (ι × Act ι) :=
  Clients.system (fun (e : NamedEvent.State ι) i => object i e.asleep)
    ((rules ι).program (interface ι)) (Fresh word₀ work)

/-- The clients have made their calls. -/
def Finished (c : State ι) : Prop := ∀ i, (c.locals i).Finished (interface ι)

/-- Each client is over or sleeps without a timeout, and who sleeps does so beside the word 0. -/
structure AtRest (c : State ι) : Prop where
  stopped : ∀ i, (c.locals i).Over (interface ι) ∨
    (c.locals i).thread.pc = .inWait false ∧ i ∈ c.shared.object.sleepers
  word : c.shared.object.sleepers.Nonempty → c.shared.object.word = 0

/-! ## What one step can do -/

/-- The effects of one step of client `i`. -/
abbrev Effect [DecidableEq ι] (i : ι) (asleep : Finset (ι × ℕ)) (sh : Shared ι) (w : Client ι) :
    Shared ι → Client ι → Prop :=
  Clients.Client.Effect (object i asleep) (rules ι) sh w

theorem exists_of_isIdle {p : Pc} (h : isIdle p = true) : ∃ r, p = .idle r := by
  cases p with
  | idle r => exact ⟨r, rfl⟩
  | _ => cases h

theorem effect_of_system_step [DecidableEq ι] {word₀ : UInt32} {work : ι → List Call}
    {c c' : State ι} {a : ι × Act ι} (hs : (system word₀ work).step c a = some c') :
    ∃ sh w, Effect a.1 c.event.asleep c.shared (c.locals a.1) sh w ∧
      c' = ⟨sh, Function.update c.locals a.1 w⟩ := by
  obtain ⟨sh, w, he, rfl⟩ := Clients.effect_of_system_step hs
  exact ⟨sh, w, he.client, rfl⟩

/-! ## The clients as threads of the event -/

section Runs

variable [DecidableEq ι] {word₀ : UInt32} {work : ι → List Call} {c : State ι}

/-- A run of clients is a run of their threads. -/
theorem event_reach (h : (system word₀ work).Reach (fun _ _ => True) c) :
    NamedEvent.system.Reach (fun _ _ => True) c.event := by
  refine Clients.threads_reach (S := NamedEvent.system) (fun c hc => ⟨?_, fun i => ?_⟩)
    (fun e i m sh t hs => ?_) (fun _ _ _ _ _ => trivial) h
  · exact congrArg Futex.sleepers hc.word
  · exact congrArg Clients.Client.thread (hc.locals i)
  · exact Config.interleave_of_step (fun i => NamedEvent.step i (NamedEvent.State.asleep e)) hs

/-- Fewer than 2^31 clients cannot all sleep out of reach of a `set`. -/
theorem attended_event [Fintype ι] (hfew : Fintype.card ι < 2 ^ 31)
    (h : (system word₀ work).Reach (fun _ _ => True) c) : Attended c.event := by
  have hguard : NamedEvent.system.Reach FewWaiters c.event :=
    (event_reach h).mono fun e _ _ => (Finset.card_le_univ e.shared.sleepers).trans_lt hfew
  exact (attended_of_reach hguard).1

end Runs

/-! ## The list of a client -/

/-- The program points of a call. -/
def Runs : Call → Pc → Prop
  | .set, p => p = .setStore ∨ p = .setWake
  | .clear, p => p = .clearStore
  | .wait timeoutNs, p =>
    p = .futexWait (decide (0 ≤ timeoutNs)) ∨ p = .inWait (decide (0 ≤ timeoutNs))
  | .isSet, p => p = .load

/-- A client is outside its calls or in the first one of its list, which is what is left of all its
calls. -/
structure ClientInv (jobs : List Call) (w : Client ι) : Prop where
  suffix : w.todo <:+ jobs
  busy : isIdle w.thread.pc = false → ∃ f, w.todo.head? = some f ∧ Runs f w.thread.pc

section Inv

variable [DecidableEq ι] {i : ι} {asleep : Finset (ι × ℕ)} {sh sh' : Shared ι} {w w' : Client ι}
  {jobs : List Call} {m : Move ι} {f f' : Futex ι} {t t' : Thread ι}

theorem runs_entry (g : Call) : isIdle g.entry = false → Runs g g.entry := by
  cases g with
  | wait timeoutNs =>
    rw [Call.entry]
    split_ifs
    · exact fun _ => .inl rfl
    · exact fun h => by cases h
  | set => exact fun _ => .inl rfl
  | clear | isSet => exact fun _ => rfl

omit [DecidableEq ι] in
theorem busy_of_step [DecidableEq ι] (hm : ∀ g, m ≠ .call g)
    (hs : NamedEvent.step i asleep m f t = some (f', t')) : isIdle t.pc = false := by
  cases hpc : t.pc with
  | idle r =>
    cases m with
    | call g => exact absurd rfl (hm g)
    | _ => simp [NamedEvent.step, next, hpc] at hs
  | _ => rfl

/-- A step of a call goes on with it, or ends it. -/
theorem runs_of_effect (he : NamedEvent.Effect i asleep m f t f' t') {g : Call} (hr : Runs g t.pc) :
    raised t'.pc = false ∧ (isIdle t'.pc = false → Runs g t'.pc) := by
  cases he with
  | call f hpc =>
    obtain ⟨r, hpc⟩ := hpc
    cases g <;> simp [Runs, hpc] at hr
  | set hpc =>
    cases g with
    | set => exact ⟨rfl, fun _ => .inr rfl⟩
    | _ => simp [Runs, hpc] at hr
  | sleep timed hm hpc hword =>
    cases g with
    | wait timeoutNs =>
      obtain rfl : timed = decide (0 ≤ timeoutNs) := by simpa [Runs, hpc] using hr
      exact ⟨rfl, fun _ => .inr rfl⟩
    | _ => simp [Runs, hpc] at hr
  | leave timed p hpc hin hp =>
    cases g with
    | wait timeoutNs =>
      obtain rfl : timed = decide (0 ≤ timeoutNs) := by simpa [Runs, hpc] using hr
      rcases hp with rfl | rfl
      · exact ⟨rfl, fun h => by cases h⟩
      · exact ⟨rfl, fun _ => .inl rfl⟩
    | _ => simp [Runs, hpc] at hr
  | wake f' who hpc hs | clear hpc | again timed hm hpc hword | woken timed hpc hout | load b hpc =>
    exact ⟨rfl, fun h => by cases h⟩

theorem ClientInv.step (hI : ClientInv jobs w) (he : Effect i asleep sh w sh' w') :
    ClientInv jobs w' := by
  cases he with
  | call f rest hidle hraised htodo =>
    exact ⟨hI.suffix, fun hbusy => ⟨f, by simp [htodo], runs_entry f hbusy⟩⟩
  | access m k f t hm hk hs =>
    have he := NamedEvent.effect_of_step hs
    refine ⟨?_, fun hbusy => ?_⟩
    · exact (Clients.Jobs.resume_todo_suffix w t).trans hI.suffix
    · have hdone : (rules ι).done t = false := hbusy
      have htodo : ((rules ι).resume w t).todo = w.todo := by
        rw [Clients.Jobs.resume_of_not_done hdone]
      obtain ⟨g, hg, hr⟩ := hI.busy (busy_of_step hm hs)
      exact ⟨g, htodo ▸ hg, (runs_of_effect he hr).2 hbusy⟩

end Inv

theorem clientInv_of_reach [DecidableEq ι] {word₀ : UInt32} {work : ι → List Call} {c : State ι}
    (h : (system word₀ work).Reach (fun _ _ => True) c) : ∀ i, ClientInv (work i) (c.locals i) := by
  apply h.invariant (fun c => ∀ i, ClientInv (work i) (c.locals i))
  · intro c hc i
    obtain ⟨-, hlocals⟩ : Fresh word₀ work c := hc
    rw [hlocals]
    exact ⟨List.suffix_rfl, fun hbusy => by cases hbusy⟩
  · intro c a c' _ hI _ hs
    obtain ⟨sh, w, he, rfl⟩ := effect_of_system_step hs
    exact Config.forall_update (fun i w => ClientInv (work i) w) ((hI a.1).step he) fun j _ => hI j

/-! ## Coming to rest -/

/-- A bound on the steps of a call, when no signal comes. -/
def pcLeft : Pc → ℕ
  | .idle _ => 0
  | .setStore | .futexWait _ => 2
  | .setWake | .clearStore | .inWait _ | .load => 1

/-- A bound on the steps that the client makes. -/
def Client.left (w : Client ι) : ℕ :=
  if raised w.thread.pc then 0
  else if isIdle w.thread.pc then 3 * w.todo.length
  else pcLeft w.thread.pc + 3 * w.todo.tail.length

/-- The measure of a run. -/
def State.measure [Fintype ι] (c : State ι) : ℕ :=
  2 * c.shared.setbacks + ∑ i, (c.locals i).left

section Measure

variable [DecidableEq ι] {i : ι} {asleep : Finset (ι × ℕ)} {sh sh' : Shared ι} {w w' : Client ι}
  {jobs : List Call} {m : Move ι} {f f' : Futex ι} {t t' : Thread ι}

omit [DecidableEq ι] in
theorem pcLeft_le (p : Pc) : pcLeft p ≤ 2 := by cases p <;> simp [pcLeft]

omit [DecidableEq ι] in
theorem pcLeft_pos {p : Pc} (h : isIdle p = false) : 0 < pcLeft p := by
  cases p <;> simp_all [pcLeft, isIdle]

omit [DecidableEq ι] in
theorem raised_of_busy {p : Pc} (h : isIdle p = false) : raised p = false := by
  cases p <;> simp_all [raised, isIdle]

omit [DecidableEq ι] in
/-- A call that ends at once has raised. -/
theorem raised_of_idle_entry {g : Call} (h : isIdle g.entry = true) : raised g.entry = true := by
  cases g with
  | wait timeoutNs =>
    rw [Call.entry] at h ⊢
    split_ifs at h ⊢
    · cases h
    · rfl
  | set | clear | isSet => cases h

/-- A sleep that ends before it is woken ends the call, or is begun again after a signal. -/
theorem retry_of_leave {timed : Bool} (hm : ∀ g, m ≠ .call g) (hpc : t.pc = .inWait timed)
    (hin : i ∈ f.sleepers) (hs : NamedEvent.step i asleep m f t = some (f', t')) :
    timed = true ∧ isIdle t'.pc = true ∨
      timed = false ∧ m = .signal ∧ t'.pc = .futexWait false := by
  cases m with
  | call g => exact absurd rfl (hm g)
  | next => simp [NamedEvent.step, next, hpc, hin] at hs
  | wake who => simp [NamedEvent.step, hpc] at hs
  | timeout =>
    simp only [NamedEvent.step, hpc] at hs
    split_ifs at hs with htimed
    obtain ⟨g, -, heq⟩ := Option.map_eq_some_iff.1 hs
    obtain ⟨-, rfl⟩ := Prod.mk.inj heq
    exact .inl ⟨htimed, rfl⟩
  | signal =>
    simp only [NamedEvent.step, hpc] at hs
    obtain ⟨g, -, heq⟩ := Option.map_eq_some_iff.1 hs
    obtain ⟨-, rfl⟩ := Prod.mk.inj heq
    cases timed with
    | true => exact .inl ⟨rfl, rfl⟩
    | false => exact .inr ⟨rfl, rfl, rfl⟩

/-- A step of a call ends it or brings it closer to its end, unless it is a signal. -/
theorem pcLeft_of_step (hm : ∀ g, m ≠ .call g)
    (hs : NamedEvent.step i asleep m f t = some (f', t')) :
    isIdle t'.pc = true ∨ pcLeft t'.pc < pcLeft t.pc ∨
      m = .signal ∧ pcLeft t'.pc ≤ pcLeft t.pc + 1 := by
  have he := NamedEvent.effect_of_step hs
  cases he with
  | call g hpc =>
    obtain ⟨r, hpc⟩ := hpc
    have hbusy := busy_of_step hm hs
    rw [hpc] at hbusy
    cases hbusy
  | set hpc => exact .inr (.inl (by simp [hpc, Thread.catching, pcLeft]))
  | sleep timed _ hpc hword => exact .inr (.inl (by simp [hpc, Thread.sleep, pcLeft]))
  | leave timed p hpc hin hp =>
    rcases retry_of_leave hm hpc hin hs with ⟨-, hidle⟩ | ⟨-, hsignal, hpc'⟩
    · exact .inl hidle
    · exact .inr (.inr ⟨hsignal, by rw [hpc', hpc]; rfl⟩)
  | wake g who hpc _ | clear hpc | again timed _ hpc hword | woken timed hpc hout | load b hpc =>
    exact .inl rfl

/-- A step of a client makes what it has left smaller, or uses up a signal. -/
theorem Client.left_of_effect (hI : ClientInv jobs w) (he : Effect i asleep sh w sh' w') :
    2 * sh'.setbacks + w'.left < 2 * sh.setbacks + w.left := by
  cases he with
  | call g rest hidle hraised htodo =>
    have hbefore : w.left = 3 * (rest.length + 1) := by
      simp only [interface_idle, interface_raised] at hidle hraised
      simp [Client.left, hraised, hidle, htodo]
    have hafter : Client.left ⟨w.thread.begin g, w.todo⟩ ≤ 2 + 3 * rest.length := by
      have hle := pcLeft_le g.entry
      change (if raised g.entry then 0 else if isIdle g.entry then 3 * w.todo.length
        else pcLeft g.entry + 3 * w.todo.tail.length) ≤ _
      split_ifs with hr hi
      · exact Nat.zero_le _
      · exact absurd (raised_of_idle_entry hi) hr
      · rw [htodo, List.tail_cons]
        omega
    change 2 * sh.setbacks + Client.left ⟨w.thread.begin g, w.todo⟩ < _
    omega
  | access m k f t hm hk hs =>
    have hbusy := busy_of_step hm hs
    obtain ⟨g, hg, hruns⟩ := hI.busy hbusy
    obtain ⟨rest, htodo⟩ := List.head?_eq_some_iff.1 hg
    have hleft : w.left = pcLeft w.thread.pc + 3 * rest.length := by
      simp [Client.left, raised_of_busy hbusy, hbusy, htodo]
    have hpos := pcLeft_pos hbusy
    have hnot := (runs_of_effect (NamedEvent.effect_of_step hs) hruns).1
    have hafter : Client.left ((rules ι).resume w t) =
        if isIdle t.pc then 3 * rest.length else pcLeft t.pc + 3 * rest.length := by
      simp only [Client.left, Clients.Jobs.resume, rules, hnot, htodo, Bool.false_eq_true, if_false]
      split_ifs <;> rfl
    rw [hleft, hafter]
    dsimp only
    rcases pcLeft_of_step hm hs with hidle | hless | ⟨hsignal, hle⟩
    · rw [if_pos hidle]
      omega
    · split_ifs <;> omega
    · subst hsignal
      have hk' := hk.resolve_left fun h => (by cases h.1)
      split_ifs <;> omega

end Measure

section Rest

variable [DecidableEq ι]

/-- A thread inside a call can go on, unless it sleeps without a timeout. -/
theorem exists_step_of_busy {i : ι} (asleep : Finset (ι × ℕ)) {f : Futex ι} {t : Thread ι}
    (hbusy : isIdle t.pc = false) (hawake : ¬ (t.pc = .inWait false ∧ i ∈ f.sleepers)) :
    ∃ m s, (∀ g, m ≠ .call g) ∧ (interface ι).setback m = false ∧
      NamedEvent.step i asleep m f t = some s := by
  cases hpc : t.pc with
  | idle r => simp [hpc, isIdle] at hbusy
  | setWake =>
    obtain ⟨who, hsub, hcard⟩ :=
      Finset.exists_subset_card_eq (min_le_right wakeAll f.sleepers.card)
    have hwake : f.wake wakeAll who = some _ := if_pos ⟨hsub, hcard⟩
    exact ⟨.wake who, _, by simp, rfl, by simp only [NamedEvent.step, hpc, hwake]; rfl⟩
  | inWait timed =>
    by_cases hin : i ∈ f.sleepers
    · have htimed : timed = true := by
        rw [← Bool.not_eq_false]
        rintro rfl
        exact hawake ⟨hpc, hin⟩
      have hleave : f.leave i = some _ := if_pos hin
      exact ⟨.timeout, _, by simp, rfl, by
        simp only [NamedEvent.step, hpc, htimed, if_true, hleave]
        rfl⟩
    · exact ⟨.next, _, by simp, rfl, by
        simp only [NamedEvent.step, next, hpc, if_neg hin]
        rfl⟩
  | futexWait timed =>
    refine ⟨.next, ?_⟩
    simp only [NamedEvent.step, next, hpc]
    split <;> exact ⟨_, by simp, rfl, rfl⟩
  | setStore | clearStore | load =>
    exact ⟨.next, _, by simp, rfl, by
      simp only [NamedEvent.step, next, hpc]
      rfl⟩

variable {word₀ : UInt32} {work : ι → List Call} {c : State ι} [Fintype ι]

/-- Who stands still beside a nonzero word would have been woken. -/
theorem atRest_of_stopped (hfew : Fintype.card ι < 2 ^ 31)
    (h : (system word₀ work).Reach (fun _ _ => True) c)
    (hstop : ∀ i, (c.locals i).Over (interface ι) ∨
      (c.locals i).thread.pc = .inWait false ∧ i ∈ c.shared.object.sleepers) : AtRest c := by
  refine ⟨hstop, fun hsleep => ?_⟩
  by_contra hne
  rcases attended_event hfew h hne with hempty | ⟨i, hi⟩
  · exact hsleep.ne_empty hempty
  · change (c.locals i).thread.pc = .setWake at hi
    rcases hstop i with (hraised | ⟨hidle, -⟩) | ⟨hpc, -⟩
    · simp [hi, raised] at hraised
    · simp [hi, isIdle] at hidle
    · simp [hi] at hpc

/-- What holds of the clients whenever they are at rest cannot be avoided. -/
theorem inevitable_of_rest (hfew : Fintype.card ι < 2 ^ 31) {Done : State ι → Prop}
    (hdone : ∀ c, (system word₀ work).Reach (fun _ _ => True) c → AtRest c → Done c)
    (h : (system word₀ work).Reach (fun _ _ => True) c) :
    (system word₀ work).Inevitable (fun _ _ => True) Done c := by
  apply Transition.Inevitable.measure
    (fun c => (system word₀ work).Reach (fun _ _ => True) c) State.measure ?_ ?_ h
  · intro c hr hmoving
    obtain ⟨i, hi⟩ := not_forall.1 fun hstop =>
      hmoving (hdone c hr (atRest_of_stopped hfew hr hstop))
    obtain ⟨hover, hawake⟩ := not_or.1 hi
    obtain ⟨act, s, hs⟩ := Clients.exists_step_of_not_over (O := object i c.event.asleep)
      (R := rules ι) hover fun hbusy => exists_step_of_busy _ (by simpa using hbusy) hawake
    exact ⟨(i, act), _, trivial, Config.interleave_of_step (fun i => Clients.step _ _) hs⟩
  · intro c a c' hr _ _ hs
    refine ⟨.step a hr trivial hs, ?_⟩
    have hI := clientInv_of_reach hr a.1
    obtain ⟨sh, w, he, rfl⟩ := effect_of_system_step hs
    have hless := Client.left_of_effect hI he
    have hsum := Config.sum_update c.locals a.1 w Client.left
    unfold State.measure
    dsimp only
    omega

/-- Every run of clients of an event is finite, whatever they call, and it ends when each of them
has made its calls, has raised or sleeps without a timeout beside the word 0. -/
theorem events_come_to_rest (hfew : Fintype.card ι < 2 ^ 31) (word₀ : UInt32)
    (work : ι → List Call) {c : State ι} (h : (system word₀ work).Reach (fun _ _ => True) c) :
    (system word₀ work).Inevitable (fun _ _ => True) AtRest c :=
  inevitable_of_rest hfew (fun _ _ hrest => hrest) h

end Rest

/-- One client sets and clears the event, and two wait for it. -/
def pulse : Tid → List Call
  | .a => [.set, .clear]
  | .b => [.wait (-1)]
  | .c => [.wait (-1), .isSet]

/-- The event was set and cleared while one of the waiters slept, and then the other one fell
asleep. -/
def missed : State Tid :=
  (system 0 pulse).exec (fun _ _ => True) ⟨⟨⟨0, ∅⟩, 0⟩, fun i => ⟨.fresh, pulse i⟩⟩
    [(.b, .call), (.b, .access .next), (.a, .call), (.a, .access .next), (.a, .access (.wake {.b})),
      (.a, .call), (.a, .access .next), (.c, .call), (.c, .access .next)]

theorem events_come_to_rest_missed :
    missed.shared.object.sleepers = {.c} ∧
      (system 0 pulse).Inevitable (fun _ _ => True) AtRest missed :=
  ⟨by decide +kernel,
    events_come_to_rest (by decide) 0 pulse (.exec _ (.init ⟨rfl, fun _ => rfl⟩))⟩

end EventClients
