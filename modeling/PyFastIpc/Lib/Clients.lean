import PyFastIpc.Lib.Threads

/-!
# Clients of a shared object

Threads call the operations of an object that they share, and a call takes several atomic steps.
An `Interface` says how calls begin and end, and an `Object` what the steps do.  A client is a
thread with a `Program`, which says what it calls next; an atomic step of a client begins this call
or goes on with the last one.  Some moves are setbacks (a swap that fails at random, a sleep that is
cut short), and there is a budget for them.

`Effect` has the effects of a step, and `threads` forgets the programs: a step of a client is a step
of its thread (`Effect.object_step`).  The program of a `Client` is a list of jobs, each of which is
called for until a call has done it; an exception ends it.
-/

namespace Clients

/-- How threads call the operations of an object: `F` are the calls and `M` the moves of a
thread. -/
structure Interface (F M Th : Type*) where
  /-- The move that begins a call. -/
  call : F → M
  called : M → Option F
  called_eq_some : ∀ m f, called m = some f ↔ m = call f
  /-- The move fails at random, or cuts a sleep short. -/
  setback : M → Bool
  begin : F → Th → Th
  /-- The thread is in no call. -/
  idle : Th → Prop
  /-- The last call raised. -/
  raised : Th → Bool
  idle_of_raised : ∀ t, raised t = true → idle t

variable {F M Th Sh W J : Type*} {I : Interface F M Th}

/-- The steps of the operations on an object with states `Sh`. -/
structure Object (I : Interface F M Th) (Sh : Type*) where
  step : M → Sh → Th → Option (Sh × Th)
  step_call : ∀ f o t s, step (I.call f) o t = some s ↔ I.idle t ∧ s = (o, I.begin f t)

/-- The clients of type `W`: the thread of a client, the next call with what becomes of the client,
and what a step of a call makes of it. -/
structure Program (F Th W : Type*) where
  thread : W → Th
  next : W → Option (F × (Th → W))
  resume : W → Th → W
  thread_next : ∀ w f g, next w = some (f, g) → ∀ t, thread (g t) = t
  thread_resume : ∀ w t, thread (resume w t) = t

/-- The object, and the number of setbacks that may still happen. -/
structure Shared (Sh : Type*) where
  object : Sh
  setbacks : ℕ

inductive Act (M : Type*) where
  /-- The client makes its next call. -/
  | call
  /-- A step of the call. -/
  | access (m : M)
  deriving DecidableEq

/-- The setbacks that are left after a step. -/
def Interface.spend (I : Interface F M Th) (m : M) (k : ℕ) : Option ℕ :=
  match I.setback m, k with
  | false, k => some k
  | true, k + 1 => some k
  | true, 0 => none

/-- One atomic step of a client. -/
def step (O : Object I Sh) (P : Program F Th W) (act : Act M) (sh : Shared Sh) (w : W) :
    Option (Shared Sh × W) :=
  match act with
  | .call => (P.next w).bind fun n =>
      (O.step (I.call n.1) sh.object (P.thread w)).map fun r =>
        ({ sh with object := r.1 }, n.2 r.2)
  | .access m =>
    if (I.called m).isSome then none
    else (I.spend m sh.setbacks).bind fun k =>
      (O.step m sh.object (P.thread w)).map fun r => (⟨r.1, k⟩, P.resume w r.2)

/-- The effects of one step. -/
inductive Effect (O : Object I Sh) (P : Program F Th W) (sh : Shared Sh) (w : W) :
    Shared Sh → W → Prop
  | call (f : F) (g : Th → W) (hidle : I.idle (P.thread w)) (hnext : P.next w = some (f, g)) :
      Effect O P sh w sh (g (I.begin f (P.thread w)))
  | access (m : M) (k : ℕ) (o : Sh) (t : Th) (hm : ∀ f, m ≠ I.call f)
      (hk : I.setback m = false ∧ k = sh.setbacks ∨ I.setback m = true ∧ k + 1 = sh.setbacks)
      (hs : O.step m sh.object (P.thread w) = some (o, t)) :
      Effect O P sh w ⟨o, k⟩ (P.resume w t)

section Step

variable {O : Object I Sh} {P : Program F Th W} {act : Act M} {sh sh' : Shared Sh} {w w' : W}

theorem Interface.called_eq_none {m : M} : (I.called m).isSome = false ↔ ∀ f, m ≠ I.call f := by
  rw [Option.isSome_eq_false_iff, Option.isNone_iff_eq_none, Option.eq_none_iff_forall_ne_some]
  exact forall_congr' fun f => not_congr (I.called_eq_some m f)

theorem spend_eq_some {m : M} {k k' : ℕ} (h : I.spend m k = some k') :
    I.setback m = false ∧ k' = k ∨ I.setback m = true ∧ k' + 1 = k := by
  unfold Interface.spend at h
  split at h
  next hm => exact .inl ⟨hm, (Option.some.inj h).symm⟩
  next hm => exact .inr ⟨hm, congrArg (· + 1) (Option.some.inj h).symm⟩
  next => cases h

theorem effect_of_step (hs : step O P act sh w = some (sh', w')) : Effect O P sh w sh' w' := by
  cases act with
  | call =>
    obtain ⟨⟨f, g⟩, hnext, hs⟩ := Option.bind_eq_some_iff.1 hs
    obtain ⟨r, hcall, heq⟩ := Option.map_eq_some_iff.1 hs
    obtain ⟨hidle, rfl⟩ := (O.step_call f sh.object (P.thread w) r).1 hcall
    obtain ⟨rfl, rfl⟩ := Prod.mk.inj heq
    exact .call f g hidle hnext
  | access m =>
    simp only [step] at hs
    split_ifs at hs with hm
    obtain ⟨k, hk, hs⟩ := Option.bind_eq_some_iff.1 hs
    obtain ⟨⟨o, t⟩, hstep, heq⟩ := Option.map_eq_some_iff.1 hs
    obtain ⟨rfl, rfl⟩ := Prod.mk.inj heq
    exact .access m k o t (Interface.called_eq_none.1 (by simpa using hm)) (spend_eq_some hk) hstep

theorem step_call {f : F} {g : Th → W} (hidle : I.idle (P.thread w))
    (hnext : P.next w = some (f, g)) :
    step O P .call sh w = some (sh, g (I.begin f (P.thread w))) := by
  have hcall := (O.step_call f sh.object (P.thread w) _).2 ⟨hidle, rfl⟩
  simp only [step, hnext, Option.bind_some, hcall, Option.map_some]

/-- A step of a call that is no setback. -/
theorem step_access {m : M} {o : Sh} {t : Th} (hm : ∀ f, m ≠ I.call f)
    (hset : I.setback m = false) (hs : O.step m sh.object (P.thread w) = some (o, t)) :
    step O P (.access m) sh w = some (⟨o, sh.setbacks⟩, P.resume w t) := by
  have hspend : I.spend m sh.setbacks = some sh.setbacks := by
    unfold Interface.spend
    rw [hset]
  simp only [step, Interface.called_eq_none.2 hm, hspend, hs]
  rfl

/-- A step of a client is a step of its thread, and a call is the one that its program has next. -/
theorem Effect.object_step (he : Effect O P sh w sh' w') :
    ∃ m, O.step m sh.object (P.thread w) = some (sh'.object, P.thread w') ∧
      ∀ f, m = I.call f → ∃ g, P.next w = some (f, g) := by
  cases he with
  | call f g hidle hnext =>
    refine ⟨I.call f, ?_, fun f' hf => ⟨g, ?_⟩⟩
    · rw [P.thread_next w f g hnext]
      exact (O.step_call f sh.object (P.thread w) _).2 ⟨hidle, rfl⟩
    · have hcalled := (I.called_eq_some _ f').2 hf
      rw [(I.called_eq_some _ f).2 rfl] at hcalled
      rw [hnext, Option.some.inj hcalled]
  | access m k o t hm hk hs =>
    refine ⟨m, ?_, fun f hf => absurd hf (hm f)⟩
    rwa [P.thread_resume]

end Step

/-! ## Systems of clients -/

section System

variable {ι : Type*} [DecidableEq ι]

/-- The threads of the clients, without their programs. -/
def threads (P : Program F Th W) (c : Config ι (Shared Sh) W) : Config ι Sh Th :=
  ⟨c.shared.object, fun i => P.thread (c.locals i)⟩

/-- Clients of one object, which client `i` may see by its own steps in each state of the
threads. -/
def system (O : Config ι Sh Th → ι → Object I Sh) (P : Program F Th W)
    (Init : Config ι (Shared Sh) W → Prop) : Transition (Config ι (Shared Sh) W) (ι × Act M) where
  Init := Init
  step c := Config.interleave (fun i => step (O (threads P c) i) P) c

variable {O : Config ι Sh Th → ι → Object I Sh} {P : Program F Th W}
  {Init : Config ι (Shared Sh) W → Prop} {c c' : Config ι (Shared Sh) W}
  {ok : Config ι (Shared Sh) W → ι × Act M → Prop}

theorem threads_update (sh : Shared Sh) (l : ι → W) (i : ι) (w : W) :
    threads P ⟨sh, Function.update l i w⟩ =
      ⟨sh.object, Function.update (fun j => P.thread (l j)) i (P.thread w)⟩ :=
  congrArg (Config.mk sh.object)
    (funext fun j => Function.apply_update (fun _ => P.thread) l i w j)

theorem effect_of_system_step {a : ι × Act M} (hs : (system O P Init).step c a = some c') :
    ∃ sh w, Effect (O (threads P c) a.1) P c.shared (c.locals a.1) sh w ∧
      c' = ⟨sh, Function.update c.locals a.1 w⟩ := by
  change Config.interleave (fun i => step (O (threads P c) i) P) c a = some c' at hs
  obtain ⟨sh, w, hstep, rfl⟩ := Config.interleave_eq_some hs
  exact ⟨sh, w, effect_of_step hstep, rfl⟩

/-- A run of clients is a run of their threads, whose calls are those of the programs. -/
theorem threads_reach {S : Transition (Config ι Sh Th) (ι × M)}
    {ok' : Config ι Sh Th → ι × M → Prop} (hinit : ∀ c, Init c → S.Init (threads P c))
    (hstep : ∀ (e : Config ι Sh Th) i m sh t, (O e i).step m e.shared (e.locals i) = some (sh, t) →
      S.step e (i, m) = some ⟨sh, Function.update e.locals i t⟩)
    (hok : ∀ c, (system O P Init).Reach ok c → ∀ i m,
      (∀ f, m = I.call f → ∃ g, P.next (c.locals i) = some (f, g)) → ok' (threads P c) (i, m))
    (h : (system O P Init).Reach ok c) : S.Reach ok' (threads P c) := by
  induction h with
  | init hc => exact .init (hinit _ hc)
  | @step c c' a hr _ hs ih =>
    obtain ⟨sh, w, he, rfl⟩ := effect_of_system_step hs
    obtain ⟨m, hm, hcall⟩ := he.object_step
    rw [threads_update]
    exact .step (a.1, m) ih (hok _ hr _ _ hcall) (hstep _ _ _ _ _ hm)

end System

/-! ## Lists of jobs -/

structure Client (Th J : Type*) where
  thread : Th
  todo : List J

/-- The call for a job, and whether a call has ended with its job done. -/
structure Jobs (F Th J : Type*) where
  call : J → F
  done : Th → Bool

/-- The client after a step of its call. -/
def Jobs.resume (R : Jobs F Th J) (w : Client Th J) (t : Th) : Client Th J :=
  ⟨t, if R.done t then w.todo.tail else w.todo⟩

/-- The next call is for the first job of the list. -/
def Jobs.program (R : Jobs F Th J) (I : Interface F M Th) : Program F Th (Client Th J) where
  thread := Client.thread
  next w :=
    if I.raised w.thread then none
    else w.todo.head?.map fun job => (R.call job, fun t => { w with thread := t })
  resume := R.resume
  thread_next w f g h t := by
    split_ifs at h
    obtain ⟨job, -, heq⟩ := Option.map_eq_some_iff.1 h
    obtain ⟨-, rfl⟩ := Prod.mk.inj heq
    rfl
  thread_resume _ _ := rfl

/-- The client has nothing more to do, or has raised. -/
def Client.Over (I : Interface F M Th) (w : Client Th J) : Prop :=
  I.raised w.thread = true ∨ I.idle w.thread ∧ w.todo = []

theorem Client.Over.idle {w : Client Th J} (h : w.Over I) : I.idle w.thread := by
  rcases h with hraised | ⟨hidle, -⟩
  · exact I.idle_of_raised _ hraised
  · exact hidle

/-- The client has done its jobs. -/
structure Client.Finished (I : Interface F M Th) (w : Client Th J) : Prop where
  idle : I.idle w.thread
  returned : I.raised w.thread = false
  todo : w.todo = []

/-- The effects of one step of a client with a list. -/
inductive Client.Effect (O : Object I Sh) (R : Jobs F Th J) (sh : Shared Sh) (w : Client Th J) :
    Shared Sh → Client Th J → Prop
  | call (job : J) (rest : List J) (hidle : I.idle w.thread) (hraised : I.raised w.thread = false)
      (htodo : w.todo = job :: rest) :
      Effect O R sh w sh { w with thread := I.begin (R.call job) w.thread }
  | access (m : M) (k : ℕ) (o : Sh) (t : Th) (hm : ∀ f, m ≠ I.call f)
      (hk : I.setback m = false ∧ k = sh.setbacks ∨ I.setback m = true ∧ k + 1 = sh.setbacks)
      (hs : O.step m sh.object w.thread = some (o, t)) :
      Effect O R sh w ⟨o, k⟩ (R.resume w t)

section Lists

variable {O : Object I Sh} {R : Jobs F Th J} {sh sh' : Shared Sh} {w w' : Client Th J}

theorem Jobs.next_eq_some {f : F} {g : Th → Client Th J}
    (h : (R.program I).next w = some (f, g)) :
    ∃ job rest, I.raised w.thread = false ∧ w.todo = job :: rest ∧ f = R.call job ∧
      g = fun t => { w with thread := t } := by
  simp only [Jobs.program] at h
  split_ifs at h with hraised
  obtain ⟨job, hjob, heq⟩ := Option.map_eq_some_iff.1 h
  obtain ⟨rest, htodo⟩ := List.head?_eq_some_iff.1 hjob
  obtain ⟨rfl, rfl⟩ := Prod.mk.inj heq
  exact ⟨job, rest, by simpa using hraised, htodo, rfl, rfl⟩

theorem Effect.client (he : Effect O (R.program I) sh w sh' w') :
    Client.Effect O R sh w sh' w' := by
  cases he with
  | call f g hidle hnext =>
    obtain ⟨job, rest, hraised, htodo, rfl, rfl⟩ := Jobs.next_eq_some hnext
    exact .call job rest hidle hraised htodo
  | access m k o t hm hk hs => exact .access m k o t hm hk hs

theorem Jobs.resume_of_done {t : Th} (h : R.done t = true) : R.resume w t = ⟨t, w.todo.tail⟩ := by
  rw [Jobs.resume, if_pos h]

theorem Jobs.resume_of_not_done {t : Th} (h : R.done t = false) : R.resume w t = ⟨t, w.todo⟩ := by
  rw [Jobs.resume, h, if_neg Bool.false_ne_true]

theorem Jobs.resume_todo_suffix (w : Client Th J) (t : Th) : (R.resume w t).todo <:+ w.todo := by
  unfold Jobs.resume
  split_ifs
  · exact List.tail_suffix _
  · exact List.suffix_rfl

theorem Client.Effect.todo_suffix (he : Client.Effect O R sh w sh' w') : w'.todo <:+ w.todo := by
  cases he with
  | call job rest hidle hraised htodo => exact List.suffix_rfl
  | access m k o t hm hk hs => exact Jobs.resume_todo_suffix w t

/-- A client that is not over can go on if its thread can where it is in a call. -/
theorem exists_step_of_not_over (hover : ¬ w.Over I)
    (hbusy : ¬ I.idle w.thread → ∃ m s, (∀ f, m ≠ I.call f) ∧ I.setback m = false ∧
      O.step m sh.object w.thread = some s) :
    ∃ act s, step O (R.program I) act sh w = some s := by
  rw [Client.Over, not_or, not_and, Bool.not_eq_true] at hover
  by_cases hidle : I.idle w.thread
  · obtain ⟨job, rest, hjob⟩ := List.exists_cons_of_ne_nil (hover.2 hidle)
    have hnext : (R.program I).next w = some (R.call job, fun t => { w with thread := t }) := by
      simp [Jobs.program, hover.1, hjob]
    exact ⟨.call, _, step_call hidle hnext⟩
  · obtain ⟨m, ⟨o, t⟩, hm, hset, hs⟩ := hbusy hidle
    exact ⟨.access m, _, step_access hm hset hs⟩

end Lists

/-- What is left of a list is an end of it. -/
theorem todo_suffix {ι : Type*} [DecidableEq ι] {O : Config ι Sh Th → ι → Object I Sh}
    {R : Jobs F Th J} {Init : Config ι (Shared Sh) (Client Th J) → Prop}
    {ok : Config ι (Shared Sh) (Client Th J) → ι × Act M → Prop} {work : ι → List J}
    {c : Config ι (Shared Sh) (Client Th J)}
    (hinit : ∀ c, Init c → ∀ i, (c.locals i).todo = work i)
    (h : (system O (R.program I) Init).Reach ok c) (i : ι) : (c.locals i).todo <:+ work i := by
  refine h.invariant (fun c => ∀ i, (c.locals i).todo <:+ work i) (fun c hc i => ?_)
    (fun c a c' _ hI _ hs => ?_) i
  · rw [hinit c hc i]
  · obtain ⟨sh, w, he, rfl⟩ := effect_of_system_step hs
    exact Config.forall_update (fun i (w : Client Th J) => w.todo <:+ work i)
      (he.client.todo_suffix.trans (hI a.1)) fun j _ => hI j

end Clients
