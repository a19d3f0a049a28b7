import PyFastIpc.Event.Steps
import PyFastIpc.Semaphore.Construction

/-!
# Constructing a named event or semaphore while others use it

`NamedEvent.__init__` on a segment that is mapped at its full size: the process that created the
segment stores 0, the others make no access.  A `set` of a process whose constructor has returned
is undone if that store comes after it, as a post is by the store of a semaphore's initial count
(`initial_store_loses`).  In runs in which the store finds the word, or the count, at 0 nothing is
lost (`construction_loses_nothing`).
-/

namespace NamedEvent.Creation

variable {ι : Type*}

/-- Program points of `__init__`; at `store` the next access is the store of 0. -/
inductive Ctor where
  | init
  | store
  | done
  deriving DecidableEq

/-- A process: its constructor and its thread of event calls. -/
structure Proc (ι : Type*) where
  ctor : Ctor
  ev : Thread ι

/-- The event, and a value that no step reads: what the last `set` or `clear` stored, 0 before the
first one. -/
structure Segment (ι : Type*) where
  futex : Futex ι
  last : UInt32

/-- What the last `set` or `clear` has stored after the next step of a thread. -/
def lastStored (last : UInt32) : Pc → UInt32
  | .setStore => 1
  | .clearStore => 0
  | _ => last

inductive Move (ι : Type*) where
  /-- The next step of the constructor. -/
  | ctor
  /-- A step of an event method. -/
  | event (m : NamedEvent.Move ι)
  deriving DecidableEq

abbrev State (ι : Type*) := Config ι (Segment ι) (Proc ι)

/-- The event that the processes share. -/
def State.event (c : State ι) : NamedEvent.State ι := ⟨c.shared.futex, fun i => (c.locals i).ev⟩

/-- A new segment reads as zeros, and no constructor has started on it. -/
def start : State ι := ⟨⟨Futex.zero, 0⟩, fun _ => ⟨.init, .fresh⟩⟩

variable [DecidableEq ι]

/-- One atomic step of process `i`, when `creator` created the segment. -/
def step (creator i : ι) (asleep : Finset (ι × ℕ)) (m : Move ι) (s : Segment ι) (p : Proc ι) :
    Option (Segment ι × Proc ι) :=
  match m, p.ctor with
  | .ctor, .init => some (s, { p with ctor := if i = creator then .store else .done })
  | .ctor, .store => some ({ s with futex := s.futex.store 0 }, { p with ctor := .done })
  | .event n, .done =>
    (NamedEvent.step i asleep n s.futex p.ev).map fun r =>
      (⟨r.1, lastStored s.last p.ev.pc⟩, { p with ev := r.2 })
  | _, _ => none

/-- Processes that construct and then use one named event. -/
def system (creator : ι) : Transition (State ι) (ι × Move ι) where
  Init c := c = start
  step c a := Config.interleave (fun i => step creator i c.event.asleep) c a

/-- If the step is the creator's store, the word is 0. -/
def StoreFindsZero (c : State ι) (a : ι × Move ι) : Prop :=
  a.2 = .ctor → (c.locals a.1).ctor = .store → c.shared.futex.word = 0

/-- The last `set` or `clear` is the last thread step that changed the word. -/
theorem word_of_effect {i : ι} {asleep : Finset (ι × ℕ)} {m : NamedEvent.Move ι} {f f' : Futex ι}
    {t t' : Thread ι} (he : NamedEvent.Effect i asleep m f t f' t') :
    f'.word = lastStored f.word t.pc := by
  cases he with
  | call c hpc =>
    obtain ⟨r, hpc⟩ := hpc
    simp [hpc, lastStored]
  | wake f' who hpc hs => simp [hpc, lastStored, Futex.wake_word hs]
  | set hpc | clear hpc | sleep timed hm hpc hword | again timed hm hpc hword | woken timed hpc hout
  | leave timed p hpc hin hp | load b hpc => simp [hpc, lastStored]

theorem word_of_step {creator i : ι} {asleep : Finset (ι × ℕ)} {m : Move ι} {s s' : Segment ι}
    {p p' : Proc ι} (hs : step creator i asleep m s p = some (s', p'))
    (hword : s.futex.word = s.last)
    (hzero : m = .ctor → p.ctor = .store → s.futex.word = 0) : s'.futex.word = s'.last := by
  unfold step at hs
  split at hs
  next hpc =>
    obtain ⟨rfl, rfl⟩ := by simpa using hs
    exact hword
  next hpc =>
    obtain ⟨rfl, rfl⟩ := by simpa using hs
    exact (hzero rfl hpc).symm.trans hword
  next n hpc =>
    obtain ⟨⟨f, t⟩, hn, heq⟩ := Option.map_eq_some_iff.1 hs
    obtain ⟨rfl, rfl⟩ := by simpa using heq
    rw [← hword]
    exact word_of_effect (effect_of_step hn)
  next => simp at hs

theorem word_of_reach {creator : ι} {c : State ι} (h : (system creator).Reach StoreFindsZero c) :
    c.shared.futex.word = c.shared.last := by
  refine h.invariant (fun c => c.shared.futex.word = c.shared.last) ?_ fun c a c' _ hI hok hs => ?_
  · rintro c rfl
    rfl
  · change Config.interleave (fun i => step creator i c.event.asleep) c a = some c' at hs
    obtain ⟨s, p, hstep, rfl⟩ := Config.interleave_eq_some hs
    exact word_of_step hstep hI hok

/-- In runs in which the creator's store finds 0, the count of a named semaphore is the creator's
initial count plus the tokens posted minus the tokens taken when all constructors have returned, and
the word of a named event is what the last `set` or `clear` stored.  In any run the count is that
sum exactly if the creator's store replaced a count of 0. -/
theorem construction_loses_nothing [Fintype ι] (creator : ι) (pid : ι → UInt32)
    (initial : ι → Option ℤ) :
    (∀ c, (NamedSemaphore.system creator pid initial).Reach NamedSemaphore.StoreFindsZero c →
      (∀ i, (c.locals i).ctor = .done) →
      (c.shared.count.word.toNat : ℤ) = (initial creator).getD 0 + ∑ i, ((c.locals i).added : ℤ) -
        ∑ i, (c.locals i).sem.taken) ∧
    (∀ c, (system creator).Reach StoreFindsZero c → c.shared.futex.word = c.shared.last) ∧
    (∀ c, (NamedSemaphore.system creator pid initial).Reach (fun _ _ => True) c →
      (∀ i, (c.locals i).ctor = .done) →
      ((c.shared.count.word.toNat : ℤ) = (initial creator).getD 0 +
        ∑ i, ((c.locals i).added : ℤ) - ∑ i, (c.locals i).sem.taken ↔
          (c.locals creator).found = 0)) := by
  refine ⟨fun c h hdone => ?_, fun c h => word_of_reach h, fun c h hdone => ?_⟩
  · obtain ⟨hinv, hstocked⟩ := NamedSemaphore.stocked_of_reach h
    have hcount := NamedSemaphore.count_of_done hstocked hinv hdone
    rw [NamedSemaphore.found_of_reach h creator] at hcount
    simpa using hcount
  · obtain ⟨hinv, hstocked⟩ := NamedSemaphore.stocked_of_reach h
    rw [NamedSemaphore.count_of_done hstocked hinv hdone, sub_eq_self, ← UInt32.toNat_inj,
      Nat.cast_eq_zero]
    rfl

instance (c : NamedSemaphore.State ι) (a : ι × NamedSemaphore.Move ι) :
    Decidable (NamedSemaphore.StoreFindsZero c a) :=
  match h : (c.locals a.1).ctor with
  | .store v => decidable_of_iff (a.2 = .ctor → c.shared.count.word = 0)
      (by simp [NamedSemaphore.StoreFindsZero, h])
  | .init | .done | .failed => isTrue (by simp [NamedSemaphore.StoreFindsZero, h])

instance (c : State ι) (a : ι × Move ι) : Decidable (StoreFindsZero c a) :=
  inferInstanceAs (Decidable (_ → _ → _))

/-- The creator `a` gives the count 2, and the others their own, which is not used. -/
def initials : Tid → Option ℤ
  | .a => some 2
  | .b => some 7
  | .c => none

/-- The constructors of all three processes up to the store of process `a`. -/
def attachAll : List (Tid × NamedSemaphore.Move Tid) := [(.a, .ctor), (.b, .ctor), (.c, .ctor)]

/-- A `post1` of process `b` on a count of 0. -/
def postOne : List (Tid × NamedSemaphore.Move Tid) :=
  [(.b, .sem (.call .post1)), (.b, .sem .next), (.b, .sem .next)]

/-- Process `b` posts after the creator's store. -/
def stocked : NamedSemaphore.State Tid :=
  (NamedSemaphore.system .a (fun _ => 7) initials).exec NamedSemaphore.StoreFindsZero
    NamedSemaphore.start (attachAll ++ (.a, .ctor) :: postOne)

theorem construction_loses_nothing_stocked :
    stocked.shared.count.word = 3 ∧
      (stocked.shared.count.word.toNat : ℤ) = (initials .a).getD 0 +
        ∑ i, ((stocked.locals i).added : ℤ) - ∑ i, (stocked.locals i).sem.taken :=
  ⟨by decide +kernel, (construction_loses_nothing Tid.a (fun _ => 7) initials).1 stocked
    (.exec _ (.init rfl)) (by decide +kernel)⟩

/-- Process `b` posts before the creator's store. -/
def overwritten : NamedSemaphore.State Tid :=
  (NamedSemaphore.system .a (fun _ => 7) initials).exec (fun _ _ => True) NamedSemaphore.start
    (attachAll ++ postOne ++ [(.a, .ctor)])

/-- Process `b` has set the event before the creator's store. -/
def unset : State Tid :=
  (system .a).exec (fun _ _ => True) start
    [(.a, .ctor), (.b, .ctor), (.c, .ctor), (.b, .event (.call .set)), (.b, .event .next),
      (.b, .event (.wake ∅)), (.a, .ctor)]

/-- The store of the creator erases a posted token, and the set of an event. -/
theorem initial_store_loses :
    (¬ ∀ c, (NamedSemaphore.system .a (fun _ => 7) initials).Reach (fun _ _ => True) c →
      (∀ i, (c.locals i).ctor = .done) →
      (c.shared.count.word.toNat : ℤ) = 2 + ∑ i, ((c.locals i).added : ℤ) -
        ∑ i, (c.locals i).sem.taken) ∧
    (¬ ∀ c : State Tid, (system .a).Reach (fun _ _ => True) c →
      (∀ i, (c.locals i).ctor = .done) → c.shared.futex.word = c.shared.last) ∧
    overwritten.shared.count.word = 2 ∧ (overwritten.locals .b).added = 1 ∧
    unset.shared.futex.word = 0 ∧ unset.shared.last = 1 := by
  refine ⟨fun hall => ?_, fun hall => ?_, by decide +kernel, by decide +kernel, by decide +kernel,
    by decide +kernel⟩
  · exact absurd (hall overwritten (.exec _ (.init rfl)) (by decide +kernel)) (by decide +kernel)
  · exact absurd (hall unset (.exec _ (.init rfl)) (by decide +kernel)) (by decide +kernel)

end NamedEvent.Creation
