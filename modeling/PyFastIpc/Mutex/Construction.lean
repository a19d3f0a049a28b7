import PyFastIpc.Mutex.Named
import PyFastIpc.Mutex.Calls

/-!
# Constructing a named mutex while others use it

The constructor that created the segment resets the lock word and then fills the header with zeros
although other constructors may have returned on the segment and their processes may use the mutex.
So it can free a lock that is held, and it erases the magic word for good (`initialisation_breaks`).

`InitOrder` orders these stores and the `Mutex(...)` stores and returns of the constructors: every
return comes after the fill's stores to the words that matter, and after some `Mutex(...)` that has
stored the magic word again.  Who has the lock and what the header reads is not part of it: it
follows that the resets meet a mutex nobody has used, and that the magic word is there at every
return (`construction_keeps_lock`).
-/

namespace NamedMutex

open FutexMutex

variable {ι : Type*}

/-- The mutex that the processes share. -/
def State.mutex (c : State ι) : FutexMutex.State ι := ⟨c.shared, fun i => (c.locals i).mx⟩

/-- The fill of the creating constructor is past its store to the word. -/
def Ctor.filled (w : Word) : Ctor → Bool
  | .zero todo => decide (w ∉ todo)
  | .ret | .done => true
  | _ => false

/-- The order of the initialisation and the constructors.  Process `first` is the one whose
`Mutex(...)` brings the magic word back after the fill. -/
structure InitOrder (creator first : ι) (c : State ι) (a : ι × Move ι) : Prop where
  /-- The magic store of `first` comes after that of the fill. -/
  store : a = (first, .ctor) → (c.locals first).ctor = .init →
    (c.locals creator).ctor.filled .magic = true
  /-- Every return comes after the fill's stores to the state and the owner word, and after the
  magic store of `first`. -/
  ret : a.2 = .ctor → (c.locals a.1).ctor = .ret →
    (c.locals creator).ctor.filled .state = true ∧
      (c.locals creator).ctor.filled .ownerPid = true ∧ (c.locals first).ctor ≠ .init

/-- Nobody calls `force_release`. -/
def NoForce (_ : State ι) (a : ι × Move ι) : Prop := a.2 ≠ .mutex (.call .forceRelease)

/-- What is known about process `i`. -/
structure ProcInv (creator i : ι) (p : Proc) : Prop where
  init : p.ctor = .init → ∃ r, p.mx.pc = .idle r
  force : p.mx.pc = .forceXchg → p.ctor = .force
  forced : p.ctor = .force → p.mx.pc = .forceXchg ∨ p.mx.pc.leaving = true
  creates : p.ctor = .force ∨ (∃ todo, p.ctor = .zero todo) → i = creator
  unused : p.ctor ≠ .done → p.mx.taken = false

theorem ProcInv.fresh {creator i : ι} : ProcInv creator i .fresh where
  init _ := ⟨none, rfl⟩
  force hx := by cases hx
  forced hx := by cases hx
  creates hx := by rcases hx with hx | ⟨todo, hx⟩ <;> cases hx
  unused _ := rfl

/-- What the order gives: the magic word is there from the store of `first` on, and a constructor
returns after that store and the resets. -/
structure OrderInv (creator first : ι) (c : State ι) : Prop where
  stored : (c.locals first).ctor ≠ .init →
    (c.locals creator).ctor.filled .magic = true ∧ c.shared.magic = magicMUTX
  returned : (∃ i, (c.locals i).ctor = .done) →
    (c.locals creator).ctor.filled .state = true ∧
      (c.locals creator).ctor.filled .ownerPid = true ∧ (c.locals first).ctor ≠ .init

theorem fillFrom_ne (todo : Finset Word) :
    fillFrom todo ≠ .init ∧ fillFrom todo ≠ .done ∧ fillFrom todo ≠ .force := by
  unfold fillFrom
  split_ifs <;> simp

theorem afterForce_ne (p : Pc) : afterForce p ≠ .init ∧ afterForce p ≠ .done := by
  unfold afterForce
  split <;> simp

theorem forced_afterForce {p : Pc} (h : p.leaving = true ∨ ∃ r, p = .idle r)
    (hforce : afterForce p = .force) : p.leaving = true := by
  rcases h with h | ⟨r, rfl⟩
  · exact h
  · cases hforce

theorem zeroWord_state {h : Header ι} {w : Word} (hfree : w = .state → h.state.word = 0) :
    (zeroWord h w).state.word = h.state.word := by
  cases w with
  | state => simpa [zeroWord] using (hfree rfl).symm
  | _ => rfl

theorem zeroWord_ownerPid (h : Header ι) (w : Word) :
    (zeroWord h w).ownerPid = h.ownerPid ∨ (zeroWord h w).ownerPid = 0 := by
  cases w with
  | ownerPid => exact .inr rfl
  | _ => exact .inl rfl

theorem filled_fillFrom (w : Word) (todo : Finset Word) :
    (fillFrom todo).filled w = true ↔ w ∉ todo := by
  unfold fillFrom
  split_ifs with htodo
  · simp [htodo, Ctor.filled]
  · simp [Ctor.filled]

section Step

variable [DecidableEq ι]

variable {P : Procs ι} {creator first i : ι} {c : State ι} {m : Move ι}
  {hd : Header ι} {p : Proc}

theorem ProcInv.step (hinv : ProcInv creator i (c.locals i))
    (hm : m ≠ .mutex (.call .forceRelease))
    (he : Effect creator i (P.pid i) m c.shared (c.locals i) hd p) : ProcInv creator i p := by
  cases he with
  | attach hn hi hpc =>
    obtain ⟨r, hidle⟩ := hinv.init hpc
    exact ⟨nofun, fun h => by simp [hidle] at h, nofun, by simp,
      fun _ => hinv.unused (by simp [hpc])⟩
  | create hn hi hpc =>
    exact ⟨nofun, fun _ => rfl, fun _ => .inl rfl, fun _ => hi,
      fun _ => hinv.unused (by simp [hpc])⟩
  | force n h' t hn hpc hf =>
    have hforce := force_step hf (hinv.forced hpc)
    refine ⟨fun h => absurd h (afterForce_ne _).1, fun h => ?_, fun h =>
      .inr (forced_afterForce hforce.pc h), fun _ => hinv.creates (.inl hpc), fun _ =>
      hforce.taken (hinv.unused (by simp [hpc]))⟩
    change t.pc = .forceXchg at h
    rw [h]
    rfl
  | zero w todo hn hpc hw =>
    refine ⟨fun h => absurd h (fillFrom_ne _).1, fun h => ?_, fun h =>
      absurd h (fillFrom_ne _).2.2, fun _ => hinv.creates (.inr ⟨todo, hpc⟩), fun _ =>
      hinv.unused (by simp [hpc])⟩
    simp [hinv.force h] at hpc
  | ret hn hpc =>
    refine ⟨nofun, fun h => ?_, nofun, by simp, by simp⟩
    simp [hinv.force h] at hpc
  | method n h' t hn hpc hf =>
    refine ⟨fun h => ?_, fun h => ?_, fun h => ?_, fun h => ?_, fun h => absurd hpc h⟩
    · simp [hpc] at h
    · exact absurd (hn.trans (congrArg Move.mutex (hf.eq_forceRelease h))) hm
    · simp [hpc] at h
    · simp [hpc] at h

/-- The fill does not go back. -/
theorem filled_of_effect {w : Word} (hw : (c.locals creator).ctor.filled w = true)
    (he : Effect creator creator (P.pid creator) m c.shared (c.locals creator) hd p) :
    p.ctor.filled w = true := by
  cases he with
  | attach hn hi hpc => exact absurd rfl hi
  | create hn hi hpc | force n h' t hn hpc hf => simp [hpc, Ctor.filled] at hw
  | zero w' todo hn hpc hw' =>
    refine (filled_fillFrom w _).2 fun hmem => ?_
    simp [hpc, Ctor.filled, Finset.mem_of_mem_erase hmem] at hw
  | ret hn hpc => rfl
  | method n h' t hn hpc hf => simp [hpc, Ctor.filled]

theorem filled_update {w : Word} (hw : (c.locals creator).ctor.filled w = true)
    (he : Effect creator i (P.pid i) m c.shared (c.locals i) hd p) :
    (Function.update c.locals i p creator).ctor.filled w = true := by
  by_cases hi : creator = i
  · subst hi
    simpa using filled_of_effect hw he
  · simpa [hi] using hw

/-- A constructor does not go back to its `Mutex(...)` store. -/
theorem not_init_of_effect (he : Effect creator i (P.pid i) m c.shared (c.locals i) hd p) :
    p.ctor ≠ .init := by
  cases he with
  | attach hn hi hpc | create hn hi hpc | ret hn hpc => simp
  | force n h' t hn hpc hf => exact (afterForce_ne _).1
  | zero w todo hn hpc hw => exact (fillFrom_ne _).1
  | method n h' t hn hpc hf => simp [hpc]

/-- The first step of a constructor is its `Mutex(...)` store. -/
theorem store_of_effect (hpc : (c.locals i).ctor = .init)
    (he : Effect creator i (P.pid i) m c.shared (c.locals i) hd p) :
    m = .ctor ∧ hd.magic = magicMUTX := by
  cases he with
  | attach hn hi hinit | create hn hi hinit => exact ⟨hn, rfl⟩
  | force n h' t hn hctor hf | zero w todo hn hctor hw | ret hn hctor | method n h' t hn hctor hf =>
    simp [hpc] at hctor

/-- A constructor is done by its return only. -/
theorem ret_of_effect (hdone : p.ctor = .done)
    (he : Effect creator i (P.pid i) m c.shared (c.locals i) hd p) :
    (c.locals i).ctor = .done ∨ m = .ctor ∧ (c.locals i).ctor = .ret := by
  cases he with
  | attach hn hi hpc | create hn hi hpc => cases hdone
  | force n h' t hn hpc hf => exact absurd hdone (afterForce_ne _).2
  | zero w todo hn hpc hw => exact absurd hdone (fillFrom_ne _).2.1
  | ret hn hpc => exact .inr ⟨hn, hpc⟩
  | method n h' t hn hpc hf => exact .inl hpc

/-- After the fill's store to it, the magic word is only stored by `Mutex(...)`. -/
theorem magic_of_effect (hinv : ProcInv creator i (c.locals i))
    (hwiped : (c.locals creator).ctor.filled .magic = true)
    (he : Effect creator i (P.pid i) m c.shared (c.locals i) hd p) :
    hd.magic = magicMUTX ∨ hd.magic = c.shared.magic := by
  cases he with
  | attach hn hi hpc | create hn hi hpc => exact .inl rfl
  | force n h' t hn hpc hf | method n h' t hn hpc hf => exact .inr hf.magic
  | zero w todo hn hpc hw =>
    cases w with
    | magic =>
      obtain rfl : i = creator := hinv.creates (.inr ⟨todo, hpc⟩)
      simp [hpc, Ctor.filled, hw] at hwiped
    | _ => exact .inr rfl
  | ret hn hpc => exact .inr rfl

theorem OrderInv.step (hO : OrderInv creator first c) (hinv : ProcInv creator i (c.locals i))
    (hok : InitOrder creator first c (i, m))
    (he : Effect creator i (P.pid i) m c.shared (c.locals i) hd p) :
    OrderInv creator first ⟨hd, Function.update c.locals i p⟩ := by
  refine ⟨fun h => ?_, fun ⟨j, hj⟩ => ?_⟩
  · by_cases hinit : (c.locals first).ctor = .init
    · have hif : first = i := by
        by_contra hne
        exact h (by simpa [hne] using hinit)
      subst hif
      obtain ⟨rfl, hmagic⟩ := store_of_effect hinit he
      exact ⟨filled_update (hok.store rfl hinit) he, hmagic⟩
    · obtain ⟨hwiped, hmagic⟩ := hO.stored hinit
      exact ⟨filled_update hwiped he,
        (magic_of_effect hinv hwiped he).elim id fun hsame => hsame.trans hmagic⟩
  · have hbefore : (c.locals creator).ctor.filled .state = true ∧
        (c.locals creator).ctor.filled .ownerPid = true ∧ (c.locals first).ctor ≠ .init := by
      by_cases hji : j = i
      · subst hji
        rcases ret_of_effect (by simpa using hj) he with hdone | ⟨hm, hret⟩
        · exact hO.returned ⟨j, hdone⟩
        · exact hok.ret hm hret
      · exact hO.returned ⟨j, by simpa [hji] using hj⟩
    obtain ⟨hstate, howner, hfirst⟩ := hbefore
    refine ⟨filled_update hstate he, filled_update howner he, ?_⟩
    by_cases hif : first = i
    · subst hif
      simpa using not_init_of_effect he
    · simpa [hif] using hfirst

omit [DecidableEq ι] in
/-- While the state word is not reset, nobody has taken the mutex. -/
theorem free_of_not_filled (hinv : ∀ i, ProcInv creator i (c.locals i))
    (hO : OrderInv creator first c) (hreset : (c.locals creator).ctor.filled .state = false)
    (j : ι) : (c.locals j).mx.taken = false := by
  refine (hinv j).unused fun hj => ?_
  exact absurd (hO.returned ⟨j, hj⟩).1 (by simp [hreset])

/-- A step in the order keeps the mutex an implementation of the lock. -/
theorem implements_step {h : Option ι} (halone : ∀ i, P.Alone i) (hI : Implements P c.mutex h)
    (hinv : ∀ i, ProcInv creator i (c.locals i)) (hO : OrderInv creator first c)
    (he : Effect creator i (P.pid i) m c.shared (c.locals i) hd p) :
    ∃ h', Implements P (State.mutex ⟨hd, Function.update c.locals i p⟩) h' := by
  have hupdate : State.mutex ⟨hd, Function.update c.locals i p⟩ =
      ⟨hd, Function.update c.mutex.locals i p.mx⟩ :=
    congrArg (Config.mk hd) (Function.comp_update Proc.mx c.locals i p)
  have hsame (hp : p.mx = (c.locals i).mx) :
      State.mutex ⟨hd, Function.update c.locals i p⟩ = ⟨hd, c.mutex.locals⟩ := by
    rw [hupdate, hp]
    exact congrArg (Config.mk hd) (Function.update_eq_self i c.mutex.locals)
  cases he with
  | attach hn hi hpc =>
    rw [hsame rfl]
    exact ⟨h, hI.write rfl (.inl rfl)⟩
  | create hn hi hpc =>
    have hcall : FutexMutex.Effect i (P.pid i) (.call .forceRelease) c.shared (c.locals i).mx
        c.shared ((c.locals i).mx.begin .forceRelease) := .call _ rfl ((hinv i).init hpc)
    have hidle : (c.locals i).mx.pc ≠ .forceXchg := fun hf => by simp [(hinv i).force hf] at hpc
    obtain ⟨h', -, hI'⟩ := hI.step hcall (fun hm => by cases hm) fun hf => absurd hf hidle
    rw [hupdate]
    exact ⟨h', hI'.write rfl (.inl rfl)⟩
  | force n h' t hn hpc hf =>
    obtain rfl : i = creator := (hinv i).creates (.inl hpc)
    have hnone : h = none :=
      hI.eq_none_of_free (free_of_not_filled hinv hO (by simp [hpc, Ctor.filled]))
    obtain ⟨h', -, hI'⟩ := hI.step hf (fun _ => .inl (halone i)) fun _ => .inl hnone
    rw [hupdate]
    exact ⟨h', hI'⟩
  | zero w todo hn hpc hw =>
    have hword : (zeroWord c.shared w).state.word = c.shared.state.word := by
      refine zeroWord_state fun hstate => ?_
      subst hstate
      obtain rfl : i = creator := (hinv i).creates (.inr ⟨todo, hpc⟩)
      have hnone : h = none :=
        hI.eq_none_of_free (free_of_not_filled hinv hO (by simp [hpc, Ctor.filled, hw]))
      by_contra hne
      exact hI.word.1 hne hnone
    rw [hsame rfl]
    exact ⟨h, hI.write hword (zeroWord_ownerPid _ w)⟩
  | ret hn hpc =>
    rw [hsame rfl]
    exact ⟨h, hI⟩
  | method n h' t hn hpc hf =>
    have hforce : (c.locals i).mx.pc ≠ .forceXchg := fun hx => by simp [(hinv i).force hx] at hpc
    obtain ⟨h', -, hI'⟩ := hI.step hf (fun _ => .inl (halone i)) fun hx => absurd hx hforce
    rw [hupdate]
    exact ⟨h', hI'⟩

theorem construction_of_reach {P : Procs ι} {creator first : ι} (halone : ∀ i, P.Alone i)
    {c : State ι}
    (h : (system P creator).Reach (fun c a => NoForce c a ∧ InitOrder creator first c a) c) :
    (∃ h, Implements P c.mutex h) ∧ (∀ i, ProcInv creator i (c.locals i)) ∧
      OrderInv creator first c := by
  refine h.invariant (fun c => (∃ h, Implements P c.mutex h) ∧
    (∀ i, ProcInv creator i (c.locals i)) ∧ OrderInv creator first c) ?_ ?_
  · rintro c rfl
    refine ⟨⟨none, .fresh fresh_start⟩, fun i => .fresh, fun hne => absurd rfl hne, ?_⟩
    rintro ⟨i, hi⟩
    cases hi
  · rintro c ⟨i, m⟩ c' hr ⟨⟨h, hI⟩, hinv, hO⟩ hok hs
    obtain ⟨hd, p, he, rfl⟩ := effect_of_system_step hs
    refine ⟨implements_step halone hI hinv hO he, ?_, hO.step (hinv i) hok.2 he⟩
    exact Config.forall_update (fun j p => ProcInv creator j p) ((hinv i).step hok.1 he)
      fun j _ => hinv j

/-- After a return no step of a constructor stores to the state or the owner word. -/
theorem kept_of_returned (hinv : ProcInv creator i (c.locals i)) (hO : OrderInv creator first c)
    (hdone : ∃ j, (c.locals j).ctor = .done) (hctor : (c.locals i).ctor ≠ .done)
    (he : Effect creator i (P.pid i) m c.shared (c.locals i) hd p) :
    hd.state.word = c.shared.state.word ∧ hd.ownerPid = c.shared.ownerPid := by
  obtain ⟨hstate, howner, -⟩ := hO.returned hdone
  cases he with
  | attach hn hi hpc | create hn hi hpc | ret hn hpc => exact ⟨rfl, rfl⟩
  | force n h' t hn hpc hf =>
    obtain rfl : i = creator := hinv.creates (.inl hpc)
    simp [hpc, Ctor.filled] at hstate
  | zero w todo hn hpc hw =>
    obtain rfl : i = creator := hinv.creates (.inr ⟨todo, hpc⟩)
    cases w with
    | state => simp [hpc, Ctor.filled, hw] at hstate
    | ownerPid => simp [hpc, Ctor.filled, hw] at howner
    | _ => exact ⟨rfl, rfl⟩
  | method n h' t hn hpc hf => exact absurd hpc hctor

/-- In a run in which the constructors return in order, at most one process is in its critical
section; no constructor changes the state or owner word of a mutex that is held; and the magic word
is there once a constructor has returned. -/
theorem construction_keeps_lock (P : Procs ι) (hinj : Function.Injective P.pid)
    (creator first : ι) {c : State ι}
    (h : (system P creator).Reach (fun c a => NoForce c a ∧ InitOrder creator first c a) c) :
    (∀ i j, (c.locals i).mx.held = true → (c.locals j).mx.held = true → i = j) ∧
    (∀ i m hd p, (c.locals i).ctor ≠ .done →
      step creator i (P.pid i) m c.shared (c.locals i) = some (hd, p) →
      (∃ j, (c.locals j).mx.held = true) →
        hd.state.word = c.shared.state.word ∧ hd.ownerPid = c.shared.ownerPid) ∧
    ((∃ i, (c.locals i).ctor = .done) → c.shared.magic = magicMUTX) := by
  obtain ⟨⟨h, hI⟩, hinv, hO⟩ := construction_of_reach (alone_of_injective hinj) h
  have htaken (i : ι) (hi : (c.locals i).mx.held = true) : (c.locals i).mx.taken = true :=
    ((hI.thread i).held hi).1
  refine ⟨fun i j hi hj => hI.agrees.unique (htaken i hi) (htaken j hj), ?_, fun hdone => ?_⟩
  · rintro i m hd p hctor hs ⟨j, hj⟩
    have hdone : (c.locals j).ctor = .done := by
      by_contra hne
      simpa [htaken j hj] using (hinv j).unused hne
    exact kept_of_returned (hinv i) hO ⟨j, hdone⟩ hctor (effect_of_step hs)
  · exact (hO.stored (hO.returned hdone).2.2).2

instance (c : State ι) (a : ι × Move ι) : Decidable (NoForce c a) :=
  inferInstanceAs (Decidable (_ ≠ _))

instance (creator first : ι) (c : State ι) (a : ι × Move ι) :
    Decidable (InitOrder creator first c a) :=
  decidable_of_iff
    ((a = (first, .ctor) → (c.locals first).ctor = .init →
        (c.locals creator).ctor.filled .magic = true) ∧
      (a.2 = .ctor → (c.locals a.1).ctor = .ret →
        (c.locals creator).ctor.filled .state = true ∧
          (c.locals creator).ctor.filled .ownerPid = true ∧ (c.locals first).ctor ≠ .init))
    ⟨fun ⟨hstore, hret⟩ => ⟨hstore, hret⟩, fun h => ⟨h.store, h.ret⟩⟩

/-- The steps of the creating constructor up to its return. -/
def initialise (i : ι) : List (ι × Move ι) :=
  [(i, .mutex .next), (i, .mutex .next), (i, .zero .magic), (i, .zero .flags), (i, .zero .state),
    (i, .zero .ownerPid), (i, .zero .lastAcquiredNs)]

/-- The mutex is acquired by process `i`. -/
def acquired (i : ι) : List (ι × Move ι) :=
  [(i, .mutex (.call .tryAcquire)), (i, .mutex .next), (i, .mutex .next), (i, .mutex (.stamp 5))]

/-- Process `b` attaches after the fill of the creating process `a`, before that one returns. -/
def attached : State Tid :=
  (system procs .a).exec (fun c a => NoForce c a ∧ InitOrder .a .b c a) start
    (((.a, .ctor) :: initialise .a : List (Tid × Move Tid)) ++
      ([(.b, .ctor), (.b, .ctor), (.a, .ctor)] : List (Tid × Move Tid)) ++ acquired Tid.b)

theorem construction_keeps_lock_attached :
    (attached.locals .b).mx.held = true ∧ attached.shared.magic = magicMUTX ∧
      ∀ j, (attached.locals j).mx.held = true → j = .b :=
  have hkeeps := construction_keeps_lock procs injective_procs .a .b (.exec _ (.init rfl))
  have hheld : (attached.locals .b).mx.held = true := by decide +kernel
  ⟨hheld, hkeeps.2.2 ⟨.b, by decide +kernel⟩, fun j hj => hkeeps.1 j .b hj hheld⟩

/-- Process `b` attaches and acquires while the creator `a` is about to reset the header. -/
def used : State Tid :=
  (system procs .a).exec NoForce start
    (([(.a, .ctor), (.b, .ctor), (.b, .ctor)] : List (Tid × Move Tid)) ++ acquired Tid.b)

/-- Process `a` then completes its constructor and acquires the mutex too. -/
def shared : State Tid :=
  (system procs .a).exec NoForce used
    (initialise Tid.a ++ ((.a, .ctor) :: acquired .a : List (Tid × Move Tid)))

theorem reach_used : (system procs .a).Reach NoForce used := .exec _ (.init rfl)

/-- Without the order, two processes are in their critical sections, the constructor changes
the words of a held mutex, and the magic word is gone. -/
theorem initialisation_breaks :
    (¬ ∀ c, (system procs .a).Reach NoForce c → ∀ i j, (c.locals i).mx.held = true →
      (c.locals j).mx.held = true → i = j) ∧
    (¬ ∀ c, (system procs .a).Reach NoForce c → ∀ i m hd p, (c.locals i).ctor ≠ .done →
      step .a i (procs.pid i) m c.shared (c.locals i) = some (hd, p) →
      (∃ j, (c.locals j).mx.held = true) →
        hd.state.word = c.shared.state.word ∧ hd.ownerPid = c.shared.ownerPid) ∧
    (¬ ∀ c, (system procs .a).Reach NoForce c → (∃ i, (c.locals i).ctor = .done) →
      c.shared.magic = magicMUTX) := by
  have hshared : (system procs .a).Reach NoForce shared := reach_used.exec _
  refine ⟨fun hall => ?_, fun hall => ?_, fun hall => ?_⟩
  · exact absurd (hall shared hshared .a .b (by decide +kernel) (by decide +kernel)) (by decide)
  · have hreset : step .a .a (procs.pid .a) (.mutex .next) used.shared (used.locals .a) =
        some ({ used.shared with state := used.shared.state.store 0 },
          ⟨.force, (used.locals .a).mx.drop used.shared.state.word⟩) := by
      have hpc : (used.locals .a).mx.pc = .forceXchg := by decide +kernel
      have hctor : (used.locals .a).ctor = .force := by decide +kernel
      simp [step, hctor, FutexMutex.step, FutexMutex.next, hpc, afterForce, Thread.drop]
    have hword := (hall used reach_used .a _ _ _ (by decide +kernel) hreset
      ⟨.b, by decide +kernel⟩).1
    exact absurd hword (by decide +kernel)
  · exact absurd (hall shared hshared ⟨.a, by decide +kernel⟩) (by decide +kernel)

end Step

end NamedMutex
