import PyFastIpc.Lib.Threads
import PyFastIpc.Lib.Log
import PyFastIpc.Atomic.Words
import Mathlib.Algebra.Order.BigOperators.Group.Finset
import Mathlib.Data.Prod.Lex

/-!
# Updates by compare-and-swap

A worker loads an atomic word, computes from the value that it has read, and swaps the result in; if
the word is another one by then it starts over.

What a failed swap has lost is only time: the updates take effect one after the other
(`updates_linearise`).  A swap fails because another one has succeeded, so every run is finite, and
counters are exact as long as the sum fits into the word (`counter_exact`).
-/

namespace AtomicCounter

open Atomic Log

inductive Pc where
  | load
  /-- The word was read. -/
  | cas (v : ℤ)
  | raised (e : Error)
  deriving DecidableEq

/-- A worker and its updates. -/
structure Worker where
  pc : Pc
  todo : List (ℤ → ℤ)

/-- The word.  `log` has the updates whose swap has succeeded, in that order; no step reads it. -/
structure Shared (ι W : Type*) where
  word : W
  log : List (ι × (ℤ → ℤ))

/-- One call of `load` or `cas` by worker `i`, in
`while True: v = a.load(); if a.cas(v, f(v)): break`. -/
def step {ι : Type*} {W : Type} [DecidableEq W] (K : Kind W) (i : ι) (_ : Unit) (sh : Shared ι W)
    (w : Worker) : Option (Shared ι W × Worker) :=
  match w.pc, w.todo with
  | .load, _ :: _ =>
    match K.load.run sh.word with
    | .ok v word => some ({ sh with word := word }, { w with pc := .cas v })
    | .error e word => some ({ sh with word := word }, { w with pc := .raised e })
  | .cas v, f :: rest =>
    match (K.cas v (f v)).run sh.word with
    | .ok true word => some (⟨word, sh.log ++ [(i, f)]⟩, ⟨.load, rest⟩)
    | .ok false word => some ({ sh with word := word }, { w with pc := .load })
    | .error e word => some ({ sh with word := word }, { w with pc := .raised e })
  | _, _ => none

abbrev State (ι W : Type*) := Config ι (Shared ι W) Worker

/-- The workers have their updates before them, and the word is `d`. -/
structure Fresh {ι : Type*} {W : Type} (d : W) (work : ι → List (ℤ → ℤ)) (c : State ι W) :
    Prop where
  word : c.shared.word = d
  log : c.shared.log = []
  locals : ∀ i, c.locals i = ⟨.load, work i⟩

/-- Workers with the updates `work` of a word that is `d` at first. -/
def system {ι : Type*} {W : Type} [DecidableEq ι] [DecidableEq W] (K : Kind W) (d : W)
    (work : ι → List (ℤ → ℤ)) : Transition (State ι W) (ι × Unit) where
  Init := Fresh d work
  step := Config.interleave (step K)

/-- The value after the updates of the log, each reduced to `bits` bits. -/
def replay {ι : Type*} (bits : ℕ) (d : ℤ) (log : List (ι × (ℤ → ℤ))) : ℤ :=
  Log.replay (fun f v => f v % 2 ^ bits) d log

/-! ## What one step can do -/

section Effect

variable {ι : Type*} {W : Type} [DecidableEq W] {K : Kind W} {bits width : ℕ} {i : ι}
  {sh sh' : Shared ι W} {w w' : Worker}

/-- The effects of one step of worker `i`, whose last load has read a value of the word. -/
inductive Effect (K : Kind W) (bits width : ℕ) (i : ι) (sh : Shared ι W) (w : Worker) :
    Shared ι W → Worker → Prop
  | load (f : ℤ → ℤ) (rest : List (ℤ → ℤ)) (hpc : w.pc = .load) (htodo : w.todo = f :: rest) :
      Effect K bits width i sh w sh { w with pc := .cas (K.toInt sh.word) }
  | swap (f : ℤ → ℤ) (rest : List (ℤ → ℤ)) (word : W) (hpc : w.pc = .cas (K.toInt sh.word))
      (htodo : w.todo = f :: rest) (hword : K.toInt word = f (K.toInt sh.word) % 2 ^ bits) :
      Effect K bits width i sh w ⟨word, sh.log ++ [(i, f)]⟩ ⟨.load, rest⟩
  | fail (v : ℤ) (hpc : w.pc = .cas v) (hne : K.toInt sh.word ≠ v) (htodo : w.todo ≠ []) :
      Effect K bits width i sh w sh { w with pc := .load }
  | refuse (v : ℤ) (f : ℤ → ℤ) (rest : List (ℤ → ℤ)) (e : Error) (hpc : w.pc = .cas v)
      (htodo : w.todo = f :: rest) (hbig : 2 ^ width ≤ f v % 2 ^ bits) :
      Effect K bits width i sh w sh { w with pc := .raised e }

theorem effect_of_step (hK : K.Reduces bits width) {u : Unit}
    (hread : ∀ v, w.pc = .cas v → 0 ≤ v ∧ v < 2 ^ width)
    (hs : step K i u sh w = some (sh', w')) : Effect K bits width i sh w sh' w' := by
  unfold step at hs
  split at hs
  next f rest hpc htodo =>
    rw [Kind.run_load] at hs
    obtain ⟨rfl, rfl⟩ := by simpa using hs
    exact .load f rest hpc htodo
  next v f rest hpc htodo =>
    obtain ⟨h0, hlt⟩ := hread v hpc
    have hv := hK.emod_eq h0 hlt
    obtain ⟨x, hx, hxv⟩ := hK.parse v (by rwa [hv])
    rw [hv] at hxv
    by_cases hbig : 2 ^ width ≤ f v % 2 ^ bits
    · obtain ⟨e, he⟩ := hK.refuse _ hbig
      have hrun : (K.cas v (f v)).run sh.word = .error e sh.word := by
        rw [Kind.cas, hx, he]
        rfl
      rw [hrun] at hs
      obtain ⟨rfl, rfl⟩ := by simpa using hs
      exact .refuse v f rest e hpc htodo hbig
    · obtain ⟨y, hy, hyv⟩ := hK.parse (f v) (Int.not_le.1 hbig)
      rw [Kind.run_cas hx hy] at hs
      by_cases hword : sh.word = x
      · rw [if_pos hword] at hs
        obtain ⟨rfl, rfl⟩ := by simpa using hs
        rw [← hxv, ← hword] at hpc hyv
        exact .swap f rest y hpc htodo hyv
      · rw [if_neg hword] at hs
        obtain ⟨rfl, rfl⟩ := by simpa using hs
        refine .fail v hpc (fun heq => hword ?_) (by simp [htodo])
        exact hK.inj _ _ (heq.trans hxv.symm)
  next => cases hs

end Effect

/-! ## The order of the updates -/

section Log

variable {ι : Type*} {bits : ℕ} {d : ℤ} {log : List (ι × (ℤ → ℤ))}

theorem replay_append_singleton (e : ι × (ℤ → ℤ)) :
    replay bits d (log ++ [e]) = e.2 (replay bits d log) % 2 ^ bits :=
  Log.replay_append_singleton _ d log e

/-- Increments that do not pass the end of the word. -/
theorem replay_eq_add (hadd : ∀ e ∈ log, 0 ≤ e.2 0 ∧ ∀ v, e.2 v = v + e.2 0) (hd : 0 ≤ d)
    (hlt : d + (log.map fun e => e.2 0).sum < 2 ^ bits) :
    replay bits d log = d + (log.map fun e => e.2 0).sum := by
  apply Log.replay_eq_add fun f : ℤ → ℤ => f 0
  rintro l e ⟨rest, rfl⟩
  have hpos {m : List (ι × (ℤ → ℤ))} (hm : m ⊆ l ++ [e] ++ rest) :
      0 ≤ (m.map fun e => e.2 0).sum :=
    List.sum_nonneg (List.forall_mem_map.2 fun e he => (hadd e (hm he)).1)
  have hl := hpos (m := l) (by simp)
  have hrest := hpos (m := rest) (by simp)
  obtain ⟨he, hval⟩ := hadd e (by simp)
  simp only [List.map_append, List.sum_append, List.map_cons, List.map_nil, List.sum_cons,
    List.sum_nil] at hlt
  rw [hval]
  exact Int.emod_eq_of_lt (by omega) (by omega)

end Log

section Runs

variable {ι : Type*} {W : Type} [DecidableEq ι] [DecidableEq W] {K : Kind W} {bits width : ℕ}
  {d : W} {work : ι → List (ℤ → ℤ)} {c : State ι W} {ok : State ι W → ι × Unit → Prop}

/-- Worker `i` has done its updates in order, and what it has read was the value at some point of
the log. -/
structure Placed (bits width : ℕ) (d : ℤ) (jobs : List (ℤ → ℤ)) (log : List (ι × (ℤ → ℤ))) (i : ι)
    (w : Worker) : Prop where
  order : jobs = doneBy i log ++ w.todo
  busy : ∀ v, w.pc = .cas v → w.todo ≠ []
  read : ∀ v, w.pc = .cas v →
    (0 ≤ v ∧ v < 2 ^ width) ∧ ∃ l, l <+: log ∧ v = replay bits d l
  refused : ∀ e, w.pc = .raised e → ∃ f rest l, w.todo = f :: rest ∧ l <+: log ∧
    2 ^ width ≤ f (replay bits d l) % 2 ^ bits

/-- The updates took effect in the order of the log. -/
structure Linear (K : Kind W) (bits width : ℕ) (d : W) (work : ι → List (ℤ → ℤ)) (c : State ι W) :
    Prop where
  word : K.toInt c.shared.word = replay bits (K.toInt d) c.shared.log
  placed : ∀ i, Placed bits width (K.toInt d) (work i) c.shared.log i (c.locals i)

/-- An update of another worker. -/
theorem Placed.append {d : ℤ} {jobs : List (ℤ → ℤ)} {log : List (ι × (ℤ → ℤ))} {i j : ι}
    {w : Worker} (hP : Placed bits width d jobs log j w) (hne : i ≠ j) (f : ℤ → ℤ) :
    Placed bits width d jobs (log ++ [(i, f)]) j w where
  order := by rw [doneBy_append_of_ne hne, ← hP.order]
  busy := hP.busy
  read v hv := by
    obtain ⟨hrange, l, hl, hvl⟩ := hP.read v hv
    exact ⟨hrange, l, hl.trans (List.prefix_append _ _), hvl⟩
  refused e he := by
    obtain ⟨g, rest, l, htodo, hl, hbig⟩ := hP.refused e he
    exact ⟨g, rest, l, htodo, hl.trans (List.prefix_append _ _), hbig⟩

omit [DecidableEq W] in
theorem Linear.step (hK : K.Reduces bits width) (hL : Linear K bits width d work c) {i : ι}
    {sh : Shared ι W} {w : Worker} (he : Effect K bits width i c.shared (c.locals i) sh w) :
    Linear K bits width d work ⟨sh, Function.update c.locals i w⟩ := by
  have hP := hL.placed i
  have keep {w : Worker}
      (hw : Placed bits width (K.toInt d) (work i) c.shared.log i w) (j : ι) :
      Placed bits width (K.toInt d) (work j) c.shared.log j (Function.update c.locals i w j) :=
    Config.forall_update (fun j w => Placed bits width (K.toInt d) (work j) c.shared.log j w) hw
      (fun j _ => hL.placed j) j
  cases he with
  | load f rest hpc htodo =>
    refine ⟨hL.word, keep ⟨hP.order, fun _ _ => by simp [htodo], fun v hv => ?_,
      fun e he => by cases he⟩⟩
    obtain rfl := Pc.cas.inj hv
    exact ⟨⟨hK.nonneg _, hK.lt _⟩, _, List.prefix_rfl, hL.word⟩
  | swap f rest word hpc htodo hword =>
    refine ⟨?_, Config.forall_update (fun j w => Placed bits width (K.toInt d) (work j)
      (c.shared.log ++ [(i, f)]) j w) ?_ fun j hj => (hL.placed j).append hj.symm f⟩
    · dsimp only
      rw [hword, hL.word, replay_append_singleton]
    · refine ⟨?_, (fun v hv => by cases hv), (fun v hv => by cases hv), fun e he => by cases he⟩
      rw [hP.order, htodo, doneBy_append_self, List.append_assoc, List.singleton_append]
  | fail v hpc hne htodo =>
    exact ⟨hL.word, keep ⟨hP.order, (fun v hv => by cases hv), (fun v hv => by cases hv),
      fun e he => by cases he⟩⟩
  | refuse v f rest e hpc htodo hbig =>
    refine ⟨hL.word, keep ⟨hP.order, (fun v hv => by cases hv), (fun v hv => by cases hv),
      fun _ _ => ?_⟩⟩
    obtain ⟨-, l, hl, rfl⟩ := hP.read v hpc
    exact ⟨f, rest, l, htodo, hl, hbig⟩

theorem effect_of_system_step (hK : K.Reduces bits width) (hL : Linear K bits width d work c)
    {a : ι × Unit} {c' : State ι W} (hs : (system K d work).step c a = some c') :
    ∃ sh w, Effect K bits width a.1 c.shared (c.locals a.1) sh w ∧
      c' = ⟨sh, Function.update c.locals a.1 w⟩ := by
  change Config.interleave (AtomicCounter.step K) c a = some c' at hs
  obtain ⟨sh, w, hstep, rfl⟩ := Config.interleave_eq_some hs
  exact ⟨sh, w, effect_of_step hK (fun v hv => ((hL.placed a.1).read v hv).1) hstep, rfl⟩

theorem linear_of_reach (hK : K.Reduces bits width) (h : (system K d work).Reach ok c) :
    Linear K bits width d work c := by
  refine h.invariant (Linear K bits width d work) (fun c hc => ?_) fun c a c' _ hL _ hs => ?_
  · refine ⟨by rw [hc.word, hc.log]; rfl, fun i => ?_⟩
    rw [hc.log, hc.locals]
    exact ⟨rfl, (fun v hv => by cases hv), (fun v hv => by cases hv), fun e he => by cases he⟩
  · obtain ⟨sh, w, he, rfl⟩ := effect_of_system_step hK hL hs
    exact hL.step hK he

/-! ## No endless retries -/

/-- The worker has done its updates or has raised. -/
def Worker.Stopped (w : Worker) : Prop := w.todo = [] ∨ ∃ e, w.pc = .raised e

/-- The updates before a worker, and its exception. -/
def Worker.left (w : Worker) : ℕ :=
  match w.pc with
  | .raised _ => 0
  | _ => w.todo.length

/-- A bound on the steps of a worker until it stops, as long as the word is what it is. -/
def Worker.effort (v : ℤ) (w : Worker) : ℕ :=
  match w.pc with
  | .load => if w.todo = [] then 0 else 2
  | .cas r => if v = r then 1 else 3
  | .raised _ => 0

/-- The measure of a run: the updates left, and then the efforts. -/
def State.measure [Fintype ι] (K : Kind W) (c : State ι W) : ℕ ×ₗ ℕ :=
  toLex (∑ i, (c.locals i).left, ∑ i, (c.locals i).effort (K.toInt c.shared.word))

omit [DecidableEq W] in
theorem State.measure_lt [Fintype ι] {i : ι} {sh : Shared ι W} {w : Worker}
    (he : Effect K bits width i c.shared (c.locals i) sh w) :
    State.measure K ⟨sh, Function.update c.locals i w⟩ < c.measure K := by
  have hleft := Config.sum_update c.locals i w Worker.left
  have heffort := Config.sum_update c.locals i w (Worker.effort (K.toInt c.shared.word))
  rw [State.measure, State.measure, Prod.Lex.toLex_lt_toLex]
  dsimp only
  cases he with
  | load f rest hpc htodo =>
    have hbefore : (c.locals i).left = rest.length + 1 := by simp [Worker.left, hpc, htodo]
    have hafter : Worker.left ⟨.cas (K.toInt c.shared.word), (c.locals i).todo⟩ =
        rest.length + 1 := by simp [Worker.left, htodo]
    have htwo : (c.locals i).effort (K.toInt c.shared.word) = 2 := by
      simp [Worker.effort, hpc, htodo]
    have hone : Worker.effort (K.toInt c.shared.word)
        ⟨.cas (K.toInt c.shared.word), (c.locals i).todo⟩ = 1 := if_pos rfl
    right
    omega
  | swap f rest word hpc htodo hword =>
    have hbefore : (c.locals i).left = rest.length + 1 := by simp [Worker.left, hpc, htodo]
    have hafter : Worker.left ⟨.load, rest⟩ = rest.length := rfl
    left
    omega
  | fail v hpc hne htodo =>
    have hsame : Worker.left ⟨.load, (c.locals i).todo⟩ = (c.locals i).left := by
      simp [Worker.left, hpc]
    have hthree : (c.locals i).effort (K.toInt c.shared.word) = 3 := by
      simp [Worker.effort, hpc, hne]
    have htwo : Worker.effort (K.toInt c.shared.word) ⟨.load, (c.locals i).todo⟩ = 2 :=
      if_neg htodo
    right
    omega
  | refuse v f rest e hpc htodo hbig =>
    have hbefore : (c.locals i).left = rest.length + 1 := by simp [Worker.left, hpc, htodo]
    have hafter : Worker.left ⟨.raised e, (c.locals i).todo⟩ = 0 := rfl
    left
    omega

omit [DecidableEq ι] in
/-- A worker that has not stopped can go on. -/
theorem exists_step (K : Kind W) (i : ι) (sh : Shared ι W) {w : Worker} (hw : ¬ w.Stopped) :
    ∃ s, AtomicCounter.step K i () sh w = some s := by
  rw [Worker.Stopped, not_or] at hw
  obtain ⟨f, rest, htodo⟩ := List.exists_cons_of_ne_nil hw.1
  unfold AtomicCounter.step
  cases hpc : w.pc with
  | load => exact ⟨_, by simp only [htodo, Kind.run_load]; rfl⟩
  | cas v =>
    simp only [htodo]
    split <;> exact ⟨_, rfl⟩
  | raised e => exact absurd ⟨e, hpc⟩ hw.2

/-- What holds whenever all workers have stopped cannot be avoided. -/
theorem inevitable_of_stopped [Fintype ι] {Done : State ι W → Prop} (hK : K.Reduces bits width)
    (hdone : ∀ c, (system K d work).Reach (fun _ _ => True) c →
      (∀ i, (c.locals i).Stopped) → Done c)
    (h : (system K d work).Reach (fun _ _ => True) c) :
    (system K d work).Inevitable (fun _ _ => True) Done c := by
  apply Transition.Inevitable.measure
    (fun c => (system K d work).Reach (fun _ _ => True) c) (State.measure K) ?_ ?_ h
  · intro c hr hmoving
    obtain ⟨i, hi⟩ := not_forall.1 fun hstopped => hmoving (hdone c hr hstopped)
    obtain ⟨s, hs⟩ := exists_step K i c.shared hi
    exact ⟨(i, ()), _, trivial, Config.interleave_of_step (AtomicCounter.step K) hs⟩
  · intro c a c' hr _ _ hs
    refine ⟨.step a hr trivial hs, ?_⟩
    obtain ⟨sh, w, he, rfl⟩ := effect_of_system_step hK (linear_of_reach hK hr) hs
    exact State.measure_lt he

/-- Updates by compare-and-swap take effect one after the other.  The word is what the successful
updates make of the first value, each worker's own in its order and none twice; a worker raises only
where the update of a value that the word has had is no word; and every run is finite. -/
theorem updates_linearise [Fintype ι] (hK : K.Reduces bits width) (d : W)
    (work : ι → List (ℤ → ℤ)) {c : State ι W}
    (h : (system K d work).Reach (fun _ _ => True) c) :
    K.toInt c.shared.word = replay bits (K.toInt d) c.shared.log ∧
    (∀ i, work i = doneBy i c.shared.log ++ (c.locals i).todo) ∧
    (∀ i e, (c.locals i).pc = .raised e → ∃ f rest l, (c.locals i).todo = f :: rest ∧
      l <+: c.shared.log ∧ 2 ^ width ≤ f (replay bits (K.toInt d) l) % 2 ^ bits) ∧
    (system K d work).Inevitable (fun _ _ => True) (fun c => ∀ i, (c.locals i).Stopped) c := by
  have hL := linear_of_reach hK h
  exact ⟨hL.word, fun i => (hL.placed i).order, fun i => (hL.placed i).refused,
    inevitable_of_stopped hK (fun _ _ hstopped => hstopped) h⟩

/-! ## Counters -/

/-- `v + a` for each amount `a`. -/
def increments (amounts : List ℕ) : List (ℤ → ℤ) := amounts.map fun (a : ℕ) (v : ℤ) => v + (a : ℤ)

/-- All workers have done their updates, and the word is `v`. -/
def Counted (K : Kind W) (v : ℤ) (c : State ι W) : Prop :=
  (∀ i, c.locals i = ⟨.load, []⟩) ∧ K.toInt c.shared.word = v

section Counter

variable [Fintype ι] {amounts : ι → List ℕ}

omit [DecidableEq ι] [DecidableEq W] [Fintype ι] in
theorem add_of_mem {i : ι} {f : ℤ → ℤ} (h : f ∈ increments (amounts i)) :
    0 ≤ f 0 ∧ ∀ v, f v = v + f 0 := by
  obtain ⟨a, -, rfl⟩ := List.mem_map.1 h
  exact ⟨by simp, fun v => by simp⟩

omit [Fintype ι] [DecidableEq ι] [DecidableEq W] in
theorem sum_increments (amounts : List ℕ) :
    ((increments amounts).map fun f => f 0).sum = (amounts.sum : ℤ) := by
  induction amounts with
  | nil => rfl
  | cons a amounts ih =>
    simp only [increments, List.map_cons, List.sum_cons] at ih ⊢
    rw [ih]
    simp

omit [DecidableEq W] in
/-- What was added and what has still to be added. -/
theorem Linear.sum_eq (hL : Linear K bits width d (fun i => increments (amounts i)) c) :
    (c.shared.log.map fun e => e.2 0).sum + ∑ i, ((c.locals i).todo.map fun f => f 0).sum =
      ∑ i, ((amounts i).sum : ℤ) := by
  rw [sum_log fun f : ℤ → ℤ => f 0, ← Finset.sum_add_distrib]
  apply Finset.sum_congr rfl
  intro i _
  rw [← sum_increments, (hL.placed i).order, List.map_append, List.sum_append]

theorem counted_inevitable (hK : K.Reduces bits width)
    (hroom : K.toInt d + ∑ i, ((amounts i).sum : ℤ) < 2 ^ width)
    (h : (system K d fun i => increments (amounts i)).Reach (fun _ _ => True) c) :
    (system K d fun i => increments (amounts i)).Inevitable (fun _ _ => True)
      (Counted K (K.toInt d + ∑ i, ((amounts i).sum : ℤ))) c := by
  have hpow : (2 : ℤ) ^ width ≤ 2 ^ bits := pow_le_pow_right₀ (by decide) hK.le
  apply inevitable_of_stopped hK ?_ h
  intro c hr hstopped
  have hL := linear_of_reach hK hr
  have hsum := hL.sum_eq
  have htodo (i : ι) (f : ℤ → ℤ) (hf : f ∈ (c.locals i).todo) : 0 ≤ f 0 ∧ ∀ v, f v = v + f 0 := by
    apply add_of_mem (?_ : f ∈ increments (amounts i))
    rw [(hL.placed i).order]
    exact List.mem_append_right _ hf
  have hlog : ∀ e ∈ c.shared.log, 0 ≤ e.2 0 ∧ ∀ v, e.2 v = v + e.2 0 := by
    intro e he
    apply add_of_mem (?_ : e.2 ∈ increments (amounts e.1))
    rw [(hL.placed e.1).order]
    apply List.mem_append_left
    exact List.mem_map.2 ⟨e, by simpa using he, rfl⟩
  have hnonneg (i : ι) : 0 ≤ ((c.locals i).todo.map fun f => f 0).sum :=
    List.sum_nonneg (List.forall_mem_map.2 fun f hf => (htodo i f hf).1)
  have hd := hK.nonneg d
  -- the value that a worker has refused to increase would fit
  have hreturned (i : ι) (e : Error) : (c.locals i).pc ≠ .raised e := by
    intro hpc
    obtain ⟨f, rest, l, hf, hl, hbig⟩ := (hL.placed i).refused e hpc
    have hown := Finset.single_le_sum (fun j _ => hnonneg j) (Finset.mem_univ i)
    have hrest : 0 ≤ (rest.map fun f => f 0).sum :=
      List.sum_nonneg (List.forall_mem_map.2 fun g hg => (htodo i g (by simp [hf, hg])).1)
    have hprefix : (l.map fun e => e.2 0).sum ≤ (c.shared.log.map fun e => e.2 0).sum := by
      obtain ⟨m, hm⟩ := hl
      have hpos : 0 ≤ (m.map fun e => e.2 0).sum :=
        List.sum_nonneg (List.forall_mem_map.2 fun e he => (hlog e (by simp [← hm, he])).1)
      rw [← hm, List.map_append, List.sum_append]
      omega
    obtain ⟨hf0, hadd⟩ := htodo i f (by simp [hf])
    have hstart : 0 ≤ (l.map fun e => e.2 0).sum :=
      List.sum_nonneg (List.forall_mem_map.2 fun e he => (hlog e (hl.subset he)).1)
    rw [hf, List.map_cons, List.sum_cons] at hown
    rw [hadd, replay_eq_add (fun e he => hlog e (hl.subset he)) hd (by omega),
      Int.emod_eq_of_lt (by omega) (by omega)] at hbig
    omega
  have hdone (i : ι) : (c.locals i).todo = [] :=
    (hstopped i).resolve_right fun hraised => hreturned i _ hraised.choose_spec
  have hall : (c.shared.log.map fun e => e.2 0).sum = ∑ i, ((amounts i).sum : ℤ) := by
    rw [← hsum]
    simp [hdone]
  refine ⟨fun i => ?_, ?_⟩
  · have hbusy := (hL.placed i).busy
    have htodo := hdone i
    cases hw : c.locals i with
    | mk pc todo =>
      rw [hw] at htodo hbusy
      obtain rfl : todo = [] := htodo
      cases pc with
      | load => rfl
      | cas v => exact absurd rfl (hbusy v rfl)
      | raised e => exact absurd (by rw [hw]) (hreturned i e)
  · rw [hL.word, replay_eq_add hlog hd (by omega), hall]

end Counter

end Runs

/-- A counter is exact if the sum fits into the word: every run of workers that add their amounts to
an `AtomicU32` or an `AtomicU64` is finite, no worker raises, and in the end the word is the first
value plus all amounts. -/
theorem counter_exact {ι : Type*} [DecidableEq ι] [Fintype ι] (amounts : ι → List ℕ) (d : UInt32)
    (d' : UInt64) :
    (d.toNat + ∑ i, ((amounts i).sum : ℤ) < 2 ^ 32 →
      ∀ c, (system AtomicU32.kind d fun i => increments (amounts i)).Reach (fun _ _ => True) c →
        (system AtomicU32.kind d fun i => increments (amounts i)).Inevitable (fun _ _ => True)
          (Counted AtomicU32.kind (d.toNat + ∑ i, ((amounts i).sum : ℤ))) c) ∧
    (d'.toNat + ∑ i, ((amounts i).sum : ℤ) < 2 ^ 64 →
      ∀ c, (system AtomicU64.kind d' fun i => increments (amounts i)).Reach (fun _ _ => True) c →
        (system AtomicU64.kind d' fun i => increments (amounts i)).Inevitable (fun _ _ => True)
          (Counted AtomicU64.kind (d'.toNat + ∑ i, ((amounts i).sum : ℤ))) c) :=
  ⟨fun hroom _ h => counted_inevitable reduces_u32 hroom h,
    fun hroom _ h => counted_inevitable reduces_u64 hroom h⟩

/-- Workers that count up, the first one twice. -/
def ones : Tid → List ℕ
  | .a => [1, 1]
  | .b | .c => [1]

/-- The workers before their first load. -/
def uncounted {W : Type} (d : W) : State Tid W := ⟨⟨d, []⟩, fun i => ⟨.load, increments (ones i)⟩⟩

theorem fresh_uncounted {W : Type} (d : W) :
    Fresh d (fun i => increments (ones i)) (uncounted d) := ⟨rfl, rfl, fun _ => rfl⟩

/-- Both `a` and `b` have read 4294967294, and `a` has stored the largest value of the word. -/
def full : State Tid UInt32 :=
  (system AtomicU32.kind 0xFFFFFFFE fun i => increments (ones i)).exec (fun _ _ => True)
    (uncounted 0xFFFFFFFE) [(.a, ()), (.b, ()), (.a, ()), (.a, ()), (.a, ())]

theorem updates_linearise_full :
    (full.locals .a).pc = .raised .outOfRange ∧ full.shared.log.length = 1 ∧
      AtomicU32.kind.toInt full.shared.word =
        replay 64 (AtomicU32.kind.toInt 0xFFFFFFFE) full.shared.log :=
  ⟨by decide +kernel, by decide +kernel,
    (updates_linearise reduces_u32 0xFFFFFFFE (fun i => increments (ones i))
      (.exec _ (.init (fresh_uncounted _)))).1⟩

/-- The swap of `b` has failed. -/
def raced : State Tid UInt64 :=
  (system AtomicU64.kind 0 fun i => increments (ones i)).exec (fun _ _ => True) (uncounted 0)
    [(.a, ()), (.b, ()), (.a, ()), (.b, ())]

theorem counter_exact_raced :
    (system AtomicU64.kind 0 fun i => increments (ones i)).Inevitable (fun _ _ => True)
      (Counted AtomicU64.kind (0 + ∑ i, ((ones i).sum : ℤ))) raced :=
  (counter_exact ones 0 0).2 (by decide +kernel) _ (.exec _ (.init (fresh_uncounted _)))

end AtomicCounter
