import PyFastIpc.Lib.CInt
import PyFastIpc.Semaphore.Steps

/-!
# Semaphore calls that run alone

One thread and the header, with no other thread that touches it.  A token is only taken inside the
spin loop, so a `wait` whose `spin` is not positive never takes one: it gives up at once, or finds
the count different from 0 in `FUTEX_WAIT` for ever.
-/

namespace FutexSemaphore

variable {ι : Type*} [DecidableEq ι]

/-- The steps of one thread, with no other thread. -/
def alone (i : ι) (pid : UInt32) : Transition (Header ι × Thread) (Move ι) where
  Init _ := True
  step s m := step i pid m s.1 s.2

/-- The thread stays in its call, and no CAS fails spuriously. -/
def Solo (_ : Header ι × Thread) : Move ι → Prop
  | .call _ | .weakFail => False
  | _ => True

/-- The call has ended with this result, and the count has this value. -/
def Returned (r : Ret) (c : UInt32) (s : Header ι × Thread) : Prop :=
  s.2.pc = .idle (some r) ∧ s.1.count.word = c

/-! ## The arguments of `wait` -/

/-- The argument parsing of `wait`, `none` where it raises `OverflowError`. -/
def parseWait (blocking : Bool) (timeoutNs spin : ℤ) : Option Call := do
  let timeoutNs ← CInt.signed 64 timeoutNs
  let spin ← CInt.signed 32 spin
  return .wait blocking timeoutNs spin

theorem parseWait_eq_some_iff {blocking : Bool} {timeoutNs spin : ℤ} {f : Call} :
    parseWait blocking timeoutNs spin = some f ↔
      CInt.Fits 64 timeoutNs ∧ CInt.Fits 32 spin ∧ f = .wait blocking timeoutNs spin := by
  simp only [parseWait, Option.bind_eq_bind, Option.bind_eq_some_iff, CInt.signed_eq_some_iff]
  constructor
  · rintro ⟨_, ⟨ht, rfl⟩, _, ⟨hs, rfl⟩, hf⟩
    exact ⟨ht, hs, (Option.some.inj hf).symm⟩
  · rintro ⟨ht, hs, rfl⟩
    exact ⟨_, ⟨ht, rfl⟩, _, ⟨hs, rfl⟩, rfl⟩

/-! ## Steps without a choice -/

/-- Points where the next access is the only step. -/
def Pc.plain : Pc → Bool
  | .idle _ | .wake _ | .inWait _ | .storeLastNs => false
  | _ => true

section Alone

variable {i : ι} {pid : UInt32} {c : UInt32} {w : Wait} {h : Header ι} {t : Thread}
  {ok : Header ι × Thread → Move ι → Prop} {Done : Header ι × Thread → Prop}

theorem eq_next_of_plain {m : Move ι} {s' : Header ι × Thread} (hpc : t.pc.plain = true)
    (hm : Solo (h, t) m) (hs : step i pid m h t = some s') :
    m = .next ∧ next i pid h t = some s' := by
  cases m with
  | next => exact ⟨rfl, hs⟩
  | call f | weakFail => exact hm.elim
  | stamp now | wake who | timeout | signal =>
    cases ht : t.pc <;> simp_all [step, Pc.plain]

/-- A step without a choice. -/
theorem inevitable_next {s' : Header ι × Thread} (hle : ∀ s m, ok s m → Solo s m)
    (hok : ok (h, t) .next) (hpc : t.pc.plain = true) (hs : next i pid h t = some s')
    (hrest : (alone i pid).Inevitable ok Done s') : (alone i pid).Inevitable ok Done (h, t) := by
  refine .later ⟨.next, s', hok, hs⟩ fun m s'' hm hstep => ?_
  obtain ⟨-, hs''⟩ := eq_next_of_plain hpc (hle _ _ hm) hstep
  rw [hs] at hs''
  obtain rfl := Option.some.inj hs''
  exact hrest

/-! ## Taking a token -/

theorem inevitable_storeLastNs {c : UInt32} (hpc : t.pc = .storeLastNs)
    (hword : h.count.word = c) :
    (alone i pid).Inevitable Solo (Returned (.bool true) c) (h, t) := by
  refine .later ⟨.stamp 0, ({ h with lastAcquiredNs := 0 }, t.goto (.idle (some (.bool true)))),
    trivial, by simp [alone, step, hpc]⟩ fun m s' hm hs => ?_
  change step i pid m h t = some s' at hs
  cases m with
  | stamp now =>
    simp only [step, hpc, Option.some.injEq] at hs
    obtain rfl := hs
    exact .now ⟨rfl, hword⟩
  | call f | weakFail => exact hm.elim
  | next | wake who | timeout | signal => simp [step, next, hpc] at hs

/-- A token that is there is taken at the first attempt. -/
theorem inevitable_take (hpc : t.pc = .spinLoad w 0) (hword : h.count.word = c) (hc : c ≠ 0) :
    (alone i pid).Inevitable Solo (Returned (.bool true) (c - 1)) (h, t) := by
  subst hword
  have hload : next i pid h t = some (h, t.goto (.spinCas w 0 h.count.word hc)) := by
    simp [next, hpc, hc]
  have hcas : next i pid h (t.goto (.spinCas w 0 h.count.word hc)) =
      some ({ h with count := h.count.store (h.count.word - 1) },
        (t.goto (.spinCas w 0 h.count.word hc)).take) := by
    simp [next, Thread.goto]
  refine inevitable_next (fun _ _ hm => hm) trivial (by rw [hpc]; rfl) hload ?_
  refine inevitable_next (fun _ _ hm => hm) trivial rfl hcas ?_
  exact inevitable_next (fun _ _ hm => hm) trivial rfl rfl (inevitable_storeLastNs rfl rfl)

/-! ## Finding no token -/

/-- Without a token the spin loop comes to its end. -/
theorem inevitable_spinFrom {k : ℕ} (hle : ∀ s m, ok s m → Solo s m) (hok : ∀ s, ok s .next)
    (hpc : t.pc = w.spinFrom k) (hword : h.count.word = 0)
    (hend : ∀ t' : Thread,
      t'.pc = (if w.blocking then .futexWait w else .idle (some (.bool false))) →
      (alone i pid).Inevitable ok Done (h, t')) :
    (alone i pid).Inevitable ok Done (h, t) := by
  induction hn : w.spin.toNat - k generalizing k t with
  | zero =>
    refine hend t ?_
    rw [hpc, Wait.spinFrom, if_neg (by omega)]
  | succ n ih =>
    have hlt : (k : ℤ) < w.spin := by omega
    rw [Wait.spinFrom, if_pos hlt] at hpc
    have hload : next i pid h t = some (h, t.goto (w.spinFrom (k + 1))) := by
      simp [next, hpc, hword]
    exact inevitable_next hle (hok _) (by rw [hpc]; rfl) hload (ih rfl (by omega))

/-- A wait that is not woken ends with its timeout. -/
theorem inevitable_timeout (hpc : t.pc = .futexWait w) (hword : h.count.word = 0)
    (htimed : w.timed = true) :
    (alone i pid).Inevitable (fun s m => Solo s m ∧ m ≠ .signal) (Returned (.bool false) 0)
      (h, t) := by
  have hwait : next i pid h t =
      some ({ h with count := { h.count with sleepers := insert i h.count.sleepers } },
        t.goto (.inWait w)) := by
    simp [next, hpc, Futex.wait, hword]
  refine inevitable_next (fun _ _ hm => hm.1) ⟨trivial, by simp⟩ (by rw [hpc]; rfl) hwait ?_
  refine .later ⟨.timeout, _, ⟨trivial, by simp⟩, by
    simp [alone, step, Thread.goto, htimed, Futex.leave]; rfl⟩ fun m s' hm hs => ?_
  change step i pid m _ _ = some s' at hs
  cases m with
  | timeout =>
    simp [step, Thread.goto, htimed, Futex.leave] at hs
    obtain rfl := hs
    exact .now ⟨rfl, hword⟩
  | call f | weakFail => exact hm.1.elim
  | signal => exact absurd rfl hm.2
  | next | wake who | stamp now => simp [step, next, Thread.goto] at hs

/-- Without an attempt no token is taken, however often the outer loop goes round. -/
theorem not_inevitable_take (hpc : t.pc = w.spinFrom 0) (hword : h.count.word = c) (hc : c ≠ 0)
    (hspin : w.spin ≤ 0) :
    ¬ (alone i pid).Inevitable Solo (Returned (.bool true) (c - 1)) (h, t) := by
  have hend : w.spinFrom 0 = .futexWait w ∨ w.spinFrom 0 = .idle (some (.bool false)) := by
    rw [Wait.spinFrom, if_neg (by omega)]
    split_ifs
    · exact .inl rfl
    · exact .inr rfl
  refine Transition.not_inevitable
    (fun s : Header ι × Thread => s.2.pc = w.spinFrom 0 ∧ s.1.count.word = c) ?_ ?_ ⟨hpc, hword⟩
  · rintro ⟨h, t⟩ ⟨hat, -⟩ ⟨hdone, -⟩
    rw [hat] at hdone
    rcases hend with hend | hend <;> rw [hend] at hdone <;> cases hdone
  · rintro ⟨h, t⟩ m s' ⟨hat, hcount⟩ hm hs
    rcases hend with hend | hend
    · have hwait : t.pc = .futexWait w := hat.trans hend
      have hne : h.count.word ≠ 0 := fun hzero => hc (hcount.symm.trans hzero)
      have hnext : next i pid h t = some (h, t.goto (w.spinFrom 0)) := by
        simp only [next, hwait, Futex.wait, if_neg hne]
      exact ⟨.next, _, trivial, hnext, rfl, hcount⟩
    · have hidle : t.pc = .idle (some (.bool false)) := hat.trans hend
      change step i pid m h t = some s' at hs
      cases m with
      | call f | weakFail => exact hm.elim
      | next | stamp now | wake who | timeout | signal => simp [step, next, hidle] at hs

end Alone

/-! ## A call of `wait` -/

section Call

variable (i : ι) (pid c : UInt32) (blocking : Bool) (timeoutNs spin : ℤ)

/-- In every state in which the thread is about to call `wait` and the count is `c`, the call does
not raise, and all its runs that satisfy `ok` end with the result `r` and the count `c'`. -/
def WaitReturns (ok : Header ι × Thread → Move ι → Prop) (r : Bool) (c' : UInt32) : Prop :=
  ∃ f, parseWait blocking timeoutNs spin = some f ∧
    ∀ (h : Header ι) (t : Thread), h.count.word = c → i ∉ h.count.sleepers →
      (∃ r, t.pc = .idle r) → (alone i pid).Inevitable ok (Returned (.bool r) c') (h, t.begin f)

/-- A token that is there is taken; if there is none, a call that may not block gives up, and one
with a timeout does so when the timeout ends its `FUTEX_WAIT`. -/
structure TakesAvailable : Prop where
  available : c ≠ 0 → WaitReturns i pid c blocking timeoutNs spin Solo true (c - 1)
  giveUp : c = 0 → blocking = false → WaitReturns i pid c blocking timeoutNs spin Solo false 0
  timeout : c = 0 → blocking = true → 0 ≤ timeoutNs →
    WaitReturns i pid c blocking timeoutNs spin (fun s m => Solo s m ∧ m ≠ .signal) false 0

/-- `wait` does so exactly when its arguments fit into their C types and it makes an attempt if
there is a token (nothing is asked of a call that waits for a token without a timeout). -/
theorem takesAvailable_iff : TakesAvailable i pid c blocking timeoutNs spin ↔
    c = 0 ∧ blocking = true ∧ timeoutNs < 0 ∨
      CInt.Fits 64 timeoutNs ∧ CInt.Fits 32 spin ∧ (c = 0 ∨ 0 < spin) := by
  constructor
  · intro hspec
    by_cases hc : c = 0
    · by_cases hb : blocking = true
      · by_cases ht : timeoutNs < 0
        · exact .inl ⟨hc, hb, ht⟩
        · obtain ⟨f, hf, -⟩ := hspec.timeout hc hb (Int.not_lt.1 ht)
          obtain ⟨hfit, hfit', -⟩ := parseWait_eq_some_iff.1 hf
          exact .inr ⟨hfit, hfit', .inl hc⟩
      · obtain ⟨f, hf, -⟩ := hspec.giveUp hc (by simpa using hb)
        obtain ⟨hfit, hfit', -⟩ := parseWait_eq_some_iff.1 hf
        exact .inr ⟨hfit, hfit', .inl hc⟩
    · obtain ⟨f, hf, hall⟩ := hspec.available hc
      obtain ⟨hfit, hfit', rfl⟩ := parseWait_eq_some_iff.1 hf
      refine .inr ⟨hfit, hfit', .inr ?_⟩
      by_contra hspin
      have hrun := hall ⟨magicSEMA, 0, ⟨c, ∅⟩, 0, 0⟩ .fresh rfl (Finset.notMem_empty i) ⟨none, rfl⟩
      exact not_inevitable_take (w := ⟨blocking, decide (0 ≤ timeoutNs), spin⟩) (c := c)
        (Call.entry_wait hfit hfit') rfl hc (Int.not_lt.1 hspin) hrun
  · intro hcond
    refine ⟨fun hc => ?_, fun hc hb => ?_, fun hc hb ht => ?_⟩
    · obtain ⟨hfit, hfit', hspin⟩ := hcond.resolve_left fun hno => hc hno.1
      have hpos : 0 < spin := hspin.resolve_left hc
      refine ⟨_, parseWait_eq_some_iff.2 ⟨hfit, hfit', rfl⟩, fun h t hword _ _ => ?_⟩
      exact inevitable_take (w := ⟨blocking, decide (0 ≤ timeoutNs), spin⟩)
        ((Call.entry_wait hfit hfit').trans (if_pos hpos)) hword hc
    · obtain ⟨hfit, hfit', -⟩ := hcond.resolve_left fun hno => by simp [hb] at hno
      refine ⟨_, parseWait_eq_some_iff.2 ⟨hfit, hfit', rfl⟩, fun h t hword _ _ => ?_⟩
      refine inevitable_spinFrom (fun _ _ hm => hm) (fun _ => trivial) (Call.entry_wait hfit hfit')
        (hword.trans hc) fun t' hpc => .now ⟨?_, hword.trans hc⟩
      rw [hpc, hb]
      rfl
    · obtain ⟨hfit, hfit', -⟩ := hcond.resolve_left fun hno => by omega
      refine ⟨_, parseWait_eq_some_iff.2 ⟨hfit, hfit', rfl⟩, fun h t hword _ _ => ?_⟩
      refine inevitable_spinFrom (fun _ _ hm => hm.1) (fun _ => ⟨trivial, by simp⟩)
        (Call.entry_wait hfit hfit') (hword.trans hc) fun t' hpc => inevitable_timeout
          (w := ⟨blocking, decide (0 ≤ timeoutNs), spin⟩) ?_ (hword.trans hc) (decide_eq_true ht)
      rw [hpc, hb]
      rfl

/-- With `spin=0` a call may find a token and leave it, or never return. -/
theorem not_takesAvailable_zero : ¬ TakesAvailable Tid.a 7 1 false (-1) 0 ∧
    ¬ TakesAvailable Tid.a 7 1 true (-1) 0 := by
  have hno (blocking : Bool) : ¬ TakesAvailable Tid.a 7 1 blocking (-1) 0 := by
    intro hspec
    obtain ⟨f, hf, hall⟩ := hspec.available (by decide)
    obtain ⟨-, -, rfl⟩ := parseWait_eq_some_iff.1 hf
    exact not_inevitable_take (w := ⟨blocking, false, 0⟩) (c := 1) rfl rfl (by decide) le_rfl
      (hall ⟨magicSEMA, 0, ⟨1, ∅⟩, 0, 0⟩ .fresh rfl (Finset.notMem_empty _) ⟨none, rfl⟩)
  exact ⟨hno false, hno true⟩

end Call

end FutexSemaphore
