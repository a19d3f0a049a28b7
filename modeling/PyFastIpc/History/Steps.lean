import PyFastIpc.History.Machine
import PyFastIpc.Mutex.Calls
import PyFastIpc.Mutex.Owner

/-!
# What one step of a history buffer can do

`Effect` lists the effects of a step, `effect_of_step` is the inversion of the step function.  A
step outside `acquire`, the `try` block and `release` reads the segment and changes one process only
(`Reads`), and only a call of `publish` leads to one of the others (`publishing_of_step`).
`State.mutex` is the mutex that the processes share.
-/

namespace NamedHistoryBuffer

open FutexMutex (Procs Implements)

/-- Outside a publish that has called `acquire`. -/
def Pc.outside : Pc → Bool
  | .acquiring _ | .body _ _ | .releasing _ => false
  | _ => true

/-- In a call of `publish`. -/
def Pc.publishing : Pc → Bool
  | .check _ | .acquiring _ | .body _ _ | .releasing _ => true
  | _ => false

variable {ι : Type*}

/-- The mutex of the buffer. -/
def State.mutex (c : State ι) : FutexMutex.State ι :=
  ⟨c.shared.seg.mutex, fun i => (c.locals i).mx⟩

theorem State.mutex_update [DecidableEq ι] (sh : Shared ι) (l : ι → Proc ι) (i : ι) (p : Proc ι) :
    State.mutex ⟨sh, Function.update l i p⟩ =
      ⟨sh.seg.mutex, Function.update (fun i => (l i).mx) i p.mx⟩ :=
  congrArg (Config.mk sh.seg.mutex) (Function.comp_update Proc.mx l i p)

/-! ## What the functions of the machine leave alone -/

section Frame

variable (sh : Shared ι) (p : Proc ι) (pending : Option Error) (i : ι) (r : Regs) (data : Bytes)
  (t t' : FutexMutex.Thread) (k : Stage)

@[simp] theorem Shared.setMutex_mem (h : FutexMutex.Header ι) :
    (sh.setMutex h).seg.mem = sh.seg.mem := rfl

@[simp] theorem Shared.setMutex_size (h : FutexMutex.Header ι) :
    (sh.setMutex h).seg.size = sh.seg.size := rfl

@[simp] theorem Proc.mx_begin (n : ℕ) (f : Call) : (p.begin n f).mx = p.mx := by
  cases f <;> rfl

theorem outside_begin (n : ℕ) (f : Call) : (p.begin n f).pc.outside = true := by
  cases f <;> rfl

theorem afterRelease_of_releasing {q : FutexMutex.Pc} (h : q.releasing = true) :
    afterRelease pending q = .releasing pending := by
  cases q <;> first | rfl | cases h

theorem afterRelease_idle (r : FutexMutex.Ret) :
    ∃ r', afterRelease pending (.idle (some r)) = .idle (some r') ∧ ∀ b, r' ≠ .bytes b := by
  cases r with
  | raised e => exact ⟨_, rfl, fun b h => by cases h⟩
  | bool b | self | none | overflow => cases pending <;> exact ⟨_, rfl, fun b h => by cases h⟩

theorem afterAcquire_of_acquiring {q : FutexMutex.Pc} (h : q.acquiring = true) :
    afterAcquire data q = .acquiring data := by
  cases q <;> first | rfl | cases h

@[simp] theorem Shared.enter_seg : (sh.enter i data t t').seg = sh.seg := by
  unfold Shared.enter
  split_ifs <;> rfl

@[simp] theorem Shared.enter_done : (sh.enter i data t t').done = sh.done := by
  unfold Shared.enter
  split_ifs <;> rfl

@[simp] theorem Shared.enter_sized : (sh.enter i data t t').sized = sh.sized := by
  unfold Shared.enter
  split_ifs <;> rfl

@[simp] theorem Shared.enter_held : (sh.enter i data t t').held = sh.held := by
  unfold Shared.enter
  split_ifs <;> rfl

variable {t t'} in
/-- The order changes when the word is taken. -/
theorem Shared.enter_of_taken_eq (h : t'.taken = t.taken) : sh.enter i data t t' = sh := by
  unfold Shared.enter
  rw [if_neg]
  rintro ⟨hfree, htaken⟩
  rw [h, hfree] at htaken
  cases htaken

variable {t t'} in
theorem Shared.enter_order (h : t.taken = false) (h' : t'.taken = true) :
    (sh.enter i data t t').order = sh.order ++ [(i, data)] := by
  unfold Shared.enter
  rw [if_pos ⟨h, h'⟩]

@[simp] theorem Shared.record_seg : (sh.record i r k).seg = sh.seg := by
  cases k <;> rfl

end Frame

/-! ## The inversion -/

section Inversion

variable {sh sh' : Shared ι} {p p' : Proc ι}

/-- The steps that read the segment and change only the process, before and after the part of
`publish` that begins with `acquire`. -/
inductive Reads (sh : Shared ι) (p : Proc ι) : Proc ι → Prop
  | call (f : Call) (hpc : ∃ r, p.pc = .idle r) : Reads sh p (p.begin sh.done.length f)
  | refused (data : Bytes) (hpc : p.pc = .check data) (hlong : slotSize sh.seg.mem < data.length) :
      Reads sh p (p.goto (.idle (some (.raised (.tooLarge data.length (slotSize sh.seg.mem))))))
  | look (k k' : Look) (v v' : View) (hpc : p.pc = .latest k v) (hnext : k.next = some k')
      (hlook : NamedHistoryBuffer.look sh.seg.size sh.seg.mem v k = .ok v') :
      Reads sh p { p with pc := .latest k' v', seen := p.look sh v k }
  | lost (k : Look) (v : View) (e : Error) (hpc : p.pc = .latest k v) :
      Reads sh p (p.goto (.idle (some (.raised e))))
  | copy (v : View) (hpc : p.pc = .latest .copy v) :
      Reads sh p (p.goto (.idle (some (.bytes (sh.seg.mem.read v.payloadOff v.n)))))
  | metaSize (hpc : p.pc = .metaSize) :
      Reads sh p (p.goto (.metaCopy (sliceLength sh.seg.size calcMetaOffset
        (NamedHistoryBuffer.metaSize sh.seg.mem))))
  | metaCopy (n : ℕ) (r : Ret) (hpc : p.pc = .metaCopy n) (hr : ∀ b, r ≠ .bytes b) :
      Reads sh p (p.goto (.idle (some r)))

/-- A read begins and ends outside the part of `publish` that has to do with the mutex. -/
theorem Reads.outside (h : Reads sh p p') :
    p.pc.outside = true ∧ p'.pc.outside = true ∧ p'.mx = p.mx := by
  cases h with
  | call f hpc =>
    obtain ⟨r, hpc⟩ := hpc
    exact ⟨by rw [hpc]; rfl, outside_begin p _ f, p.mx_begin _ f⟩
  | refused data hpc hlong => exact ⟨by rw [hpc]; rfl, rfl, rfl⟩
  | look k k' v v' hpc hnext hlook => exact ⟨by rw [hpc]; rfl, rfl, rfl⟩
  | lost k v e hpc => exact ⟨by rw [hpc]; rfl, rfl, rfl⟩
  | copy v hpc => exact ⟨by rw [hpc]; rfl, rfl, rfl⟩
  | metaSize hpc => exact ⟨by rw [hpc]; rfl, rfl, rfl⟩
  | metaCopy n r hpc hr => exact ⟨by rw [hpc]; rfl, rfl, rfl⟩

variable [DecidableEq ι] {i : ι} {pid : UInt32} {m : Move ι}

/-- The effects of one step of process `i`. -/
inductive Effect (i : ι) (pid : UInt32) (sh : Shared ι) (p : Proc ι) : Shared ι → Proc ι → Prop
  | read (p' : Proc ι) (hread : Reads sh p p') : Effect i pid sh p sh p'
  | enter (data : Bytes) (hpc : p.pc = .check data) (hfits : data.length ≤ slotSize sh.seg.mem) :
      Effect i pid sh p sh (p.enter data)
  | acquire (data : Bytes) (n : FutexMutex.Move ι) (h : FutexMutex.Header ι)
      (t : FutexMutex.Thread) (hpc : p.pc = .acquiring data)
      (hs : FutexMutex.step i pid n sh.seg.mutex p.mx = some (h, t)) :
      Effect i pid sh p ((sh.setMutex h).enter i data p.mx t)
        { p with pc := afterAcquire data t.pc, mx := t }
  | access (now : ℕ) (k : Stage) (r r' : Regs) (mem : Memory) (hpc : p.pc = .body k r)
      (ha : NamedHistoryBuffer.access now sh.seg.size sh.seg.mem r k = .ok (r', mem)) :
      Effect i pid sh p ((sh.setMem mem).record i r' k) (p.advance r' k.next)
  | fail (now : ℕ) (k : Stage) (r : Regs) (e : Error) (hpc : p.pc = .body k r)
      (ha : NamedHistoryBuffer.access now sh.seg.size sh.seg.mem r k = .error e) :
      Effect i pid sh p sh (p.leave (some e))
  | release (pending : Option Error) (n : FutexMutex.Move ι) (h : FutexMutex.Header ι)
      (t : FutexMutex.Thread) (hpc : p.pc = .releasing pending)
      (hs : FutexMutex.step i pid n sh.seg.mutex p.mx = some (h, t)) :
      Effect i pid sh p (sh.setMutex h) { p with pc := afterRelease pending t.pc, mx := t }

theorem eq_copy_of_next {k : Look} (h : k.next = none) : k = .copy := by
  cases k <;> first | rfl | cases h

theorem effect_of_nextLoad (hs : nextLoad sh p = some p') : Effect i pid sh p sh p' := by
  unfold nextLoad at hs
  cases hpc : p.pc with
  | check data =>
    simp only [hpc] at hs
    split_ifs at hs with hlong <;> obtain rfl := Option.some.inj hs
    · exact .read _ (.refused data hpc hlong)
    · exact .enter data hpc (not_lt.1 hlong)
  | latest k v =>
    simp only [hpc] at hs
    cases hk : k.next with
    | none =>
      obtain rfl := eq_copy_of_next hk
      obtain rfl := Option.some.inj hs
      exact .read _ (.copy v hpc)
    | some k' =>
      simp only [hk] at hs
      cases hl : NamedHistoryBuffer.look sh.seg.size sh.seg.mem v k with
      | ok v' =>
        simp only [hl] at hs
        obtain rfl := Option.some.inj hs
        exact .read _ (.look k k' v v' hpc hk hl)
      | error e =>
        simp only [hl] at hs
        obtain rfl := Option.some.inj hs
        exact .read _ (.lost k v e hpc)
  | metaSize =>
    simp only [hpc] at hs
    obtain rfl := Option.some.inj hs
    exact .read _ (.metaSize hpc)
  | metaCopy n =>
    simp only [hpc] at hs
    split at hs <;> obtain rfl := Option.some.inj hs
    · exact .read _ (.metaCopy n _ hpc fun b h => by cases h)
    · exact .read _ (.metaCopy n _ hpc fun b h => by cases h)
  | idle r | acquiring data | body k r | releasing pending => simp [hpc] at hs

theorem effect_of_step (hs : step i pid m sh p = some (sh', p')) : Effect i pid sh p sh' p' := by
  unfold step at hs
  split at hs
  next f r hpc =>
    obtain ⟨rfl, rfl⟩ := by simpa using hs
    exact .read _ (.call f ⟨r, hpc⟩)
  next =>
    obtain ⟨q, hq, heq⟩ := Option.map_eq_some_iff.1 hs
    obtain ⟨rfl, rfl⟩ := by simpa using heq
    exact effect_of_nextLoad hq
  next now k r hpc =>
    cases ha : access now sh.seg.size sh.seg.mem r k with
    | ok u =>
      simp only [ha] at hs
      obtain ⟨rfl, rfl⟩ := by simpa using hs
      exact .access now k r u.1 u.2 hpc ha
    | error e =>
      simp only [ha] at hs
      obtain ⟨rfl, rfl⟩ := by simpa using hs
      exact .fail now k r e hpc ha
  next n data hpc =>
    obtain ⟨u, hu, heq⟩ := Option.map_eq_some_iff.1 hs
    obtain ⟨rfl, rfl⟩ := by simpa using heq
    exact .acquire data n u.1 u.2 hpc hu
  next n pending hpc =>
    obtain ⟨u, hu, heq⟩ := Option.map_eq_some_iff.1 hs
    obtain ⟨rfl, rfl⟩ := by simpa using heq
    exact .release pending n u.1 u.2 hpc hu
  next => simp at hs

omit [DecidableEq ι] in
theorem publishing_of_nextLoad (hs : nextLoad sh p = some p')
    (hp : p.pc.publishing = false) : p'.pc.publishing = false ∧ p'.mx = p.mx := by
  unfold nextLoad at hs
  cases hpc : p.pc with
  | latest k v =>
    simp only [hpc] at hs
    split at hs
    · split at hs
      · obtain rfl := Option.some.inj hs
        exact ⟨rfl, rfl⟩
      · obtain rfl := Option.some.inj hs
        exact ⟨rfl, rfl⟩
    · obtain rfl := Option.some.inj hs
      exact ⟨rfl, rfl⟩
  | metaSize =>
    simp only [hpc] at hs
    obtain rfl := Option.some.inj hs
    exact ⟨rfl, rfl⟩
  | metaCopy n =>
    simp only [hpc] at hs
    split at hs <;> obtain rfl := Option.some.inj hs
    · exact ⟨rfl, rfl⟩
    · exact ⟨rfl, rfl⟩
  | idle r => simp [hpc] at hs
  | check data | acquiring data | body k r | releasing e => simp [hpc, Pc.publishing] at hp

/-- Only a call of `publish` begins one; the other methods change neither the buffer nor the
process's thread of mutex calls. -/
theorem publishing_of_step
    (hs : step i pid m sh p = some (sh', p')) (hp : p.pc.publishing = false)
    (hm : ∀ data, m ≠ .call (.publish data)) :
    sh' = sh ∧ p'.pc.publishing = false ∧ p'.mx = p.mx := by
  unfold step at hs
  split at hs
  next f r hpc =>
    obtain ⟨rfl, rfl⟩ := by simpa using hs
    cases f with
    | publish data => exact absurd rfl (hm data)
    | getLatest | getMeta => exact ⟨rfl, rfl, rfl⟩
  next =>
    obtain ⟨p₁, hp₁, heq⟩ := Option.map_eq_some_iff.1 hs
    obtain ⟨rfl, rfl⟩ := by simpa using heq
    exact ⟨rfl, publishing_of_nextLoad hp₁ hp⟩
  next now k r hpc => simp [hpc, Pc.publishing] at hp
  next n data hpc => simp [hpc, Pc.publishing] at hp
  next n e hpc => simp [hpc, Pc.publishing] at hp
  next => cases hs

theorem effect_of_system_step {P : Procs ι} {N S M : ℕ} {c c' : State ι} {a : ι × Move ι}
    (hs : (system P N S M).step c a = some c') :
    ∃ sh p, Effect a.1 (P.pid a.1) c.shared (c.locals a.1) sh p ∧
      c' = ⟨sh, Function.update c.locals a.1 p⟩ := by
  change Config.interleave (fun i => step i (P.pid i)) c a = some c' at hs
  obtain ⟨sh, p, hstep, rfl⟩ := Config.interleave_eq_some hs
  exact ⟨sh, p, effect_of_step hstep, rfl⟩

end Inversion

end NamedHistoryBuffer
