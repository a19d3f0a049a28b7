import PyFastIpc.Shm.Failure

/-!
# Getting over what a crash has left

A process that died in its constructor can leave the name linked to a segment without its size, and
no later constructor that asks for more succeeds on that segment.  But a constructor that fails
leaves an object behind whose finaliser runs `close`, and that unlinks the segment if no other live
process is listed.  So a caller that calls the constructor again after each exception (`insist`)
gets a new segment in its second call, or it never gets any (`second_call_recovers`).

No system call is made by another process, and none raises anything but a missing or existing name.
-/

namespace GuardedSharedMemory

/-- The linked segment is large enough, or the constructor may create one. -/
def Fits (r : Request) (fs : Fs) : Prop :=
  match fs.link with
  | some seg => r.size ≤ fs.size seg
  | none => r.attachOnly = false

/-- Files with a pid registered. -/
def Fs.registered (fs : Fs) (pid : ℕ) (others : Finset String) : Fs :=
  { fs with dir := some ⟨insert pid fs.listPids, others⟩ }

@[simp] theorem Fs.listPids_registered (fs : Fs) (pid : ℕ) (others : Finset String) :
    (fs.registered pid others).listPids = insert pid fs.listPids := rfl

/-! ## One constructor call -/

section Attempts

variable {r : Request} {fs : Fs} {pid k : ℕ}

theorem fits_of_link {seg : ℕ} (hlink : fs.link = some seg) :
    Fits r fs ↔ r.size ≤ fs.size seg := by
  rw [Fits, hlink]

theorem fits_of_unlinked (hlink : fs.link = none) : Fits r fs ↔ r.attachOnly = false := by
  rw [Fits, hlink]

/-- What a constructor has mapped, in files that were `fs` before. -/
structure Mapped (r : Request) (fs : Fs) (h : Mapping) (fs' : Fs) : Prop where
  link : fs'.link = some h.seg
  size : fs'.size h.seg = h.size
  enough : r.size ≤ h.size
  created : h.created = true ↔ fs.link = none
  exactly : h.created = true → h.size = r.size
  dir : fs'.dir = fs.dir

/-- The first attempt succeeds. -/
theorem attempts_of_fits (hf : Fits r fs) (hk : 1 ≤ k) :
    ∃ h fs', attempts r k fs = (.ok h, fs') ∧ Mapped r fs h fs' := by
  obtain ⟨k, rfl⟩ := Nat.exists_eq_add_of_le' hk
  cases hlink : fs.link with
  | some seg =>
    have hsize : r.size ≤ fs.size seg := (fits_of_link hlink).1 hf
    refine ⟨⟨seg, fs.size seg, false⟩, fs, ?_, hlink, rfl, hsize, ?_, ?_, rfl⟩
    · simp [attempts, attempt, hlink, mapSegment, Nat.not_lt.2 hsize]
    · simp [hlink]
    · intro h
      cases h
  | none =>
    have hattach : r.attachOnly = false := (fits_of_unlinked hlink).1 hf
    refine ⟨⟨fs.count, r.size, true⟩, fs.create.ftruncate fs.count r.size, ?_, rfl, ?_, le_rfl,
      ?_, fun _ => rfl, rfl⟩
    · rw [attempts, attempt_create r fs hlink hattach]
    · exact Function.update_self _ _ _
    · simp [hlink]

/-- Every attempt fails in the same way. -/
theorem attempts_of_not_fits (hf : ¬ Fits r fs) : ∃ e, attempts r k fs = (.error e, fs) := by
  induction k with
  | zero => exact ⟨_, rfl⟩
  | succ k ih =>
    rw [attempts]
    cases hlink : fs.link with
    | some seg =>
      have hsize : fs.size seg < r.size := by simpa [fits_of_link hlink] using hf
      have hattempt : attempt r fs = (.retry, fs) := by simp [attempt, hlink, mapSegment, hsize]
      rw [hattempt]
      exact ih
    | none =>
      have hattach : r.attachOnly = true := by simpa [fits_of_unlinked hlink] using hf
      have hattempt : attempt r fs = (.raised .noShmFound, fs) := by simp [attempt, hlink, hattach]
      rw [hattempt]
      exact ⟨_, rfl⟩

theorem fits_makedirs : Fits r fs.makedirs ↔ Fits r fs := Iff.rfl

/-- The constructor returns if the linked segment fits, and otherwise it only makes the
directory. -/
theorem init_cases (hmax : 1 ≤ r.rounds) (pid : ℕ) (fs : Fs) :
    (Fits r fs ∧ ∃ h fs', init r pid fs =
      (.ok h, fs'.registered pid (fs.dir.getD .empty).others) ∧ Mapped r fs.makedirs h fs') ∨
    ¬ Fits r fs ∧ ∃ e, init r pid fs = (.error e, fs.makedirs) := by
  by_cases hf : Fits r fs
  · obtain ⟨h, fs', hok, hmapped⟩ := attempts_of_fits (fits_makedirs.2 hf) hmax
    refine .inl ⟨hf, h, fs', ?_, hmapped⟩
    have hwrite : fs'.writePid pid = some (fs'.registered pid (fs.dir.getD .empty).others) := by
      simp [Fs.writePid, Fs.registered, Fs.listPids, hmapped.dir, Fs.makedirs]
    rw [init, hok]
    simp only [hwrite]
  · obtain ⟨e, he⟩ := attempts_of_not_fits (k := r.rounds) (mt fits_makedirs.1 hf)
    exact .inr ⟨hf, e, by rw [init, he]⟩

end Attempts

theorem Mapped.listPids {r : Request} {fs fs' : Fs} {h : Mapping}
    (hm : Mapped r fs.makedirs h fs') : fs'.listPids = fs.listPids := by
  show fs'.listPids = fs.makedirs.listPids
  exact congrArg (fun d : Option Dir => (d.getD .empty).pids) hm.dir

section Construct

variable {a : Args} {r : Request} {pid : ℕ} {alive : ℕ → Bool} {k : Kernel}

theorem fs_del_congr {k' : Kernel} (h : k.fs = k'.fs) :
    (del a r pid alive k).fs = (del a r pid alive k').fs := by
  unfold del
  split_ifs
  · show (Handle.close _ alive k.fs).2 = (Handle.close _ alive k'.fs).2
    rw [h]
  · exact h

/-- A call returns at once, or the finaliser runs on the directory it has made. -/
theorem construct_cases (hcheck : a.check = .ok r) (hmax : 1 ≤ r.rounds) (pid : ℕ)
    (alive : ℕ → Bool) (k : Kernel) :
    (Fits r k.fs ∧ ∃ h fs' k', construct a pid alive (fun _ => .quiet) k = (.ok h, k') ∧
      k'.fs = fs'.registered pid (k.fs.dir.getD .empty).others ∧ Mapped r k.fs.makedirs h fs') ∨
    ¬ Fits r k.fs ∧ ∃ e k', construct a pid alive (fun _ => .quiet) k = (.error e, k') ∧
      k'.fs = (del a r pid alive { k with fs := k.fs.makedirs }).fs := by
  obtain ⟨hfs, hres⟩ := tryInit_quiet r pid k
  unfold construct
  rw [hcheck]
  dsimp only
  generalize tryInit r pid (fun _ => .quiet) k = u at hfs hres
  obtain ⟨res, k'⟩ := u
  rcases init_cases hmax pid k.fs with ⟨hf, h, fs', hinit, hmapped⟩ | ⟨hf, e, hinit⟩
  · rw [hinit] at hfs hres
    obtain rfl : res = .ok h := hres
    exact .inl ⟨hf, h, fs', k', rfl, hfs, hmapped⟩
  · rw [hinit] at hfs hres
    obtain rfl : res = .error (.error e) := hres
    exact .inr ⟨hf, _, _, rfl, fs_del_congr hfs⟩

/-- A call that makes no attempt, or whose arguments are refused, fails. -/
theorem construct_fails (h : ∀ r, a.check = .ok r → r.rounds = 0) (pid : ℕ)
    (alive : ℕ → Bool) (k : Kernel) :
    ∃ e k', construct a pid alive (fun _ => .quiet) k = (.error e, k') := by
  unfold construct
  cases hcheck : a.check with
  | error e => exact ⟨_, _, rfl⟩
  | ok r =>
    have hnone : tryInit r pid (fun _ => .quiet) k =
        (.error (.error (.attemptsExhausted r.maxAttempts)), { k with fs := k.fs.makedirs }) := by
      rw [tryInit, h r hcheck, tryAttempts]
    dsimp only
    rw [hnone]
    exact ⟨_, _, rfl⟩

/-- The finaliser of a constructor that has failed makes room for a new segment. -/
def Recovers (a : Args) (pid : ℕ) (alive : ℕ → Bool) (fs : Fs) : Prop :=
  a.attachOnly = false ∧ a.tryCleanupOnExit = true ∧ hasOtherAlivePids alive pid fs = false

theorem eq_of_check (hcheck : a.check = .ok r) :
    (r.size : ℤ) = a.size ∧ r.attachOnly = a.attachOnly := by
  rcases a.check_cases with ⟨-, e, he⟩ | ⟨-, r', hr', hsize, hattach, -⟩
  · rw [hcheck] at he
    cases he
  · obtain rfl : r = r' := Except.ok.inj (hcheck.symm.trans hr')
    exact ⟨hsize, hattach⟩

theorem fits_congr {fs fs' : Fs} (hlink : fs'.link = fs.link) (hsize : fs'.size = fs.size) :
    Fits r fs' ↔ Fits r fs := by
  rw [Fits, Fits, hlink, hsize]

/-- The finaliser leaves the other live processes in the directory. -/
theorem hasOtherAlivePids_del (hclean : a.tryCleanupOnExit = true) :
    hasOtherAlivePids alive pid (del a r pid alive k).fs = hasOtherAlivePids alive pid k.fs := by
  rw [Bool.eq_iff_iff, hasOtherAlivePids_iff, hasOtherAlivePids_iff, listPids_del hclean]
  simp only [Finset.mem_erase, Finset.mem_filter]
  exact exists_congr fun q => by tauto

theorem onlyPids_del (h : k.fs.OnlyPids) : (del a r pid alive k).fs.OnlyPids := by
  unfold del
  split_ifs
  · exact Handle.onlyPids_close h
  · exact h

theorem fits_del (hcheck : a.check = .ok r) (hr : Recovers a pid alive k.fs) :
    Fits r (del a r pid alive k).fs := by
  obtain ⟨hattach, hclean, hlast⟩ := hr
  have hlink : (del a r pid alive k).fs.link = none := by
    rw [link_del hclean, hlast, if_neg Bool.false_ne_true]
  exact (fits_of_unlinked hlink).2 ((eq_of_check hcheck).2.trans hattach)

/-- A call that cannot get over what is left does not change that. -/
theorem stuck_del (hcheck : a.check = .ok r) (hf : ¬ Fits r k.fs)
    (hr : ¬ Recovers a pid alive k.fs) :
    ¬ Fits r (del a r pid alive k).fs ∧ ¬ Recovers a pid alive (del a r pid alive k).fs := by
  cases hclean : a.tryCleanupOnExit with
  | false =>
    rw [del_of_not_cleanup hclean]
    exact ⟨hf, hr⟩
  | true =>
    have hlink : (del a r pid alive k).fs.link =
        if hasOtherAlivePids alive pid k.fs = true then k.fs.link else none := link_del hclean
    cases hlast : hasOtherAlivePids alive pid k.fs with
    | true =>
      rw [hlast, if_pos rfl] at hlink
      refine ⟨mt (fits_congr hlink size_del).1 hf, ?_⟩
      rintro ⟨-, -, hnone⟩
      rw [hasOtherAlivePids_del hclean, hlast] at hnone
      cases hnone
    | false =>
      rw [hlast, if_neg Bool.false_ne_true] at hlink
      have hattach : a.attachOnly ≠ false := fun h => hr ⟨h, hclean, hlast⟩
      refine ⟨fun hfit => hattach ?_, fun hrec => hattach hrec.1⟩
      exact (eq_of_check hcheck).2.symm.trans ((fits_of_unlinked hlink).1 hfit)

end Construct

/-! ## Calling again -/

/-- The constructor is called until it returns, at most `n` times, and the object of each call that
has failed is finalised before the next. -/
def insist (a : Args) (pid : ℕ) (alive : ℕ → Bool) : ℕ → Kernel → Option Mapping × Kernel
  | 0, k => (none, k)
  | n + 1, k =>
    match construct a pid alive (fun _ => .quiet) k with
    | (.ok h, k') => (some h, k')
    | (.error _, k') => insist a pid alive n k'

/-- The process has mapped the linked segment at its full size and is registered. -/
structure Usable (a : Args) (pid : ℕ) (h : Mapping) (fs : Fs) : Prop where
  link : fs.link = some h.seg
  size : fs.size h.seg = h.size
  enough : a.size ≤ h.size
  exactly : h.created = true → (h.size : ℤ) = a.size
  listed : pid ∈ fs.listPids

/-- The segment is a new one, nobody else is listed, and closing the handle leaves no trace of the
name, nor of its directory if that had pid files only. -/
structure Renewed (pid : ℕ) (alive : ℕ → Bool) (before : Fs) (h : Mapping) (fs : Fs) : Prop where
  created : h.created = true
  listPids : fs.listPids = {pid}
  unlinks : ∀ r, ((Handle.new r pid (.ok h)).close alive fs).2.link = none
  removes : before.OnlyPids → ∀ r, ((Handle.new r pid (.ok h)).close alive fs).2.dir = none

section Insist

variable {a : Args} {r : Request} {pid : ℕ} {alive : ℕ → Bool} {k : Kernel}

theorem hasOtherAlivePids_own (alive : ℕ → Bool) {fs : Fs} (h : fs.listPids = {pid}) :
    hasOtherAlivePids alive pid fs = false := by
  rw [← Bool.not_eq_true, hasOtherAlivePids_iff, h]
  rintro ⟨q, hq, hne, -⟩
  exact hne (Finset.mem_singleton.1 hq)

/-- The cleanup of a close that finds no other live process empties the directory. -/
theorem cleaned_eq_empty {fs : Fs} (h : hasOtherAlivePids alive pid fs = false) :
    (fs.listPids.filter fun q => alive q = true).erase pid = ∅ := by
  rw [← Bool.not_eq_true, hasOtherAlivePids_iff] at h
  refine Finset.eq_empty_of_forall_notMem fun q hq => ?_
  obtain ⟨hne, hlisted⟩ := Finset.mem_erase.1 hq
  obtain ⟨hlisted, halive⟩ := Finset.mem_filter.1 hlisted
  exact h ⟨q, hlisted, hne, halive⟩

/-- A constructor that finds no segment and nobody listed. -/
theorem Mapped.renewed {fs fs' : Fs} {h : Mapping} (hm : Mapped r fs.makedirs h fs')
    (hlink : fs.link = none) (hlist : fs.listPids = ∅) :
    Renewed pid alive fs h (fs'.registered pid (fs.dir.getD .empty).others) := by
  have hown : (fs'.registered pid (fs.dir.getD .empty).others).listPids = {pid} := by
    rw [Fs.listPids_registered, hm.listPids, hlist]
    rfl
  have hlast := hasOtherAlivePids_own alive hown
  refine ⟨hm.created.2 hlink, hown, fun r => ?_, fun honly r => ?_⟩
  · rw [Handle.close_of_last rfl rfl hlast, Fs.link_rmdir]
    rfl
  · apply Handle.dir_close rfl rfl hlast
    · intro d hd
      obtain rfl := Option.some.inj hd
      exact honly.getD
    · rw [Handle.listPids_close rfl]
      exact cleaned_eq_empty hlast

theorem insist_of_fits (pid : ℕ) (alive : ℕ → Bool) (hcheck : a.check = .ok r)
    (hmax : 1 ≤ r.rounds) (hf : Fits r k.fs) (n : ℕ) :
    ∃ h k', insist a pid alive (n + 1) k = (some h, k') ∧ Usable a pid h k'.fs ∧
      (k.fs.link = none → k.fs.listPids = ∅ → Renewed pid alive k.fs h k'.fs) := by
  rcases construct_cases hcheck hmax pid alive k with ⟨-, h, fs', k', hok, hfs, hm⟩ | ⟨hno, -⟩
  · refine ⟨h, k', by rw [insist, hok], ?_, fun hlink hlist => ?_⟩
    · have hsize : (r.size : ℤ) = a.size := (eq_of_check hcheck).1
      rw [hfs]
      refine ⟨hm.link, hm.size, ?_, fun hcreated => ?_, Finset.mem_insert_self _ _⟩
      · rw [← hsize]
        exact_mod_cast hm.enough
      · rw [hm.exactly hcreated, hsize]
    · rw [hfs]
      exact hm.renewed hlink hlist
  · exact absurd hf hno

/-- The first call fails and the second creates a segment. -/
theorem insist_of_recovers (hcheck : a.check = .ok r) (hmax : 1 ≤ r.rounds)
    (hf : ¬ Fits r k.fs) (hr : Recovers a pid alive k.fs) (n : ℕ) :
    ∃ h k', insist a pid alive (n + 2) k = (some h, k') ∧ Usable a pid h k'.fs ∧
      Renewed pid alive k.fs h k'.fs := by
  rcases construct_cases hcheck hmax pid alive k with ⟨hyes, -⟩ | ⟨-, e, k₁, hfail, hfs⟩
  · exact absurd hyes hf
  · have hfits : Fits r k₁.fs := by
      rw [hfs]
      exact fits_del hcheck hr
    obtain ⟨-, hclean, hlast⟩ := hr
    rw [← hasOtherAlivePids_congr (Fs.listPids_makedirs k.fs)] at hlast
    have hlink : k₁.fs.link = none := by
      rw [hfs, link_del hclean, hlast, if_neg Bool.false_ne_true]
    have hlist : k₁.fs.listPids = ∅ := by
      rw [hfs, listPids_del hclean]
      exact cleaned_eq_empty hlast
    obtain ⟨h, k', hok, husable, hrenewed⟩ := insist_of_fits pid alive hcheck hmax hfits n
    have hnew := hrenewed hlink hlist
    refine ⟨h, k', ?_, husable, hnew.created, hnew.listPids, hnew.unlinks, fun honly => ?_⟩
    · rw [insist, hfail]
      exact hok
    · apply hnew.removes
      rw [hfs]
      exact onlyPids_del honly.makedirs

/-- A call that cannot get over what is left is made in vain, however often. -/
theorem insist_of_stuck (hcheck : a.check = .ok r) (hmax : 1 ≤ r.rounds) (n : ℕ)
    (hf : ¬ Fits r k.fs) (hr : ¬ Recovers a pid alive k.fs) :
    (insist a pid alive n k).1 = none := by
  induction n generalizing k with
  | zero => rfl
  | succ n ih =>
    rcases construct_cases hcheck hmax pid alive k with ⟨hyes, -⟩ | ⟨-, e, k₁, hfail, hfs⟩
    · exact absurd hyes hf
    · have hstuck := stuck_del (k := { k with fs := k.fs.makedirs }) hcheck hf hr
      rw [insist, hfail]
      rw [← hfs] at hstuck
      exact ih hstuck.1 hstuck.2

theorem insist_of_fails (h : ∀ r, a.check = .ok r → r.rounds = 0) (n : ℕ) (k : Kernel) :
    (insist a pid alive n k).1 = none := by
  induction n generalizing k with
  | zero => rfl
  | succ n ih =>
    obtain ⟨e, k', hfail⟩ := construct_fails h pid alive k
    rw [insist, hfail]
    exact ih k'

/-- One call on a segment that does not fit. -/
theorem insist_once (hcheck : a.check = .ok r) (hmax : 1 ≤ r.rounds) (hf : ¬ Fits r k.fs) :
    (insist a pid alive 1 k).1 = none := by
  rcases construct_cases hcheck hmax pid alive k with ⟨hyes, -⟩ | ⟨-, e, k₁, hfail, -⟩
  · exact absurd hyes hf
  · rw [insist, hfail]
    rfl

variable (a pid alive k) in
/-- The condition under which `n` calls are enough. -/
def Enough (n : ℕ) : Prop :=
  ∃ r, a.check = .ok r ∧ 1 ≤ r.maxAttempts ∧ (Fits r k.fs ∨ 2 ≤ n ∧ Recovers a pid alive k.fs)

theorem insist_of_enough {n : ℕ} (hn : 1 ≤ n) (h : Enough a pid alive k n) :
    ∃ h k', insist a pid alive n k = (some h, k') ∧ Usable a pid h k'.fs ∧
      ((∀ r, a.check = .ok r → ¬ Fits r k.fs) → Renewed pid alive k.fs h k'.fs) := by
  obtain ⟨r, hcheck, hpos, hcond⟩ := h
  have hmax := (r.le_rounds Nat.one_pos).2 hpos
  by_cases hf : Fits r k.fs
  · obtain ⟨n, rfl⟩ := Nat.exists_eq_add_of_le' hn
    obtain ⟨h, k', hok, husable, -⟩ := insist_of_fits pid alive hcheck hmax hf n
    exact ⟨h, k', hok, husable, fun hno => absurd hf (hno r hcheck)⟩
  · obtain ⟨htwo, hrec⟩ := hcond.resolve_left hf
    obtain ⟨n, rfl⟩ := Nat.exists_eq_add_of_le' htwo
    obtain ⟨h, k', hok, husable, hrenewed⟩ := insist_of_recovers hcheck hmax hf hrec n
    exact ⟨h, k', hok, husable, fun _ => hrenewed⟩

theorem insist_of_not_enough {n : ℕ} (h : ¬ Enough a pid alive k n) :
    (insist a pid alive n k).1 = none := by
  by_cases hcheck : ∃ r, a.check = .ok r ∧ 1 ≤ r.maxAttempts
  · obtain ⟨r, hcheck, hpos⟩ := hcheck
    have hmax := (r.le_rounds Nat.one_pos).2 hpos
    have hf : ¬ Fits r k.fs := fun hf => h ⟨r, hcheck, hpos, .inl hf⟩
    by_cases hrec : Recovers a pid alive k.fs
    · -- a second call would succeed
      have hn : ¬ 2 ≤ n := fun hn => h ⟨r, hcheck, hpos, .inr ⟨hn, hrec⟩⟩
      obtain rfl | rfl : n = 0 ∨ n = 1 := by omega
      · rfl
      · exact insist_once hcheck hmax hf
    · exact insist_of_stuck hcheck hmax n hf hrec
  · refine insist_of_fails (fun r hr => ?_) n k
    by_contra hne
    exact hcheck ⟨r, hr, (r.le_rounds Nat.one_pos).1 (Nat.one_le_iff_ne_zero.2 hne)⟩

end Insist

/-- Whatever the files of the name are, a caller that calls the constructor again after each
exception gets its segment in the second call or never.  It does if the linked segment is large
enough or there is none and the call may create it, or else if no other live process is listed and
the call may create segments and cleans up on exit; then the segment is a new one and the leftovers
are gone. -/
theorem second_call_recovers (a : Args) (pid : ℕ) (alive : ℕ → Bool) (k : Kernel) :
    (∀ n, (insist a pid alive (n + 1) k).1 ≠ none ↔ Enough a pid alive k (n + 1)) ∧
    ∀ n h k', insist a pid alive n k = (some h, k') → Usable a pid h k'.fs ∧
      ((∀ r, a.check = .ok r → ¬ Fits r k.fs) → Renewed pid alive k.fs h k'.fs) := by
  constructor
  · intro n
    constructor
    · intro hne
      by_contra hno
      exact hne (insist_of_not_enough hno)
    · intro henough
      obtain ⟨h, k', hok, -⟩ := insist_of_enough n.succ_pos henough
      rw [hok]
      exact Option.some_ne_none h
  · intro n h k' hok
    have hn : 1 ≤ n := by
      rw [Nat.one_le_iff_ne_zero]
      rintro rfl
      cases (Prod.mk.inj hok).1
    have henough : Enough a pid alive k n := by
      by_contra hno
      have hnone := insist_of_not_enough hno
      rw [hok] at hnone
      cases hnone
    obtain ⟨h₁, k₁, hok₁, hresult⟩ := insist_of_enough hn henough
    obtain ⟨hh, rfl⟩ := Prod.mk.inj (hok.symm.trans hok₁)
    obtain rfl := Option.some.inj hh
    exact hresult

/-- Process 7 died between `shm_open` and `ftruncate`. -/
def truncated : Kernel := ⟨⟨some 0, fun _ => 0, 1, some ⟨{7}, ∅⟩⟩, ∅⟩

/-- What it has left is in the way of the first call of process 8. -/
example :
    (insist larger 8 (fun q => q = 8) 1 truncated).1 = none ∧
      (insist larger 8 (fun q => q = 8) 2 truncated).1 = some ⟨1, 100, true⟩ := by
  simp only [insist, construct, check_larger]
  decide +kernel

end GuardedSharedMemory
