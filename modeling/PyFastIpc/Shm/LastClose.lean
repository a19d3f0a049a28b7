import PyFastIpc.Shm.Sharing
import Mathlib.Data.Set.Card

/-!
# The last close cleans up

When every process has at most one open handle, the pid directory tells who uses the name: the
alive pids in it are the processes with an open handle (`Tidy`), whatever files dead processes have
left.  So `close` finds out correctly whether it is the last one, and leaves no trace of the name if
it is (`close_cleans_up`).
-/

namespace GuardedSharedMemory

namespace World

/-- The live processes that have an open handle. -/
def users (w : World) : Set ℕ :=
  {q | w.alive q = true ∧ ∃ h ∈ w.handles, h.isOpen = true ∧ h.proc = q}

/-- Constructors succeed, in processes that have no open handle, and nobody forks. -/
def OneEach (w : World) : Event → Prop
  | .construct pid r => (init r pid w.fs).1.toBool = true ∧
      ∀ h ∈ w.handles, h.proc = pid → h.isOpen = false
  | .fork _ _ => False
  | _ => True

/-- No object was constructed yet; the pid directory may hold files of dead processes, and the name
may be linked. -/
def Leftover (w : World) : Prop :=
  w.handles = [] ∧ (∀ q ∈ w.fs.listPids, w.alive q = false) ∧ w.fs.OnlyPids

/-- The pid directory tells who uses the name. -/
structure Tidy (w : World) : Prop where
  linked : Linked w
  own : ∀ h ∈ w.handles, h.pid = h.proc
  mapped : ∀ h ∈ w.handles, h.closed = false → h.isOpen = true
  one : ∀ (j k : ℕ) (h h' : Handle), w.handles[j]? = some h → w.handles[k]? = some h' →
    h.isOpen = true → h'.isOpen = true → h.proc = h'.proc → j = k
  listed : ∀ q, w.alive q = true →
    (q ∈ w.fs.listPids ↔ ∃ h ∈ w.handles, h.isOpen = true ∧ h.proc = q)
  others : w.fs.OnlyPids

variable {w : World}

theorem Tidy.leftover (hw : Leftover w) : Tidy w := by
  obtain ⟨hnone, hdead, hothers⟩ := hw
  refine ⟨⟨by simp [hnone], by simp [hnone]⟩, by simp [hnone], by simp [hnone], by simp [hnone],
    fun q halive => ?_, hothers⟩
  have hnot : q ∉ w.fs.listPids := fun hq => by simp [hdead q hq] at halive
  simp [hnot, hnone]

/-- The alive pids besides the own one are those of the other open handles. -/
theorem Tidy.hasOtherAlivePids_iff (hT : Tidy w) {k : ℕ} {h : Handle}
    (hk : w.handles[k]? = some h) (hopen : h.isOpen = true) :
    hasOtherAlivePids w.alive h.pid w.fs = true ↔ w.others k ≠ [] := by
  rw [GuardedSharedMemory.hasOtherAlivePids_iff, hT.own h (List.mem_of_getElem? hk)]
  constructor
  · rintro ⟨q, hq, hne, halive⟩
    obtain ⟨h', hh', hopen', rfl⟩ := (hT.listed q halive).1 hq
    obtain ⟨j, hj⟩ := List.mem_iff_getElem?.1 hh'
    have hjk : j ≠ k := by
      rintro rfl
      obtain rfl : h' = h := Option.some.inj (hj.symm.trans hk)
      exact hne rfl
    exact List.ne_nil_of_mem (mem_others.2 ⟨⟨j, hjk, hj⟩, hopen', halive⟩)
  · intro hne
    obtain ⟨h', hh'⟩ := List.exists_mem_of_ne_nil _ hne
    obtain ⟨⟨j, hjk, hj⟩, hopen', halive⟩ := mem_others.1 hh'
    refine ⟨h'.proc, (hT.listed _ halive).2 ⟨h', List.mem_of_getElem? hj, hopen', rfl⟩, ?_, halive⟩
    exact fun heq => hjk (hT.one j k h' h hj hk hopen' hopen heq)

theorem Tidy.closeSafe (hT : Tidy w) (k : ℕ) : CloseSafe w (.close k) := fun h hk hc hne =>
  (hT.hasOtherAlivePids_iff hk (hT.mapped h (List.mem_of_getElem? hk) hc)).2 hne

theorem getElem?_concat {l : List Handle} {x h : Handle} {j : ℕ} (hj : (l ++ [x])[j]? = some h) :
    l[j]? = some h ∨ j = l.length ∧ h = x := by
  rw [List.getElem?_append] at hj
  split_ifs at hj with hlt
  · exact .inl hj
  · obtain ⟨hlt', rfl⟩ := List.getElem?_eq_some_iff.1 hj
    simp only [List.length_singleton] at hlt'
    exact .inr ⟨by omega, by simp⟩

theorem Tidy.construct (hT : Tidy w) {pid : ℕ} {r : Request}
    (hok : OneEach w (.construct pid r)) : Tidy (w.construct pid r) := by
  obtain ⟨hsuccess, hnone⟩ := hok
  have hlinked := hT.linked.construct pid r
  rcases init_spec r pid w.fs with ⟨e, he⟩ | ⟨m, fs', he, -, -, hlist, d, hd, hothers⟩
  · simp [he, Except.toBool] at hsuccess
  · simp only [World.construct, he] at hlinked ⊢
    obtain ⟨x, hx⟩ : ∃ x, x = Handle.new r pid (.ok m) := ⟨_, rfl⟩
    have hproc : x.proc = pid ∧ x.pid = pid ∧ x.isOpen = true := by
      subst hx
      exact ⟨rfl, rfl, rfl⟩
    rw [← hx] at hlinked ⊢
    refine ⟨hlinked, fun h hh => ?_, fun h hh hc => ?_, fun j k h h' hj hk ho ho' heq => ?_,
      fun q hq => ?_, fun d' hd' => ?_⟩
    · rcases List.mem_append.1 hh with hh | hh
      · exact hT.own h hh
      · obtain rfl := List.mem_singleton.1 hh
        exact hproc.2.1.trans hproc.1.symm
    · rcases List.mem_append.1 hh with hh | hh
      · exact hT.mapped h hh hc
      · obtain rfl := List.mem_singleton.1 hh
        exact hproc.2.2
    · -- a handle of the process that was open before
      have hold {l : ℕ} {y : Handle} (hl : w.handles[l]? = some y) (hy : y.isOpen = true)
          (hp : y.proc = pid) : False := by
        simp [hnone y (List.mem_of_getElem? hl) hp] at hy
      rcases getElem?_concat hj with hj' | ⟨hj', rfl⟩
      · rcases getElem?_concat hk with hk' | ⟨hk', rfl⟩
        · exact hT.one j k h h' hj' hk' ho ho' heq
        · exact (hold hj' ho (heq.trans hproc.1)).elim
      · rcases getElem?_concat hk with hk' | ⟨hk', rfl⟩
        · exact (hold hk' ho' (heq.symm.trans hproc.1)).elim
        · rw [hj', hk']
    · rw [hlist, Finset.mem_insert, hT.listed q hq]
      simp only [List.mem_append, List.mem_singleton, or_and_right, exists_or, exists_eq_left,
        hproc, true_and]
      exact or_comm.trans (or_congr_right eq_comm)
    · obtain rfl : d = d' := by simpa [hd] using hd'
      rw [hothers, hT.others.getD]

theorem Tidy.close (hT : Tidy w) {k : ℕ} {h : Handle} (hk : w.handles[k]? = some h) :
    Tidy (w.close k h) := by
  cases hc : h.closed with
  | true => rwa [close_of_closed hk hc]
  | false =>
    have hopen : h.isOpen = true := hT.mapped h (List.mem_of_getElem? hk) hc
    have hclosed : (h.close w.alive w.fs).1.isOpen = false := by
      simp [Handle.isOpen, Handle.closed_close hc]
    have hindex {j : ℕ} {h' : Handle} (hj : (w.close k h).handles[j]? = some h')
        (ho : h'.isOpen = true) : j ≠ k ∧ w.handles[j]? = some h' := by
      rw [World.close, List.getElem?_set] at hj
      split_ifs at hj with hjk hlt
      · obtain rfl := Option.some.inj hj
        simp [hclosed] at ho
      · exact ⟨fun h => hjk h.symm, hj⟩
    refine ⟨hT.linked.close hk (hT.closeSafe k), fun h' hh => ?_, fun h' hh hc' => ?_,
      fun j l h' h'' hj hl ho ho' heq => ?_, fun q hq => ?_, fun d' hd' => ?_⟩
    · rcases List.mem_or_eq_of_mem_set hh with hh | rfl
      · exact hT.own h' hh
      · obtain ⟨hpid, hproc⟩ := h.pid_close
        rw [hpid, hproc]
        exact hT.own h (List.mem_of_getElem? hk)
    · rcases List.mem_or_eq_of_mem_set hh with hh | rfl
      · exact hT.mapped h' hh hc'
      · simp [Handle.closed_close hc] at hc'
    · exact hT.one j l h' h'' (hindex hj ho).2 (hindex hl ho').2 ho ho' heq
    · have halive : w.alive q = true := hq
      rw [World.close, Handle.listPids_close hc, Finset.mem_erase, Finset.mem_filter,
        hT.listed q halive, hT.own h (List.mem_of_getElem? hk)]
      constructor
      · rintro ⟨hne, ⟨h', hh', ho', rfl⟩, -⟩
        obtain ⟨j, hj⟩ := List.mem_iff_getElem?.1 hh'
        have hjk : k ≠ j := by
          rintro rfl
          obtain rfl : h' = h := Option.some.inj (hj.symm.trans hk)
          exact hne rfl
        refine ⟨h', List.mem_iff_getElem?.2 ⟨j, ?_⟩, ho', rfl⟩
        rwa [List.getElem?_set_ne hjk]
      · rintro ⟨h', hh', ho', rfl⟩
        obtain ⟨j, hj⟩ := List.mem_iff_getElem?.1 hh'
        obtain ⟨hjk, hj⟩ := hindex hj ho'
        refine ⟨fun heq => hjk (hT.one j k h' h hj hk ho' hopen heq), ?_, halive⟩
        exact ⟨h', List.mem_of_getElem? hj, ho', rfl⟩
    · exact Handle.onlyPids_close hT.others d' hd'

theorem Tidy.step {w' : World} {e : Event} (hT : Tidy w) (hok : OneEach w e)
    (hs : w.step e = some w') : Tidy w' := by
  cases e with
  | construct pid r =>
    simp only [World.step] at hs
    split_ifs at hs with halive
    obtain rfl := Option.some.inj hs
    exact hT.construct hok
  | close k =>
    obtain ⟨h, hk, -, rfl⟩ := step_close_eq_some hs
    exact hT.close hk
  | fork parent child => exact hok.elim
  | die pid =>
    have hsafe : CloseSafe w (.die pid) := trivial
    have hlinked := hT.linked.step hsafe hs
    simp only [World.step] at hs
    split_ifs at hs with halive
    obtain rfl := Option.some.inj hs
    refine ⟨hlinked, hT.own, hT.mapped, hT.one, fun q hq => hT.listed q ?_, hT.others⟩
    simp only [alive, Finset.mem_insert, not_or, decide_eq_true_eq] at hq ⊢
    exact hq.2

theorem tidy_of_reach (h : (system Leftover).Reach OneEach w) : Tidy w :=
  h.invariant Tidy (fun _ => .leftover) fun _ _ _ _ hT hok hs => hT.step hok hs

/-- The users after the first close of an object are those who have the other open handles. -/
theorem users_close {k : ℕ} {h : Handle} (hc : h.closed = false) :
    (w.close k h).users.Nonempty ↔ w.others k ≠ [] := by
  constructor
  · rintro ⟨q, halive, h', hh', hopen, rfl⟩
    exact List.ne_nil_of_mem (mem_others_of_close hc hh' hopen halive)
  · intro hne
    obtain ⟨h', hh'⟩ := List.exists_mem_of_ne_nil _ hne
    rw [← others_close w k h] at hh'
    obtain ⟨⟨j, -, hj⟩, hopen, halive⟩ := mem_others.1 hh'
    exact ⟨h'.proc, halive, h', List.mem_of_getElem? hj, hopen, rfl⟩

/-- The last close cleans up.  After the first close of a handle the pid directory lists exactly the
live processes that still have an open handle, the segment is linked if and only if there are any,
and otherwise the directory is gone too; closing the handle again changes nothing. -/
theorem close_cleans_up (h : (system Leftover).Reach OneEach w) :
    (∀ k h w', w.handles[k]? = some h → h.closed = false → w.step (.close k) = some w' →
      (∀ q, q ∈ w'.fs.listPids ↔ q ∈ w'.users) ∧ (w'.fs.link ≠ none ↔ w'.users.Nonempty) ∧
      (w'.users = ∅ → w'.fs.dir = none)) ∧
    (∀ k h w', w.handles[k]? = some h → h.closed = true → w.step (.close k) = some w' →
      w' = w) := by
  have hT := tidy_of_reach h
  refine ⟨fun k h w' hk hc hs => ?_, fun k h w' hk hc hs => ?_⟩
  · obtain ⟨h₁, hk₁, -, rfl⟩ := step_close_eq_some hs
    obtain rfl : h₁ = h := Option.some.inj (hk₁.symm.trans hk)
    have hmem : h₁ ∈ w.handles := List.mem_of_getElem? hk
    have hlisted (q : ℕ) : q ∈ (w.close k h₁).fs.listPids ↔ q ∈ (w.close k h₁).users := by
      have halive (hq : q ∈ (w.close k h₁).fs.listPids) : w.alive q = true := by
        rw [World.close, Handle.listPids_close hc] at hq
        exact (Finset.mem_filter.1 (Finset.mem_of_mem_erase hq)).2
      have hiff := (hT.close hk).listed q
      exact ⟨fun hq => ⟨halive hq, (hiff (halive hq)).1 hq⟩, fun hq => (hiff hq.1).2 hq.2⟩
    have husers : (w.close k h₁).users.Nonempty ↔ w.others k ≠ [] := users_close hc
    have hothers := hT.hasOtherAlivePids_iff hk (hT.mapped h₁ hmem hc)
    refine ⟨hlisted, ?_, fun hempty => ?_⟩
    · rw [husers]
      cases hlast : hasOtherAlivePids w.alive h₁.pid w.fs with
      | true =>
        -- another open handle maps the linked segment
        have hne := hothers.1 hlast
        obtain ⟨h', hh'⟩ := List.exists_mem_of_ne_nil _ hne
        have hlink : w.fs.link ≠ none := by
          rw [← hT.linked.others hh']
          exact mmap_of_isOpen (mem_others.1 hh').2.1
        rw [World.close, Handle.close_of_others hc hlast]
        exact ⟨fun _ => hne, fun _ => hlink⟩
      | false =>
        have hnone : w.others k = [] := by
          by_contra hne
          simp [hothers.2 hne] at hlast
        rw [World.close, Handle.close_of_last hc (hT.linked.once h₁ hmem hc) hlast]
        simp [hnone, Fs.shmUnlink]
    · have hlast : hasOtherAlivePids w.alive h₁.pid w.fs = false := by
        rw [← Bool.not_eq_true, hothers, ← husers, hempty]
        exact Set.not_nonempty_empty
      have hnone : (w.close k h₁).fs.listPids = ∅ :=
        Finset.eq_empty_of_forall_notMem fun q hq => by simpa [hempty] using (hlisted q).1 hq
      exact Handle.dir_close hc (hT.linked.once h₁ hmem hc) hlast hT.others hnone
  · obtain ⟨h₁, hk₁, -, rfl⟩ := step_close_eq_some hs
    obtain rfl : h₁ = h := Option.some.inj (hk₁.symm.trans hk)
    exact close_of_closed hk hc

instance (w : World) (e : Event) : Decidable (OneEach w e) :=
  match e with
  | .construct _ _ => inferInstanceAs (Decidable (_ = true ∧ ∀ h ∈ w.handles, _ → _))
  | .fork _ _ => isFalse id
  | .close _ | .die _ => isTrue trivial

theorem leftover_blank : Leftover blank := ⟨rfl, by simp [blank, Fs.listPids, Dir.empty], nofun⟩

/-- Process 1 dies with its handle open, process 2 opens the name too. -/
def crashed : World :=
  (system Leftover).exec OneEach blank
    [.construct 1 (request 63), .die 1, .construct 2 (request 31)]

/-- The handle of process 2. -/
def survivor : Handle := ⟨2, 2, 64, false, some 0, false, false⟩

/-- When process 2 closes, the file and the segment that process 1 left are gone too. -/
theorem close_cleans_up_crashed :
    crashed.fs.listPids = {1, 2} ∧ (crashed.close 1 survivor).fs.link = none ∧
      (crashed.close 1 survivor).fs.dir = none := by
  have hk : crashed.handles[1]? = some survivor := by decide +kernel
  have halive : crashed.alive survivor.proc = true := by decide +kernel
  have hs : crashed.step (.close 1) = some (crashed.close 1 survivor) := by
    simp [World.step, hk, halive]
  obtain ⟨hlisted, hlink, hdir⟩ :=
    (close_cleans_up (.exec _ (.init leftover_blank))).1 1 survivor _ hk rfl hs
  have hnone : (crashed.close 1 survivor).fs.listPids = ∅ := by decide +kernel
  have hempty : (crashed.close 1 survivor).users = ∅ :=
    Set.eq_empty_of_forall_notMem fun q hq => by simpa [hnone] using (hlisted q).2 hq
  refine ⟨by decide +kernel, ?_, hdir hempty⟩
  simpa [hempty] using hlink

/-! ## The number of users -/

/-- `get_num_procs`, the length of the directory listing; 0 when there is no directory. -/
def getNumProcs (fs : Fs) : ℕ :=
  match fs.dir with
  | some d => d.pids.card + d.others.card
  | none => 0

theorem getNumProcs_eq {fs : Fs} (h : fs.OnlyPids) : getNumProcs fs = fs.listPids.card := by
  unfold getNumProcs Fs.listPids
  cases hdir : fs.dir with
  | some d => simp [h d hdir]
  | none => rfl

/-- The files of dead processes. -/
def stale (w : World) : Finset ℕ := w.fs.listPids.filter fun q => w.alive q = false

/-- The directory lists the users and the dead. -/
theorem Tidy.card_listPids (hT : Tidy w) :
    w.fs.listPids.card = w.users.ncard + w.stale.card := by
  have husers : w.users = ↑(w.fs.listPids.filter fun q => w.alive q = true) := by
    ext q
    rw [Finset.mem_coe, Finset.mem_filter]
    constructor
    · intro hq
      exact ⟨(hT.listed q hq.1).2 hq.2, hq.1⟩
    · intro hq
      exact ⟨hq.2, (hT.listed q hq.2).1 hq.1⟩
  rw [husers, Set.ncard_coe_finset, stale]
  have hsplit := Finset.card_filter_add_card_filter_not (s := w.fs.listPids)
    fun q => w.alive q = true
  simpa only [Bool.not_eq_true] using hsplit.symm

/-- `get_num_procs` counts the live processes that have an open handle, and the files of processes
that died with theirs open until the next close removes them. -/
theorem num_procs_exact (h : (system Leftover).Reach OneEach w) :
    getNumProcs w.fs = w.users.ncard + w.stale.card ∧
    ∀ k h w', w.handles[k]? = some h → h.closed = false → w.step (.close k) = some w' →
      getNumProcs w'.fs = w'.users.ncard := by
  have hT := tidy_of_reach h
  refine ⟨(getNumProcs_eq hT.others).trans hT.card_listPids, fun k h w' hk hc hs => ?_⟩
  obtain ⟨h₁, hk₁, -, rfl⟩ := step_close_eq_some hs
  obtain rfl : h₁ = h := Option.some.inj (hk₁.symm.trans hk)
  have hT' := hT.close hk
  have hnone : (w.close k h₁).stale = ∅ := by
    refine Finset.filter_eq_empty_iff.2 fun q hq hdead => ?_
    rw [World.close, Handle.listPids_close hc] at hq
    have halive : w.alive q = true := (Finset.mem_filter.1 (Finset.mem_of_mem_erase hq)).2
    have hdead : w.alive q = false := hdead
    rw [halive] at hdead
    cases hdead
  rw [getNumProcs_eq hT'.others, hT'.card_listPids, hnone, Finset.card_empty, Nat.add_zero]

/-- After the death of process 1 the file that it has left is counted. -/
theorem num_procs_exact_crashed :
    getNumProcs crashed.fs = 2 ∧ crashed.stale = {1} ∧ crashed.users.ncard = 1 ∧
      getNumProcs (crashed.close 1 survivor).fs = (crashed.close 1 survivor).users.ncard := by
  have hr : (system Leftover).Reach OneEach crashed := .exec _ (.init leftover_blank)
  have htwo : getNumProcs crashed.fs = 2 := by decide +kernel
  have hstale : crashed.stale = {1} := by decide +kernel
  have hcount := (num_procs_exact hr).1
  rw [htwo, hstale, Finset.card_singleton] at hcount
  have hk : crashed.handles[1]? = some survivor := by decide +kernel
  have halive : crashed.alive survivor.proc = true := by decide +kernel
  have hs : crashed.step (.close 1) = some (crashed.close 1 survivor) := by
    simp [World.step, hk, halive]
  exact ⟨htwo, hstale, by omega, (num_procs_exact hr).2 1 survivor _ hk rfl hs⟩

end World

end GuardedSharedMemory
