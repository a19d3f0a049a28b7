import PyFastIpc.Shm.Handles

/-!
# Handles that share a pid file

The pid directory has one file per pid, but a process can have several handles of one name, and a
forked child has its parent's handles with its parent's pid in them.  The first of them that is
closed takes the file with it, and if no other alive pid is listed it unlinks the segment that the
others still map (`close_strands`).

When every close of a name that is still open elsewhere finds another alive pid in the directory
(`CloseSafe`), all open handles keep mapping the linked segment, and a close leaves the others
alone exactly when it meets that condition (`close_keeps_others`).
-/

namespace GuardedSharedMemory

namespace World

/-- The open handles of live processes other than the `k`-th object. -/
def others (w : World) (k : ℕ) : List Handle :=
  (w.handles.eraseIdx k).filter fun h => h.isOpen && w.alive h.proc

/-- A close of the name while it is open elsewhere finds an alive pid besides its own. -/
def CloseSafe (w : World) : Event → Prop
  | .close k => ∀ h ∈ w.handles[k]?, h.closed = false → w.others k ≠ [] →
      hasOtherAlivePids w.alive h.pid w.fs = true
  | _ => True

/-- No object was constructed yet. -/
def NoHandles (w : World) : Prop := w.handles = []

/-- The open handles of live processes map the linked segment, and no handle unlinks before it is
closed. -/
structure Linked (w : World) : Prop where
  link : ∀ h ∈ w.handles, h.isOpen = true → w.alive h.proc = true → h.mmap = w.fs.link
  once : ∀ h ∈ w.handles, h.closed = false → h.unlinked = false

variable {w : World}

theorem mem_others {k : ℕ} {h : Handle} :
    h ∈ w.others k ↔ (∃ j, j ≠ k ∧ w.handles[j]? = some h) ∧ h.isOpen = true ∧
      w.alive h.proc = true := by
  simp [others, List.mem_eraseIdx_iff_getElem?]

theorem Linked.others (hL : Linked w) {k : ℕ} {h : Handle} (hh : h ∈ w.others k) :
    h.mmap = w.fs.link := by
  obtain ⟨⟨j, -, hj⟩, hopen, halive⟩ := mem_others.1 hh
  exact hL.link h (List.mem_of_getElem? hj) hopen halive

/-- Closing the `k`-th object leaves the other objects alone. -/
theorem others_close (w : World) (k : ℕ) (h : Handle) : (w.close k h).others k = w.others k := by
  have hset : (w.close k h).handles.eraseIdx k = w.handles.eraseIdx k := List.eraseIdx_set_eq
  rw [others, hset]
  rfl

theorem mmap_of_isOpen {h : Handle} (ho : h.isOpen = true) : h.mmap ≠ none := by
  simp only [Handle.isOpen, Bool.and_eq_true, Option.isSome_iff_ne_none] at ho
  exact ho.2

theorem closed_of_isOpen {h : Handle} (ho : h.isOpen = true) : h.closed = false := by
  simp only [Handle.isOpen, Bool.and_eq_true, Bool.not_eq_true'] at ho
  exact ho.1

theorem Linked.construct (hL : Linked w) (pid : ℕ) (r : Request) : Linked (w.construct pid r) := by
  rcases init_spec r pid w.fs with ⟨e, he⟩ | ⟨m, fs', he, hlink, hbefore, -, -⟩
  · -- the object of a constructor that raised is not open
    simp only [World.construct, he]
    refine ⟨fun h hh hopen halive => ?_, fun h hh hc => ?_⟩
    · rcases List.mem_append.1 hh with hh | hh
      · exact hL.link h hh hopen halive
      · obtain rfl := List.mem_singleton.1 hh
        simp [Handle.new, Handle.isOpen] at hopen
    · rcases List.mem_append.1 hh with hh | hh
      · exact hL.once h hh hc
      · obtain rfl := List.mem_singleton.1 hh
        rfl
  · simp only [World.construct, he]
    refine ⟨fun h hh hopen halive => ?_, fun h hh hc => ?_⟩
    · rcases List.mem_append.1 hh with hh | hh
      · -- an open handle means that the name was linked before
        have hmmap : h.mmap = w.fs.link := hL.link h hh hopen halive
        rcases hbefore with hnone | hsome
        · exact absurd (hmmap.trans hnone) (mmap_of_isOpen hopen)
        · rw [hmmap, hsome, hlink]
      · obtain rfl := List.mem_singleton.1 hh
        exact hlink.symm
    · rcases List.mem_append.1 hh with hh | hh
      · exact hL.once h hh hc
      · obtain rfl := List.mem_singleton.1 hh
        rfl

/-- The objects that are open after the first close of the `k`-th one. -/
theorem mem_others_of_close {k : ℕ} {h h' : Handle} (hc : h.closed = false)
    (hh : h' ∈ (w.close k h).handles) (hopen : h'.isOpen = true) (halive : w.alive h'.proc = true) :
    h' ∈ w.others k := by
  obtain ⟨j, hj⟩ := List.mem_iff_getElem?.1 hh
  by_cases hjk : j = k
  · -- the closed object itself
    subst hjk
    obtain ⟨-, rfl⟩ : j < w.handles.length ∧ (h.close w.alive w.fs).1 = h' := by
      simpa [World.close, List.getElem?_set, Option.ite_none_right_eq_some] using hj
    have hclosed := closed_of_isOpen hopen
    simp [Handle.closed_close hc] at hclosed
  · rw [World.close, List.getElem?_set_ne (Ne.symm hjk)] at hj
    exact mem_others.2 ⟨⟨j, hjk, hj⟩, hopen, halive⟩

theorem Linked.close (hL : Linked w) {k : ℕ} {h : Handle} (hk : w.handles[k]? = some h)
    (hsafe : CloseSafe w (.close k)) : Linked (w.close k h) := by
  cases hc : h.closed with
  | true => rwa [close_of_closed hk hc]
  | false =>
    have honce : h.unlinked = false := hL.once h (List.mem_of_getElem? hk) hc
    refine ⟨fun h' hh hopen halive => ?_, fun h' hh hc' => ?_⟩
    · have hother : h' ∈ w.others k := mem_others_of_close hc hh hopen halive
      have hlisted := hsafe h hk hc (List.ne_nil_of_mem hother)
      rw [hL.others hother, World.close, Handle.close_of_others hc hlisted]
      rfl
    · rcases List.mem_or_eq_of_mem_set hh with hh | rfl
      · exact hL.once h' hh hc'
      · simp [Handle.closed_close hc] at hc'

theorem Linked.step {w' : World} {e : Event} (hL : Linked w) (hsafe : CloseSafe w e)
    (hs : w.step e = some w') : Linked w' := by
  cases e with
  | construct pid r =>
    simp only [World.step] at hs
    split_ifs at hs with halive
    obtain rfl := Option.some.inj hs
    exact hL.construct pid r
  | close k =>
    obtain ⟨h, hk, -, rfl⟩ := step_close_eq_some hs
    exact hL.close hk hsafe
  | fork parent child =>
    simp only [World.step] at hs
    split_ifs at hs with hnew
    obtain rfl := Option.some.inj hs
    obtain ⟨hparent, -, -⟩ := hnew
    have hcopy (h : Handle) (hh : h ∈ (w.handles.filter fun h => h.proc = parent).map
        fun h => { h with proc := child }) :
        ∃ h' ∈ w.handles, h'.proc = parent ∧ h = { h' with proc := child } := by
      simpa [and_assoc, eq_comm] using hh
    refine ⟨fun h hh hopen halive => ?_, fun h hh hc => ?_⟩
    · rcases List.mem_append.1 hh with hh | hh
      · exact hL.link h hh hopen halive
      · obtain ⟨h', hh', hproc, rfl⟩ := hcopy h hh
        exact hL.link h' hh' hopen (by rwa [hproc])
    · rcases List.mem_append.1 hh with hh | hh
      · exact hL.once h hh hc
      · obtain ⟨h', hh', -, rfl⟩ := hcopy h hh
        exact hL.once h' hh' hc
  | die pid =>
    simp only [World.step] at hs
    split_ifs at hs with halive
    obtain rfl := Option.some.inj hs
    refine ⟨fun h hh hopen hlive => hL.link h hh hopen ?_, hL.once⟩
    simp only [alive, Finset.mem_insert, not_or, decide_eq_true_eq] at hlive ⊢
    exact hlive.2

theorem linked_of_reach (h : (system NoHandles).Reach CloseSafe w) : Linked w := by
  refine h.invariant Linked (fun w hw => ?_) fun w e w' _ hL hsafe hs => hL.step hsafe hs
  have hnone : w.handles = [] := hw
  exact ⟨by simp [hnone], by simp [hnone]⟩

/-- In a history whose closes all find another alive pid when the name is open elsewhere, the open
handles of live processes map the linked segment; and the next close leaves the other open handles
with the linked segment exactly when it meets that condition too. -/
theorem close_keeps_others (h : (system NoHandles).Reach CloseSafe w) :
    (∀ h ∈ w.handles, h.isOpen = true → w.alive h.proc = true → h.mmap = w.fs.link) ∧
    ∀ k w', w.step (.close k) = some w' →
      ((∀ h ∈ w'.others k, h.mmap = w'.fs.link) ↔ CloseSafe w (.close k)) := by
  have hL := linked_of_reach h
  refine ⟨hL.link, fun k w' hs => ⟨fun hkept h hk hc hne => ?_, fun hsafe h' hh => ?_⟩⟩
  · obtain ⟨h₁, hk₁, -, rfl⟩ := step_close_eq_some hs
    obtain rfl : h₁ = h := Option.some.inj (hk₁.symm.trans hk)
    by_contra hlast
    rw [Bool.not_eq_true] at hlast
    -- the close unlinks under another open handle
    obtain ⟨h', hh⟩ := List.exists_mem_of_ne_nil _ hne
    have hunlinked : (w.close k h₁).fs.link = none := by
      rw [World.close, Handle.close_of_last hc (hL.once h₁ (List.mem_of_getElem? hk) hc) hlast]
      exact Fs.link_rmdir _
    have hmmap := hkept h' (by rwa [others_close])
    exact mmap_of_isOpen (mem_others.1 hh).2.1 (hmmap.trans hunlinked)
  · exact (hL.step hsafe hs).others hh

instance (w : World) (e : Event) : Decidable (CloseSafe w e) :=
  match e with
  | .close k => inferInstanceAs (Decidable (∀ h ∈ w.handles[k]?, _ → _ → _))
  | .construct _ _ | .fork _ _ | .die _ => isTrue trivial

/-- The name is not linked and has no pid directory. -/
def blank : World := ⟨⟨none, fun _ => 0, 0, none⟩, ∅, []⟩

theorem noHandles_blank : NoHandles blank := rfl

/-- Processes 1 and 2 open the name, process 1 twice, and process 1 closes once. -/
def kept : World :=
  (system NoHandles).exec CloseSafe blank
    [.construct 1 (request 63), .construct 2 (request 63), .construct 1 (request 63), .close 0]

theorem close_keeps_others_kept :
    kept.handles.map Handle.isOpen = [false, true, true] ∧
      ∀ h ∈ kept.handles, h.isOpen = true → kept.alive h.proc = true → h.mmap = kept.fs.link :=
  ⟨by decide +kernel, (close_keeps_others (.exec _ (.init noHandles_blank))).1⟩

/-- A process with two handles closes one of them. -/
def stranded : World :=
  (system NoHandles).exec (fun _ _ => True) blank
    [.construct 1 (request 63), .construct 1 (request 63), .close 0]

/-- A process closes its handle after a fork. -/
def orphaned : World :=
  (system NoHandles).exec (fun _ _ => True) blank [.construct 1 (request 63), .fork 1 2, .close 0]

/-- Without the condition, the name is unlinked under the other handle of the process, and under
the handle of its child. -/
theorem close_strands :
    (¬ ∀ w, (system NoHandles).Reach (fun _ _ => True) w → ∀ h ∈ w.handles, h.isOpen = true →
      w.alive h.proc = true → h.mmap = w.fs.link) ∧
    (stranded.others 0 = [⟨1, 1, 64, false, some 0, false, false⟩] ∧ stranded.fs.link = none) ∧
    (orphaned.others 0 = [⟨2, 1, 64, true, some 0, false, false⟩] ∧ orphaned.fs.link = none) := by
  have hopen : stranded.others 0 = [⟨1, 1, 64, false, some 0, false, false⟩] := by decide +kernel
  have hlink : stranded.fs.link = none := by decide +kernel
  refine ⟨fun hall => ?_, ⟨hopen, hlink⟩, by decide +kernel, by decide +kernel⟩
  obtain ⟨⟨j, -, hj⟩, ho, halive⟩ := mem_others.1 (hopen ▸ List.mem_singleton_self _)
  have hmmap := hall stranded (.exec _ (.init noHandles_blank)) _ (List.mem_of_getElem? hj) ho
    halive
  simp [hlink] at hmmap

end World

end GuardedSharedMemory
