import PyFastIpc.Lib.Transition

/-!
# The ideal lock

What a mutual-exclusion lock is for: its state is the thread that has it, if any.  `acquire` needs
the lock to be free, `release` needs the releasing thread to have it.  A program that keeps one
flag per thread implements the lock when its flags agree with some such state (`Agrees`); mutual
exclusion is then `Agrees.unique`.
-/

namespace Lock

variable {ι : Type*}

inductive Event (ι : Type*) where
  | acquire (i : ι)
  | release (i : ι)

/-- One step of the ideal lock. -/
def step [DecidableEq ι] : Option ι → Event ι → Option (Option ι)
  | none, .acquire i => some (some i)
  | some j, .release i => if i = j then some none else none
  | _, _ => none

/-- The ideal lock, initially free. -/
def system [DecidableEq ι] : Transition (Option ι) (Event ι) where
  Init h := h = none
  step := step

/-- The flags of the threads agree with the state of the lock. -/
def Agrees (h : Option ι) (flag : ι → Bool) : Prop := ∀ i, flag i = true ↔ h = some i

theorem Agrees.unique {h : Option ι} {flag : ι → Bool} (ha : Agrees h flag) {i j : ι}
    (hi : flag i = true) (hj : flag j = true) : i = j :=
  Option.some.inj (((ha i).1 hi).symm.trans ((ha j).1 hj))

theorem Agrees.exists_iff {h : Option ι} {flag : ι → Bool} (ha : Agrees h flag) :
    (∃ i, flag i = true) ↔ h ≠ none := by
  rw [Option.ne_none_iff_exists']
  exact exists_congr ha

end Lock
