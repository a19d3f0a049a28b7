import PyFastIpc.Lib.CInt
import Mathlib.Algebra.Order.Ring.Int
import Mathlib.Tactic.SplitIfs

/-!
# Atomic words

`AtomicU32`, `AtomicU64` and the two accessors of `FutexWord` of `_primitives.c`.  They do the same,
except for how they convert a Python int, so a word type is a `Kind`: the conversion of an argument
and the value of a word.  All three conversions reduce an int first; what differs is by how many
bits, and whether the result is checked (`Kind.Reduces`).
-/

namespace Atomic

/-- The `OverflowError` of `AtomicU32`. -/
inductive Error where
  | outOfRange
  deriving DecidableEq

def Error.message : Error → String
  | .outOfRange => "value out of range for uint32"

/-- A type of words: how its methods take a Python int, and the int that a word is. -/
structure Kind (W : Type) where
  parse : ℤ → Except Error W
  toInt : W → ℤ

namespace Kind

variable {W : Type} (K : Kind W)

def load : EStateM Error W ℤ := do
  let word ← get
  return K.toInt word

def store (v : ℤ) : EStateM Error W Unit :=
  match K.parse v with
  | .ok word => set word
  | .error e => throw e

/-- The strong compare-and-swap; both arguments are converted before it. -/
def cas [DecidableEq W] (expected new : ℤ) : EStateM Error W Bool :=
  match K.parse expected, K.parse new with
  | .ok expected, .ok desired => do
    let word ← get
    if word = expected then
      set desired
      return true
    else return false
  | .error e, _ => throw e
  | .ok _, .error e => throw e

end Kind

end Atomic

namespace AtomicU32

open Atomic

/-- The unit 'k', and the guard where `unsigned long` is wider than 32 bits. -/
def kind : Kind UInt32 where
  parse v :=
    if 0xFFFFFFFF < CInt.parseK v then .error .outOfRange else .ok (CInt.parseK v).toUInt32
  toInt word := word.toNat

def load := kind.load

def store := kind.store

def cas := kind.cas

end AtomicU32

namespace AtomicU64

open Atomic

/-- The unit 'K'. -/
def kind : Kind UInt64 where
  parse v := .ok (CInt.parseK v)
  toInt word := word.toNat

def load := kind.load

def store := kind.store

def cas := kind.cas

end AtomicU64

namespace FutexWord

open Atomic

/-- The unit 'I'. -/
def kind : Kind UInt32 where
  parse v := .ok (CInt.parseI v)
  toInt word := word.toNat

def loadAcquire := kind.load

def storeRelease := kind.store

end FutexWord

namespace Atomic

section Exact

variable {W : Type} (load : EStateM Error W ℤ)

/-- The store raises and leaves the word, or its argument is in range and a load gives it back. -/
def StoreExact (store : ℤ → EStateM Error W Unit) (top : ℤ) (word : W) (v : ℤ) : Prop :=
  (∃ e, (store v).run word = .error e word) ∨
    0 ≤ v ∧ v < top ∧ ∃ word', (store v).run word = .ok () word' ∧ load.run word' = .ok v word'

/-- The compare-and-swap raises and leaves the word, or the word was the expected one and a load
gives the new one, or the word was another one and is left. -/
def CasExact (cas : ℤ → ℤ → EStateM Error W Bool) (word : W) (expected new : ℤ) : Prop :=
  (∃ e, (cas expected new).run word = .error e word) ∨
    (load.run word = .ok expected word ∧
      ∃ word', (cas expected new).run word = .ok true word' ∧ load.run word' = .ok new word') ∨
    load.run word ≠ .ok expected word ∧ (cas expected new).run word = .ok false word

end Exact

/-! ## One proof for the three kinds -/

/-- An int is reduced to `bits` bits, and what is left is a word if it has no more than `width`
bits. -/
structure Kind.Reduces {W : Type} (K : Kind W) (bits width : ℕ) : Prop where
  le : width ≤ bits
  nonneg : ∀ word, 0 ≤ K.toInt word
  lt : ∀ word, K.toInt word < 2 ^ width
  inj : ∀ word word', K.toInt word = K.toInt word' → word = word'
  parse : ∀ v, v % 2 ^ bits < 2 ^ width → ∃ word, K.parse v = .ok word ∧ K.toInt word = v % 2 ^ bits
  refuse : ∀ v, 2 ^ width ≤ v % 2 ^ bits → ∃ e, K.parse v = .error e

namespace Kind

variable {W : Type} {K : Kind W}

theorem run_load (word : W) : K.load.run word = .ok (K.toInt word) word := rfl

theorem load_eq_iff {word : W} {v : ℤ} : K.load.run word = .ok v word ↔ K.toInt word = v := by
  rw [run_load]
  exact ⟨fun h => (EStateM.Result.ok.inj h).1, fun h => by rw [h]⟩

theorem run_cas [DecidableEq W] {expected new : ℤ} {x y : W} (hx : K.parse expected = .ok x)
    (hy : K.parse new = .ok y) (word : W) :
    (K.cas expected new).run word = if word = x then .ok true y else .ok false word := by
  rw [cas, hx, hy]
  change EStateM.run (if word = x then do set y; return true else return false) word = _
  split_ifs <;> rfl

end Kind

namespace Kind.Reduces

variable {W : Type} {K : Kind W} {bits width : ℕ} (h : K.Reduces bits width)

include h

theorem emod_eq {v : ℤ} (h0 : 0 ≤ v) (hv : v < 2 ^ width) : v % 2 ^ bits = v :=
  Int.emod_eq_of_lt h0 (hv.trans_le (pow_le_pow_right₀ (by decide) h.le))

theorem storeExact_iff (word : W) (v : ℤ) :
    StoreExact K.load K.store (2 ^ width) word v ↔
      0 ≤ v ∧ v < 2 ^ width ∨ 2 ^ width ≤ v % 2 ^ bits := by
  by_cases hv : v % 2 ^ bits < 2 ^ width
  · obtain ⟨x, hparse, hx⟩ := h.parse v hv
    have hrun : (K.store v).run word = .ok () x := by
      rw [store, hparse]
      rfl
    constructor
    · rintro (⟨e, he⟩ | ⟨h0, hlt, -⟩)
      · cases hrun.symm.trans he
      · exact .inl ⟨h0, hlt⟩
    · rintro (⟨h0, hlt⟩ | hge)
      · refine .inr ⟨h0, hlt, x, hrun, ?_⟩
        rw [load_eq_iff, hx, h.emod_eq h0 hlt]
      · omega
  · obtain ⟨e, hparse⟩ := h.refuse v (Int.not_lt.1 hv)
    have hrun : (K.store v).run word = .error e word := by
      rw [store, hparse]
      rfl
    exact ⟨fun _ => .inr (Int.not_lt.1 hv), fun _ => .inl ⟨e, hrun⟩⟩

theorem casExact_iff [DecidableEq W] (word : W) (expected new : ℤ) :
    CasExact K.load K.cas word expected new ↔
      2 ^ width ≤ expected % 2 ^ bits ∨ 2 ^ width ≤ new % 2 ^ bits ∨
        K.toInt word ≠ expected % 2 ^ bits ∨
        (0 ≤ expected ∧ expected < 2 ^ width) ∧ 0 ≤ new ∧ new < 2 ^ width := by
  by_cases he : expected % 2 ^ bits < 2 ^ width
  · obtain ⟨x, hx, hxe⟩ := h.parse expected he
    by_cases hn : new % 2 ^ bits < 2 ^ width
    · obtain ⟨y, hy, hyn⟩ := h.parse new hn
      have hrun := run_cas hx hy word
      by_cases hword : word = x
      · rw [if_pos hword] at hrun
        constructor
        · rintro (⟨e, herror⟩ | ⟨hload, word', hcas, hload'⟩ | ⟨-, hcas⟩)
          · cases hrun.symm.trans herror
          · cases hrun.symm.trans hcas
            rw [load_eq_iff] at hload hload'
            rw [← hload, ← hload']
            exact .inr (.inr (.inr ⟨⟨h.nonneg _, h.lt _⟩, h.nonneg _, h.lt _⟩))
          · cases hrun.symm.trans hcas
        · rintro (hbig | hbig | hne | ⟨⟨he0, helt⟩, hn0, hnlt⟩)
          · omega
          · omega
          · exact absurd (by rw [hword, hxe]) hne
          · refine .inr (.inl ⟨load_eq_iff.2 ?_, y, hrun, load_eq_iff.2 ?_⟩)
            · rw [hword, hxe, h.emod_eq he0 helt]
            · rw [hyn, h.emod_eq hn0 hnlt]
      · rw [if_neg hword] at hrun
        have hne : K.toInt word ≠ expected % 2 ^ bits := fun heq =>
          hword (h.inj _ _ (heq.trans hxe.symm))
        refine ⟨fun _ => .inr (.inr (.inl hne)), fun _ => .inr (.inr ⟨fun hload => hne ?_, hrun⟩)⟩
        rw [load_eq_iff] at hload
        have h0 : 0 ≤ expected := hload ▸ h.nonneg word
        have hlt : expected < 2 ^ width := hload ▸ h.lt word
        rw [hload, h.emod_eq h0 hlt]
    · obtain ⟨e, hparse⟩ := h.refuse new (Int.not_lt.1 hn)
      have hrun : (K.cas expected new).run word = .error e word := by
        rw [cas, hx, hparse]
        rfl
      exact ⟨fun _ => .inr (.inl (Int.not_lt.1 hn)), fun _ => .inl ⟨e, hrun⟩⟩
  · obtain ⟨e, hparse⟩ := h.refuse expected (Int.not_lt.1 he)
    have hrun : (K.cas expected new).run word = .error e word := by
      rw [cas, hparse]
      rfl
    exact ⟨fun _ => .inl (Int.not_lt.1 he), fun _ => .inl ⟨e, hrun⟩⟩

end Kind.Reduces

/-! ## The word types -/

theorem reduces_u32 : AtomicU32.kind.Reduces 64 32 where
  le := by decide
  nonneg word := Int.natCast_nonneg _
  lt word := by
    have := word.toNat_lt
    change (word.toNat : ℤ) < 2 ^ 32
    omega
  inj word word' h := UInt32.toNat_inj.1 (Int.ofNat_inj.1 h)
  parse v hv := by
    have hrem := CInt.toNat_parseK v
    have hmax : (0xFFFFFFFF : UInt64).toNat = 2 ^ 32 - 1 := rfl
    refine ⟨(CInt.parseK v).toUInt32, if_neg ?_, ?_⟩
    · rw [UInt64.lt_iff_toNat_lt]
      omega
    · change ((CInt.parseK v).toUInt32.toNat : ℤ) = _
      rw [UInt64.toNat_toUInt32]
      omega
  refuse v hv := by
    have hrem := CInt.toNat_parseK v
    have hmax : (0xFFFFFFFF : UInt64).toNat = 2 ^ 32 - 1 := rfl
    refine ⟨.outOfRange, if_pos ?_⟩
    rw [UInt64.lt_iff_toNat_lt]
    omega

theorem reduces_u64 : AtomicU64.kind.Reduces 64 64 where
  le := le_rfl
  nonneg word := Int.natCast_nonneg _
  lt word := by
    have := word.toNat_lt
    change (word.toNat : ℤ) < 2 ^ 64
    omega
  inj word word' h := UInt64.toNat_inj.1 (Int.ofNat_inj.1 h)
  parse v _ := ⟨_, rfl, CInt.toNat_parseK v⟩
  refuse v hv := by omega

theorem reduces_futexWord : FutexWord.kind.Reduces 32 32 where
  le := le_rfl
  nonneg word := Int.natCast_nonneg _
  lt word := by
    have := word.toNat_lt
    change (word.toNat : ℤ) < 2 ^ 32
    omega
  inj word word' h := UInt32.toNat_inj.1 (Int.ofNat_inj.1 h)
  parse v _ := ⟨_, rfl, CInt.toNat_parseI v⟩
  refuse v hv := by omega

/-- When a store or a compare-and-swap is exact. -/
theorem exact_iff (word : UInt32) (dword : UInt64) (v expected new : ℤ) :
    (StoreExact AtomicU32.load AtomicU32.store (2 ^ 32) word v ↔
      0 ≤ v ∧ v < 2 ^ 32 ∨ 2 ^ 32 ≤ v % 2 ^ 64) ∧
    (StoreExact AtomicU64.load AtomicU64.store (2 ^ 64) dword v ↔ 0 ≤ v ∧ v < 2 ^ 64) ∧
    (StoreExact FutexWord.loadAcquire FutexWord.storeRelease (2 ^ 32) word v ↔
      0 ≤ v ∧ v < 2 ^ 32) ∧
    (CasExact AtomicU32.load AtomicU32.cas word expected new ↔
      2 ^ 32 ≤ expected % 2 ^ 64 ∨ 2 ^ 32 ≤ new % 2 ^ 64 ∨
        (word.toNat : ℤ) ≠ expected % 2 ^ 64 ∨
        (0 ≤ expected ∧ expected < 2 ^ 32) ∧ 0 ≤ new ∧ new < 2 ^ 32) ∧
    (CasExact AtomicU64.load AtomicU64.cas dword expected new ↔
      (dword.toNat : ℤ) ≠ expected % 2 ^ 64 ∨
        (0 ≤ expected ∧ expected < 2 ^ 64) ∧ 0 ≤ new ∧ new < 2 ^ 64) := by
  refine ⟨reduces_u32.storeExact_iff word v, ?_, ?_, reduces_u32.casExact_iff word expected new, ?_⟩
  · refine (reduces_u64.storeExact_iff dword v).trans (or_iff_left ?_)
    omega
  · refine (reduces_futexWord.storeExact_iff word v).trans (or_iff_left ?_)
    omega
  · refine (reduces_u64.casExact_iff dword expected new).trans ?_
    rw [or_iff_right (by omega), or_iff_right (by omega)]
    rfl

/-- `store_release(2**32)` stores 0. -/
theorem storeRelease_wraps :
    ((FutexWord.storeRelease (2 ^ 32)).run 7 = .ok () 0) ∧
      ¬ StoreExact FutexWord.loadAcquire FutexWord.storeRelease (2 ^ 32) 7 (2 ^ 32) := by
  have hrun : (FutexWord.storeRelease (2 ^ 32)).run 7 = .ok () 0 := rfl
  refine ⟨hrun, ?_⟩
  rintro (⟨e, he⟩ | ⟨-, hlt, -⟩)
  · cases hrun.symm.trans he
  · exact absurd hlt (by decide)

end Atomic
