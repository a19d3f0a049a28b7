import Mathlib.Data.List.Basic
import Mathlib.Tactic.Ring
import Mathlib.Tactic.Linarith

/-!
# Byte-addressed memory

A memory gives every address a byte.  `read` and `write` move lists of bytes, and the little-endian
`u64` and `i64` accessors read and write eight of them.  The two facts that carry everything else
are that a read at the place of a write gives what was written (`read_write`), and that a read
beside it gives what was there before (`read_write_of_disjoint`).
-/

/-- The contents of a mapped segment. -/
abbrev Memory := ℕ → UInt8

/-- The value of a little-endian byte string. -/
def ofLE : List UInt8 → ℕ
  | [] => 0
  | b :: bs => b.toNat + 256 * ofLE bs

/-- The `w` low bytes of a number, low byte first. -/
def toLE : ℕ → ℕ → List UInt8
  | 0, _ => []
  | w + 1, n => UInt8.ofNat n :: toLE w (n / 256)

@[simp] theorem length_toLE (w n : ℕ) : (toLE w n).length = w := by
  induction w generalizing n with
  | zero => rfl
  | succ w ih => simp [toLE, ih]

theorem ofLE_toLE (w n : ℕ) : ofLE (toLE w n) = n % 256 ^ w := by
  induction w generalizing n with
  | zero => simp [toLE, ofLE, Nat.mod_one]
  | succ w ih =>
    rw [toLE, ofLE, ih, UInt8.toNat_ofNat', pow_succ' 256 w]
    exact (@Nat.mod_mul 256 (256 ^ w) n).symm

theorem ofLE_lt (bs : List UInt8) : ofLE bs < 256 ^ bs.length := by
  induction bs with
  | nil => simp [ofLE]
  | cons b bs ih =>
    have hb : b.toNat < 256 := b.toNat_lt
    rw [ofLE, List.length_cons, pow_succ']
    omega

/-- The signed 64-bit value with the same low 64 bits. -/
def wrap64 (z : ℤ) : ℤ := (z + 2 ^ 63) % 2 ^ 64 - 2 ^ 63

theorem wrap64_of_range {z : ℤ} (hlo : -2 ^ 63 ≤ z) (hhi : z < 2 ^ 63) : wrap64 z = z := by
  unfold wrap64
  omega

@[simp] theorem wrap64_zero : wrap64 0 = 0 := rfl

theorem wrap64_wrap64_add (z d : ℤ) : wrap64 (wrap64 z + d) = wrap64 (z + d) := by
  unfold wrap64
  omega

/-- Two byte ranges, given by start and length, have no address in common. -/
def RangesDisjoint (a n b m : ℕ) : Prop := n = 0 ∨ m = 0 ∨ a + n ≤ b ∨ b + m ≤ a

theorem RangesDisjoint.mono {a n b m a' n' b' m' : ℕ} (h : RangesDisjoint a n b m) (ha : a ≤ a')
    (hn : a' + n' ≤ a + n) (hb : b ≤ b') (hm : b' + m' ≤ b + m) : RangesDisjoint a' n' b' m' := by
  unfold RangesDisjoint at *
  omega

namespace Memory

variable (m : Memory)

/-- The `n` bytes from `off`. -/
def read (off n : ℕ) : List UInt8 := (List.range n).map fun k => m (off + k)

/-- Stores the bytes `bs` from `off`. -/
def write (off : ℕ) (bs : List UInt8) : Memory := fun a =>
  if off ≤ a then (bs[a - off]?).getD (m a) else m a

variable {m}

@[simp] theorem length_read (off n : ℕ) : (m.read off n).length = n := by simp [read]

@[simp] theorem read_zero (off : ℕ) : m.read off 0 = [] := rfl

theorem getElem_read {off n k : ℕ} (h : k < (m.read off n).length) :
    (m.read off n)[k] = m (off + k) := by simp [read]

theorem read_eq_replicate {off n : ℕ} {b : UInt8} (h : ∀ k < n, m (off + k) = b) :
    m.read off n = List.replicate n b := by
  refine List.eq_replicate_iff.2 ⟨length_read off n, fun x hx => ?_⟩
  obtain ⟨k, hk, rfl⟩ := List.mem_map.1 hx
  exact h k (List.mem_range.1 hk)

theorem read_congr {m' : Memory} {off n : ℕ} (h : ∀ a, off ≤ a → a < off + n → m' a = m a) :
    m'.read off n = m.read off n :=
  List.map_congr_left fun k hk => h _ (by omega) (by have := List.mem_range.1 hk; omega)

theorem read_add (off n k : ℕ) : m.read off (n + k) = m.read off n ++ m.read (off + n) k := by
  simp only [read, List.range_add, List.map_append, List.map_map, Nat.add_assoc]
  rfl

/-- A range that consists of `p` pieces of `n` bytes. -/
theorem read_mul (off p n : ℕ) :
    m.read off (p * n) = ((List.range p).map fun k => m.read (off + k * n) n).flatten := by
  induction p with
  | zero => simp
  | succ p ih =>
    rw [Nat.succ_mul, read_add, ih, List.range_succ, List.map_append, List.flatten_append]
    simp

/-- A write changes nothing outside its range. -/
theorem write_of_outside {off a : ℕ} {bs : List UInt8} (h : a < off ∨ off + bs.length ≤ a) :
    m.write off bs a = m a := by
  unfold write
  split_ifs with ha
  · rw [List.getElem?_eq_none (by omega)]
    rfl
  · rfl

theorem write_inside {off k : ℕ} {bs : List UInt8} (h : k < bs.length) :
    m.write off bs (off + k) = bs[k] := by
  simp [write, h]

theorem write_getD {off k : ℕ} {bs : List UInt8} (h : k < bs.length) :
    m.write off bs (off + k) = bs.getD k 0 := by
  simp [write, h]

theorem read_write (off : ℕ) (bs : List UInt8) : (m.write off bs).read off bs.length = bs := by
  refine List.ext_getElem (by simp) fun k hk hk' => ?_
  simp only [read, List.getElem_map, List.getElem_range]
  exact write_inside hk'

theorem read_write_of_disjoint {off off' n : ℕ} {bs : List UInt8}
    (h : RangesDisjoint off bs.length off' n) :
    (m.write off bs).read off' n = m.read off' n := by
  refine read_congr fun a hle hlt => write_of_outside ?_
  rcases h with h | h | h | h <;> omega

/-! ## Words of eight bytes -/

variable (m)

def u64 (off : ℕ) : ℕ := ofLE (m.read off 8)

def setU64 (off n : ℕ) : Memory := m.write off (toLE 8 n)

/-- A signed word, in two's complement. -/
def i64 (off : ℕ) : ℤ := wrap64 (m.u64 off)

def setI64 (off : ℕ) (z : ℤ) : Memory := m.setU64 off (z % 2 ^ 64).toNat

variable {m}

theorem u64_lt (off : ℕ) : m.u64 off < 2 ^ 64 := by
  have h := ofLE_lt (m.read off 8)
  rw [length_read] at h
  exact h.trans_eq (by norm_num)

theorem u64_blank (off : ℕ) : u64 (fun _ => 0) off = 0 := by
  rw [u64, read_eq_replicate (b := 0) fun _ _ => rfl]
  decide

theorem u64_congr {m' : Memory} {off : ℕ} (h : ∀ a, off ≤ a → a < off + 8 → m' a = m a) :
    m'.u64 off = m.u64 off := congrArg ofLE (read_congr h)

theorem u64_write {off off' : ℕ} {bs : List UInt8} (h : RangesDisjoint off bs.length off' 8) :
    (m.write off bs).u64 off' = m.u64 off' := congrArg ofLE (read_write_of_disjoint h)

theorem u64_setU64 (off n : ℕ) : (m.setU64 off n).u64 off = n % 2 ^ 64 := by
  have h : (m.write off (toLE 8 n)).read off 8 = toLE 8 n := by
    simpa using read_write (m := m) off (toLE 8 n)
  rw [u64, setU64, h, ofLE_toLE]
  norm_num

/-- Words at a distance of eight bytes are independent. -/
theorem u64_setU64_of_disjoint {off off' n : ℕ} (h : off + 8 ≤ off' ∨ off' + 8 ≤ off) :
    (m.setU64 off n).u64 off' = m.u64 off' :=
  u64_write (.inr (.inr (by rwa [length_toLE])))

theorem i64_setI64 (off : ℕ) (z : ℤ) : (m.setI64 off z).i64 off = wrap64 z := by
  rw [i64, setI64, u64_setU64]
  unfold wrap64
  omega

end Memory
