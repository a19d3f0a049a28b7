import Mathlib.Data.List.Basic

/-!
# Decimal numbers in text

Texts as lists of characters.  `str` writes a number in decimal and `int` reads one: what was
written reads back, it is not empty, and it has no separator in it.
-/

abbrev Text := List Char

/-- `str(n)` of a number that is not negative. -/
def str (n : ℕ) : Text := Nat.toDigits 10 n

/-- `int(s)` of a text of digits, `none` where it raises. -/
def int (s : Text) : Option ℕ :=
  if s ≠ [] ∧ s.all Char.isDigit = true then some (Nat.ofDigitChars 10 s 0) else none

theorem str_ne_nil (n : ℕ) : str n ≠ [] := Nat.toDigits_ne_nil

theorem isDigit_of_mem_str {n : ℕ} {c : Char} (h : c ∈ str n) : c.isDigit = true :=
  Nat.isDigit_of_mem_toDigits (by omega) (by omega) h

theorem not_mem_str {c : Char} (h : c.isDigit = false) (n : ℕ) : c ∉ str n := fun hc => by
  rw [isDigit_of_mem_str hc] at h
  cases h

theorem int_str (n : ℕ) : int (str n) = some n := by
  have hdigits : (str n).all Char.isDigit = true :=
    List.all_eq_true.2 fun _ hc => isDigit_of_mem_str hc
  rw [int, if_pos ⟨str_ne_nil n, hdigits⟩]
  exact congrArg some Nat.ofDigitChars_ten_toDigits

/-- A character that is in no part and not in the separator. -/
theorem not_mem_intercalate {c : Char} {sep : Text} {parts : List Text} (hsep : c ∉ sep)
    (h : ∀ s ∈ parts, c ∉ s) : c ∉ sep.intercalate parts := by
  induction parts with
  | nil => exact List.not_mem_nil
  | cons s parts ih =>
    have hs := h s List.mem_cons_self
    have hrest := ih fun x hx => h x (List.mem_cons_of_mem s hx)
    cases parts with
    | nil =>
      rw [List.intercalate_singleton]
      exact hs
    | cons x parts =>
      rw [List.intercalate_cons_cons, List.mem_append, List.mem_append, not_or, not_or]
      exact ⟨⟨hs, hsep⟩, hrest⟩
