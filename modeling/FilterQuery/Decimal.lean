/-!
# Decimal digits

Naturals written in base ten: `Decimal.digits`, most significant digit first, and
`Decimal.value`, which reads a list of digits back. `Digit.toChar` and `Digit.ofChar?` pass
between digits and the characters `0` to `9`, and `Decimal.span` takes the digits at the head of a
text. The main statements are `value_digits : value (digits n) = n`, and `span_map_toChar`, by
which written digits are found again.
-/

set_option autoImplicit false

namespace FilterQuery

/-- A decimal digit. -/
abbrev Digit := Fin 10

namespace Digit

/-- The digit `0`. -/
def zero : Digit := 0

/-- The character of a digit. -/
def toChar (d : Digit) : Char := Char.ofNat (48 + d.val)

/-- The digit a character stands for, if it is one of `0` to `9`. -/
def ofChar? (c : Char) : Option Digit :=
  if h : 48 ≤ c.toNat ∧ c.toNat < 58 then some ⟨c.toNat - 48, by omega⟩ else none

theorem ofChar?_toChar (d : Digit) : ofChar? (toChar d) = some d := by
  revert d; decide

/-- Whether a character is a digit. -/
def isDigit (c : Char) : Bool := (ofChar? c).isSome

end Digit

namespace Decimal

/-- The digits of a natural, most significant first; zero has the one digit `0`. -/
def digits (n : Nat) : List Digit :=
  if h : n < 10 then [⟨n, h⟩]
  else digits (n / 10) ++ [⟨n % 10, Nat.mod_lt n (by decide)⟩]

/-- The natural that a list of digits writes. -/
def value (ds : List Digit) : Nat := ds.foldl (fun n d => 10 * n + d.val) 0

/-- The text of a natural. -/
def text (n : Nat) : List Char := (digits n).map Digit.toChar

/-- Zeros to the left or right of a number. -/
def zeros (n : Nat) : List Digit := List.replicate n Digit.zero

/-- The digits at the head of a text, and the rest. -/
def span : List Char → List Digit × List Char
  | [] => ([], [])
  | c :: cs =>
      match Digit.ofChar? c with
      | some d => let (ds, rest) := span cs; (d :: ds, rest)
      | none => ([], c :: cs)

@[simp] theorem value_append_singleton (ds : List Digit) (d : Digit) :
    value (ds ++ [d]) = 10 * value ds + d.val := by
  simp [value]

/-- **Reading undoes writing.** -/
theorem value_digits (n : Nat) : value (digits n) = n := by
  induction n using Nat.strongRecOn with
  | ind n ih =>
      rw [digits]
      split
      · simp [value]
      · rw [value_append_singleton, ih (n / 10) (by omega)]
        simp only
        omega

@[simp] theorem length_zeros (n : Nat) : (zeros n).length = n := List.length_replicate

@[simp] theorem value_zeros (n : Nat) : value (zeros n) = 0 := by
  induction n with
  | zero => rfl
  | succ n ih =>
      rw [zeros, List.replicate_succ', value_append_singleton, ← zeros, ih]
      rfl

/-- The digits before a character that is none. -/
theorem span_map_toChar (ds : List Digit) {rest : List Char}
    (h : ∀ c ∈ rest.head?, Digit.isDigit c = false) :
    span (ds.map Digit.toChar ++ rest) = (ds, rest) := by
  induction ds with
  | nil =>
      cases rest with
      | nil => rfl
      | cons c cs =>
          have hc : Digit.isDigit c = false := h c rfl
          rw [Digit.isDigit, Option.isSome_eq_false_iff, Option.isNone_iff_eq_none] at hc
          rw [List.map_nil, List.nil_append, span, hc]
  | cons d ds ih =>
      rw [List.map_cons, List.cons_append, span, Digit.ofChar?_toChar]
      simp only [ih]

theorem digits_ne_nil (n : Nat) : digits n ≠ [] := by
  rw [digits]
  split <;> simp

/-- **Different naturals have different texts.** -/
theorem text_inj {m n : Nat} (h : text m = text n) : m = n := by
  have hchar : ∀ d e : Digit, d.toChar = e.toChar → d = e := by
    intro d e hde
    have hread := congrArg Digit.ofChar? hde
    rw [Digit.ofChar?_toChar, Digit.ofChar?_toChar] at hread
    exact Option.some.inj hread
  have hdigits : digits m = digits n := (List.map_inj_right hchar).mp h
  rw [← value_digits m, hdigits, value_digits]

end Decimal

end FilterQuery
