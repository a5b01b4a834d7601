import FilterQuery.Decimal

/-!
# Numerals

A decimal numeral as it stands in a text: a sign, the digits before and after the point, and an
exponent. `Numeral.chars` spells it, `Numeral.ofInt` writes a whole number.
-/

set_option autoImplicit false

namespace FilterQuery

/-- The exponent of a numeral: its letter, its sign if one is written, and its digits. -/
structure Exponent where
  /-- Written with `E` instead of `e`. -/
  capital : Bool
  /-- `some true` for a minus sign, `some false` for a plus sign. -/
  sign : Option Bool
  digits : List Digit
  deriving DecidableEq, Repr

/-- A decimal numeral. An empty fraction means that no point is written. -/
structure Numeral where
  negative : Bool
  whole : List Digit
  fraction : List Digit
  exponent : Option Exponent
  deriving DecidableEq, Repr

namespace Exponent

/-- The spelling of an exponent. -/
def chars (e : Exponent) : List Char :=
  (if e.capital then 'E' else 'e') ::
    ((match e.sign with
      | some true => ['-']
      | some false => ['+']
      | none => []) ++ e.digits.map Digit.toChar)

/-- The power of ten an exponent stands for. -/
def value (e : Exponent) : Int :=
  if e.sign = some true then -(Decimal.value e.digits : Int) else Decimal.value e.digits

end Exponent

namespace Numeral

/-- The spelling of a numeral. -/
def chars (n : Numeral) : List Char :=
  (if n.negative then ['-'] else []) ++ n.whole.map Digit.toChar ++
    (if n.fraction = [] then [] else '.' :: n.fraction.map Digit.toChar) ++
    (match n.exponent with
      | some e => e.chars
      | none => [])

/-- The numeral of a whole number. -/
def ofInt (i : Int) : Numeral := ⟨i < 0, Decimal.digits i.natAbs, [], none⟩

/-- The whole number a numeral writes, if it has neither fraction nor exponent. A minus zero is
not a whole number: its sign would be lost. -/
def toInt? (n : Numeral) : Option Int :=
  if n.fraction = [] ∧ n.exponent = none then
    let m := Decimal.value n.whole
    if n.negative then (if m = 0 then none else some (-(m : Int))) else some m
  else none

/-- Reading back a written whole number gives it again. -/
theorem toInt?_ofInt (i : Int) : (ofInt i).toInt? = some i := by
  simp only [toInt?, ofInt, Decimal.value_digits, and_self, if_true]
  by_cases h : i < 0
  · have magnitude_ne : i.natAbs ≠ 0 := by omega
    have back : -(i.natAbs : Int) = i := by omega
    simp only [h, decide_true, if_true, if_neg magnitude_ne, back]
  · have back : (i.natAbs : Int) = i := by omega
    simp only [h, decide_false, Bool.false_eq_true, if_false, back]

end Numeral

end FilterQuery
