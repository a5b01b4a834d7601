import FilterQuery.Double

/-!
# Numbers in texts

`Text.readInteger` reads a 64-bit integer and tells why a text is none: it is empty, a character
is no digit, or the value is out of range. The digits are looked at from left to right, so a wrong
character wins over an overflow only if it comes first. `Text.readDecimal?` reads a decimal with
an optional point and exponent into the nearest double.
-/

set_option autoImplicit false

namespace FilterQuery.Text

/-! ## Integers -/

/-- Why a text is not a 64-bit integer. -/
inductive IntegerFault where
  | empty
  | notADigit
  | tooLarge
  | tooSmall
  deriving DecidableEq, Repr

/-- The wording of a fault. -/
def IntegerFault.message : IntegerFault → String
  | .empty => "cannot parse integer from empty string"
  | .notADigit => "invalid digit found in string"
  | .tooLarge => "number too large to fit in target type"
  | .tooSmall => "number too small to fit in target type"

/-- The value of digits appended to `n`, as long as it stays within `limit`; beyond it the fault
is `beyond`. -/
def readMagnitude (limit : Nat) (beyond : IntegerFault) : Nat → List Char → Except IntegerFault Nat
  | n, [] => .ok n
  | n, c :: cs =>
      match Digit.ofChar? c with
      | none => .error .notADigit
      | some d =>
          if 10 * n + d.val ≤ limit then readMagnitude limit beyond (10 * n + d.val) cs
          else .error beyond

/-- The magnitude of a number after its sign; there must be a digit. -/
def readUnsigned (limit : Nat) (beyond : IntegerFault) : List Char → Except IntegerFault Nat
  | [] => .error .notADigit
  | cs => readMagnitude limit beyond 0 cs

/-- A 64-bit integer: an optional sign and digits. -/
def readInteger (s : String) : Except IntegerFault Int64 :=
  match s.toList with
  | [] => .error .empty
  | '-' :: cs => (readUnsigned (Nat.pow 2 63) .tooSmall cs).map fun n => Int64.ofInt (-n)
  | '+' :: cs => (readUnsigned (Nat.pow 2 63 - 1) .tooLarge cs).map fun n => Int64.ofInt n
  | cs => (readUnsigned (Nat.pow 2 63 - 1) .tooLarge cs).map fun n => Int64.ofInt n

/-! ## Decimals -/

/-- A sign at the head of a text, as whether it is a minus sign, and the rest. -/
def spanSign : List Char → Bool × List Char
  | '-' :: cs => (true, cs)
  | '+' :: cs => (false, cs)
  | cs => (false, cs)

/-- The exponent that ends a text, zero if the text has ended. -/
def readExponent? : List Char → Option Int
  | [] => some 0
  | c :: cs =>
      if c = 'e' ∨ c = 'E' then
        let (negative, cs) := spanSign cs
        match Decimal.span cs with
        | ([], _) => none
        | (ds, []) =>
            some (if negative then -(Decimal.value ds : Int) else Decimal.value ds)
        | _ => none
      else none

/-- A decimal: an optional sign, digits with an optional point among or beside them, and an
optional exponent. There must be a digit before the exponent. -/
def readDecimal? (s : String) : Option Double := do
  let (negative, cs) := spanSign s.toList
  let (whole, cs) := Decimal.span cs
  let (fraction, cs) := match cs with
    | '.' :: cs => Decimal.span cs
    | cs => ([], cs)
  if whole = [] ∧ fraction = [] then none
  else
    let e ← readExponent? cs
    some (.ofDecimal negative (Decimal.value (whole ++ fraction)) (e - fraction.length))

end FilterQuery.Text
