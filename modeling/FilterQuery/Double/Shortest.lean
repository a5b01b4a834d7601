import FilterQuery.Double
import FilterQuery.Numeral

/-!
# Shortest decimals

The shortest decimal that reads back as a given double, and its layout as a numeral.
`Double.shortest` tries one digit, then two, and so on; on each grid of decimals it looks at the
two neighbours of the number and keeps those that round to it. A `Layout` says how digits and
exponent are written: where positional notation ends, and how an exponent is marked.
-/

set_option autoImplicit false

namespace FilterQuery

/-- Which of two equally near decimals is taken. -/
inductive Tie where
  /-- The larger one. -/
  | up
  /-- The one with the even last digit. -/
  | even
  deriving DecidableEq, Repr

/-- How a number with a fraction is written. -/
structure Layout where
  /-- Of two equally near shortest decimals, the one that is written. -/
  tie : Tie
  /-- The least exponent of the first digit that is written positionally. -/
  lowest : Int
  /-- The greatest exponent of the first digit that is written positionally. -/
  highest : Int
  /-- Whether a positive exponent has a plus sign. -/
  plus : Bool
  deriving DecidableEq, Repr

namespace Double

/-- Whether the decimal that is `c * t / s` units rounds to the number of rank `r`: it lies between
the midpoints to the two neighbours, and on a midpoint only if `r` is even. -/
def roundsTo (r c s t : Nat) : Bool :=
  let low := (unitsOfRank (r - 1) + unitsOfRank r) * s
  let high := (unitsOfRank r + unitsOfRank (r + 1)) * s
  let point := 2 * c * t
  (low < point && point < high) || (r % 2 == 0 && (point == low || point == high))

/-- The natural nearest to the number of rank `r` in steps of `t / s` units, if one rounds to
it. -/
def nearestStep? (tie : Tie) (r s t : Nat) : Option Nat :=
  let n := unitsOfRank r * s
  let down := n / t
  let up := down + 1
  match roundsTo r down s t, roundsTo r up s t with
  | true, false => some down
  | false, true => some up
  | false, false => none
  | true, true =>
      let rest := 2 * (n - down * t)
      if rest < t then some down
      else if t < rest then some up
      else match tie with
        | .up => some up
        | .even => some (if down % 2 = 0 then down else up)

/-- The decimal digits nearest to the number of rank `r` on the grid of multiples of `10 ^ k`,
if one of them rounds to it. -/
def onGrid? (tie : Tie) (r : Nat) (k : Int) : Option Nat :=
  nearestStep? tie r (Nat.pow 10 (-k).toNat) (Nat.pow 10 k.toNat * scale)

/-- The decimal digits next below the number of rank `r` on the grid of multiples of `10 ^ k`. -/
def downOnGrid (r : Nat) (k : Int) : Nat :=
  unitsOfRank r * Nat.pow 10 (-k).toNat / (Nat.pow 10 k.toNat * scale)

/-- The least `j` below the bound with `scale ≤ n * 10 ^ j`. -/
def leadingZeros : Nat → Nat → Nat
  | 0, _ => 0
  | fuel + 1, n => if scale ≤ n then 0 else leadingZeros fuel (n * 10) + 1

/-- The exponent of the first decimal digit of a magnitude other than zero. The smallest one is
above `10 ^ -324`. -/
def decimalExponent (r : Nat) : Int :=
  let u := unitsOfRank r
  if scale ≤ u then (Decimal.digits (u / scale)).length - 1
  else -(leadingZeros 324 u : Int)

/-- The decimal that `find?` gives on the first of the grids that has one, starting with `n` digits;
the first digit has exponent `e`. If none of them has one, it is `last` on the grid after them. -/
def firstOnGrids (find? : Int → Option Nat) (last : Int → Nat) (e : Int) : Nat → Nat → Nat × Int
  | 0, n => (last (e + 1 - n), e + 1 - n)
  | fuel + 1, n =>
      match find? (e + 1 - n) with
      | some c => (c, e + 1 - n)
      | none => firstOnGrids find? last e fuel (n + 1)

/-- The shortest decimal `c * 10 ^ k` that reads back as the magnitude of a finite number other
than zero, as the pair `(c, k)`. Seventeen digits always suffice. -/
def shortest (tie : Tie) (x : Double) : Nat × Int :=
  firstOnGrids (onGrid? tie x.rank) (downOnGrid x.rank) (decimalExponent x.rank) 17 1

end Double

namespace Layout

/-- Digits without the zeros at their end. -/
def trim (ds : List Digit) : List Digit := (ds.reverse.dropWhile (· = Digit.zero)).reverse

/-- The numeral of the digits `ds` whose first digit has exponent `e`. -/
def spell (l : Layout) (negative : Bool) (ds : List Digit) (e : Int) : Numeral :=
  if l.lowest ≤ e ∧ e ≤ l.highest then
    if e < 0 then ⟨negative, [Digit.zero], Decimal.zeros (-e - 1).toNat ++ ds, none⟩
    else
      let n := e.toNat + 1
      ⟨negative, ds.take n ++ Decimal.zeros (n - ds.length),
        if ds.length ≤ n then [Digit.zero] else ds.drop n, none⟩
  else
    ⟨negative, ds.take 1, ds.drop 1,
      some ⟨false, if e < 0 then some true else if l.plus then some false else none,
        Decimal.digits e.natAbs⟩⟩

/-- The numeral of a finite number; the fraction is never left out in positional notation. -/
def numeral (l : Layout) (x : Double) : Numeral :=
  if x.isZero then ⟨x.negative, [Digit.zero], [Digit.zero], none⟩
  else
    let (c, k) := x.shortest l.tie
    let ds := Decimal.digits c
    l.spell x.negative (trim ds) (k + ds.length - 1)

end Layout

end FilterQuery
