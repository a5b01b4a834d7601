import FilterQuery.Decimal

/-!
# Double precision numbers

A binary64 number other than NaN: a sign and its `rank` among the magnitudes, counted from zero.
All finite magnitudes are whole multiples of `2 ^ -1074`; `Double.units` says how many. So the
arithmetic is exact arithmetic on naturals followed by one rounding, `Double.ofRatio`, to the
nearest number, ties to the even rank. `Double.ofDecimal` reads a decimal with a single rounding.
-/

set_option autoImplicit false

namespace FilterQuery

/-- A binary64 number that is not NaN. -/
structure Double where
  negative : Bool
  /-- The place of the magnitude in the order of all magnitudes: zero has rank 0 and infinity
  the last rank. Read as a word it is the exponent field followed by the fraction field. -/
  rank : Nat
  rank_le : rank ≤ 2047 * Nat.pow 2 52
  deriving DecidableEq, Repr

namespace Double

/-- The rank of infinity. -/
def infinityRank : Nat := 2047 * Nat.pow 2 52

/-- The number with a given sign and rank; ranks that are too large give infinity. -/
def ofRank (negative : Bool) (rank : Nat) : Double :=
  ⟨negative, min rank infinityRank, Nat.min_le_right _ _⟩

/-- Zero, with its sign. -/
def zero (negative : Bool) : Double := ofRank negative 0

/-- Infinity, with its sign. -/
def infinity (negative : Bool) : Double := ofRank negative infinityRank

def isZero (x : Double) : Bool := x.rank = 0

def isFinite (x : Double) : Bool := x.rank < infinityRank

/-- The magnitude of a rank in units of `2 ^ -1074`. -/
def unitsOfRank (r : Nat) : Nat :=
  let binade := Nat.pow 2 52
  if r < binade then r else (binade + r % binade) * Nat.pow 2 (r / binade - 1)

/-- The magnitude in units of `2 ^ -1074`. -/
def units (x : Double) : Nat := unitsOfRank x.rank

/-- The denominator of the units. -/
def scale : Nat := Nat.pow 2 1074

/-- The numbers are equal: both zeros are, other numbers must have the same sign and rank. -/
def numEq (x y : Double) : Bool := x.rank == y.rank && (x.negative == y.negative || x.rank == 0)

/-! ## Rounding -/

/-- The quotient rounded to the nearest natural, a half to the even one. -/
def roundQuotient (n d : Nat) : Nat :=
  let q := n / d
  let r := n % d
  if d < 2 * r ∨ (2 * r = d ∧ q % 2 = 1) then q + 1 else q

/-- The rank nearest to `num / den`, a tie to the even rank. With `shift` spare bits the quotient
has 53 bits, and the ranks of one binade follow each other like its quotients. -/
def nearestRank (num den : Nat) : Nat :=
  let whole := num * scale / den
  let shift := if whole < Nat.pow 2 53 then 0 else whole.log2 - 52
  shift * Nat.pow 2 52 + roundQuotient (num * scale) (den * Nat.pow 2 shift)

/-- The double nearest to `num / den`; what is too large becomes infinity. -/
def ofRatio (negative : Bool) (num den : Nat) : Double := ofRank negative (nearestRank num den)

/-- The double nearest to a natural. -/
def ofNat (negative : Bool) (n : Nat) : Double := ofRatio negative n 1

/-- The double nearest to `m * 10 ^ e`. Magnitudes far outside the range are recognised by their
number of digits, so that no huge power is formed. -/
def ofDecimal (negative : Bool) (m : Nat) (e : Int) : Double :=
  let top := (Decimal.digits m).length + e
  if m = 0 ∨ top < -330 then zero negative
  else if 310 < top then infinity negative
  else if 0 ≤ e then ofRatio negative (m * Nat.pow 10 e.toNat) 1
  else ofRatio negative m (Nat.pow 10 (-e).toNat)

/-- The product, rounded once. -/
def mul (x y : Double) : Double :=
  if x.isFinite && y.isFinite then
    ofRatio (x.negative != y.negative) (x.units * y.units) (scale * scale)
  else infinity (x.negative != y.negative)

/-- The quotient by a finite number other than zero, rounded once. -/
def div (x y : Double) : Double :=
  if x.isFinite then ofRatio (x.negative != y.negative) x.units y.units
  else infinity (x.negative != y.negative)

/-- The same magnitude with another sign. -/
def withSign (negative : Bool) (x : Double) : Double := { x with negative }

end Double

end FilterQuery
