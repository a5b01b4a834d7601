import FilterQuery.Double
import FilterQuery.Numeral

/-!
# JSON values

The values of JSON as a text holds them: numbers keep their spelling, objects keep the order and
the repetitions of their members. `Json.depth` counts how deep arrays and objects nest, and
`Json.exact` tells whether every string is text and every number has a double.
-/

set_option autoImplicit false

namespace FilterQuery

/-- A JSON value. A string whose escapes leave half of a surrogate pair names no text; it is
`none`, as a value and as the name of a member. -/
inductive Json where
  | null
  | bool (b : Bool)
  | number (n : Numeral)
  | text (s : Option String)
  | array (items : List Json)
  | object (members : List (Option String × Json))
  deriving Inhabited

namespace Json

/-! ## Building values -/

/-- A string. -/
def str (s : String) : Json := .text (some s)

/-- A whole number. -/
def int (i : Int) : Json := .number (.ofInt i)

/-- An object with the given members. -/
def record (members : List (String × Json)) : Json :=
  .object (members.map fun (k, v) => (some k, v))

/-! ## Nesting -/

mutual

/-- How deep arrays and objects nest. -/
def depth : Json → Nat
  | .array items => itemsDepth items + 1
  | .object members => membersDepth members + 1
  | _ => 0

/-- The greatest depth of the items. -/
def itemsDepth : List Json → Nat
  | [] => 0
  | j :: js => max j.depth (itemsDepth js)

/-- The greatest depth of the values of the members. -/
def membersDepth : List (Option String × Json) → Nat
  | [] => 0
  | (_, j) :: ms => max j.depth (membersDepth ms)

end

/-! ## Numbers -/

end Json

namespace Numeral

/-- Takes digits into a 64-bit significand as long as it can hold them, and gives the digits that
are left. -/
def gather : Nat → List Digit → Nat × List Digit
  | m, [] => (m, [])
  | m, d :: ds =>
      if 10 * m + d.val < Nat.pow 2 64 then gather (10 * m + d.val) ds else (m, d :: ds)

/-- Moves the point of a double by `e` places, in steps of at most 308 places and with one
rounding for each step. `none` means that the result is too large. -/
def shift (x : Double) (e : Int) : Option Double :=
  if e.natAbs ≤ 308 then
    if 0 ≤ e then
      let y := x.mul (.ofNat false (Nat.pow 10 e.toNat))
      if y.isFinite then some y else none
    else some (x.div (.ofNat false (Nat.pow 10 e.natAbs)))
  else if x.isZero then some x
  else if 0 < e then none
  else shift (x.div (.ofNat false (Nat.pow 10 308))) (e + 308)
termination_by e.natAbs

/-- The double that a JSON number names. The digits are gathered into a 64-bit significand; those
that no longer fit are dropped, and the ones before the point count as powers of ten. The
significand is rounded to a double and then moved to its place. A number that becomes too large
names no double. A plain whole number is rounded once. -/
def toJsonDouble (n : Numeral) : Option Double :=
  let (m, wholeLeft) := gather 0 n.whole
  if n.fraction = [] ∧ n.exponent = none ∧ wholeLeft = [] then some (.ofNat n.negative m)
  else
    let (m, fractionLeft) := gather m n.fraction
    let taken := n.fraction.length - fractionLeft.length
    let e := (match n.exponent with
      | some e => e.value
      | none => 0)
    (shift (.ofNat false m) (wholeLeft.length - taken + e)).map (Double.withSign n.negative)

end Numeral

namespace Json

mutual

/-- Every string in the value is text and every number has a double. -/
def exact : Json → Bool
  | .number n => n.toJsonDouble.isSome
  | .text s => s.isSome
  | .array items => itemsExact items
  | .object members => membersExact members
  | _ => true

/-- All items are exact. -/
def itemsExact : List Json → Bool
  | [] => true
  | j :: js => j.exact && itemsExact js

/-- All members have a name and an exact value. -/
def membersExact : List (Option String × Json) → Bool
  | [] => true
  | (k, j) :: ms => k.isSome && j.exact && membersExact ms

end

end Json

end FilterQuery
