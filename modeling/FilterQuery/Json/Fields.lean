import FilterQuery.Json

/-!
# Reading records

How values of known shape are taken from JSON. A record is an object whose members may stand in
any order among others that are ignored, or an array of its fields in their order
(`Json.fields?`). A tagged record has one more field that names its kind (`Json.tagged?`). A map
has names of its own (`Json.map?`). A name out of a fixed set may stand alone or as the only member
of an object (`Json.name?`). Values that are read whole before they are looked at admit more
spellings than others (`Json.Strictness`).
-/

set_option autoImplicit false

namespace FilterQuery.Json

/-- The text of a string. -/
def string? : Json → Option String
  | .text s => s
  | _ => none

/-- The items of an array. -/
def items? : Json → Option (List Json)
  | .array items => some items
  | _ => none

/-- The values of the members with a name. -/
def valuesOf (name : String) (members : List (Option String × Json)) : List Json :=
  members.filterMap fun (k, j) => if k = some name then some j else none

/-- The one value of a name, which may be missing but not repeated. -/
def field? (members : List (Option String × Json)) (name : String) : Option (Option Json) :=
  match valuesOf name members with
  | [] => some none
  | [j] => some (some j)
  | _ => none

/-- All names of the members are text. -/
def allNamed (members : List (Option String × Json)) : Bool := members.all fun (k, _) => k.isSome

/-- The fields with some names, in the order of the names. An object may leave fields out; an array
must have them all, but for the last `spare` ones. -/
def fields? (names : List String) (spare : Nat) : Json → Option (List (Option Json))
  | .object members => if allNamed members then names.mapM (field? members) else none
  | .array items =>
      if names.length ≤ items.length + spare ∧ items.length ≤ names.length then
        some (items.map some ++ List.replicate (names.length - items.length) none)
      else none
  | _ => none

/-- The fields with some names, all of which must be there. -/
def allFields? (names : List String) (j : Json) : Option (List Json) := do
  let found ← j.fields? names 0
  found.mapM id

/-- How narrowly names and kinds are taken. A value that is read whole before it is looked at is
taken leniently. -/
inductive Strictness where
  | strict
  | lenient
  deriving DecidableEq, Repr

/-- The value says nothing: it is `null` or, taken leniently, an empty object. -/
def isVoid : Strictness → Json → Bool
  | _, .null => true
  | .lenient, .object [] => true
  | _, _ => false

/-- A name out of a fixed set: a string, or an object whose only member has that name and says
nothing. -/
def name? (strictness : Strictness) : Json → Option String
  | .text s => s
  | .object [(some s, j)] => if j.isVoid strictness then some s else none
  | _ => none

/-- One of some kinds: its name or, taken leniently, its place among them. -/
def kind? (kinds : List String) : Strictness → Json → Option String
  | _, .text s => s
  | .lenient, .number n => n.toInt?.bind fun i => if 0 ≤ i then kinds[i.toNat]? else none
  | _, _ => none

/-- The kind that the member `tag` gives, or the first item, and what is left to be read. -/
def tagged? (tag : String) (kind : Json → Option String) : Json → Option (String × Json)
  | .object members =>
      match field? members tag with
      | some (some j) => (kind j).map (·, .object members)
      | _ => none
  | .array (j :: items) => (kind j).map (·, .array items)
  | _ => none

/-- The members of a map, read one by one. Of a repeated name the last value counts, but all of
them have to be readable. -/
def mapMembers? {α : Type} (read : Json → Option α) :
    List (Option String × Json) → Option (List (String × α))
  | [] => some []
  | (none, _) :: _ => none
  | (some k, j) :: members => do
      let a ← read j
      let others ← mapMembers? read members
      some (if k ∈ others.map Prod.fst then others else (k, a) :: others)

/-- A map from names to values. -/
def map? {α : Type} (read : Json → Option α) : Json → Option (List (String × α))
  | .object members => mapMembers? read members
  | _ => none

/-- An array of strings. -/
def strings? (j : Json) : Option (List String) := j.items?.bind fun items => items.mapM string?

end FilterQuery.Json
