import FilterQuery.Json
import FilterQuery.Text.Hex

/-!
# Writing JSON

`Json.compact` writes a value without any white space, `Json.pretty` on indented lines. Both
escape the quote, the backslash and the control characters below the space, and nothing else
(`Json.escape`).
-/

set_option autoImplicit false

namespace FilterQuery

namespace Json

/-! ## Strings -/

/-- A character as it stands inside a string. -/
def escape (c : Char) : List Char :=
  if c = '"' then ['\\', '"']
  else if c = '\\' then ['\\', '\\']
  else if c.toNat < 32 then
    match c.toNat with
    | 8 => ['\\', 'b']
    | 9 => ['\\', 't']
    | 10 => ['\\', 'n']
    | 12 => ['\\', 'f']
    | 13 => ['\\', 'r']
    | n => ['\\', 'u', '0', '0', Text.hexDigit (n / 16), Text.hexDigit (n % 16)]
  else [c]

/-- A quoted string. -/
def quoted (s : String) : List Char := '"' :: (s.toList.flatMap escape ++ ['"'])

/-- A string value or the name of a member; what names no text is written as the empty string. -/
def quotedText (s : Option String) : List Char := quoted (s.getD "")

/-! ## Values without white space -/

mutual

/-- A value without any white space. -/
def compact : Json → List Char
  | .null => ['n', 'u', 'l', 'l']
  | .bool true => ['t', 'r', 'u', 'e']
  | .bool false => ['f', 'a', 'l', 's', 'e']
  | .number n => n.chars
  | .text s => quotedText s
  | .array items => '[' :: (compactItems items ++ [']'])
  | .object members => '{' :: (compactMembers members ++ ['}'])

/-- The items of an array with commas between them. -/
def compactItems : List Json → List Char
  | [] => []
  | [j] => j.compact
  | j :: js => j.compact ++ ',' :: compactItems js

/-- The members of an object with commas between them. -/
def compactMembers : List (Option String × Json) → List Char
  | [] => []
  | [(k, j)] => quotedText k ++ ':' :: j.compact
  | (k, j) :: ms => quotedText k ++ ':' :: (j.compact ++ ',' :: compactMembers ms)

end

/-- The text of a value without any white space. -/
def toText (j : Json) : String := String.ofList j.compact

/-! ## Values on indented lines -/

/-- A new line, indented by two spaces for each level. -/
def newLine (level : Nat) : List Char := '\n' :: List.replicate (2 * level) ' '

mutual

/-- A value on indented lines; empty arrays and objects stay on their line. -/
def pretty (level : Nat) : Json → List Char
  | .array [] => ['[', ']']
  | .array (j :: js) =>
      '[' :: (newLine (level + 1) ++ j.pretty (level + 1) ++ prettyItems (level + 1) js ++
        newLine level ++ [']'])
  | .object [] => ['{', '}']
  | .object ((k, j) :: ms) =>
      '{' :: (newLine (level + 1) ++ quotedText k ++ ':' :: ' ' :: j.pretty (level + 1) ++
        prettyMembers (level + 1) ms ++ newLine level ++ ['}'])
  | .null => ['n', 'u', 'l', 'l']
  | .bool true => ['t', 'r', 'u', 'e']
  | .bool false => ['f', 'a', 'l', 's', 'e']
  | .number n => n.chars
  | .text s => quotedText s

/-- The items after the first, each on its line. -/
def prettyItems (level : Nat) : List Json → List Char
  | [] => []
  | j :: js => ',' :: (newLine level ++ j.pretty level ++ prettyItems level js)

/-- The members after the first, each on its line. -/
def prettyMembers (level : Nat) : List (Option String × Json) → List Char
  | [] => []
  | (k, j) :: ms =>
      ',' :: (newLine level ++ quotedText k ++ ':' :: ' ' :: j.pretty level ++
        prettyMembers level ms)

end

/-- The text of a value on indented lines. -/
def toPrettyText (j : Json) : String := String.ofList (j.pretty 0)

end Json

end FilterQuery
