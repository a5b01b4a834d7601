import FilterQuery.Json
import FilterQuery.Text.Hex

/-!
# Reading JSON

`Json.ofText?` reads one JSON value with only white space around it. The grammar is the strict
one: no leading zeros, no trailing commas, no raw control characters in strings. Every reader
takes the characters that are left and gives what it has read together with the rest. The nesting
is not limited here, and a string that names no text or a number without a double is still read:
`Json.depth` and `Json.exact` tell them apart.
-/

set_option autoImplicit false

namespace FilterQuery

namespace Json

/-- The white space of JSON. -/
def isBlank (c : Char) : Bool := c == ' ' || c == '\t' || c == '\n' || c == '\r'

/-- The text without its leading white space. -/
def skipBlanks (cs : List Char) : List Char := cs.dropWhile isBlank

/-! ## Strings -/

/-- The UTF-16 unit of four hexadecimal digits. -/
def unit? (a b c d : Char) : Option Nat := do
  let a ← Text.hexValue? a
  let b ← Text.hexValue? b
  let c ← Text.hexValue? c
  let d ← Text.hexValue? d
  some (((a * 16 + b) * 16 + c) * 16 + d)

/-- The character of a one-letter escape. -/
def escaped? (c : Char) : Option Char :=
  match c with
  | '"' => some '"'
  | '\\' => some '\\'
  | '/' => some '/'
  | 'b' => some '\x08'
  | 'f' => some '\x0c'
  | 'n' => some '\n'
  | 'r' => some '\r'
  | 't' => some '\t'
  | _ => none

/-- What stands inside a string: a character, or a UTF-16 unit that an escape gives. -/
inductive StringItem where
  | char (c : Char)
  | unit (n : Nat)
  deriving DecidableEq, Repr

/-- The items of a string up to its closing quote, and the text after it. -/
def stringItems : List Char → Option (List StringItem × List Char)
  | '"' :: cs => some ([], cs)
  | '\\' :: 'u' :: a :: b :: c :: d :: cs => do
      let n ← unit? a b c d
      let (items, rest) ← stringItems cs
      some (.unit n :: items, rest)
  | '\\' :: c :: cs => do
      let e ← escaped? c
      let (items, rest) ← stringItems cs
      some (.char e :: items, rest)
  | c :: cs =>
      if c.toNat < 32 ∨ c = '\\' then none
      else do
        let (items, rest) ← stringItems cs
        some (.char c :: items, rest)
  | [] => none

/-- The characters that the items name. The two halves of a surrogate pair make one character; a
half that stands alone makes the string name no text. -/
def charsOfItems : List StringItem → Option (List Char)
  | [] => some []
  | .char c :: items => (charsOfItems items).map (c :: ·)
  | .unit h :: .unit l :: items =>
      if 0xD800 ≤ h ∧ h < 0xDC00 ∧ 0xDC00 ≤ l ∧ l < 0xE000 then
        (charsOfItems items).map (Char.ofNat (0x10000 + (h - 0xD800) * 0x400 + (l - 0xDC00)) :: ·)
      else if 0xD800 ≤ h ∧ h < 0xE000 then none
      else (charsOfItems (.unit l :: items)).map (Char.ofNat h :: ·)
  | .unit h :: items =>
      if 0xD800 ≤ h ∧ h < 0xE000 then none
      else (charsOfItems items).map (Char.ofNat h :: ·)

/-- A string after its opening quote: the text it names, if it names one, and the rest. -/
def readString (cs : List Char) : Option (Option String × List Char) := do
  let (items, rest) ← stringItems cs
  some ((charsOfItems items).map String.ofList, rest)

/-! ## Numbers -/

/-- The digits before the point: a zero alone, or digits that do not start with a zero. -/
def readWhole (cs : List Char) : Option (List Digit × List Char) :=
  match Decimal.span cs with
  | ([], _) => none
  | (d :: ds, rest) => if d = Digit.zero ∧ ds ≠ [] then none else some (d :: ds, rest)

/-- The digits after a point, of which there must be one. Without a point there is no fraction. -/
def readFraction : List Char → Option (List Digit × List Char)
  | '.' :: cs =>
      match Decimal.span cs with
      | ([], _) => none
      | (ds, rest) => some (ds, rest)
  | cs => some ([], cs)

/-- The sign and the digits of an exponent, after its letter. -/
def readExponentDigits (capital : Bool) (cs : List Char) : Option (Exponent × List Char) :=
  let (sign, cs) := match cs with
    | '-' :: cs => (some true, cs)
    | '+' :: cs => (some false, cs)
    | cs => (none, cs)
  match Decimal.span cs with
  | ([], _) => none
  | (ds, rest) => some (⟨capital, sign, ds⟩, rest)

/-- The exponent at the head of a text, if there is one. -/
def readExponent : List Char → Option (Option Exponent × List Char)
  | 'e' :: cs => (readExponentDigits false cs).map fun (e, rest) => (some e, rest)
  | 'E' :: cs => (readExponentDigits true cs).map fun (e, rest) => (some e, rest)
  | cs => some (none, cs)

/-- A number at the head of a text, and the rest. -/
def readNumber (cs : List Char) : Option (Numeral × List Char) := do
  let (negative, cs) := match cs with
    | '-' :: cs => (true, cs)
    | cs => (false, cs)
  let (whole, cs) ← readWhole cs
  let (fraction, cs) ← readFraction cs
  let (exponent, cs) ← readExponent cs
  some (⟨negative, whole, fraction, exponent⟩, cs)

/-! ## Values -/

mutual

/-- A value at the head of a text, and the rest. The first argument bounds the nesting of calls;
twice the length of the text is enough. -/
def readValue : Nat → List Char → Option (Json × List Char)
  | 0, _ => none
  | fuel + 1, cs =>
      match skipBlanks cs with
      | 'n' :: 'u' :: 'l' :: 'l' :: cs => some (.null, cs)
      | 't' :: 'r' :: 'u' :: 'e' :: cs => some (.bool true, cs)
      | 'f' :: 'a' :: 'l' :: 's' :: 'e' :: cs => some (.bool false, cs)
      | '"' :: cs => (readString cs).map fun (s, rest) => (.text s, rest)
      | '[' :: cs =>
          match skipBlanks cs with
          | ']' :: rest => some (.array [], rest)
          | _ => (readItems fuel cs).map fun (items, rest) => (.array items, rest)
      | '{' :: cs =>
          match skipBlanks cs with
          | '}' :: rest => some (.object [], rest)
          | _ => (readMembers fuel cs).map fun (members, rest) => (.object members, rest)
      | cs => (readNumber cs).map fun (n, rest) => (.number n, rest)

/-- The items of an array up to its closing bracket. There is at least one. -/
def readItems : Nat → List Char → Option (List Json × List Char)
  | 0, _ => none
  | fuel + 1, cs => do
      let (j, cs) ← readValue fuel cs
      match skipBlanks cs with
      | ',' :: cs =>
          let (js, rest) ← readItems fuel cs
          some (j :: js, rest)
      | ']' :: rest => some ([j], rest)
      | _ => none

/-- The members of an object up to its closing brace. There is at least one. -/
def readMembers : Nat → List Char → Option (List (Option String × Json) × List Char)
  | 0, _ => none
  | fuel + 1, cs =>
      match skipBlanks cs with
      | '"' :: cs => do
          let (k, cs) ← readString cs
          match skipBlanks cs with
          | ':' :: cs =>
              let (j, cs) ← readValue fuel cs
              match skipBlanks cs with
              | ',' :: cs =>
                  let (ms, rest) ← readMembers fuel cs
                  some ((k, j) :: ms, rest)
              | '}' :: rest => some ([(k, j)], rest)
              | _ => none
          | _ => none
      | _ => none

end

/-- The value of a text that holds one JSON value and white space around it. -/
def ofChars? (cs : List Char) : Option Json :=
  match readValue (2 * cs.length + 1) cs with
  | some (j, rest) => if skipBlanks rest = [] then some j else none
  | none => none

/-- The value of a text that holds one JSON value and white space around it. -/
def ofText? (s : String) : Option Json := ofChars? s.toList

end Json

end FilterQuery
