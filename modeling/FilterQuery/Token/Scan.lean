import FilterQuery.Decimal
import FilterQuery.Token

/-!
# Scanning

A text is cut into pieces from left to right: white space is skipped, a token is taken as long as
its class allows, and characters that start no token are kept together as one unread piece.
`headToken?` describes the token at the head of a text, `unreadRun` the run of characters that
belong to no token, and `Scan.pieces` the whole text. `Scan.tokens` ends with the token that marks
the end.
-/

set_option autoImplicit false

namespace FilterQuery

/-- Text that the scanner could not use. -/
inductive LexError where
  /-- Characters that start no token. -/
  | unrecognized (text : String) (place : Position)
  /-- The scanner gave up, with a message of its own. -/
  | failure (message : String) (place : Position)
  deriving DecidableEq, Repr

namespace LexError

/-- Where the text stands. -/
def place : LexError → Position
  | .unrecognized _ p => p
  | .failure _ p => p

/-- The byte offset of the text. -/
def offset (e : LexError) : Nat := e.place.offset

/-- The wording of an error. -/
def message : LexError → String
  | .unrecognized text p =>
      "Unrecognized input '" ++ text ++ "' at line " ++ toString p.line ++ ", column " ++
        toString p.column
  | .failure text p =>
      "Tokenizer failure at line " ++ toString p.line ++ ", column " ++ toString p.column ++
        ": " ++ text

end LexError

namespace Scan

/-! ## Character classes -/

/-- The characters between tokens. -/
def isSpace (c : Char) : Bool := c == ' ' || c == '\t' || c == '\r' || c == '\n'

/-- The characters a word may start with. -/
def isWordStart (c : Char) : Bool := c.isAlpha || c == '_'

/-- The characters a word may go on with. -/
def isWordChar (c : Char) : Bool := c.isAlphanum || c == '_'

/-! ## The token at the head of a text -/

/-- A number: digits, and a fraction if a digit follows the point. -/
def numberAt (cs : List Char) : List Char :=
  let whole := cs.takeWhile Digit.isDigit
  match cs.drop whole.length with
  | '.' :: d :: rest =>
      if Digit.isDigit d then whole ++ '.' :: (d :: rest).takeWhile Digit.isDigit else whole
  | _ => whole

/-- An operator or a delimiter; of two that fit, the longer one. -/
def markAt : List Char → Option (Kind × List Char)
  | '!' :: '=' :: _ => some (.notEqual, ['!', '='])
  | '<' :: '=' :: _ => some (.lessOrEqual, ['<', '='])
  | '>' :: '=' :: _ => some (.greaterOrEqual, ['>', '='])
  | '=' :: _ => some (.equal, ['='])
  | '<' :: _ => some (.less, ['<'])
  | '>' :: _ => some (.greater, ['>'])
  | '(' :: _ => some (.leftParen, ['('])
  | ')' :: _ => some (.rightParen, [')'])
  | ',' :: _ => some (.comma, [','])
  | '.' :: _ => some (.dot, ['.'])
  | '*' :: _ => some (.star, ['*'])
  | _ => none

/-- The kind and the characters of the token at the head of a text. A quote starts a string only
if another quote follows somewhere. -/
def headToken? (cs : List Char) : Option (Kind × List Char) :=
  match cs with
  | [] => none
  | c :: rest =>
      if isWordStart c then
        let word := cs.takeWhile isWordChar
        some (Kind.ofWord (String.ofList word), word)
      else if Digit.isDigit c then some (.number, numberAt cs)
      else if c = '\'' then
        if '\'' ∈ rest then some (.string, '\'' :: (rest.takeWhile (· ≠ '\'') ++ ['\''])) else none
      else markAt cs

/-- The longest run of characters none of which is white space or starts a token. -/
def unreadRun : List Char → List Char
  | [] => []
  | c :: rest =>
      if isSpace c || (headToken? (c :: rest)).isSome then [] else c :: unreadRun rest

/-! ## The whole text -/

/-- A piece of a text. -/
inductive Piece where
  | token (t : Token)
  | unread (e : LexError)
  deriving DecidableEq, Repr

/-- The pieces of a text that starts at `p`, without the end mark. After the first character of a
piece the rest of its characters are dropped from what follows. -/
def pieces (p : Position) : List Char → List Piece
  | [] => []
  | c :: rest =>
      if isSpace c then pieces (p.step c) rest
      else
        match headToken? (c :: rest) with
        | some (kind, lexeme) =>
            .token { p with kind, lexeme := String.ofList lexeme } ::
              pieces (p.after lexeme) (rest.drop (lexeme.length - 1))
        | none =>
            let text := c :: unreadRun rest
            .unread (.unrecognized (String.ofList text) p) ::
              pieces (p.after text) (rest.drop (text.length - 1))
  termination_by cs => cs.length
  decreasing_by all_goals simp only [List.length_cons, List.length_drop]; omega

/-- The token of a piece. -/
def Piece.token? : Piece → Option Token
  | .token t => some t
  | .unread _ => none

/-- The error of a piece. -/
def Piece.error? : Piece → Option LexError
  | .token _ => none
  | .unread e => some e

end Scan

/-- The tokens of a text, the last of which marks its end. -/
def Scan.tokens (s : String) : List Token :=
  (pieces .start s.toList).filterMap Piece.token? ++ [.eof (Position.start.after s.toList)]

/-- The unread pieces of a text. -/
def Scan.errors (s : String) : List LexError :=
  (pieces .start s.toList).filterMap Piece.error?

end FilterQuery
