import FilterQuery.Text.Letters

/-!
# Tokens

The words and marks of a filter query. A `Token` has a `Kind`, the text it was read from (its
lexeme) and a `Position`. `Kind.keywords` lists the reserved words; `Kind.ofWord` tells whether a
word is one of them, in any letter case, or a plain identifier.
-/

set_option autoImplicit false

namespace FilterQuery

/-! ## Positions -/

/-- A place in a text: its byte offset, and its line and column, counted from one. A column counts
characters. -/
structure Position where
  offset : Nat
  line : Nat
  column : Nat
  deriving DecidableEq, Repr

namespace Position

/-- The start of a text. -/
def start : Position := ⟨0, 1, 1⟩

/-- The place after one more character; a line feed starts a new line. -/
def step (p : Position) (c : Char) : Position :=
  if c = '\n' then ⟨p.offset + 1, p.line + 1, 1⟩
  else ⟨p.offset + c.utf8Size, p.line, p.column + 1⟩

/-- The place after a text that starts at `p`. -/
def after (p : Position) (cs : List Char) : Position := cs.foldl step p

@[simp] theorem after_nil (p : Position) : p.after [] = p := rfl

@[simp] theorem after_cons (p : Position) (c : Char) (cs : List Char) :
    p.after (c :: cs) = (p.step c).after cs := rfl

theorem after_append (p : Position) (cs ds : List Char) :
    p.after (cs ++ ds) = (p.after cs).after ds := by
  simp [after]

end Position

/-! ## Kinds -/

/-- What a token is: a keyword, a literal, an identifier, an operator, a delimiter, or the end of
the text. -/
inductive Kind where
  | and | or | not | isIn | between | is | null | group | by | having | left | right
  | count | sum | avg | min | max
  | string | number | identifier
  | equal | notEqual | less | lessOrEqual | greater | greaterOrEqual
  | leftParen | rightParen | comma | dot | star
  | eof
  deriving DecidableEq, Repr

namespace Kind

/-- The keywords and their spelling in capitals. -/
def keywords : List (Kind × String) :=
  [(.and, "AND"), (.or, "OR"), (.not, "NOT"), (.isIn, "IN"), (.between, "BETWEEN"), (.is, "IS"),
    (.null, "NULL"), (.group, "GROUP"), (.by, "BY"), (.having, "HAVING"), (.left, "LEFT"),
    (.right, "RIGHT"), (.count, "COUNT"), (.sum, "SUM"), (.avg, "AVG"), (.min, "MIN"),
    (.max, "MAX")]

/-- The kind of a word: a keyword in any letter case, otherwise an identifier. -/
def ofWord (word : String) : Kind :=
  match keywords.find? fun (_, spelling) => Text.sameWord spelling word with
  | some (kind, _) => kind
  | none => .identifier

/-- The functions over a group of rows. -/
def isAggregate : Kind → Bool
  | .count | .sum | .avg | .min | .max => true
  | _ => false

/-- The reserved words. -/
def isKeyword : Kind → Bool
  | .and | .or | .not | .isIn | .between | .is | .null | .group | .by | .having | .left
  | .right => true
  | k => k.isAggregate

/-- The operators that compare two values. -/
def isComparison : Kind → Bool
  | .equal | .notEqual | .less | .lessOrEqual | .greater | .greaterOrEqual => true
  | _ => false

/-- The name of a kind in messages: the spelling of words and marks, and a description of the
others. -/
def label : Kind → String
  | .and => "AND"
  | .or => "OR"
  | .not => "NOT"
  | .isIn => "IN"
  | .between => "BETWEEN"
  | .is => "IS"
  | .null => "NULL"
  | .group => "GROUP"
  | .by => "BY"
  | .having => "HAVING"
  | .left => "LEFT"
  | .right => "RIGHT"
  | .count => "COUNT"
  | .sum => "SUM"
  | .avg => "AVG"
  | .min => "MIN"
  | .max => "MAX"
  | .string => "string literal"
  | .number => "number"
  | .identifier => "identifier"
  | .equal => "="
  | .notEqual => "!="
  | .less => "<"
  | .lessOrEqual => "<="
  | .greater => ">"
  | .greaterOrEqual => ">="
  | .leftParen => "("
  | .rightParen => ")"
  | .comma => ","
  | .dot => "."
  | .star => "*"
  | .eof => "end of input"

/-- Every keyword is found under its own spelling. -/
theorem ofWord_keywords : ∀ p ∈ keywords, ofWord p.2 = p.1 ∧ p.1.label = p.2 := by
  decide

end Kind

/-! ## Tokens -/

/-- A token with the text it was read from and the place where it starts. -/
structure Token extends Position where
  kind : Kind
  lexeme : String
  deriving DecidableEq, Repr

namespace Token

/-- The end of a text. -/
def eof (p : Position) : Token := { p with kind := .eof, lexeme := "" }

/-- A token as messages name it. -/
def describe (t : Token) : String :=
  if t.kind = .eof then "end of input" else "'" ++ t.lexeme ++ "'"

end Token

end FilterQuery
