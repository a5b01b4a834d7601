import FilterQuery.Sql.Statement

/-!
# Reading SQL conditions

How a database reads the text of a condition. `lexemes` cuts the text: a quoted identifier ends at
the first quote character that is not written twice, a word is a keyword in any letter case, the
longest operator is taken, and the `k`-th placeholder stands for the `k`-th parameter.
`Reader.disjunction` reads the lexemes: `AND` binds more tightly than `OR`, the `AND` of `BETWEEN`
belongs to it, parentheses group, and `1 = 1` is the condition that every row satisfies.
`Predicate.ofText?` reads a whole text with all its parameters.

Nothing here looks at how predicates are written.
-/

set_option autoImplicit false

namespace FilterQuery.Sql

/-! ## Lexemes -/

/-- The words that conditions are written with. -/
inductive Word where
  | and | or | is | not | null | between | isIn
  | function (f : Aggregate)
  deriving DecidableEq, Repr

namespace Word

/-- All words. -/
def all : List Word :=
  [.and, .or, .is, .not, .null, .between, .isIn] ++ Aggregate.all.map Word.function

/-- The spelling of a word. -/
def text : Word → String
  | .and => "AND"
  | .or => "OR"
  | .is => "IS"
  | .not => "NOT"
  | .null => "NULL"
  | .between => "BETWEEN"
  | .isIn => "IN"
  | .function f => f.name

/-- The word with a spelling, in any letter case. -/
def ofText? (s : String) : Option Word := all.find? fun w => Text.sameWord w.text s

theorem ofText?_text (w : Word) : ofText? w.text = some w := by
  cases w with
  | function f => cases f <;> decide
  | and | or | is | not | null | between | isIn => decide

end Word

/-- The smallest parts of a condition. Placeholders have their values. -/
inductive Lexeme where
  | name (s : String)
  | param (l : Literal)
  | word (w : Word)
  | number (n : Nat)
  | operator (o : Operator)
  | opening
  | closing
  | comma
  | dot
  | star
  deriving DecidableEq, Repr

/-- The rest of a quoted name, after its first quote character `q`, and what comes after the
name. -/
def readQuoted (q : Char) : List Char → Option (List Char × List Char)
  | [] => none
  | [c] => if c = q then some ([], []) else none
  | c :: d :: cs =>
      if c = q then
        if d = q then (readQuoted q cs).map fun (s, rest) => (q :: s, rest)
        else some ([], d :: cs)
      else (readQuoted q (d :: cs)).map fun (s, rest) => (c :: s, rest)

/-- The character can stand in a word. -/
def isWordChar (c : Char) : Bool := c.isAlphanum || c == '_'

/-- The operator or the sign at the head of a text. -/
def symbol? : List Char → Option (Lexeme × List Char)
  | '(' :: cs => some (.opening, cs)
  | ')' :: cs => some (.closing, cs)
  | ',' :: cs => some (.comma, cs)
  | '.' :: cs => some (.dot, cs)
  | '*' :: cs => some (.star, cs)
  | '=' :: cs => some (.operator .eq, cs)
  | '<' :: '>' :: cs => some (.operator .ne, cs)
  | '<' :: '=' :: cs => some (.operator .lte, cs)
  | '<' :: cs => some (.operator .lt, cs)
  | '>' :: '=' :: cs => some (.operator .gte, cs)
  | '>' :: cs => some (.operator .gt, cs)
  | _ => none

/-- The lexeme at the head of a text, unless it is a placeholder. -/
def lexeme? (d : Dialect) : List Char → Option (Lexeme × List Char)
  | [] => none
  | c :: cs =>
      if c = d.quoteChar then
        (readQuoted c cs).map fun (s, rest) => (.name (String.ofList s), rest)
      else if c.isAlpha then
        (Word.ofText? (String.ofList ((c :: cs).takeWhile isWordChar))).map fun w =>
          (.word w, (c :: cs).dropWhile isWordChar)
      else if Digit.isDigit c then
        some (.number (Decimal.value (Decimal.span (c :: cs)).1), (Decimal.span (c :: cs)).2)
      else symbol? (c :: cs)

/-- What comes after the placeholder at the head of a text, if it is the one with the index. -/
def placeholder? (d : Dialect) (index : Nat) : List Char → Option (List Char)
  | '$' :: cs =>
      if d = .postgres ∧ Decimal.value (Decimal.span cs).1 = index + 1 then
        some (Decimal.span cs).2
      else none
  | '?' :: cs => if d = .mysql then some cs else none
  | _ => none

/-- The lexemes of a text whose first placeholder has the index `index`; all the parameters have to
be used. The fuel bounds the number of lexemes and blanks. -/
def lexemes (d : Dialect) : Nat → Nat → List Literal → List Char → Option (List Lexeme)
  | 0, _, _, _ => none
  | _ + 1, _, params, [] => if params = [] then some [] else none
  | fuel + 1, index, params, c :: cs =>
      if c.isWhitespace then lexemes d fuel index params cs
      else
        match placeholder? d index (c :: cs) with
        | some rest =>
            match params with
            | l :: params => (lexemes d fuel (index + 1) params rest).map (Lexeme.param l :: ·)
            | [] => none
        | none =>
            match lexeme? d (c :: cs) with
            | some (t, rest) => (lexemes d fuel index params rest).map (t :: ·)
            | none => none

/-! ## Conditions -/

namespace Reader

/-- Items with a lexeme between neighbours. The fuel bounds the number of items. -/
def separated {α : Type} (separator : Lexeme) (item : List Lexeme → Option (α × List Lexeme)) :
    Nat → List Lexeme → Option (List α × List Lexeme)
  | 0, _ => none
  | fuel + 1, ts =>
      match item ts with
      | some (a, t :: ts) =>
          if t = separator then
            (separated separator item fuel ts).map fun (as, ts) => (a :: as, ts)
          else some ([a], t :: ts)
      | some (a, []) => some ([a], [])
      | none => none

/-- A column, a parameter, or a function with its argument. -/
def expr : List Lexeme → Option (Expr × List Lexeme)
  | .name label :: .dot :: .name name :: ts => some (.column ⟨label, name⟩, ts)
  | .param l :: ts => some (.param l, ts)
  | .word (.function f) :: .opening :: .star :: .closing :: ts => some (.aggregateAll f, ts)
  | .word (.function f) :: .opening :: ts =>
      match expr ts with
      | some (e, .closing :: ts) => some (.aggregate f e, ts)
      | _ => none
  | _ => none

/-- What is said about an expression. -/
def comparison (e : Expr) : List Lexeme → Option (Predicate × List Lexeme)
  | .operator o :: ts => (expr ts).map fun (r, ts) => (.compare o e r, ts)
  | .word .is :: .word .null :: ts => some (.isNull e, ts)
  | .word .is :: .word .not :: .word .null :: ts => some (.isNotNull e, ts)
  | .word .between :: ts =>
      match expr ts with
      | some (low, .word .and :: ts) => (expr ts).map fun (high, ts) => (.between e low high, ts)
      | _ => none
  | .word .isIn :: .opening :: ts =>
      match separated .comma expr (ts.length + 1) ts with
      | some (es, .closing :: ts) => some (.isIn e es, ts)
      | _ => none
  | _ => none

/-- The condition that every row satisfies, a condition in parentheses, or a comparison. -/
def test (group : List Lexeme → Option (Predicate × List Lexeme)) :
    List Lexeme → Option (Predicate × List Lexeme)
  | .number 1 :: .operator .eq :: .number 1 :: ts => some (.always, ts)
  | .opening :: ts =>
      match group ts with
      | some (p, .closing :: ts) => some (p, ts)
      | _ => none
  | ts =>
      match expr ts with
      | some (e, ts) => comparison e ts
      | none => none

/-- Some predicates, connected from the left. -/
def connected (connect : Predicate → Predicate → Predicate) : List Predicate → Predicate
  | [] => .always
  | p :: ps => ps.foldl connect p

/-- A chain of predicates with a word between neighbours. -/
def chain (w : Word) (connect : Predicate → Predicate → Predicate)
    (item : List Lexeme → Option (Predicate × List Lexeme)) (ts : List Lexeme) :
    Option (Predicate × List Lexeme) :=
  (separated (.word w) item (ts.length + 1) ts).map fun (ps, ts) => (connected connect ps, ts)

/-- A chain of conjunctions. The fuel bounds the depth of parentheses. -/
def disjunction : Nat → List Lexeme → Option (Predicate × List Lexeme)
  | 0, _ => none
  | fuel + 1, ts => chain .or .or (chain .and .and (test (disjunction fuel))) ts

end Reader

/-- The predicate that the whole text says with these parameters. -/
def Predicate.ofText? (d : Dialect) (params : List Literal) (text : String) : Option Predicate :=
  match lexemes d (text.length + 1) 0 params text.toList with
  | none => none
  | some ts =>
      match Reader.disjunction (ts.length + 1) ts with
      | some (p, []) => some p
      | _ => none

end FilterQuery.Sql
