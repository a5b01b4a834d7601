import FilterQuery.Query.OfText
import FilterQuery.Query.ToJson
import FilterQuery.Sql.Statement

/-!
# The command line

The tool has three commands: `ast` shows a query as JSON with its fingerprint, `check` lists the
errors of a query, `sql` turns a query into a statement. `Invocation.ofArguments` reads the
arguments. What a command does is an `Action`: it may read or write one file and ends with an
`Outcome`. Nothing here touches a file; whoever runs an action does.
-/

set_option autoImplicit false

namespace FilterQuery

/-! ## Arguments -/

/-- A command with its arguments. -/
inductive Command where
  | ast (query : String) (output : Option String)
  | check (query : String)
  | sql (query schemaFile : String) (dialect : Sql.Dialect)
  deriving DecidableEq, Repr

/-- What the arguments ask for. -/
inductive Invocation where
  | run (command : Command)
  | version
  /-- The arguments make no sense. -/
  | misuse
  deriving DecidableEq, Repr

namespace Invocation

/-- The argument is an option, not a value: it starts with a dash and has more to it. -/
def isOption (argument : String) : Bool :=
  match argument.toList with
  | '-' :: _ :: _ => true
  | _ => false

/-- An option with its value behind an equals sign: the name and the value. -/
def splitEquals (argument : String) : Option (String × String) :=
  match argument.toList.dropWhile (· ≠ '=') with
  | _ :: value =>
      some (String.ofList (argument.toList.takeWhile (· ≠ '=')), String.ofList value)
  | [] => none

/-- The values and the options among some arguments, for the options that are known. The value of
an option is behind an equals sign or is the next argument. After `--` there are only values. -/
def collect? (known : List String) :
    List String → Option (List String × List (String × String))
  | [] => some ([], [])
  | "--" :: rest => some (rest, [])
  | [a] =>
      if isOption a then
        match splitEquals a with
        | some (name, value) => if name ∈ known then some ([], [(name, value)]) else none
        | none => none
      else some ([a], [])
  | a :: b :: rest =>
      if isOption a then
        match splitEquals a with
        | some (name, value) =>
            if name ∈ known then
              (collect? known (b :: rest)).map fun (vs, os) => (vs, (name, value) :: os)
            else none
        | none =>
            if a ∈ known ∧ !isOption b then
              (collect? known rest).map fun (vs, os) => (vs, (a, b) :: os)
            else none
      else (collect? known (b :: rest)).map fun (vs, os) => (a :: vs, os)

/-- The one value among some arguments, and the options, none of which is repeated. -/
def single? (known : List String) (arguments : List String) :
    Option (String × List (String × String)) :=
  match collect? known arguments with
  | some ([value], options) =>
      if (options.map Prod.fst).Nodup then some (value, options) else none
  | _ => none

/-- The dialect with a name. -/
def dialect? : String → Option Sql.Dialect
  | "postgres" => some .postgres
  | "mysql" => some .mysql
  | _ => none

/-- The arguments of `ast`. -/
def ast? (arguments : List String) : Option Command := do
  let (query, options) ← single? ["--output"] arguments
  some (.ast query (options.lookup "--output"))

/-- The arguments of `check`. -/
def check? (arguments : List String) : Option Command := do
  let (query, _) ← single? [] arguments
  some (.check query)

/-- The arguments of `sql`. -/
def sql? (arguments : List String) : Option Command := do
  let (query, options) ← single? ["--schema", "--dialect"] arguments
  let schemaFile ← options.lookup "--schema"
  let dialect ← match options.lookup "--dialect" with
    | some name => dialect? name
    | none => some .postgres
  some (.sql query schemaFile dialect)

/-- The invocation of a command, if its arguments make sense. -/
def ofCommand? : Option Command → Invocation
  | some command => .run command
  | none => .misuse

/-- The argument asks for the version. Letters may follow the short form; they are not looked at. -/
def isVersion (argument : String) : Bool :=
  argument == "--version" || argument.toList.take 2 == ['-', 'V']

/-- What some arguments ask for. -/
def ofArguments : List String → Invocation
  | "ast" :: rest => ofCommand? (ast? rest)
  | "check" :: rest => ofCommand? (check? rest)
  | "sql" :: rest => ofCommand? (sql? rest)
  | first :: _ => if isVersion first then .version else .misuse
  | [] => .misuse

end Invocation

/-! ## Outcomes -/

/-- How much a message in the log matters. -/
inductive Level where
  | info
  | error
  deriving DecidableEq, Repr

/-- The name of a level. -/
def Level.name : Level → String
  | .info => "INFO"
  | .error => "ERROR"

/-- How a command ends. -/
structure Outcome where
  code : Nat
  output : String
  log : Option (Level × String)
  deriving DecidableEq, Repr

namespace Outcome

/-- A character of a message in the log. Characters that steer a terminal are spelled out. -/
def logChar (c : Char) : List Char :=
  let n := c.toNat
  if n = 0x1b ∨ n = 0x07 ∨ n = 0x08 ∨ n = 0x0c ∨ n = 0x7f then
    ['\\', 'x', Text.hexDigit (n / 16), Text.hexDigit (n % 16)]
  else if 0x80 ≤ n ∧ n < 0xa0 then
    ['\\', 'u', '{', Text.hexDigit (n / 16), Text.hexDigit (n % 16), '}']
  else [c]

/-- A message as the log shows it. -/
def logText (s : String) : String := String.ofList (s.toList.flatMap logChar)

/-- Success, with some output. -/
def success (output : String) : Outcome := ⟨0, output, none⟩

/-- Failure, with a message in the log. -/
def failure (message : String) : Outcome := ⟨1, "", some (.error, logText message)⟩

/-- The arguments make no sense. -/
def misuse : Outcome := ⟨2, "", none⟩

end Outcome

/-! ## Actions -/

/-- What a command does. The answer to a file operation is the text or the reason why it failed. -/
inductive Action where
  | finish (outcome : Outcome)
  | read (file : String) (next : Except String String → Action)
  | write (file text : String) (next : Except String Unit → Action)

namespace Command

/-- The line that tells the fingerprint of a query. -/
def fingerprintLine (q : Query) : String := "fingerprint: " ++ q.fingerprint ++ "\n"

/-- Shows a query, or writes it to a file. -/
def showAst (q : Query) : Option String → Action
  | none => .finish (.success (q.toJson.toPrettyText ++ "\n" ++ fingerprintLine q))
  | some file =>
      .write file q.toJson.toPrettyText fun
        | .ok () => .finish (.success (fingerprintLine q))
        | .error reason => .finish (.failure ("Failed to write output: " ++ reason))

/-- The outcome for a text that is no query. -/
def badQuery (e : QueryError) : Outcome :=
  .failure ("Failed to compile the query: " ++ e.message)

/-- Lists the errors of a query. -/
def checkOutcome (text : String) : Outcome :=
  match Query.ofText text with
  | .ok _ => ⟨0, "", some (.info, "Query is valid")⟩
  | .error (.rejected report) =>
      { Outcome.failure ("Query rejected with " ++ toString report.size ++ " error(s)") with
        output := String.join (report.problems.map fun p => p.message ++ "\n") }
  | .error e => badQuery e

/-- The lines of a statement: its text, and its parameters if there are any. -/
def statementLines (s : Sql.Statement) : String :=
  s.text ++ "\n" ++
    (if s.params.isEmpty then ""
    else "params: " ++ (Json.array (s.params.map Literal.toJson)).toText ++ "\n")

/-- Turns a query into a statement on the schema that a text describes. -/
def sqlOutcome (text schemaText : String) (d : Sql.Dialect) : Outcome :=
  match Sql.Schema.ofText schemaText with
  | .error e => .failure ("Failed to load the schema: " ++ e.message)
  | .ok schema =>
      match Query.ofText text with
      | .error e => badQuery e
      | .ok q =>
          match q.toSql schema d with
          | .error e => .failure ("Failed to translate the query: " ++ e.message)
          | .ok statement => .success (statementLines statement)

/-- What a command does. -/
def action : Command → Action
  | .ast text output =>
      match Query.ofText text with
      | .ok q => showAst q output
      | .error e => .finish (badQuery e)
  | .check text => .finish (checkOutcome text)
  | .sql text file d =>
      .read file fun
        | .ok schemaText => .finish (sqlOutcome text schemaText d)
        | .error reason =>
            .finish (.failure ("Failed to load the schema: Failed to read schema: " ++ reason))

end Command

/-- What the tool does with some arguments. -/
def Action.ofArguments (arguments : List String) : Action :=
  match Invocation.ofArguments arguments with
  | .run command => command.action
  | .version => .finish (.success "fql 0.1.0\n")
  | .misuse => .finish .misuse

end FilterQuery
