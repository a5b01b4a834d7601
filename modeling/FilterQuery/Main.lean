import FilterQuery.CommandLine

/-!
# The tool

Runs the action of a command line on the files of the system.
-/

set_option autoImplicit false

namespace FilterQuery

/-- Runs an operation and keeps the reason of its failure. -/
def attempt {α : Type} (x : IO α) : IO (Except String α) := do
  try
    return .ok (← x)
  catch e =>
    return .error (toString e)

/-- Runs an action. -/
def Action.run : Action → IO Outcome
  | .finish outcome => return outcome
  | .read file next => do
      let text ← attempt (IO.FS.readFile file)
      (next text).run
  | .write file text next => do
      let done ← attempt (IO.FS.writeFile file text)
      (next done).run

end FilterQuery

def main (arguments : List String) : IO UInt32 := do
  let outcome ← (FilterQuery.Action.ofArguments arguments).run
  IO.print outcome.output
  match outcome.log with
  | some (level, message) => IO.eprintln (level.name ++ " " ++ message)
  | none => pure ()
  return outcome.code.toUInt32
