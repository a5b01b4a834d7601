import FilterQuery.Proofs.Token.Lexeme
import FilterQuery.Query
import FilterQuery.Text.Number
import FilterQuery.Tree.Parse
import Mathlib.Data.List.Forall2

/-!
# Canonical queries and their texts

A query is canonical if it has the shape that texts have: its conditions are disjunctions of
conjunctions, whose children are comparisons or such disjunctions again, and its operands can be
written. `Query.Writes q text` is the usual way to write a query, with one blank between words. A
float may be written with any digits on both sides of a point that are read as this float;
everything else is written in one way. Every canonical query has a text
(`Query.Canonical.exists_writes`).
-/

set_option autoImplicit false

namespace FilterQuery

/-! ## Texts -/

/-- Digits on both sides of a point. -/
def IsDecimal (cs : List Char) : Prop :=
  ∃ whole fraction, Scan.IsDigits whole ∧ Scan.IsDigits fraction ∧ cs = whole ++ '.' :: fraction

/-- A decimal that is read as the float, or the text of another literal. -/
def Literal.Writes : Literal → List Char → Prop
  | .float x, cs => IsDecimal cs ∧ Text.readDecimal? (String.ofList cs) = some x
  | l, cs => cs = l.text.toList

/-- The text of the operand; literals by `Literal.Writes`. -/
def Operand.Writes : Operand → List Char → Prop
  | .literal l, cs => l.Writes cs
  | o, cs => cs = o.text.toList

/-- What stands before a comparison: the keyword of a join that is no inner one. -/
def JoinKind.before : JoinKind → List Char
  | .inner => []
  | j => j.keyword.toList ++ [' ']

namespace Condition

mutual

/-- The text of a condition; a disjunction stands in parentheses. -/
def Writes : Condition → List Char → Prop
  | .anyOf cs, text => ∃ texts, WriteEach cs texts ∧
      text = '(' :: (" OR ".toList.intercalate texts ++ [')'])
  | .allOf cs, text => ∃ texts, WriteEach cs texts ∧ text = " AND ".toList.intercalate texts
  | .compare l o r j, text => ∃ left right, l.Writes left ∧ r.Writes right ∧
      text = j.before ++ (left ++ ' ' :: (o.symbol.toList ++ ' ' :: right))
  | .isIn l vs j, text => ∃ left texts, l.Writes left ∧ List.Forall₂ Operand.Writes vs texts ∧
      text = j.before ++ (left ++ (" IN (".toList ++ (", ".toList.intercalate texts ++ [')'])))
  | .between l a b j, text => ∃ left low high, l.Writes left ∧ a.Writes low ∧ b.Writes high ∧
      text = j.before ++ (left ++ (" BETWEEN ".toList ++ (low ++ (" AND ".toList ++ high))))
  | .nullTest l o j, text => ∃ left, l.Writes left ∧
      text = j.before ++ (left ++ ' ' :: o.symbol.toList)

/-- The texts of some conditions. -/
def WriteEach : List Condition → List (List Char) → Prop
  | [], texts => texts = []
  | c :: cs, texts => ∃ first others, c.Writes first ∧ WriteEach cs others ∧ texts = first :: others

end

theorem writeEach_iff {cs : List Condition} {texts : List (List Char)} :
    WriteEach cs texts ↔ List.Forall₂ Writes cs texts := by
  induction cs generalizing texts with
  | nil => rw [WriteEach, List.forall₂_nil_left_iff]
  | cons c cs ih => simp only [WriteEach, List.forall₂_cons_left_iff, ih]

/-- The text of the condition of a clause; its disjunction stands without parentheses. -/
def WritesClause : Condition → List Char → Prop
  | .anyOf cs, text => ∃ texts, List.Forall₂ Writes cs texts ∧
      text = " OR ".toList.intercalate texts
  | c, text => c.Writes text

end Condition

namespace Query

/-- The clause of the items to group by. -/
def WritesGrouping : Option (List Operand) → List Char → Prop
  | none, text => text = []
  | some os, text => ∃ texts, List.Forall₂ Operand.Writes os texts ∧
      text = " GROUP BY ".toList ++ ", ".toList.intercalate texts

/-- The clause of the condition on groups. -/
def WritesHaving : Option Condition → List Char → Prop
  | none, text => text = []
  | some c, text => ∃ inner, c.WritesClause inner ∧ text = " HAVING ".toList ++ inner

/-- The text of a query. -/
def Writes (q : Query) (text : List Char) : Prop :=
  ∃ condition grouping having, q.condition.WritesClause condition ∧
    WritesGrouping q.grouping grouping ∧ WritesHaving q.having having ∧
      text = condition ++ (grouping ++ having)

end Query

/-! ## Canonical queries -/

/-- Words, the first of which is not reserved unless it is the name of an aggregate function. -/
def Path.Canonical (p : Path) : Prop :=
  (∀ w ∈ p.identifiers, Scan.IsWord w.toList) ∧
    ∃ w ∈ p.identifiers.head?, Kind.ofWord w = .identifier ∨ (Kind.ofWord w).isAggregate = true

instance : DecidablePred Path.Canonical := fun _ => inferInstanceAs (Decidable (_ ∧ _))

/-- A literal that can be written: a string without a quote, an integer that is not negative, or a
finite float with a decimal text. -/
def Literal.Canonical : Literal → Prop
  | .string s => '\'' ∉ s.toList
  | .integer n => 0 ≤ n.toInt
  | .float x => x.isFinite = true ∧ ∃ cs, Literal.Writes (.float x) cs
  | .boolean _ => False

namespace Operand

/-- An operand that can be written; only `COUNT` takes `*`. -/
def Canonical : Operand → Prop
  | .path p => p.Canonical
  | .literal l => l.Canonical
  | .aggregate f p => p.Canonical ∨ f = .count ∧ p = .wildcard

/-- What may stand on the left of a comparison and among the items to group by. -/
def Selects : Operand → Prop
  | .literal _ => False
  | o => o.Canonical

instance : DecidablePred Selects
  | .literal _ => inferInstanceAs (Decidable False)
  | .path p => inferInstanceAs (Decidable p.Canonical)
  | .aggregate f p => inferInstanceAs (Decidable (p.Canonical ∨ f = .count ∧ p = .wildcard))

end Operand

namespace Condition

/-- A comparison that can be written, with an operator of its kind. -/
def CanonicalComparison : Condition → Prop
  | .anyOf _ | .allOf _ => False
  | .compare l o r _ => l.Selects ∧ o.isBinary = true ∧ r.Canonical
  | .isIn l vs _ => l.Selects ∧ vs ≠ [] ∧ ∀ v ∈ vs, v.Canonical
  | .between l a b _ => l.Selects ∧ a.Canonical ∧ b.Canonical
  | .nullTest l o _ => l.Selects ∧ o.isUnary = true

/-- What a conjunction holds: a comparison, or a disjunction of conjunctions in which disjunctions
nest less deep than the number allows. -/
inductive Term : Nat → Condition → Prop where
  | comparison {n : Nat} {c : Condition} (h : c.CanonicalComparison) : Term n c
  | group {n : Nat} {css : List (List Condition)} (nonempty : css ≠ [])
      (terms : ∀ cs ∈ css, cs ≠ []) (inner : ∀ cs ∈ css, ∀ c ∈ cs, Term n c) :
      Term (n + 1) (.anyOf (css.map .allOf))

/-- A disjunction of conjunctions in which further disjunctions nest at most `n` deep. -/
def Canonical (n : Nat) (c : Condition) : Prop :=
  ∃ css : List (List Condition), c = .anyOf (css.map .allOf) ∧ css ≠ [] ∧ (∀ cs ∈ css, cs ≠ []) ∧
    ∀ cs ∈ css, ∀ c ∈ cs, Term n c

end Condition

/-- The query has the shape of a text. -/
structure Query.Canonical (q : Query) : Prop where
  condition : q.condition.Canonical maxNesting
  having : ∀ c ∈ q.having, c.Canonical maxNesting
  grouping : ∀ os ∈ q.grouping, os ≠ [] ∧ ∀ o ∈ os, o.Selects

/-! ## Canonical queries have texts -/

theorem Operand.Selects.canonical {o : Operand} (h : o.Selects) : o.Canonical := by
  cases o with
  | literal l => cases h
  | path p => exact h
  | aggregate f p => exact h

theorem Operand.Canonical.exists_writes {o : Operand} (h : o.Canonical) : ∃ cs, o.Writes cs := by
  cases o with
  | path p => exact ⟨_, rfl⟩
  | aggregate f p => exact ⟨_, rfl⟩
  | literal l =>
      cases l with
      | float x => exact h.2
      | string s => exact ⟨_, rfl⟩
      | integer n => exact ⟨_, rfl⟩
      | boolean b => exact ⟨_, rfl⟩

theorem exists_forall₂ {α β : Type} {R : α → β → Prop} {as : List α} (h : ∀ a ∈ as, ∃ b, R a b) :
    ∃ bs, List.Forall₂ R as bs := by
  induction as with
  | nil => exact ⟨[], .nil⟩
  | cons a as ih =>
      obtain ⟨⟨b, hb⟩, has⟩ := List.forall_mem_cons.mp h
      obtain ⟨bs, hbs⟩ := ih has
      exact ⟨b :: bs, .cons hb hbs⟩

namespace Condition

theorem CanonicalComparison.exists_writes {c : Condition} (h : c.CanonicalComparison) :
    ∃ text, c.Writes text := by
  cases c with
  | anyOf cs => cases h
  | allOf cs => cases h
  | compare l o r j =>
      obtain ⟨left, hleft⟩ := h.1.canonical.exists_writes
      obtain ⟨right, hright⟩ := h.2.2.exists_writes
      exact ⟨_, left, right, hleft, hright, rfl⟩
  | isIn l vs j =>
      obtain ⟨left, hleft⟩ := h.1.canonical.exists_writes
      obtain ⟨texts, htexts⟩ := exists_forall₂ fun v hv => (h.2.2 v hv).exists_writes
      exact ⟨_, left, texts, hleft, htexts, rfl⟩
  | between l a b j =>
      obtain ⟨left, hleft⟩ := h.1.canonical.exists_writes
      obtain ⟨low, hlow⟩ := h.2.1.exists_writes
      obtain ⟨high, hhigh⟩ := h.2.2.exists_writes
      exact ⟨_, left, low, high, hleft, hlow, hhigh, rfl⟩
  | nullTest l o j =>
      obtain ⟨left, hleft⟩ := h.1.canonical.exists_writes
      exact ⟨_, left, hleft, rfl⟩

/-- The texts of the conjunctions of a disjunction, if their children have texts. -/
theorem exists_forall₂_allOf {css : List (List Condition)}
    (h : ∀ cs ∈ css, ∀ c ∈ cs, ∃ text, Writes c text) :
    ∃ texts, List.Forall₂ Writes (css.map .allOf) texts := by
  refine exists_forall₂ (List.forall_mem_map.mpr fun cs hcs => ?_)
  obtain ⟨texts, htexts⟩ := exists_forall₂ (h cs hcs)
  exact ⟨_, texts, writeEach_iff.mpr htexts, rfl⟩

theorem Term.exists_writes {n : Nat} {c : Condition} (h : Term n c) : ∃ text, c.Writes text := by
  induction h with
  | comparison h => exact h.exists_writes
  | group _ _ _ ih =>
      obtain ⟨texts, htexts⟩ := exists_forall₂_allOf ih
      exact ⟨_, texts, writeEach_iff.mpr htexts, rfl⟩

theorem Canonical.exists_writesClause {n : Nat} {c : Condition} (h : c.Canonical n) :
    ∃ text, c.WritesClause text := by
  obtain ⟨css, rfl, -, -, hinner⟩ := h
  obtain ⟨texts, htexts⟩ :=
    exists_forall₂_allOf fun cs hcs c hc => (hinner cs hcs c hc).exists_writes
  exact ⟨_, texts, htexts, rfl⟩

end Condition

/-- **Canonical queries have texts.** -/
theorem Query.Canonical.exists_writes {q : Query} (h : q.Canonical) : ∃ text, q.Writes text := by
  obtain ⟨condition, hcondition⟩ := h.condition.exists_writesClause
  have hgrouping : ∃ text, WritesGrouping q.grouping text := by
    cases hq : q.grouping with
    | none => exact ⟨_, rfl⟩
    | some os =>
        obtain ⟨texts, htexts⟩ := exists_forall₂ fun o ho =>
          ((h.grouping os hq).2 o ho).canonical.exists_writes
        exact ⟨_, texts, htexts, rfl⟩
  have hhaving : ∃ text, WritesHaving q.having text := by
    cases hq : q.having with
    | none => exact ⟨_, rfl⟩
    | some c =>
        obtain ⟨inner, hinner⟩ := (h.having c hq).exists_writesClause
        exact ⟨_, inner, hinner, rfl⟩
  obtain ⟨grouping, hgrouping⟩ := hgrouping
  obtain ⟨having, hhaving⟩ := hhaving
  exact ⟨_, condition, grouping, having, hcondition, hgrouping, hhaving, rfl⟩

end FilterQuery
