import FilterQuery.Proofs.Sql.Params
import FilterQuery.Proofs.Sql.Quoted

/-!
# Placeholders of statements

`Dialect.placeholders` looks for the placeholders of a text from left to right and skips quoted
names, whatever they hold. It knows both ways to mark a parameter in every dialect, so that none of
the other way can hide in a text.

A statement shows a placeholder where one is meant because its pieces are set apart: fixed words
hold no marks, and a blank or a sign follows every name and every placeholder (`Piece.Apart`). Main
result: the placeholders of a statement are numbered without gaps, one for each parameter, and the
parameters are the literals of its tree from left to right (`placeholders_ofPieces`).
-/

set_option autoImplicit false

namespace FilterQuery

theorem Decimal.isDigit_of_mem_text {n : Nat} {c : Char} (h : c ∈ text n) :
    Digit.isDigit c = true := by
  obtain ⟨digit, -, rfl⟩ := List.mem_map.mp h
  rw [Digit.isDigit, Digit.ofChar?_toChar]
  rfl

namespace Sql

/-! ## Placeholders of a text -/

/-- A name is at least as long as its two quote characters. -/
theorem Dialect.length_of_readName? {d : Dialect} {text rest : List Char} {name : String}
    (h : d.readName? text = some (name, rest)) : rest.length < text.length := by
  obtain ⟨rfl, -⟩ := readName?_eq_some_iff.mp h
  simp only [quote, List.length_append, List.length_cons]
  omega

/-- The placeholders in a text, from left to right: a `$` with the digits behind it, or a `?`.
Quoted names are skipped. -/
def Dialect.placeholders (d : Dialect) : List Char → List (List Char)
  | [] => []
  | c :: cs =>
      match _hread : d.readName? (c :: cs) with
      | some (_, rest) => d.placeholders rest
      | none =>
          if c = '$' then (c :: cs.takeWhile Digit.isDigit) :: d.placeholders cs
          else if c = '?' then [c] :: d.placeholders cs
          else d.placeholders cs
termination_by text => text.length
decreasing_by
  · exact length_of_readName? ‹_›
  · exact Nat.lt_succ_self _
  · exact Nat.lt_succ_self _
  · exact Nat.lt_succ_self _

/-- The character starts no quoted name and no placeholder, in no dialect. -/
def isPlain (c : Char) : Bool := c ≠ '"' && c ≠ '`' && c ≠ '$' && c ≠ '?'

theorem ne_quoteChar_of_isPlain {c : Char} (h : isPlain c = true) (d : Dialect) :
    c ≠ d.quoteChar := by
  simp only [isPlain, Bool.and_eq_true, decide_eq_true_eq] at h
  cases d with
  | postgres => exact h.1.1.1
  | mysql => exact h.1.1.2

theorem isPlain_of_isDigit {c : Char} (h : Digit.isDigit c = true) : isPlain c = true := by
  simp only [isPlain, Bool.and_eq_true, decide_eq_true_eq]
  refine ⟨⟨⟨?_, ?_⟩, ?_⟩, ?_⟩ <;> (rintro rfl; exact absurd h (by decide))

namespace Dialect

section

variable {d : Dialect} {rest : List Char}

/-- At a character that starts no name, only the marks of placeholders count. -/
theorem placeholders_cons {c : Char} (hc : c ≠ d.quoteChar) (cs : List Char) :
    d.placeholders (c :: cs) =
      if c = '$' then (c :: cs.takeWhile Digit.isDigit) :: d.placeholders cs
      else if c = '?' then [c] :: d.placeholders cs
      else d.placeholders cs := by
  rw [placeholders]
  split
  · next hread => cases (readName?_of_ne hc cs).symm.trans hread
  · rfl

theorem placeholders_plain {cs : List Char} (h : cs.all isPlain = true) :
    d.placeholders (cs ++ rest) = d.placeholders rest := by
  induction cs with
  | nil => rfl
  | cons c cs ih =>
      obtain ⟨hc, hcs⟩ := Bool.and_eq_true_iff.mp h
      rw [List.cons_append, placeholders_cons (ne_quoteChar_of_isPlain hc d)]
      simp only [isPlain, Bool.and_eq_true, decide_eq_true_eq] at hc
      rw [if_neg hc.1.2, if_neg hc.2, ih hcs]

/-- A quoted name is skipped, whatever it holds. -/
theorem placeholders_quote (name : String) (h : rest.head? ≠ some d.quoteChar) :
    d.placeholders (d.quote name.toList ++ rest) = d.placeholders rest := by
  have hname := readName?_quote name h
  rw [quote, List.cons_append] at hname ⊢
  rw [placeholders]
  split
  · next hread =>
      cases hname.symm.trans hread
      rfl
  · next hread => cases hname.symm.trans hread

/-- The placeholder of a parameter is found, and nothing else in it. -/
theorem placeholders_placeholder (index : Nat) (h : ∀ c ∈ rest.head?, Digit.isDigit c = false) :
    d.placeholders (d.placeholder index ++ rest) = d.placeholder index :: d.placeholders rest := by
  cases d with
  | postgres =>
      have htake : (Decimal.text (index + 1) ++ rest).takeWhile Digit.isDigit =
          Decimal.text (index + 1) := by
        rw [List.takeWhile_append_of_pos fun c hc => Decimal.isDigit_of_mem_text hc]
        cases rest with
        | nil => simp
        | cons c rest => simp [h c rfl]
      have hplain : (Decimal.text (index + 1)).all isPlain = true :=
        List.all_eq_true.mpr fun c hc => isPlain_of_isDigit (Decimal.isDigit_of_mem_text hc)
      rw [placeholder, List.cons_append, placeholders_cons (by decide), if_pos rfl, htake,
        placeholders_plain hplain]
  | mysql =>
      rw [placeholder, List.singleton_append, placeholders_cons (by decide), if_neg (by decide),
        if_pos rfl]

end

end Dialect

/-! ## Pieces set apart -/

namespace Piece

/-- The characters that stand behind names and placeholders. -/
def separators : List Char := [' ', ')', ',', '.']

/-- The pieces are none, or start with a word that starts with a separator. -/
inductive StartsApart : List Piece → Prop where
  | nil : StartsApart []
  | word {s : String} {c : Char} {cs : List Char} {ps : List Piece} (hs : s.toList = c :: cs)
      (hc : c ∈ separators) : StartsApart (.word s :: ps)

/-- Words are plain, and every name and every placeholder is set apart from what follows. -/
inductive Apart : List Piece → Prop where
  | nil : Apart []
  | word {s : String} {ps : List Piece} (hs : s.toList.all isPlain = true) (h : Apart ps) :
      Apart (.word s :: ps)
  | identifier {s : String} {ps : List Piece} (hstart : StartsApart ps) (h : Apart ps) :
      Apart (.identifier s :: ps)
  | param {l : Literal} {ps : List Piece} (hstart : StartsApart ps) (h : Apart ps) :
      Apart (.param l :: ps)

theorem StartsApart.head_write {ps : List Piece} (h : StartsApart ps) (d : Dialect) (index : Nat) :
    ∀ c ∈ (write d index ps).head?, c ∈ separators := by
  cases h with
  | nil => exact nofun
  | word hs hc =>
      rw [write, hs]
      rintro _ ⟨⟩
      exact hc

/-- **The text of pieces that are set apart** shows the placeholders of its parameters, and no
others. -/
theorem Apart.placeholders_write {ps : List Piece} (h : Apart ps) (d : Dialect) (index : Nat) :
    d.placeholders (write d index ps) =
      (List.range' index (params ps).length).map d.placeholder := by
  induction h generalizing index with
  | nil => simp [write, Dialect.placeholders]
  | word hs _ ih => rw [write, Dialect.placeholders_plain hs, ih, params_word]
  | identifier hstart _ ih =>
      have hquote : d.quoteChar ∉ separators := by cases d <;> decide
      have hhead := hstart.head_write d index
      rw [write, Dialect.placeholders_quote _ fun hq => hquote (hhead _ hq), ih, params_identifier]
  | param hstart _ ih =>
      have hdigit : separators.any Digit.isDigit = false := by decide
      have hhead : ∀ c ∈ (write d (index + 1) _).head?, Digit.isDigit c = false := fun c hc =>
        Bool.eq_false_iff.mpr (List.any_eq_false.mp hdigit c (hstart.head_write d (index + 1) c hc))
      rw [write, Dialect.placeholders_placeholder index hhead, ih, params_param, List.length_cons,
        List.range'_succ, List.map_cons]

/-- Pieces set apart that may stand behind any others. -/
structure Follows (ps : List Piece) : Prop where
  starts : StartsApart ps
  apart : Apart ps

section

variable {ps qs : List Piece}

theorem Follows.nil : Follows [] := ⟨.nil, .nil⟩

theorem Follows.word {s : String} {c : Char} {cs : List Char} (hs : s.toList = c :: cs)
    (hc : c ∈ separators) (hplain : s.toList.all isPlain = true) (h : Apart ps) :
    Follows (.word s :: ps) :=
  ⟨.word hs hc, .word hplain h⟩

theorem StartsApart.append (h : StartsApart ps) (h' : StartsApart qs) : StartsApart (ps ++ qs) := by
  cases h with
  | nil => exact h'
  | word hs hc => exact .word hs hc

theorem Apart.append (h : Apart ps) (h' : Follows qs) : Apart (ps ++ qs) := by
  induction h with
  | nil => exact h'.apart
  | word hs _ ih => exact .word hs ih
  | identifier hstart _ ih => exact .identifier (hstart.append h'.starts) ih
  | param hstart _ ih => exact .param (hstart.append h'.starts) ih

theorem Follows.append (h : Follows ps) (h' : Follows qs) : Follows (ps ++ qs) :=
  ⟨h.starts.append h'.starts, h.apart.append h'⟩

end

theorem apart_qualified (label name : String) : Apart (qualified label name) :=
  .identifier (.word rfl (by decide)) (.word (by decide) (.identifier .nil .nil))

theorem follows_closing : Follows [.word ")"] := .word rfl (by decide) (by decide) .nil

theorem apart_separated {pss : List (List Piece)} (h : ∀ ps ∈ pss, Apart ps) :
    Apart (separated ", " pss) := by
  induction pss with
  | nil => exact .nil
  | cons ps pss ih =>
      obtain ⟨hps, hpss⟩ := List.forall_mem_cons.mp h
      cases pss with
      | nil => exact hps
      | cons qs pss => exact hps.append (.word rfl (by decide) (by decide) (ih hpss))

end Piece

/-! ## Trees -/

open Piece

theorem Expr.apart_pieces (e : Expr) : Apart e.pieces := by
  have hname : ∀ f : Aggregate, f.name.toList.all isPlain = true := by
    intro f
    cases f <;> decide
  induction e with
  | column c => exact apart_qualified c.label c.name
  | param l => exact .param .nil .nil
  | aggregate f e ih =>
      exact .word (hname f) (.word (by decide) (ih.append follows_closing))
  | aggregateAll f =>
      exact .word (hname f) (.word (by decide) (.word (by decide) follows_closing.apart))

theorem Expr.apart_listPieces (es : List Expr) : Apart (listPieces es) :=
  apart_separated (List.forall_mem_map.mpr fun e _ => e.apart_pieces)

namespace Predicate

theorem apart_enclose {ps : List Piece} (h : Apart ps) (p : Predicate) (around : Nat) :
    Apart (p.enclose around ps) := by
  rw [enclose]
  split
  · exact .word (by decide) (h.append follows_closing)
  · exact h

theorem apart_pieces (p : Predicate) : Apart p.pieces := by
  induction p with
  | always => exact .word (by decide) .nil
  | compare o l r =>
      have hoperator : (operatorWord o).toList.all isPlain = true := by cases o <;> decide
      have hright : Apart (.word (operatorWord o) :: .word " " :: r.pieces) :=
        .word hoperator (.word (by decide) r.apart_pieces)
      exact l.apart_pieces.append (.word rfl (by decide) (by decide) hright)
  | isNull e => exact e.apart_pieces.append (.word rfl (by decide) (by decide) .nil)
  | isNotNull e => exact e.apart_pieces.append (.word rfl (by decide) (by decide) .nil)
  | between e l h =>
      have hbounds : Apart (l.pieces ++ .word " AND " :: h.pieces) :=
        l.apart_pieces.append (.word rfl (by decide) (by decide) h.apart_pieces)
      exact e.apart_pieces.append (.word rfl (by decide) (by decide) hbounds)
  | isIn e vs =>
      have hlist := (Expr.apart_listPieces vs).append follows_closing
      exact e.apart_pieces.append (.word rfl (by decide) (by decide) hlist)
  | and l r ihl ihr =>
      have hright := apart_enclose ihr r 2
      exact (apart_enclose ihl l 2).append (.word rfl (by decide) (by decide) hright)
  | or l r ihl ihr =>
      have hright := apart_enclose ihr r 1
      exact (apart_enclose ihl l 1).append (.word rfl (by decide) (by decide) hright)

end Predicate

theorem Join.apart_pieces (j : Join) : Apart j.pieces := by
  have hkind : j.kind.text.toList.all isPlain = true := by cases j.kind <;> decide
  have hkeys : Apart (qualified j.parentLabel j.localKey ++ .word " = " ::
      qualified j.label j.foreignKey) :=
    (apart_qualified _ _).append (.word rfl (by decide) (by decide) (apart_qualified _ _))
  have hlabel : Apart (.identifier j.label :: .word " ON " :: (qualified j.parentLabel j.localKey ++
      .word " = " :: qualified j.label j.foreignKey)) :=
    .identifier (.word rfl (by decide)) (.word (by decide) hkeys)
  exact .word hkind (.word (by decide)
    (.identifier (.word rfl (by decide)) (.word (by decide) hlabel)))

namespace Select

theorem follows_clausePieces (word : String) {c : Char} {cs : List Char}
    (hs : word.toList = c :: cs) (hc : c ∈ separators)
    (hplain : word.toList.all isPlain = true) (p : Option Predicate) :
    Follows (clausePieces word p) := by
  cases p with
  | none => exact .nil
  | some p => exact .word hs hc hplain p.apart_pieces

theorem follows_joins (joins : List Join) :
    Follows (joins.flatMap fun j => .word " " :: j.pieces) := by
  induction joins with
  | nil => exact .nil
  | cons j joins ih =>
      have hjoin : Follows (.word " " :: j.pieces) :=
        .word rfl (by decide) (by decide) j.apart_pieces
      exact hjoin.append ih

theorem apart_pieces (s : Select) : Apart s.pieces := by
  have hlist : Apart s.listPieces := by
    rw [listPieces]
    split
    · exact .word (by decide) .nil
    · exact Expr.apart_listPieces _
  have hgrouping : Follows s.groupingPieces := by
    rw [groupingPieces]
    split
    · exact .nil
    · exact .word rfl (by decide) (by decide) (Expr.apart_listPieces _)
  have hcondition := follows_clausePieces " WHERE " rfl (by decide) (by decide) s.condition
  have hhaving := follows_clausePieces " HAVING " rfl (by decide) (by decide) s.having
  have hclauses := (((follows_joins s.joins).append hcondition).append hgrouping).append hhaving
  have hlabel := Apart.identifier (s := s.label) hclauses.starts hclauses.apart
  have htable := Apart.identifier (s := s.table) (.word (s := " AS ") rfl (by decide))
    (.word (by decide) hlabel)
  exact .word (by decide) (hlist.append (.word rfl (by decide) (by decide) htable))

end Select

/-! ## Literals of trees -/

/-- The literal of an expression, if it is a parameter or a function over one. -/
def Expr.literals : Expr → List Literal
  | .column _ => []
  | .param l => [l]
  | .aggregate _ e => e.literals
  | .aggregateAll _ => []

/-- The literals in a predicate, from left to right. -/
def Predicate.literals : Predicate → List Literal
  | .always => []
  | .compare _ l r => l.literals ++ r.literals
  | .isNull e => e.literals
  | .isNotNull e => e.literals
  | .between e l h => e.literals ++ (l.literals ++ h.literals)
  | .isIn e vs => e.literals ++ vs.flatMap Expr.literals
  | .and l r => l.literals ++ r.literals
  | .or l r => l.literals ++ r.literals

/-- The literals in a statement, in the order of its clauses. Grouped items come twice, as they are
selected too. -/
def Select.literals (s : Select) : List Literal :=
  s.grouping.flatMap Expr.literals ++ (s.condition.toList.flatMap Predicate.literals ++
    (s.grouping.flatMap Expr.literals ++ s.having.toList.flatMap Predicate.literals))

theorem Expr.params_pieces (e : Expr) : params e.pieces = e.literals := by
  induction e with
  | column c => rfl
  | param l => rfl
  | aggregate f e ih => simp [pieces, params_append, literals, ih]
  | aggregateAll f => rfl

theorem Predicate.params_pieces (p : Predicate) : params p.pieces = p.literals := by
  induction p with
  | always => rfl
  | compare o l r => simp [pieces, params_append, literals, Expr.params_pieces]
  | isNull e | isNotNull e => simp [pieces, params_append, literals, Expr.params_pieces]
  | between e l h => simp [pieces, params_append, literals, Expr.params_pieces]
  | isIn e vs =>
      simp [pieces, params_append, literals, Expr.params_listPieces, Expr.params_pieces]
  | and l r ihl ihr | or l r ihl ihr =>
      simp [pieces, params_append, params_enclose, literals, ihl, ihr]

theorem Select.params_pieces_eq_literals (s : Select) : params s.pieces = s.literals := by
  simp only [params_pieces, Expr.params_pieces, Predicate.params_pieces, literals]

/-! ## Statements -/

/-- **Placeholders and parameters agree.** The parameters of a statement are the literals of its
tree from left to right. Outside quoted names its text shows `$1`, `$2`, … or as many `?`, one for
each parameter, and no other placeholder of either sort, whatever its identifiers hold. -/
theorem placeholders_ofPieces (s : Select) (d : Dialect) :
    let statement := Statement.ofPieces d s.pieces
    statement.params = s.literals ∧
      d.placeholders statement.text.toList =
        match d with
        | .postgres => (List.range statement.params.length).map fun k =>
            '$' :: Decimal.text (k + 1)
        | .mysql => List.replicate statement.params.length ['?'] := by
  refine ⟨s.params_pieces_eq_literals, ?_⟩
  rw [Statement.ofPieces, String.toList_ofList, s.apart_pieces.placeholders_write,
    ← List.range_eq_range']
  cases d with
  | postgres => rfl
  | mysql =>
      rw [List.eq_replicate_iff]
      simp [Dialect.placeholder]

example : Dialect.mysql.placeholders "MAX(`$1`.`a``?`) > ? AND `'`.`?` IN (?)".toList =
    [['?'], ['?']] := by
  cbv

end Sql

end FilterQuery
