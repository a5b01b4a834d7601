import FilterQuery.Proofs.Sql.Lexed

/-!
# Quoted names

A quoted name is closed by the first quote character that is not written twice. So the end of a name
can be found without knowing the name, and whatever an identifier holds, it does not reach into what
is written after it. `Dialect.readName?` reads the quoted name at the head of a text, and
`Dialect.readQualified?` two of them with a dot between. Main result: reading accepts exactly what
quoting writes, so that the text of a qualified name has only one label and one name in it
(`readName?_iff`).
-/

set_option autoImplicit false

namespace FilterQuery.Sql

/-! ## Names after their first quote character -/

/-- Before a text that does not go on with the quote character, names are read as far as they were
written, and nothing else is read. -/
theorem readQuoted_eq_some_iff {q : Char} {cs s rest : List Char} :
    readQuoted q cs = some (s, rest) ↔
      cs = Dialect.double q s ++ q :: rest ∧ rest.head? ≠ some q := by
  constructor
  · intro h
    fun_induction readQuoted q cs generalizing s with
    | case1 => cases h
    | case2 =>
        -- the name is closed at the end of the text
        cases h
        exact ⟨rfl, nofun⟩
    | case3 => cases h
    | case4 cs ih =>
        obtain ⟨⟨s, rest⟩, hread, heq⟩ := Option.map_eq_some_iff.mp h
        cases heq
        obtain ⟨rfl, hrest⟩ := ih hread
        exact ⟨by simp [Dialect.double], hrest⟩
    | case5 d cs hd =>
        cases h
        exact ⟨rfl, by simpa using hd⟩
    | case6 c d cs hc ih =>
        obtain ⟨⟨s, rest⟩, hread, heq⟩ := Option.map_eq_some_iff.mp h
        cases heq
        obtain ⟨htext, hrest⟩ := ih hread
        refine ⟨?_, hrest⟩
        rw [htext, Dialect.double, if_neg hc, List.cons_append]
  · rintro ⟨rfl, hrest⟩
    exact readQuoted_double q s rest hrest

namespace Dialect

/-! ## Quoted names -/

/-- The quoted name at the head of a text, and what comes after it. -/
def readName? (d : Dialect) : List Char → Option (String × List Char)
  | [] => none
  | c :: cs =>
      if c = d.quoteChar then
        (readQuoted d.quoteChar cs).map fun (s, rest) => (String.ofList s, rest)
      else none

theorem readName?_eq_some_iff {d : Dialect} {text rest : List Char} {name : String} :
    d.readName? text = some (name, rest) ↔
      text = d.quote name.toList ++ rest ∧ rest.head? ≠ some d.quoteChar := by
  cases text with
  | nil => simp [readName?, quote]
  | cons c cs =>
      by_cases hc : c = d.quoteChar
      · have hname : ∀ s : List Char, String.ofList s = name ↔ s = name.toList :=
          fun s => ⟨fun h => by rw [← h, String.toList_ofList],
            fun h => by rw [h, String.ofList_toList]⟩
        simp [readName?, hc, quote, readQuoted_eq_some_iff, hname]
      · simp [readName?, hc, quote]

theorem readName?_quote {d : Dialect} {rest : List Char} (name : String)
    (h : rest.head? ≠ some d.quoteChar) :
    d.readName? (d.quote name.toList ++ rest) = some (name, rest) :=
  readName?_eq_some_iff.mpr ⟨rfl, h⟩

/-- A text that does not start with the quote character has no name at its head. -/
theorem readName?_of_ne {d : Dialect} {c : Char} (hc : c ≠ d.quoteChar) (cs : List Char) :
    d.readName? (c :: cs) = none :=
  if_neg hc

/-! ## Qualified names -/

/-- The qualified name at the head of a text, as a label and a name, and what comes after it. -/
def readQualified? (d : Dialect) (text : List Char) : Option (String × String × List Char) :=
  match d.readName? text with
  | some (label, '.' :: rest) => (d.readName? rest).map fun (name, rest) => (label, name, rest)
  | _ => none

theorem write_qualified (d : Dialect) (index : Nat) (label name : String) :
    Piece.write d index (Piece.qualified label name) =
      d.quote label.toList ++ '.' :: d.quote name.toList := by
  simp [Piece.qualified, Piece.write]

theorem readQualified?_eq_some_iff {d : Dialect} {text rest : List Char} {label name : String}
    (index : Nat) :
    d.readQualified? text = some (label, name, rest) ↔
      text = Piece.write d index (Piece.qualified label name) ++ rest ∧
        rest.head? ≠ some d.quoteChar := by
  rw [write_qualified, List.append_assoc, List.cons_append]
  constructor
  · intro h
    rw [readQualified?] at h
    split at h
    · next label' tail hlabel =>
        obtain ⟨⟨name', rest'⟩, hname, heq⟩ := Option.map_eq_some_iff.mp h
        cases heq
        obtain ⟨rfl, -⟩ := readName?_eq_some_iff.mp hlabel
        obtain ⟨rfl, hrest⟩ := readName?_eq_some_iff.mp hname
        exact ⟨rfl, hrest⟩
    · cases h
  · rintro ⟨rfl, hrest⟩
    -- the dot between the names is no quote character
    have hlabel : d.readName? (d.quote label.toList ++ '.' :: (d.quote name.toList ++ rest)) =
        some (label, '.' :: (d.quote name.toList ++ rest)) :=
      readName?_quote label (by cases d <;> simp [quoteChar])
    rw [readQualified?, hlabel]
    simp only [readName?_quote name hrest, Option.map_some]

/-- **Quoting cannot be escaped from.** In every dialect, a name is read from a text exactly if the
text starts with that name in quotes and does not go on with the quote character; reading stops
right behind the name. The same holds of a label and a name with a dot between, and so different
labels or names have different texts. -/
theorem readName?_iff (d : Dialect) :
    (∀ text name rest, d.readName? text = some (name, rest) ↔
      text = d.quote name.toList ++ rest ∧ rest.head? ≠ some d.quoteChar) ∧
    (∀ text label name rest index, d.readQualified? text = some (label, name, rest) ↔
      text = Piece.write d index (Piece.qualified label name) ++ rest ∧
        rest.head? ≠ some d.quoteChar) ∧
    ∀ label name label' name' index,
      Piece.write d index (Piece.qualified label name) =
        Piece.write d index (Piece.qualified label' name') ↔ label = label' ∧ name = name' := by
  refine ⟨fun text name rest => readName?_eq_some_iff,
    fun text label name rest index => readQualified?_eq_some_iff index, ?_⟩
  intro label name label' name' index
  have hread : ∀ label name, d.readQualified? (Piece.write d index
      (Piece.qualified label name)) = some (label, name, []) := fun label name =>
    (readQualified?_eq_some_iff index).mpr ⟨(List.append_nil _).symm, nofun⟩
  constructor
  · intro htext
    simpa [htext, hread] using (hread label name).symm
  · rintro ⟨rfl, rfl⟩
    rfl

end Dialect

end FilterQuery.Sql
