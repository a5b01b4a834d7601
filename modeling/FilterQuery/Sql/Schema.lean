import FilterQuery.Json.Fields
import FilterQuery.Json.Read

/-!
# Schemas

The tables that paths are resolved against. Every table has columns and relations; a relation leads
to another table by a pair of keys, and paths start at the root table. `Schema.ofText` reads a
schema from JSON and checks that the root and the targets of all relations are defined
(`Schema.check`).
-/

set_option autoImplicit false

namespace FilterQuery.Sql

/-- A way from one table to another. -/
structure Relation where
  table : String
  localKey : String
  foreignKey : String
  deriving DecidableEq, Repr

/-- A table. Without any columns it accepts every column name. -/
structure Table where
  columns : List String
  relations : List (String × Relation)
  deriving DecidableEq, Repr

namespace Table

/-- The table accepts a column name. -/
def hasColumn (t : Table) (name : String) : Bool := t.columns.isEmpty || t.columns.contains name

/-- The relation with a name. -/
def relation? (t : Table) (name : String) : Option Relation := t.relations.lookup name

end Table

/-- Tables by name, and the one where paths start. -/
structure Schema where
  root : String
  tables : List (String × Table)
  deriving DecidableEq, Repr

/-- Why a schema is refused. -/
inductive SchemaError where
  /-- The text is not the JSON of a schema. -/
  | notJson
  /-- The root table is not defined. -/
  | missingTable (name : String)
  /-- A relation leads to a table that is not defined. -/
  | danglingRelation (table relation target : String)
  deriving DecidableEq, Repr

/-- The wording of an error. The place in the text is not told. -/
def SchemaError.message : SchemaError → String
  | .notJson => "Invalid schema JSON: "
  | .missingTable name => "Table '" ++ name ++ "' is not defined in the schema"
  | .danglingRelation table relation target =>
      "Relation '" ++ relation ++ "' on '" ++ table ++ "' points to undefined table '" ++
        target ++ "'"

namespace Schema

/-- The table with a name. -/
def table? (s : Schema) (name : String) : Option Table := s.tables.lookup name

/-- The relation with a name on the table with a name. -/
def relation? (s : Schema) (table relation : String) : Option Relation :=
  (s.table? table).bind fun t => t.relation? relation

/-! ## Checking -/

/-- The relations of all tables, each with the table it starts from and its name. -/
def allRelations (s : Schema) : List (String × String × Relation) :=
  s.tables.flatMap fun (table, t) => t.relations.map fun (name, r) => (table, name, r)

/-- The root table and the targets of all relations are defined. -/
def check (s : Schema) : Except SchemaError Unit :=
  if (s.table? s.root).isNone then .error (.missingTable s.root)
  else
    match s.allRelations.find? fun (_, _, r) => (s.table? r.table).isNone with
    | some (table, name, r) => .error (.danglingRelation table name r.table)
    | none => .ok ()

/-! ## Reading -/

/-- A relation: its table and its two keys. -/
def relationOfJson? (j : Json) : Option Relation :=
  match j.allFields? ["table", "local_key", "foreign_key"] with
  | some [.text (some table), .text (some localKey), .text (some foreignKey)] =>
      some ⟨table, localKey, foreignKey⟩
  | _ => none

/-- A table: its columns and relations, both of which may be left out. -/
def tableOfJson? (j : Json) : Option Table :=
  match j.fields? ["columns", "relations"] 2 with
  | some [columns, relations] => do
      let columns ← match columns with
        | some columns => columns.strings?
        | none => some []
      let relations ← match relations with
        | some relations => relations.map? relationOfJson?
        | none => some []
      some ⟨columns, relations⟩
  | _ => none

/-- A schema: the name of the root table, and the tables. -/
def ofJson? (j : Json) : Option Schema :=
  match j.allFields? ["root", "tables"] with
  | some [.text (some root), tables] => (tables.map? tableOfJson?).map (Schema.mk root)
  | _ => none

/-- The schema of a JSON text. -/
def ofText (s : String) : Except SchemaError Schema :=
  match (Json.ofText? s).bind ofJson? with
  | none => .error .notJson
  | some schema =>
      match schema.check with
      | .error e => .error e
      | .ok () => .ok schema

end Schema

end FilterQuery.Sql
