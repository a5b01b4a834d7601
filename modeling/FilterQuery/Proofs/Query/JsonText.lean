import FilterQuery.Proofs.Query.JsonValue

/-!
# JSON texts of queries

The text that a query is written as is read back into the query, with the same fingerprint
(`Query.ofJsonText?_jsonText`); only texts that nest deeper than the reader goes are turned down
(`Query.ofJsonText?_eq_ite`). Whether or not the text is read, it fixes the query, so that queries
with one fingerprint are equal or a collision of MD5 (`Query.jsonText_inj`).
-/

set_option autoImplicit false

namespace FilterQuery

/-- Two texts with one digest. -/
def Md5.Collide (s t : String) : Prop := s ≠ t ∧ hexDigest s = hexDigest t

namespace Query

variable {q r : Query}

/-- What the reader makes of the text of a query depends only on how deep its JSON nests. -/
theorem ofJsonText?_eq_ite (hfinite : ∀ l ∈ q.literals, l.Finite)
    (hread : ∀ l ∈ q.literals, l.ReadsBack) :
    ofJsonText? q.jsonText = if q.toJson.depth ≤ maxJsonDepth then some q else none := by
  rw [ofJsonText?, jsonText, Json.ofText?_toText q.proper_toJson, Option.bind_some]
  exact ofJson?_toJson hfinite hread

/-- **Queries are read back from their JSON text.** The floats have to be finite, their numerals
must be read as the same floats, and the JSON must not nest deeper than the reader goes. -/
theorem ofJsonText?_jsonText (hfinite : ∀ l ∈ q.literals, l.Finite)
    (hread : ∀ l ∈ q.literals, l.ReadsBack) (hdepth : q.toJson.depth ≤ maxJsonDepth) :
    ofJsonText? q.jsonText = some q ∧
      (ofJsonText? q.jsonText).map fingerprint = some q.fingerprint := by
  have hback : ofJsonText? q.jsonText = some q := by
    rw [ofJsonText?_eq_ite hfinite hread, if_pos hdepth]
  exact ⟨hback, by rw [hback, Option.map_some]⟩

/-- A query that no text writes: nodes without children, an empty list and an empty path, operators
out of their place, truth values, and strings with all kinds of characters. -/
def archiveQuery : Query where
  condition := .anyOf [.allOf [], .anyOf [],
    .compare (.literal (.boolean true)) .isIn (.path ⟨[]⟩) .right,
    .nullTest (.literal (.string "\"q\" \\ \n\x01 ü𝄞")) .between .inner]
  having := some (.between (.aggregate .count .wildcard) (.literal (.float (.ofRatio true 5 2)))
    (.literal (.integer Int64.minValue)) .left)
  grouping := some []

theorem ofJsonText?_jsonText_archiveQuery :
    (∀ l ∈ archiveQuery.literals, l.Finite) ∧ (∀ l ∈ archiveQuery.literals, l.ReadsBack) ∧
      archiveQuery.toJson.depth ≤ maxJsonDepth ∧
      ofJsonText? archiveQuery.jsonText = some archiveQuery ∧
      (ofJsonText? archiveQuery.jsonText).map fingerprint = some archiveQuery.fingerprint := by
  have hfinite : ∀ l ∈ archiveQuery.literals, l.Finite := by decide +kernel
  have hread : ∀ l ∈ archiveQuery.literals, l.ReadsBack := by decide +kernel
  have hdepth : archiveQuery.toJson.depth ≤ maxJsonDepth := by decide +kernel
  exact ⟨hfinite, hread, hdepth, ofJsonText?_jsonText hfinite hread hdepth⟩

/-- **The JSON text of a query is a key for it.** Queries with the same text are equal, floats bit
for bit, and different queries with the same fingerprint have texts that collide. -/
theorem jsonText_inj (hq : ∀ l ∈ q.literals, l.Finite) (hr : ∀ l ∈ r.literals, l.Finite) :
    (q.jsonText = r.jsonText → q = r) ∧
      (q ≠ r → q.fingerprint = r.fingerprint → Md5.Collide q.jsonText r.jsonText) := by
  have hinj : q.jsonText = r.jsonText → q = r := fun h =>
    toJson_inj hq hr (Json.toText_inj q.proper_toJson r.proper_toJson h)
  exact ⟨hinj, fun hne hfingerprint => ⟨fun h => hne (hinj h), hfingerprint⟩⟩

/-- A query that asks for a zero. -/
def zeroQuery (negative : Bool) : Query where
  condition := .compare (.path ⟨["total"]⟩) .eq (.literal (.float (.zero negative))) .inner
  having := none
  grouping := none

/-- The two zeros are the same number, but the queries for them have different keys. -/
theorem jsonText_inj_zeroQuery :
    (∀ negative, ∀ l ∈ (zeroQuery negative).literals, l.Finite) ∧
      (zeroQuery true).sameAs (zeroQuery false) = true ∧
      (zeroQuery true).jsonText ≠ (zeroQuery false).jsonText := by
  have hfinite : ∀ negative, ∀ l ∈ (zeroQuery negative).literals, l.Finite := by decide +kernel
  refine ⟨hfinite, by decide +kernel, fun htext => ?_⟩
  have heq := (jsonText_inj (hfinite true) (hfinite false)).1 htext
  simp [zeroQuery, Double.zero, Double.ofRank] at heq

end Query

end FilterQuery
