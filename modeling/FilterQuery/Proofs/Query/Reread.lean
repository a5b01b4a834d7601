import FilterQuery.Proofs.Double.Finite
import FilterQuery.Proofs.Query.JsonText

/-!
# Texts that are read

Whatever spelling a query is read from, it can be written and read again
(`Query.ofJsonText?_of_ofJsonText?`). The form that is written nests no deeper than any form it can
be read from: every field of a record, in whatever order and whether the record is an object or an
array, nests less than the record. And a number is finite, or else it would not have been read.
-/

set_option autoImplicit false

namespace FilterQuery

theorem exists_of_mem_mapM {α β : Type} {f : α → Option β} {as : List α} {bs : List β} {b : β}
    (h : as.mapM f = some bs) (hb : b ∈ bs) : ∃ a ∈ as, f a = some b := by
  induction as generalizing bs with
  | nil =>
      cases h
      cases hb
  | cons a as ih =>
      simp only [List.mapM_cons, Option.bind_eq_bind, Option.bind_eq_some_iff, Option.pure_def,
        Option.some.injEq] at h
      obtain ⟨first, hfirst, others, hothers, rfl⟩ := h
      rcases List.mem_cons.mp hb with rfl | hb
      · exact ⟨a, List.mem_cons_self, hfirst⟩
      · obtain ⟨a', ha', hread⟩ := ih hothers hb
        exact ⟨a', List.mem_cons_of_mem _ ha', hread⟩

/-! ## Fields nest less than their record -/

namespace Json

variable {n : Nat} {j k : Json}

theorem depth_le_membersDepth {m : Option String × Json} {members : List (Option String × Json)}
    (h : m ∈ members) : m.2.depth ≤ membersDepth members := by
  induction members with
  | nil => cases h
  | cons m' members ih =>
      rw [membersDepth]
      rcases List.mem_cons.mp h with rfl | h
      · exact Nat.le_max_left _ _
      · exact Nat.le_trans (ih h) (Nat.le_max_right _ _)

theorem depth_of_field? {members : List (Option String × Json)} {name : String}
    (h : field? members name = some (some k)) : k.depth ≤ membersDepth members := by
  have hk : k ∈ valuesOf name members := by
    rw [field?] at h
    split at h
    · cases h
    · next hvalues =>
        cases h
        rw [hvalues]
        exact List.mem_cons_self
    · cases h
  obtain ⟨⟨name', value⟩, hm, hvalue⟩ := List.mem_filterMap.mp hk
  obtain ⟨-, heq⟩ := Option.ite_none_right_eq_some.mp hvalue
  cases heq
  exact depth_le_membersDepth hm

theorem depth_of_fields? {names : List String} {spare : Nat} {found : List (Option Json)}
    (h : j.fields? names spare = some found) (hn : j.depth ≤ n) :
    ∃ m, n = m + 1 ∧ ∀ k, some k ∈ found → k.depth ≤ m := by
  cases j with
  | object members =>
      rw [fields?] at h
      split at h
      · obtain ⟨m, rfl⟩ := Nat.exists_eq_add_of_le' (Nat.le_trans (Nat.succ_pos _) hn)
        refine ⟨m, rfl, fun k hk => ?_⟩
        obtain ⟨name, -, hfield⟩ := exists_of_mem_mapM h hk
        exact Nat.le_trans (depth_of_field? hfield) (Nat.le_of_succ_le_succ hn)
      · cases h
  | array items =>
      rw [fields?] at h
      split at h
      · cases h
        obtain ⟨m, rfl⟩ := Nat.exists_eq_add_of_le' (Nat.le_trans (Nat.succ_pos _) hn)
        refine ⟨m, rfl, fun k hk => ?_⟩
        have hitem : k ∈ items := by simpa using hk
        exact Nat.le_trans (depth_le_itemsDepth hitem) (Nat.le_of_succ_le_succ hn)
      · cases h
  | _ => cases h

theorem depth_of_allFields? {names : List String} {fields : List Json}
    (h : j.allFields? names = some fields) (hn : j.depth ≤ n) :
    ∃ m, n = m + 1 ∧ ∀ k ∈ fields, k.depth ≤ m := by
  obtain ⟨found, hfound, hall⟩ := Option.bind_eq_some_iff.mp h
  obtain ⟨m, rfl, hdepth⟩ := depth_of_fields? hfound hn
  refine ⟨m, rfl, fun k hk => ?_⟩
  obtain ⟨k', hk', rfl⟩ := exists_of_mem_mapM hall hk
  exact hdepth k hk'

/-- What is left behind a tag nests no deeper than the record. -/
theorem depth_of_tagged? {tag name : String} {kind : Json → Option String}
    (h : j.tagged? tag kind = some (name, k)) (hn : j.depth ≤ n) : k.depth ≤ n := by
  cases j with
  | object members =>
      rw [tagged?] at h
      split at h
      · obtain ⟨_, -, heq⟩ := Option.map_eq_some_iff.mp h
        obtain ⟨-, rfl⟩ := Prod.mk.inj heq
        exact hn
      · cases h
  | array items =>
      cases items with
      | nil => cases h
      | cons first items =>
          obtain ⟨_, -, heq⟩ := Option.map_eq_some_iff.mp h
          obtain ⟨-, rfl⟩ := Prod.mk.inj heq
          exact Nat.le_trans (Nat.succ_le_succ (Nat.le_max_right _ _)) hn
  | _ => cases h

theorem depth_of_items? {items : List Json} (h : j.items? = some items) (hn : j.depth ≤ n) :
    ∃ m, n = m + 1 ∧ ∀ item ∈ items, item.depth ≤ m := by
  cases j with
  | array items' =>
      cases h
      obtain ⟨m, rfl⟩ := Nat.exists_eq_add_of_le' (Nat.le_trans (Nat.succ_pos _) hn)
      exact ⟨m, rfl, fun item hitem =>
        Nat.le_trans (depth_le_itemsDepth hitem) (Nat.le_of_succ_le_succ hn)⟩
  | _ => cases h

end Json

/-! ## Operands -/

/-- A float that is read is finite. -/
theorem Literal.finite_of_ofParts? {type : String} {j : Json} {l : Literal}
    (h : ofParts? type j = some l) : l.Finite := by
  rw [ofParts?.eq_def] at h
  split at h
  · obtain ⟨s, -, rfl⟩ := Option.map_eq_some_iff.mp h
    trivial
  · obtain ⟨i, -, rfl⟩ := Option.map_eq_some_iff.mp h
    trivial
  · obtain ⟨x, hx, rfl⟩ := Option.map_eq_some_iff.mp h
    exact Numeral.isFinite_of_toJsonDouble hx
  · cases h
    trivial
  · cases h

/-- A literal is read from a record. -/
theorem Literal.of_ofJson? {s : Json.Strictness} {j : Json} {l : Literal}
    (h : ofJson? s j = some l) : 0 < j.depth ∧ l.Finite := by
  rw [ofJson?.eq_def] at h
  split at h
  · obtain ⟨type, -, hparts⟩ := Option.bind_eq_some_iff.mp h
    exact ⟨Nat.succ_pos _, finite_of_ofParts? hparts⟩
  · split at h
    · obtain ⟨type, -, hparts⟩ := Option.bind_eq_some_iff.mp h
      exact ⟨Nat.succ_pos _, finite_of_ofParts? hparts⟩
    · cases h
  · cases h

/-- A path is read from an array in a record. -/
theorem Path.depth_of_ofJson? {j : Json} {p : Path} (h : ofJson? j = some p) : 2 ≤ j.depth := by
  rw [ofJson?] at h
  split at h
  · next identifiers hfields =>
      obtain ⟨names, hnames, -⟩ := Option.map_eq_some_iff.mp h
      obtain ⟨items, hitems, -⟩ := Option.bind_eq_some_iff.mp hnames
      obtain ⟨m, hm, hdepth⟩ := Json.depth_of_allFields? hfields (Nat.le_refl _)
      obtain ⟨m', rfl, -⟩ := Json.depth_of_items? hitems (hdepth _ List.mem_cons_self)
      omega
  · cases h

/-- The JSON of the operand nests at most `n` deep, and the operand is no infinite float. -/
def Operand.Fits (n : Nat) (o : Operand) : Prop :=
  o.toJson.depth ≤ n ∧ ∀ l ∈ o.literals, l.Finite

namespace Operand

variable {n : Nat} {s : Json.Strictness} {j : Json}

theorem fits_of_aggregateOfJson? {o : Operand} (h : aggregateOfJson? s j = some o)
    (hn : j.depth ≤ n) : o.Fits (n + 1) := by
  rw [aggregateOfJson?] at h
  split at h
  · next jf jp hfields =>
      simp only [Option.bind_eq_bind, Option.bind_eq_some_iff, Option.some.injEq] at h
      obtain ⟨f, -, p, hp, rfl⟩ := h
      obtain ⟨m, rfl, hdepth⟩ := Json.depth_of_allFields? hfields hn
      have hpath := hdepth jp (List.mem_cons_of_mem _ List.mem_cons_self)
      have htwo := Path.depth_of_ofJson? hp
      refine ⟨?_, by simp [literals]⟩
      simp only [toJson, Json.depth_record, Json.depth_str, p.depth_toJson, List.foldr_cons,
        List.foldr_nil]
      omega
  · cases h

theorem fits_of_ofJson? {o : Operand} (h : ofJson? s j = some o) (hn : j.depth ≤ n) :
    o.Fits n := by
  rw [ofJson?.eq_def] at h
  split at h
  · next j =>
      simp only [Json.depth, Json.membersDepth] at hn
      obtain ⟨p, hp, rfl⟩ := Option.map_eq_some_iff.mp h
      have htwo := Path.depth_of_ofJson? hp
      refine ⟨?_, by simp [literals]⟩
      simp only [toJson, Json.depth_record, p.depth_toJson, List.foldr_cons, List.foldr_nil]
      omega
  · next j =>
      simp only [Json.depth, Json.membersDepth] at hn
      obtain ⟨l, hl, rfl⟩ := Option.map_eq_some_iff.mp h
      obtain ⟨hrecord, hfinite⟩ := Literal.of_ofJson? hl
      refine ⟨?_, by simpa [literals] using hfinite⟩
      simp only [toJson, Json.depth_record, l.depth_toJson, List.foldr_cons, List.foldr_nil]
      omega
  · next j =>
      simp only [Json.depth, Json.membersDepth] at hn
      obtain ⟨m, rfl⟩ := Nat.exists_eq_add_of_le' (Nat.le_trans (Nat.succ_pos _) hn)
      exact fits_of_aggregateOfJson? h (by omega)
  · cases h

theorem fits_of_listOfJson? {os : List Operand} (h : listOfJson? s j = some os)
    (hn : j.depth ≤ n) : ∃ m, n = m + 1 ∧ ∀ o ∈ os, o.Fits m := by
  obtain ⟨items, hitems, hread⟩ := Option.bind_eq_some_iff.mp h
  obtain ⟨m, rfl, hdepth⟩ := Json.depth_of_items? hitems hn
  refine ⟨m, rfl, fun o ho => ?_⟩
  obtain ⟨item, hitem, ho⟩ := exists_of_mem_mapM hread ho
  exact fits_of_ofJson? ho (hdepth item hitem)

end Operand

/-! ## Conditions -/

/-- The JSON of the condition nests at most `n` deep, and its floats are finite. -/
def Condition.Fits (n : Nat) (c : Condition) : Prop :=
  c.toJson.depth ≤ n ∧ ∀ l ∈ c.literals, l.Finite

namespace Condition

variable {n : Nat} {j : Json} {c : Condition}

theorem fits_of_compareOfJson? (h : compareOfJson? j = some c) (hn : j.depth ≤ n) : c.Fits n := by
  rw [compareOfJson?] at h
  split at h
  · next jl jo jr jk hfields =>
      simp only [Option.bind_eq_bind, Option.bind_eq_some_iff, Option.some.injEq] at h
      obtain ⟨l, hl, o, -, r, hr, k, -, rfl⟩ := h
      obtain ⟨m, rfl, hdepth⟩ := Json.depth_of_allFields? hfields hn
      obtain ⟨hdepthl, hfinitel⟩ := Operand.fits_of_ofJson? hl (hdepth jl (by simp))
      obtain ⟨hdepthr, hfiniter⟩ := Operand.fits_of_ofJson? hr (hdepth jr (by simp))
      refine ⟨?_, by simpa [literals, or_imp, forall_and] using ⟨hfinitel, hfiniter⟩⟩
      simp only [toJson, Json.depth_record, Json.depth_str, List.foldr_cons, List.foldr_nil]
      omega
  · cases h

theorem fits_of_isInOfJson? (h : isInOfJson? j = some c) (hn : j.depth ≤ n) : c.Fits n := by
  rw [isInOfJson?] at h
  split at h
  · next jl jvs jk hfields =>
      simp only [Option.bind_eq_bind, Option.bind_eq_some_iff, Option.some.injEq] at h
      obtain ⟨l, hl, vs, hvs, k, -, rfl⟩ := h
      obtain ⟨m, rfl, hdepth⟩ := Json.depth_of_allFields? hfields hn
      obtain ⟨hdepthl, hfinitel⟩ := Operand.fits_of_ofJson? hl (hdepth jl (by simp))
      obtain ⟨m', rfl, hfits⟩ := Operand.fits_of_listOfJson? hvs (hdepth jvs (by simp))
      have hitems : Json.itemsDepth (vs.map Operand.toJson) ≤ m' :=
        Json.itemsDepth_le (List.forall_mem_map.mpr fun v hv => (hfits v hv).1)
      have hfinitevs : ∀ v ∈ vs, ∀ l ∈ v.literals, l.Finite := fun v hv => (hfits v hv).2
      refine ⟨?_, ?_⟩
      · simp only [toJson, Json.depth_record, Json.depth_str, Json.depth, List.foldr_cons,
          List.foldr_nil]
        omega
      · simp only [literals, List.mem_append, List.mem_flatMap]
        rintro l (hl | ⟨v, hv, hl⟩)
        · exact hfinitel l hl
        · exact hfinitevs v hv l hl
  · cases h

theorem fits_of_betweenOfJson? (h : betweenOfJson? j = some c) (hn : j.depth ≤ n) : c.Fits n := by
  rw [betweenOfJson?] at h
  split at h
  · next jl ja jb jk hfields =>
      simp only [Option.bind_eq_bind, Option.bind_eq_some_iff, Option.some.injEq] at h
      obtain ⟨l, hl, a, ha, b, hb, k, -, rfl⟩ := h
      obtain ⟨m, rfl, hdepth⟩ := Json.depth_of_allFields? hfields hn
      obtain ⟨hdepthl, hfinitel⟩ := Operand.fits_of_ofJson? hl (hdepth jl (by simp))
      obtain ⟨hdeptha, hfinitea⟩ := Operand.fits_of_ofJson? ha (hdepth ja (by simp))
      obtain ⟨hdepthb, hfiniteb⟩ := Operand.fits_of_ofJson? hb (hdepth jb (by simp))
      refine ⟨?_, by
        simpa [literals, or_imp, forall_and] using ⟨hfinitel, hfinitea, hfiniteb⟩⟩
      simp only [toJson, Json.depth_record, Json.depth_str, List.foldr_cons, List.foldr_nil]
      omega
  · cases h

theorem fits_of_nullTestOfJson? (h : nullTestOfJson? j = some c) (hn : j.depth ≤ n) :
    c.Fits n := by
  rw [nullTestOfJson?] at h
  split at h
  · next jl jo jk hfields =>
      simp only [Option.bind_eq_bind, Option.bind_eq_some_iff, Option.some.injEq] at h
      obtain ⟨l, hl, o, -, k, -, rfl⟩ := h
      obtain ⟨m, rfl, hdepth⟩ := Json.depth_of_allFields? hfields hn
      obtain ⟨hdepthl, hfinitel⟩ := Operand.fits_of_ofJson? hl (hdepth jl (by simp))
      refine ⟨?_, hfinitel⟩
      simp only [toJson, Json.depth_record, Json.depth_str, List.foldr_cons, List.foldr_nil]
      omega
  · cases h

/-- Children that fit make nodes that fit: they stand in an array in a record. -/
theorem fits_of_childrenOfJson? {child : Json → Option Condition} {cs : List Condition}
    (hchild : ∀ {j c n}, child j = some c → j.depth ≤ n → c.Fits n)
    (h : childrenOfJson? child j = some cs) (hn : j.depth ≤ n) :
    (anyOf cs).Fits n ∧ (allOf cs).Fits n := by
  rw [childrenOfJson?] at h
  split at h
  · next items hfields =>
      obtain ⟨m, rfl, hdepth⟩ := Json.depth_of_allFields? hfields hn
      obtain ⟨m', rfl, hitems⟩ := Json.depth_of_items? rfl (hdepth _ List.mem_cons_self)
      have hfits : ∀ c ∈ cs, c.Fits m' := by
        intro c hc
        obtain ⟨item, hitem, hread⟩ := exists_of_mem_mapM h hc
        exact hchild hread (hitems item hitem)
      have hfinite : ∀ l ∈ literalsOf cs, l.Finite := by
        rw [literalsOf_eq_flatMap]
        intro l hl
        obtain ⟨c, hc, hl⟩ := List.mem_flatMap.mp hl
        exact (hfits c hc).2 l hl
      obtain ⟨hany, hall⟩ := depth_node_le fun c hc => (hfits c hc).1
      exact ⟨⟨hany, hfinite⟩, hall, hfinite⟩
  · cases h

/-- **A condition that is read fits into what it is read from.** -/
theorem fits_of_ofJsonWithin? {levels : Nat} {s : Json.Strictness}
    (h : ofJsonWithin? levels s j = some c) (hn : j.depth ≤ n) : c.Fits n := by
  induction levels generalizing s j c n with
  | zero => cases h
  | succ levels ih =>
      rw [ofJsonWithin?] at h
      split at h
      · next j' htag =>
          obtain ⟨cs, hcs, rfl⟩ := Option.map_eq_some_iff.mp h
          exact (fits_of_childrenOfJson? ih hcs (Json.depth_of_tagged? htag hn)).1
      · next j' htag =>
          obtain ⟨cs, hcs, rfl⟩ := Option.map_eq_some_iff.mp h
          exact (fits_of_childrenOfJson? ih hcs (Json.depth_of_tagged? htag hn)).2
      · next j' htag => exact fits_of_compareOfJson? h (Json.depth_of_tagged? htag hn)
      · next j' htag => exact fits_of_isInOfJson? h (Json.depth_of_tagged? htag hn)
      · next j' htag => exact fits_of_betweenOfJson? h (Json.depth_of_tagged? htag hn)
      · next j' htag => exact fits_of_nullTestOfJson? h (Json.depth_of_tagged? htag hn)
      · cases h

end Condition

/-! ## Queries -/

namespace Query

variable {j : Json}

theorem fits_of_conditionOfJson? {c : Condition} (h : conditionOfJson? j = some c) :
    c.Fits (maxJsonDepth - 1) := by
  rw [conditionOfJson?] at h
  split at h
  · next hdepth =>
      rw [Condition.ofJson?] at h
      split at h
      · exact Condition.fits_of_ofJsonWithin? h (Nat.le_pred_of_lt hdepth)
      · cases h
  · cases h

theorem fits_of_havingOfJson? {found : Option Json} {having : Option Condition}
    (h : havingOfJson? found = some having) : ∀ c ∈ having, c.Fits (maxJsonDepth - 1) := by
  rw [havingOfJson?.eq_def] at h
  split at h
  · cases h
    nofun
  · cases h
    nofun
  · obtain ⟨c, hc, rfl⟩ := Option.map_eq_some_iff.mp h
    rintro c' ⟨⟩
    exact fits_of_conditionOfJson? hc

theorem finite_of_groupingOfJson? {found : Option Json} {grouping : Option (List Operand)}
    (h : groupingOfJson? found = some grouping) :
    ∀ os ∈ grouping, ∀ o ∈ os, ∀ l ∈ o.literals, l.Finite := by
  rw [groupingOfJson?.eq_def] at h
  split at h
  · cases h
    nofun
  · cases h
    nofun
  · split at h
    · obtain ⟨os, hos, rfl⟩ := Option.map_eq_some_iff.mp h
      rintro os' ⟨⟩ o ho
      obtain ⟨m, -, hfits⟩ := Operand.fits_of_listOfJson? hos (Nat.le_refl _)
      exact (hfits o ho).2
    · cases h

/-- **A query that is read can be written so that it can be read again**: its floats are finite,
and its JSON does not nest too deep. -/
theorem fits_of_ofJson? {q : Query} (h : ofJson? j = some q) :
    (∀ l ∈ q.literals, l.Finite) ∧ q.toJson.depth ≤ maxJsonDepth := by
  rw [ofJson?] at h
  split at h
  · simp only [Option.bind_eq_bind, Option.bind_eq_some_iff, Option.some.injEq] at h
    obtain ⟨c, hc, having, hhaving, grouping, hgrouping, rfl⟩ := h
    obtain ⟨hdepth, hfinite⟩ := fits_of_conditionOfJson? hc
    have hhavings := fits_of_havingOfJson? hhaving
    have hgroupings := finite_of_groupingOfJson? hgrouping
    constructor
    · intro l hl
      simp only [literals, groupingLiterals, List.mem_append, List.mem_flatMap,
        Option.mem_toList] at hl
      rcases hl with hl | ⟨o, ho, hl⟩ | ⟨d, hd, hl⟩
      · exact hfinite l hl
      · cases grouping with
        | none => cases ho
        | some os => exact hgroupings os rfl o ho l hl
      · exact (hhavings d hd).2 l hl
    · have hhavingDepth : (Json.orNull Condition.toJson having).depth ≤ maxJsonDepth - 1 := by
        cases having with
        | none => exact Nat.zero_le _
        | some d => exact (hhavings d rfl).1
      have hgroupingDepth := depth_grouping_le grouping
      have hmax : maxJsonDepth = 127 := rfl
      rw [toJson_eq]
      simp only [Json.depth_record, List.foldr_cons, List.foldr_nil]
      omega
  · cases h

/-- **Reading gives a normal form.** A query that is read from any spelling is read again from the
text that is written for it, with the same fingerprint, provided that the numerals written for
finite floats are read as the same floats. -/
theorem ofJsonText?_of_ofJsonText? {s : String} {q : Query} (h : ofJsonText? s = some q)
    (hread : ∀ l ∈ q.literals, l.Finite → l.ReadsBack) :
    ofJsonText? q.jsonText = some q ∧
      (ofJsonText? q.jsonText).map fingerprint = some q.fingerprint := by
  obtain ⟨j, -, hj⟩ := Option.bind_eq_some_iff.mp h
  obtain ⟨hfinite, hdepth⟩ := fits_of_ofJson? hj
  have hback : ofJsonText? q.jsonText = some q := by
    rw [ofJsonText?_eq_ite hfinite fun l hl => hread l hl (hfinite l hl), if_pos hdepth]
  exact ⟨hback, by rw [hback, Option.map_some]⟩

/-- The characters of a line of JSON in which angle brackets are written for braces and apostrophes
for quotes. -/
def jsonLine (line : String) : List Char :=
  line.toList.map fun
    | '<' => '{'
    | '>' => '}'
    | '\'' => '"'
    | c => c

/-- A query in an unusual spelling: records as arrays and in another order, members that are not
known, names as members, a kind by its place, escapes, numbers that are rounded, and white space. -/
def oddChars : List Char :=
  jsonLine " <'note': [1e9, [[]]], 'having_spec': null, " ++
  jsonLine "\n'where_spec': ['logical_and', [" ++
  jsonLine "<'right': <'literal': ['float', -0]>, " ++
  jsonLine "'operator': <'LT': null>, 'join_type': 'LEFT', " ++
  jsonLine "'left': <'aggregate': [<'COUNT': <>>, " ++
  jsonLine "[['\\u002a']]]>, 'kind': 'binary_comparison'>, " ++
  jsonLine "[3, <'path': [['a\\ud83d\\ude00.b']]>, [" ++
  jsonLine "<'literal': <'value': 9007199254740993, " ++
  jsonLine "'type': 'float'>>, <'literal': [1, -7]>], " ++
  jsonLine "'RIGHT']]], 'group_by': " ++
  jsonLine "[[<'literal': ['float', 25e-1]>]]>\t"

def oddText : String := String.ofList oddChars

theorem ofJsonText?_of_ofJsonText?_oddText : ∃ q, ofJsonText? oddText = some q ∧
    (∀ l ∈ q.literals, l.Finite → l.ReadsBack) ∧
      q.literals = [.float (.zero true), .float (.ofNat false 9007199254740992), .integer (-7),
        .float (.ofRatio false 5 2)] ∧
      ofJsonText? q.jsonText = some q ∧
        (ofJsonText? q.jsonText).map fingerprint = some q.fingerprint := by
  have hliterals : (ofJsonText? oddText).map literals =
      some [.float (.zero true), .float (.ofNat false 9007199254740992), .integer (-7),
        .float (.ofRatio false 5 2)] := by
    -- a list of characters is taken apart faster than a text
    have hchars : Json.ofText? oddText = Json.ofChars? oddChars :=
      congrArg Json.ofChars? String.toList_ofList
    rw [ofJsonText?, hchars]
    decide +kernel
  cases h : ofJsonText? oddText with
  | none =>
      rw [h] at hliterals
      cases hliterals
  | some q =>
      rw [h] at hliterals
      have hliterals := Option.some.inj hliterals
      have hread : ∀ l ∈ q.literals, l.Finite → l.ReadsBack := by
        rw [hliterals]
        decide +kernel
      exact ⟨q, rfl, hread, hliterals, ofJsonText?_of_ofJsonText? h hread⟩

end Query

end FilterQuery
