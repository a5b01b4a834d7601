import FilterQuery.Proofs.Query.Canonical
import FilterQuery.Proofs.Query.Literals
import FilterQuery.Proofs.Tree.Kept

/-!
# The shape of the queries of texts

Every query that a text writes is canonical (`Query.canonical_of_ofText`): what a tree of the
language is built into has the shape that `Query.Canonical` describes, if the tokens that it keeps
are lexemes of their kinds and its numbers are in range. The parts of a tree are gone through from
the inside out.
-/

set_option autoImplicit false

namespace FilterQuery

/-! ## Numbers -/

theorem Double.negative_ofDecimal (negative : Bool) (m : Nat) (e : Int) :
    (ofDecimal negative m e).negative = negative := by
  rw [ofDecimal]
  split
  · rfl
  split
  · rfl
  split
  · rfl
  · rfl

namespace Text

theorem le_of_readMagnitude {limit : Nat} {beyond : IntegerFault} {n m : Nat} {cs : List Char}
    (h : readMagnitude limit beyond n cs = .ok m) (hn : n ≤ limit) : m ≤ limit := by
  induction cs generalizing n with
  | nil =>
      cases h
      exact hn
  | cons c cs ih =>
      rw [readMagnitude] at h
      split at h
      · cases h
      split at h
      · next hle => exact ih h hle
      · cases h

/-- Digits without a sign are read as an integer that is not negative. -/
theorem readInteger_nonneg {s : String} {n : Int64} (hs : Scan.IsDigits s.toList)
    (h : readInteger s = .ok n) : 0 ≤ n.toInt := by
  obtain ⟨hne, hdigits⟩ := hs
  rw [readInteger] at h
  split at h
  · cases h
  · next hcs =>
      rw [hcs] at hdigits
      cases hdigits '-' List.mem_cons_self
  · next hcs =>
      rw [hcs] at hdigits
      cases hdigits '+' List.mem_cons_self
  · obtain ⟨m, hm, rfl⟩ := map_eq_ok_iff.mp h
    obtain ⟨c, cs, hcs⟩ := List.exists_cons_of_ne_nil hne
    rw [hcs] at hm
    obtain ⟨m, hread, ⟨⟩⟩ := bind_eq_ok_iff.mp hm
    have hle : m ≤ Nat.pow 2 63 - 1 := le_of_readMagnitude hread (Nat.zero_le _)
    have hpow : Nat.pow 2 63 = 9223372036854775808 := rfl
    rw [Int64.toInt_ofInt_of_le (by omega) (by omega)]
    exact Int.natCast_nonneg m

theorem negative_of_readDecimal? {s : String} {x : Double} (h : readDecimal? s = some x) :
    x.negative = (spanSign s.toList).1 := by
  rw [readDecimal?] at h
  dsimp only at h
  split at h
  all_goals
    split at h
    · cases h
    · obtain ⟨e, -, h⟩ := Option.bind_eq_some_iff.mp h
      cases h
      exact Double.negative_ofDecimal _ _ _

/-- A digit at the head is no sign. -/
theorem not_negative_of_readDecimal? {s : String} {x : Double} {c : Char} {cs : List Char}
    (hs : s.toList = c :: cs) (hc : Digit.isDigit c = true) (h : readDecimal? s = some x) :
    x.negative = false := by
  rw [negative_of_readDecimal? h, hs, spanSign.eq_def]
  split
  · next heq =>
      cases heq
      cases hc
  · rfl
  · rfl

end Text

/-! ## Tokens -/

/-- The token is a lexeme of its kind, and a number is in range. -/
structure Token.Proper (t : Token) : Prop where
  isLexeme : Scan.IsLexeme t.kind t.lexeme.toList
  inRange : t.kind = .number → Tree.InRange t.lexeme

namespace Token.Proper

theorem isNumber {t : Token} (h : t.Proper) (hkind : t.kind = .number) :
    Scan.IsNumber t.lexeme.toList := by
  have hlexeme := h.isLexeme
  rwa [hkind] at hlexeme

theorem isQuoted {t : Token} (h : t.Proper) (hkind : t.kind = .string) :
    Scan.IsQuoted t.lexeme.toList := by
  have hlexeme := h.isLexeme
  rwa [hkind] at hlexeme

end Token.Proper

namespace Tree

/-! ## Operands -/

theorem canonical_path {p : Path} (hp : Path.Grammatical p) (hproper : ∀ t ∈ p, t.Proper) :
    (path p).Canonical := by
  match p, hp with
  | t :: ts, ⟨ht, hts⟩ =>
      obtain ⟨hfirst, hothers⟩ := List.forall_mem_cons.mp hproper
      have hword := hfirst.isLexeme.isWord (ht.imp_right Kind.isKeyword_of_isAggregate)
      refine ⟨List.forall_mem_map.mpr (List.forall_mem_cons.mpr ⟨hword.1, ?_⟩), t.lexeme, rfl, ?_⟩
      · exact fun u hu => ((hothers u hu).isLexeme.isWord (hts u hu)).1
      · rwa [hword.2]

theorem canonical_call {c : Call} (hc : c.Grammatical) (hproper : AllKept Token.Proper c.written)
    {o : Operand} (h : call c = .ok o) : o.Selects := by
  obtain ⟨-, hargument⟩ := hc
  obtain ⟨-, hproper⟩ := allKept_call.mp hproper
  rw [call] at h
  split at h
  · cases h
  · split at h
    · next p hp =>
        cases h
        rw [hp] at hargument
        exact .inl (canonical_path hargument (hproper p hp))
    · split at h
      · cases h
        exact .inr ⟨rfl, rfl⟩
      · cases h

theorem selects_selectable {v : Selectable} (hv : v.Grammatical)
    (hproper : AllKept Token.Proper v.written) {o : Operand} (h : selectable v = .ok o) :
    o.Selects := by
  cases v with
  | path p =>
      cases h
      exact canonical_path hv (allKept_path.mp hproper)
  | call c => exact canonical_call hv hproper h

/-! ## Literals -/

theorem canonical_string {t : Token} (ht : t.Proper) (hkind : t.kind = .string) :
    (string t).Canonical := by
  obtain ⟨text, hquote, htext⟩ := ht.isQuoted hkind
  rw [string, htext, unquote_quoted]
  simpa [Literal.Canonical] using hquote

/-- Without a point a number is all digits, and with one it has digits on both sides of it. -/
theorem canonical_number {t : Token} (ht : t.Proper) (hkind : t.kind = .number) {l : Literal}
    (h : number t = .ok l) : l.Canonical := by
  have hnumber := ht.isNumber hkind
  have hinRange := ht.inRange hkind
  rw [InRange] at hinRange
  cases writes_number hkind h with
  | string hstring _ => cases hkind.symm.trans hstring
  | integer _ hpoint hread =>
      rcases hnumber with hdigits | ⟨whole, fraction, -, -, heq⟩
      · exact Text.readInteger_nonneg hdigits hread
      · simp [heq] at hpoint
  | @float x _ hpoint hread =>
      rw [if_pos hpoint] at hinRange
      obtain ⟨y, hy, hfinite⟩ := hinRange
      cases hread.symm.trans hy
      refine ⟨hfinite, t.lexeme.toList, ?_, by simpa using hread⟩
      rcases hnumber with ⟨-, hdigits⟩ | hdecimal
      · cases hdigits '.' hpoint
      · exact hdecimal

theorem canonical_value {v : Value} (hv : v.Grammatical) (hproper : AllKept Token.Proper v.written)
    {o : Operand} (h : value v = .ok o) : o.Canonical := by
  cases v with
  | path p =>
      cases h
      exact canonical_path hv (allKept_path.mp hproper)
  | call c => exact (canonical_call hv hproper h).canonical
  | string t =>
      cases h
      exact canonical_string (hproper t List.mem_cons_self) hv
  | number t =>
      obtain ⟨l, hl, rfl⟩ := map_eq_ok_iff.mp h
      exact canonical_number (hproper t List.mem_cons_self) hv hl

/-! ## Conditions -/

theorem ne_nil_of_forall₂ {α β : Type} {R : α → β → Prop} {as : List α} {bs : List β}
    (h : List.Forall₂ R as bs) (hne : as ≠ []) : bs ≠ [] := by
  rintro rfl
  exact hne (List.forall₂_nil_right_iff.mp h)

theorem isBinary_operator {t : Token} {o : Operator} (h : operator t = .ok o) :
    o.isBinary = true := by
  rw [operator] at h
  split at h
  · next hfilter =>
      cases h
      exact (Option.filter_eq_some_iff.mp hfilter).2
  · cases h

theorem canonicalComparison_test {t : Test} (ht : t.Grammatical)
    (hproper : AllKept Token.Proper t.written) {left : Operand} (hleft : left.Selects)
    {join : JoinKind} {c : Condition} (h : test left join t = .ok c) : c.CanonicalComparison := by
  cases t with
  | compare operator v =>
      obtain ⟨-, hv⟩ := ht
      obtain ⟨-, hproper⟩ := allKept_compare.mp hproper
      obtain ⟨o, ho, h⟩ := bind_eq_ok_iff.mp h
      obtain ⟨right, hright, ⟨⟩⟩ := bind_eq_ok_iff.mp h
      exact ⟨hleft, isBinary_operator ho, canonical_value hv hproper hright⟩
  | isIn vs =>
      obtain ⟨hne, hvs⟩ := ht
      rw [allKept_isIn] at hproper
      obtain ⟨os, hos, ⟨⟩⟩ := bind_eq_ok_iff.mp h
      rw [values_eq_ok_iff] at hos
      refine ⟨hleft, ne_nil_of_forall₂ hos hne, fun o ho => ?_⟩
      obtain ⟨v, hv, hvo⟩ := exists_of_mem_forall₂ hos.flip ho
      exact canonical_value (hvs v hv) (hproper v hv) hvo
  | between low high =>
      obtain ⟨hlow, hhigh⟩ := ht
      obtain ⟨hproperLow, hproperHigh⟩ := allKept_between.mp hproper
      obtain ⟨a, ha, h⟩ := bind_eq_ok_iff.mp h
      obtain ⟨b, hb, ⟨⟩⟩ := bind_eq_ok_iff.mp h
      exact ⟨hleft, canonical_value hlow hproperLow ha, canonical_value hhigh hproperHigh hb⟩
  | null =>
      cases h
      exact ⟨hleft, rfl⟩
  | notNull =>
      cases h
      exact ⟨hleft, rfl⟩

theorem canonicalComparison_comparison {c : Comparison} (hc : c.Grammatical)
    (hproper : AllKept Token.Proper c.written) {k : Condition} (h : comparison c = .ok k) :
    k.CanonicalComparison := by
  obtain ⟨-, hleft, htest⟩ := hc
  obtain ⟨-, hproperLeft, hproperTest⟩ := allKept_comparison.mp hproper
  obtain ⟨join, -, h⟩ := bind_eq_ok_iff.mp h
  obtain ⟨left, hl, h⟩ := bind_eq_ok_iff.mp h
  exact canonicalComparison_test htest hproperTest (selects_selectable hleft hproperLeft hl) h

/-- The terms of a disjunction become the terms of a condition: none of its lists loses its
items. -/
theorem terms_conjunctions {d : Disjunction} {n : Nat} (hne : d ≠ []) (hterms : ∀ ps ∈ d, ps ≠ [])
    (hinner : ∀ ps ∈ d, ∀ p ∈ ps, ∀ c, primary p = .ok c → Condition.Term n c)
    {cs : List Condition} (h : conjunctions d = .ok cs) :
    ∃ css : List (List Condition), cs = css.map .allOf ∧ css ≠ [] ∧ (∀ cs ∈ css, cs ≠ []) ∧
      ∀ cs ∈ css, ∀ c ∈ cs, Condition.Term n c := by
  obtain ⟨css, rfl, hcss⟩ := conjunctions_eq_ok_iff_terms.mp h
  refine ⟨css, rfl, ne_nil_of_forall₂ hcss hne, fun cs hcs => ?_, fun cs hcs c hc => ?_⟩
  · obtain ⟨ps, hps, hcs⟩ := exists_of_mem_forall₂ hcss.flip hcs
    exact ne_nil_of_forall₂ hcs (hterms ps hps)
  · obtain ⟨ps, hps, hcs⟩ := exists_of_mem_forall₂ hcss.flip hcs
    obtain ⟨p, hp, hpc⟩ := exists_of_mem_forall₂ hcs.flip hc
    exact hinner ps hps p hp c hpc

theorem term_primary {p : Primary} (hp : p.Grammatical) (hproper : AllKept Token.Proper p.written)
    {n : Nat} (hn : p.nesting ≤ n) {c : Condition} (h : primary p = .ok c) :
    Condition.Term n c := by
  induction hp generalizing n c with
  | comparison hc =>
      rw [Primary.written_comparison] at hproper
      rw [primary] at h
      exact .comparison (canonicalComparison_comparison hc hproper h)
  | @group d hne hterms _ ih =>
      rw [allKept_group] at hproper
      rw [Primary.nesting_group] at hn
      rw [primary] at h
      obtain ⟨cs, hcs, rfl⟩ := map_eq_ok_iff.mp h
      obtain ⟨n, rfl⟩ := Nat.exists_eq_add_of_lt hn
      have hnesting := Disjunction.nesting_le_iff.mp (Nat.le_of_succ_le_succ hn)
      obtain ⟨css, rfl, hcss⟩ := terms_conjunctions hne hterms
        (fun ps hps p hp c hc => ih ps hps p hp (hproper ps hps p hp) (hnesting ps hps p hp) hc) hcs
      exact .group hcss.1 hcss.2.1 hcss.2.2

theorem canonical_condition {d : Disjunction} (hd : Disjunction.Grammatical d)
    (hproper : AllKept Token.Proper (Disjunction.written d)) {n : Nat}
    (hn : Disjunction.nesting d ≤ n) {c : Condition} (h : condition d = .ok c) :
    c.Canonical n := by
  rw [allKept_disjunction] at hproper
  rw [Disjunction.nesting_le_iff] at hn
  obtain ⟨cs, hcs, rfl⟩ := condition_eq_ok_iff.mp h
  obtain ⟨css, rfl, hcss⟩ := terms_conjunctions hd.nonempty hd.terms
    (fun ps hps p hp c hc =>
      term_primary (hd.inner ps hps p hp) (hproper ps hps p hp) (hn ps hps p hp) hc) hcs
  exact ⟨css, rfl, hcss⟩

/-! ## Queries -/

theorem exists_of_condition? {d : Option Disjunction} {c : Option Condition}
    (h : condition? d = .ok c) : ∀ k ∈ c, ∃ e ∈ d, condition e = .ok k := by
  rintro k hk
  cases d with
  | none =>
      cases h
      cases hk
  | some d =>
      obtain ⟨k', hcondition, rfl⟩ := map_eq_ok_iff.mp h
      cases hk
      exact ⟨d, rfl, hcondition⟩

theorem exists_of_grouping? {items : Option (List Selectable)} {grouping : Option (List Operand)}
    (h : grouping? items = .ok grouping) :
    ∀ os ∈ grouping, ∃ vs ∈ items, List.Forall₂ (fun v o => selectable v = .ok o) vs os := by
  rintro os hos
  cases items with
  | none =>
      cases h
      cases hos
  | some vs =>
      obtain ⟨os', hbuilt, rfl⟩ := map_eq_ok_iff.mp h
      cases hos
      exact ⟨vs, rfl, selectables_eq_ok_iff.mp hbuilt⟩

/-- **What a tree of the language is built into is canonical**, if its tokens are proper. -/
theorem canonical_ofTree {r : Root} (hr : r.WellFormed maxNesting)
    (hproper : AllKept Token.Proper r.written) {q : Query} (h : Query.ofTree r = .ok q) :
    q.Canonical := by
  obtain ⟨hcondition, hhaving, hgrouping⟩ := ofTree_eq_ok_iff.mp h
  obtain ⟨hproperCondition, hproperGrouping, hproperHaving⟩ := allKept_root.mp hproper
  obtain ⟨hn, hnHaving⟩ := Nat.max_le.mp hr.nesting_le
  refine ⟨canonical_condition hr.grammatical.condition hproperCondition hn hcondition, ?_, ?_⟩
  · intro c hc
    obtain ⟨d, hd, hbuilt⟩ := exists_of_condition? hhaving c hc
    rw [Option.mem_def.mp hd] at hnHaving
    exact canonical_condition (hr.grammatical.having d hd) (hproperHaving d hd) hnHaving hbuilt
  · intro os hos
    obtain ⟨vs, hvs, hbuilt⟩ := exists_of_grouping? hgrouping os hos
    obtain ⟨hne, hitems⟩ := hr.grammatical.grouping vs hvs
    refine ⟨ne_nil_of_forall₂ hbuilt hne, fun o ho => ?_⟩
    obtain ⟨v, hv, hvo⟩ := exists_of_mem_forall₂ hbuilt.flip ho
    exact selects_selectable (hitems v hv) (hproperGrouping vs hvs v hv) hvo

end Tree

/-! ## Queries of texts -/

/-- The float of a number of the scanner has no sign. -/
theorem Token.Writes.not_negative {t : Token} (hlexeme : Scan.IsLexeme t.kind t.lexeme.toList)
    {x : Double} (h : t.Writes (.float x)) : x.negative = false := by
  cases h with
  | float hkind _ hread =>
      rw [hkind] at hlexeme
      obtain ⟨c, cs, hcs⟩ := List.exists_cons_of_ne_nil hlexeme.ne_nil
      rw [hcs] at hlexeme
      exact Text.not_negative_of_readDecimal? hcs hlexeme.head_isDigit hread

/-- **The queries of texts are canonical**, and no float among their literals is negative. -/
theorem Query.canonical_of_ofText {s : String} {q : Query} (hs : Text.isBlankText s = false)
    (h : ofText s = .ok q) :
    q.Canonical ∧ ∀ x, Literal.float x ∈ q.literals → x.negative = false := by
  constructor
  · rcases parse_of_ofText h with ⟨hblank, -⟩ | ⟨hroot, hspells, hbuilt⟩
    · cases hs.symm.trans hblank
    refine Tree.canonical_ofTree hroot (fun t ht => ⟨?_, ?_⟩) hbuilt
    · exact Scan.isLexeme_of_mem_body (hspells.mem_of_kept ht)
    · exact hroot.inRange _ ht
  · intro x hx
    obtain ⟨t, ht, hwrites⟩ := exists_of_mem_forall₂ (writes_of_ofText h).1.flip hx
    rw [Scan.literals_eq] at ht
    exact hwrites.not_negative (Scan.isLexeme_of_mem_body (List.mem_of_mem_filter ht))

/-- A text with a literal of every sort, a group and all clauses. -/
def clausesText : String :=
  "LEFT a.b IN (1, 2.50) AND (c IS NULL OR d = 'x') GROUP BY a, MIN(e) HAVING COUNT(*) > 1"

theorem Query.canonical_of_ofText_clausesText : ∃ q, Text.isBlankText clausesText = false ∧
    ofText clausesText = .ok q ∧ q.Canonical ∧
      ∀ x, Literal.float x ∈ q.literals → x.negative = false := by
  have hblank : Text.isBlankText clausesText = false := by decide +kernel
  have haccepted : (ofText clausesText).toOption.isSome = true := by decide +kernel
  cases h : ofText clausesText with
  | error e =>
      rw [h] at haccepted
      cases haccepted
  | ok q => exact ⟨q, hblank, rfl, canonical_of_ofText hblank h⟩

end FilterQuery
