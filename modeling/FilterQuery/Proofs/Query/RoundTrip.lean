import FilterQuery.Proofs.Query.Built
import FilterQuery.Proofs.Query.Canonical
import FilterQuery.Proofs.Query.Dotted
import FilterQuery.Proofs.Query.Literals
import FilterQuery.Proofs.Token.Scans

/-!
# Canonical queries are read back

The text of a canonical query is read as this query. Part by part, the tokens of the text spell a
part of a tree that is built into the part of the query that has been written: `Builds` is this
property of tokens, and every part of a text is scanned into tokens that have it, before everything
that no lexeme can take a character from. The main result is `ofText_of_writes`.
-/

set_option autoImplicit false

namespace FilterQuery

open Scan (Scans Apart)

/-! ## Integers -/

namespace Text

theorem digitChar_eq_toChar (d : Digit) : Nat.digitChar d.val = d.toChar := by
  revert d
  decide

/-- Naturals are printed with the same digits. -/
theorem toDigits_eq_text (n : Nat) : Nat.toDigits 10 n = Decimal.text n := by
  induction n using Nat.strongRecOn with
  | ind n ih =>
      rw [Decimal.text, Decimal.digits]
      split
      · next h => rw [Nat.toDigits_of_lt_base h, List.map_singleton, ← digitChar_eq_toChar]
      · next h =>
          rw [Nat.toDigits_of_base_le (by decide) (by omega), ih (n / 10) (by omega), Decimal.text,
            List.map_append, List.map_singleton, ← digitChar_eq_toChar]

theorem integer_text {n : Int64} (h : 0 ≤ n.toInt) :
    (Literal.integer n).text.toList = Decimal.text n.toInt.toNat := by
  change (toString n.toInt).toList = _
  generalize n.toInt = i at h
  obtain ⟨m, rfl⟩ := Int.eq_ofNat_of_zero_le h
  rw [Int.toNat_natCast, ← toDigits_eq_text]
  exact String.toList_ofList

theorem isDigits_text (n : Nat) : Scan.IsDigits (Decimal.text n) := by
  refine ⟨by simpa [Decimal.text] using Decimal.digits_ne_nil n, List.forall_mem_map.mpr ?_⟩
  intro d _
  rw [Digit.isDigit, Digit.ofChar?_toChar]
  rfl

/-- The value grows with further digits. -/
theorem le_foldl_digits (ds : List Digit) (n : Nat) :
    n ≤ ds.foldl (fun n d => 10 * n + d.val) n := by
  induction ds generalizing n with
  | nil => exact Nat.le_refl n
  | cons d ds ih =>
      have hrest := ih (10 * n + d.val)
      rw [List.foldl_cons]
      omega

/-- Digits are read one after the other, as long as the value stays within the limit. -/
theorem readMagnitude_map_toChar (limit : Nat) (beyond : IntegerFault) (ds : List Digit) (n : Nat)
    (h : ds.foldl (fun n d => 10 * n + d.val) n ≤ limit) :
    readMagnitude limit beyond n (ds.map Digit.toChar) =
      .ok (ds.foldl (fun n d => 10 * n + d.val) n) := by
  induction ds generalizing n with
  | nil => rfl
  | cons d ds ih =>
      rw [List.foldl_cons] at h ⊢
      rw [List.map_cons, readMagnitude, Digit.ofChar?_toChar]
      simp only
      rw [if_pos (Nat.le_trans (le_foldl_digits ds _) h), ih _ h]

theorem readUnsigned_text {limit : Nat} (beyond : IntegerFault) {n : Nat} (h : n ≤ limit) :
    readUnsigned limit beyond (Decimal.text n) = .ok n := by
  have hvalue : (Decimal.digits n).foldl (fun n d => 10 * n + d.val) 0 = n :=
    Decimal.value_digits n
  have hread := readMagnitude_map_toChar limit beyond (Decimal.digits n) 0 (hvalue.symm ▸ h)
  rw [hvalue] at hread
  obtain ⟨c, cs, hcs⟩ := List.exists_cons_of_ne_nil (isDigits_text n).1
  rw [Decimal.text] at hcs
  rw [Decimal.text, hcs, readUnsigned, ← hcs, hread]
  nofun

/-- **The text of an integer that is not negative is read back.** -/
theorem readInteger_text {n : Int64} (h : 0 ≤ n.toInt) :
    readInteger (Literal.integer n).text = .ok n := by
  have hdigits := isDigits_text n.toInt.toNat
  have hbound : n.toInt.toNat ≤ Nat.pow 2 63 - 1 := by
    have hlt := n.toInt_lt
    have hpow : Nat.pow 2 63 = 9223372036854775808 := rfl
    omega
  have hread := readUnsigned_text .tooLarge hbound
  rw [readInteger, integer_text h]
  generalize Decimal.text n.toInt.toNat = cs at hdigits hread
  -- the first character is a digit and no sign
  split
  · exact absurd rfl hdigits.1
  · cases hdigits.2 '-' List.mem_cons_self
  · cases hdigits.2 '+' List.mem_cons_self
  · rw [hread]
    change Except.ok (Int64.ofInt (n.toInt.toNat : Int)) = _
    rw [Int.toNat_of_nonneg h, Int64.ofInt_toInt]

end Text

namespace Tree

/-! ## Words -/

/-- The tokens spell a part of a tree that is grammatical and is built into `b`. -/
def Builds {α β : Type} (written : α → List Slot) (Good : α → Prop)
    (build : α → Except BuildError β) (b : β) (ts : List Token) : Prop :=
  ∃ a, Spells (written a) ts ∧ Good a ∧ build a = .ok b

/-- What may stand behind a word. -/
theorem stops_of_word {k : Kind} (hk : k = .identifier ∨ k.isKeyword = true) {rest : List Char}
    (h : Scan.Stops .identifier rest) : Scan.Stops k rest := by
  cases k <;> first | exact h | simp [Kind.isKeyword, Kind.isAggregate] at hk

/-- The token is the word. -/
def OfWord (t : Token) (w : String) : Prop := t.kind = Kind.ofWord w ∧ t.lexeme = w

theorem scans_word {w : String} (h : Scan.IsWord w.toList) :
    Scans (Scan.Stops .identifier) w.toList fun ts => ∃ t, Spells [.kept t] ts ∧ OfWord t w := by
  have hlexeme := Scan.isLexeme_ofWord h
  rw [String.ofList_toList] at hlexeme
  have hkind := Kind.ofWord_eq_or_isKeyword w
  refine .lexeme hlexeme (fun _ hrest => stops_of_word hkind hrest) (fun hnumber => ?_) ?_
  · rw [hnumber] at hkind
    simp [Kind.isKeyword, Kind.isAggregate] at hkind
  · intro t ht hlex
    rw [String.ofList_toList] at hlex
    exact ⟨t, .cons rfl .nil, ht, hlex⟩

/-- The tokens of the words of a canonical path are grammatical. -/
theorem grammatical_of_words {q : Path} {p : FilterQuery.Path} (hp : p.Canonical)
    (h : List.Forall₂ OfWord q p.identifiers) : Path.Grammatical q := by
  obtain ⟨words⟩ := p
  obtain ⟨-, first, hfirst, hkind⟩ := hp
  cases h with
  | nil => cases hfirst
  | @cons t w q words ht hall =>
      cases hfirst
      have hwords : List.Forall₂ (fun t w => (t.kind = .identifier ∨ t.kind.isKeyword = true) ∧
          OfWord t w) q words :=
        hall.imp fun t w ht => ⟨ht.1.symm ▸ Kind.ofWord_eq_or_isKeyword w, ht⟩
      exact ⟨by rwa [ht.1], ((List.forall₂_and_left q words).mp hwords).1⟩

theorem path_of_words {q : Path} {p : FilterQuery.Path}
    (h : List.Forall₂ OfWord q p.identifiers) : path q = p := by
  rw [path, FilterQuery.Path.mk.injEq, ← List.forall₂_eq_eq_eq, List.forall₂_map_left_iff]
  exact h.imp fun t w ht => ht.2

theorem scans_path {p : FilterQuery.Path} (h : p.Canonical) :
    Scans Apart p.dotted.toList fun ts =>
      ∃ q : Path, Spells (Path.written q) ts ∧ Path.Grammatical q ∧ path q = p := by
  have hdot : Scans (fun _ => True) ['.'] (Spells [.mark .dot]) :=
    .mark (k := .dot) rfl (fun _ _ _ _ => trivial) nofun
  -- a dot ends a word, but no number: so only words may stand before it
  have hbefore : ∀ rest, Scan.Stops .identifier (['.'] ++ rest) := by
    rintro rest _ ⟨⟩
    decide
  have hwords : List.Forall₂ (fun w text => Scans (Scan.Stops .identifier) text fun ts =>
      ∃ t, Spells [.kept t] ts ∧ OfWord t w) p.identifiers (p.identifiers.map String.toList) := by
    rw [List.forall₂_map_right_iff, List.forall₂_same]
    exact fun w hw => scans_word (h.1 w hw)
  have hpath : Scans (Scan.Stops .identifier) (['.'].intercalate (p.identifiers.map String.toList))
      fun ts => ∃ q : Path, Spells (Path.written q) ts ∧ List.Forall₂ OfWord q p.identifiers :=
    .intercalate hdot hbefore hwords
  rw [FilterQuery.Path.dotted, String.toList_ofList, FilterQuery.Path.joinDots_eq_intercalate]
  refine (hpath.weaken fun rest hrest => hrest .identifier).imp ?_
  rintro ts ⟨q, hspells, hall⟩
  exact ⟨q, hspells, grammatical_of_words h hall, path_of_words hall⟩

/-- A reserved word that a tree keeps. -/
theorem scans_keyword {k : Kind} (hk : k.isKeyword = true) :
    Scans Apart k.label.toList fun ts => ∃ t, Spells [.kept t] ts ∧ t.kind = k ∧
      t.lexeme = k.label := by
  refine .lexeme (Scan.isLexeme_label hk) (fun _ hrest => hrest k) (fun hnumber => ?_) ?_
  · rw [hnumber] at hk
    cases hk
  · intro t ht hlex
    rw [String.ofList_toList] at hlex
    exact ⟨t, .cons rfl .nil, ht, hlex⟩

/-! ## Operands -/

/-- The argument of a call, before its closing parenthesis. -/
theorem scans_argument {f : Aggregate} {p : FilterQuery.Path}
    (h : p.Canonical ∨ f = .count ∧ p = .wildcard) :
    Scans Apart p.dotted.toList fun ts => ∃ argument : Option Path,
      Spells (Call.argumentWritten argument) ts ∧
        match argument with
        | some q => Path.Grammatical q ∧ path q = p
        | none => f = .count ∧ p = .wildcard := by
  rcases h with hp | hstar
  · exact (scans_path hp).imp fun ts ⟨q, hspells, hgood⟩ => ⟨some q, hspells, hgood⟩
  · obtain ⟨rfl, rfl⟩ := hstar
    have hmark : Scans Apart ['*'] (Spells [.mark .star]) :=
      .mark (k := .star) rfl (fun _ hrest => hrest .star) nofun
    exact hmark.imp fun ts hts => ⟨none, hts, rfl, rfl⟩

/-- The kind of the name of a function. -/
theorem exists_label_eq_name (f : Aggregate) :
    ∃ k : Kind, k.label = f.name ∧ k.isAggregate = true ∧ (f = .count → k = .count) := by
  cases f with
  | count => exact ⟨.count, rfl, rfl, fun _ => rfl⟩
  | sum => exact ⟨.sum, rfl, rfl, nofun⟩
  | avg => exact ⟨.avg, rfl, rfl, nofun⟩
  | min => exact ⟨.min, rfl, rfl, nofun⟩
  | max => exact ⟨.max, rfl, rfl, nofun⟩

theorem scans_call {f : Aggregate} {p : FilterQuery.Path}
    (h : p.Canonical ∨ f = .count ∧ p = .wildcard) :
    Scans Apart (Operand.aggregate f p).text.toList
      (Builds Call.written Call.Grammatical call (.aggregate f p)) := by
  obtain ⟨k, hlabel, hk, hcount⟩ := exists_label_eq_name f
  have hname := scans_keyword (Kind.isKeyword_of_isAggregate hk)
  have htext : (Operand.aggregate f p).text.toList =
      k.label.toList ++ '(' :: (p.dotted.toList ++ [')']) := by
    simp [Operand.text, hlabel, String.toList_append]
  rw [htext]
  refine hname.append (scans_argument h).parens (fun rest _ => Scan.apart_cons (by decide) _) ?_
  rintro ts us ⟨t, ht, hkind, hlexeme⟩ ⟨argument, hargument, hgood⟩
  refine ⟨⟨t, argument⟩, List.rel_append ht hargument, ⟨?_, ?_⟩, ?_⟩
  · rw [hkind]
    exact hk
  · cases argument with
    | some q => exact hgood.1
    | none => exact hkind.trans (hcount hgood.1)
  · rw [call, hlexeme, hlabel, Aggregate.ofName?_name]
    cases argument with
    | some q =>
        obtain ⟨-, rfl⟩ := hgood
        rfl
    | none =>
        obtain ⟨rfl, rfl⟩ := hgood
        rfl

theorem scans_selectable {o : Operand} (h : o.Selects) {text : List Char} (htext : o.Writes text) :
    Scans Apart text (Builds Selectable.written Selectable.Grammatical selectable o) := by
  cases o with
  | literal l => cases h
  | path p =>
      cases htext
      refine (scans_path h).imp ?_
      rintro ts ⟨q, hspells, hgood, rfl⟩
      exact ⟨.path q, hspells, hgood, rfl⟩
  | aggregate f p =>
      cases htext
      exact (scans_call h).imp fun ts ⟨c, hspells, hgood, hc⟩ => ⟨.call c, hspells, hgood, hc⟩

/-! ## Literals -/

theorem scans_string {s : String} (h : '\'' ∉ s.toList) :
    Scans Apart (Literal.string s).text.toList
      (Builds Value.written Value.Grammatical value (.literal (.string s))) := by
  have htext : (Literal.string s).text.toList = '\'' :: (s.toList ++ ['\'']) := by
    simp [Literal.text, String.toList_append]
  rw [htext]
  refine .lexeme (k := .string) ⟨s.toList, h, rfl⟩ (fun _ hrest => hrest .string) nofun ?_
  intro t hkind hlexeme
  refine ⟨.string t, .cons rfl .nil, hkind, ?_⟩
  rw [value, string, hlexeme, String.toList_ofList, unquote_quoted, String.ofList_toList]

/-- A number that is read as the literal. -/
theorem scans_number {l : Literal} {cs : List Char} (hcs : Scan.IsNumber cs)
    (hrange : InRange (String.ofList cs))
    (hread : ∀ t : Token, t.lexeme = String.ofList cs → number t = .ok l) :
    Scans Apart cs (Builds Value.written Value.Grammatical value (.literal l)) := by
  refine .lexeme (k := .number) hcs (fun _ hrest => hrest .number) (fun _ => hrange) ?_
  intro t hkind hlexeme
  refine ⟨.number t, .cons rfl .nil, hkind, ?_⟩
  rw [value, hread t hlexeme]
  rfl

theorem scans_integer {n : Int64} (h : 0 ≤ n.toInt) :
    Scans Apart (Literal.integer n).text.toList
      (Builds Value.written Value.Grammatical value (.literal (.integer n))) := by
  have hread := Text.readInteger_text h
  have hdigits : Scan.IsDigits (Literal.integer n).text.toList := by
    rw [Text.integer_text h]
    exact Text.isDigits_text _
  have hpoint : '.' ∉ (Literal.integer n).text.toList := by
    intro hmem
    cases hdigits.2 _ hmem
  refine scans_number (.inl hdigits) ?_ ?_
  · rw [String.ofList_toList, InRange, if_neg hpoint]
    exact ⟨n, hread⟩
  · intro t ht
    rw [String.ofList_toList] at ht
    rw [number, ht, if_neg hpoint, hread]

theorem scans_float {x : Double} (hfinite : x.isFinite = true) {cs : List Char}
    (h : Literal.Writes (.float x) cs) :
    Scans Apart cs (Builds Value.written Value.Grammatical value (.literal (.float x))) := by
  obtain ⟨⟨whole, fraction, hwhole, hfraction, rfl⟩, hread⟩ := h
  have hpoint : '.' ∈ (String.ofList (whole ++ '.' :: fraction)).toList := by simp
  refine scans_number (.inr ⟨whole, fraction, hwhole, hfraction, rfl⟩) ?_ ?_
  · rw [InRange, if_pos hpoint]
    exact ⟨x, hread, hfinite⟩
  · intro t ht
    rw [number, ht, if_pos hpoint, hread]

theorem scans_value {o : Operand} (h : o.Canonical) {text : List Char} (htext : o.Writes text) :
    Scans Apart text (Builds Value.written Value.Grammatical value o) := by
  cases o with
  | path p =>
      cases htext
      refine (scans_path h).imp ?_
      rintro ts ⟨q, hspells, hgood, rfl⟩
      exact ⟨.path q, hspells, hgood, rfl⟩
  | aggregate f p =>
      cases htext
      exact (scans_call h).imp fun ts ⟨c, hspells, hgood, hc⟩ => ⟨.call c, hspells, hgood, hc⟩
  | literal l =>
      cases l with
      | string s =>
          cases htext
          exact scans_string h
      | integer n =>
          cases htext
          exact scans_integer h
      | float x => exact scans_float h.1 htext
      | boolean b => cases h

/-! ## Lists -/

/-- Texts of the items of a list with separators between them. -/
theorem scans_list {α β : Type} {written : α → List Slot} {Good : α → Prop}
    {build : α → Except BuildError β} {buildAll : List α → Except BuildError (List β)}
    (hall : ∀ {as bs}, buildAll as = .ok bs ↔ List.Forall₂ (fun a b => build a = .ok b) as bs)
    {k : Kind} {sep : List Char} (hsep : Scans (fun _ => True) sep (Spells [.mark k]))
    (hapart : ∀ rest, Apart (sep ++ rest)) {bs : List β} (hne : bs ≠ []) {texts : List (List Char)}
    (h : List.Forall₂ (fun b text => Scans Apart text (Builds written Good build b)) bs texts) :
    Scans Apart (sep.intercalate texts) (Builds (fun as => joined k (as.map written))
      (fun as => as ≠ [] ∧ ∀ a ∈ as, Good a) buildAll bs) := by
  refine (Scans.intercalate hsep hapart h).imp ?_
  rintro ts ⟨as, hspells, hparts⟩
  obtain ⟨hgood, hbuilt⟩ := (List.forall₂_and_left as bs).mp hparts
  refine ⟨as, hspells, ⟨?_, hgood⟩, hall.mpr hbuilt⟩
  rintro rfl
  cases hbuilt
  exact hne rfl

theorem scans_comma : Scans (fun _ => True) ", ".toList (Spells [.mark .comma]) := by
  have hmark : Scans (fun _ => True) [','] (Spells [.mark .comma]) :=
    .mark (k := .comma) rfl (fun _ _ _ _ => trivial) nofun
  exact hmark.append .space (fun _ _ => trivial) fun _ _ hts hus => List.rel_append hts hus

/-- A reserved word between two blanks. -/
theorem scans_between_blanks {k : Kind} (hk : k.isKeyword = true) :
    Scans (fun _ => True) (' ' :: (k.label.toList ++ [' '])) (Spells [.mark k]) :=
  .blank (.word_blank hk (.nil .nil))

/-! ## Comparisons -/

/-- The keyword of a join and the blank behind it, unless the join is inner. -/
theorem scans_before (j : JoinKind) : Scans (fun _ => True) j.before fun ts =>
    ∃ join : Option Token, Spells (join.toList.map .kept) ts ∧
      (∀ t ∈ join, t.kind = .left ∨ t.kind = .right) ∧ joinKind join = .ok j := by
  have hkeyword : ∀ k : Kind, k = .left ∨ k = .right → k.label = j.keyword →
      Scans (fun _ => True) (k.label.toList ++ [' ']) fun ts => ∃ join : Option Token,
        Spells (join.toList.map .kept) ts ∧ (∀ t ∈ join, t.kind = .left ∨ t.kind = .right) ∧
          joinKind join = .ok j := by
    intro k hk hlabel
    have hword : k.isKeyword = true := by rcases hk with rfl | rfl <;> rfl
    refine (scans_keyword hword).append .space (fun rest _ => Scan.apart_cons (by decide) _) ?_
    rintro ts us ⟨t, ht, hkind, hlexeme⟩ ⟨⟩
    rw [List.append_nil]
    refine ⟨some t, ht, ?_, ?_⟩
    · rintro _ ⟨⟩
      rwa [hkind]
    · rw [joinKind, hlexeme, hlabel, JoinKind.ofKeyword?_keyword]
  cases j with
  | inner =>
      refine .nil ⟨none, .nil, ?_, rfl⟩
      rintro _ ⟨⟩
  | left => exact hkeyword .left (.inl rfl) rfl
  | right => exact hkeyword .right (.inr rfl) rfl

/-- A comparison from its left side and its test. -/
theorem scans_test {l : Operand} {j : JoinKind} {c : Condition} (hl : l.Selects)
    {left body : List Char} (hleft : l.Writes left)
    (hbody : Scans Apart body (Builds Test.written Test.Grammatical (test l j) c)) :
    Scans Apart (j.before ++ (left ++ ' ' :: body))
      (Builds Comparison.written Comparison.Grammatical comparison c) := by
  have hrest : Scans Apart (left ++ ' ' :: body) fun ts => ∃ v t,
      Spells (Selectable.written v ++ Test.written t) ts ∧ (v.Grammatical ∧ selectable v = .ok l) ∧
        t.Grammatical ∧ test l j t = .ok c := by
    refine (scans_selectable hl hleft).append hbody.blank
      (fun rest _ => Scan.apart_cons (by decide) _) ?_
    rintro ts us ⟨v, hv, hgood⟩ ⟨t, ht, hgood'⟩
    exact ⟨v, t, List.rel_append hv ht, hgood, hgood'⟩
  refine (scans_before j).append hrest (fun _ _ => trivial) ?_
  rintro ts us ⟨join, hjoin, hkeyword, hkind⟩ ⟨v, t, hspells, ⟨hv, hselect⟩, ht, htest⟩
  refine ⟨⟨join, v, t⟩, List.rel_append hjoin hspells, ⟨hkeyword, hv, ht⟩, ?_⟩
  exact bind_eq_ok_iff.mpr ⟨j, hkind, bind_eq_ok_iff.mpr ⟨l, hselect, htest⟩⟩

/-- The kind of a binary operator. -/
theorem exists_label_eq_symbol {o : Operator} (h : o.isBinary = true) :
    ∃ k : Kind, k.label = o.symbol ∧ k.isComparison = true := by
  cases o with
  | eq => exact ⟨.equal, rfl, rfl⟩
  | ne => exact ⟨.notEqual, rfl, rfl⟩
  | lt => exact ⟨.less, rfl, rfl⟩
  | lte => exact ⟨.lessOrEqual, rfl, rfl⟩
  | gt => exact ⟨.greater, rfl, rfl⟩
  | gte => exact ⟨.greaterOrEqual, rfl, rfl⟩
  | isIn | between | isNull | isNotNull => cases h

theorem scans_operator {o : Operator} (h : o.isBinary = true) :
    Scans Apart o.symbol.toList fun ts => ∃ t, Spells [.kept t] ts ∧
      t.kind.isComparison = true ∧ operator t = .ok o := by
  obtain ⟨k, hlabel, hk⟩ := exists_label_eq_symbol h
  have hlexeme : Scan.IsLexeme k o.symbol.toList := by
    rw [← hlabel]
    cases k <;> first | rfl | cases hk
  refine .lexeme hlexeme (fun _ hrest => hrest k) (fun hnumber => ?_) ?_
  · rw [hnumber] at hk
    cases hk
  · intro t hkind ht
    rw [String.ofList_toList] at ht
    refine ⟨t, .cons rfl .nil, hkind ▸ hk, ?_⟩
    rw [operator, ht, Operator.ofSymbol?_symbol, Option.filter_some_pos h]

theorem scans_comparison {c : Condition} (h : c.CanonicalComparison) {text : List Char}
    (htext : c.Writes text) :
    Scans Apart text (Builds Comparison.written Comparison.Grammatical comparison c) := by
  cases c with
  | anyOf cs => cases h
  | allOf cs => cases h
  | compare l o r j =>
      obtain ⟨left, right, hleft, hright, rfl⟩ := htext
      obtain ⟨hl, ho, hr⟩ := h
      refine scans_test hl hleft ((scans_operator ho).append (scans_value hr hright).blank
        (fun rest _ => Scan.apart_cons (by decide) _) ?_)
      rintro ts us ⟨t, ht, hkind, hoperator⟩ ⟨v, hv, hgood, hvalue⟩
      refine ⟨.compare t v, List.rel_append ht hv, ⟨hkind, hgood⟩, ?_⟩
      exact bind_eq_ok_iff.mpr ⟨o, hoperator, bind_eq_ok_iff.mpr ⟨r, hvalue, rfl⟩⟩
  | isIn l vs j =>
      obtain ⟨left, texts, hleft, htexts, rfl⟩ := htext
      obtain ⟨hl, hne, hvs⟩ := h
      have hparts := (List.forall₂_and_left vs texts).mpr ⟨hvs, htexts⟩
      have hlist := scans_list values_eq_ok_iff scans_comma
        (fun rest => Scan.apart_cons (by decide) _) hne
        (hparts.imp fun v text hv => scans_value hv.1 hv.2)
      have hword : Scans (fun _ => True) (Kind.isIn.label.toList ++ [' ']) (Spells [.mark .isIn]) :=
        .word_blank rfl (.nil .nil)
      refine scans_test hl hleft ((hword.prepend hlist.parens).imp ?_)
      rintro ts ⟨ws, hspells, hgood, hvalues⟩
      exact ⟨.isIn ws, hspells, hgood, bind_eq_ok_iff.mpr ⟨vs, hvalues, rfl⟩⟩
  | between l a b j =>
      obtain ⟨left, low, high, hleft, hlow, hhigh, rfl⟩ := htext
      obtain ⟨hl, ha, hb⟩ := h
      -- this `AND` belongs to the test, not to a conjunction
      have hbounds : Scans Apart (low ++ (" AND ".toList ++ high)) fun ts =>
          ∃ bounds : Value × Value, Spells (bounds.1.written ++ .mark .and :: bounds.2.written) ts ∧
            (bounds.1.Grammatical ∧ value bounds.1 = .ok a) ∧
              bounds.2.Grammatical ∧ value bounds.2 = .ok b := by
        have hupper := (scans_between_blanks (k := .and) rfl).prepend (scans_value hb hhigh)
        refine (scans_value ha hlow).append hupper (fun rest _ => Scan.apart_cons (by decide) _) ?_
        rintro ts us ⟨v, hv, hgood⟩ ⟨w, hw, hgood'⟩
        exact ⟨(v, w), List.rel_append hv hw, hgood, hgood'⟩
      have hword : Scans (fun _ => True) (Kind.between.label.toList ++ [' '])
          (Spells [.mark .between]) := .word_blank rfl (.nil .nil)
      refine scans_test hl hleft ((hword.prepend hbounds).imp ?_)
      rintro ts ⟨⟨v, w⟩, hspells, ⟨hv, hva⟩, hw, hwb⟩
      refine ⟨.between v w, hspells, ⟨hv, hw⟩, ?_⟩
      exact bind_eq_ok_iff.mpr ⟨a, hva, bind_eq_ok_iff.mpr ⟨b, hwb, rfl⟩⟩
  | nullTest l o j =>
      obtain ⟨left, hleft, rfl⟩ := htext
      obtain ⟨hl, ho⟩ := h
      have hnull : Scans Apart Kind.null.label.toList (Spells [.mark .null]) :=
        .mark (Scan.isLexeme_label rfl) (fun _ hrest => hrest .null) nofun
      cases o with
      | isNull =>
          refine scans_test hl hleft ((hnull.word_blank (k := .is) rfl).imp ?_)
          exact fun ts hspells => ⟨.null, hspells, trivial, rfl⟩
      | isNotNull =>
          have hnot := hnull.word_blank (k := .not) rfl
          refine scans_test hl hleft ((hnot.word_blank (k := .is) rfl).imp ?_)
          exact fun ts hspells => ⟨.notNull, hspells, trivial, rfl⟩
      | eq | ne | lt | lte | gt | gte | isIn | between => cases ho

/-! ## Conditions -/

/-- A disjunction, if its terms are read back. -/
theorem scans_disjunction {n : Nat} {css : List (List Condition)} (hne : css ≠ [])
    (hterms : ∀ cs ∈ css, cs ≠ [])
    (hinner : ∀ cs ∈ css, ∀ c ∈ cs, ∀ text, c.Writes text → Scans Apart text
      (Builds Primary.written (fun p => p.Grammatical ∧ p.nesting ≤ n) primary c))
    {texts : List (List Char)} (htexts : List.Forall₂ Condition.Writes (css.map .allOf) texts) :
    Scans Apart (" OR ".toList.intercalate texts) (Builds Disjunction.written
      (fun d => Disjunction.Grammatical d ∧ Disjunction.nesting d ≤ n) condition
      (.anyOf (css.map .allOf))) := by
  -- first the terms with `AND` between them, then the conjunctions with `OR` between them
  have hconjunction : ∀ cs ∈ css, ∀ text, (Condition.allOf cs).Writes text → Scans Apart text
      (Builds Conjunction.written
        (fun ps => ps ≠ [] ∧ ∀ p ∈ ps, p.Grammatical ∧ p.nesting ≤ n)
        (fun ps => (primaries ps).map Condition.allOf) (.allOf cs)) := by
    rintro cs hcs text ⟨texts, htexts, rfl⟩
    have hparts := (List.forall₂_and_left cs texts).mpr
      ⟨hinner cs hcs, Condition.writeEach_iff.mp htexts⟩
    refine (scans_list primaries_eq_ok_iff (scans_between_blanks (k := .and) rfl)
      (fun rest => Scan.apart_cons (by decide) _) (hterms cs hcs)
      (hparts.imp fun c text hc => hc.1 text hc.2)).imp ?_
    rintro ts ⟨ps, hspells, hgood, hbuilt⟩
    exact ⟨ps, hspells, hgood, map_eq_ok_iff.mpr ⟨cs, hbuilt, rfl⟩⟩
  have hall : List.Forall₂ (fun c text => Scans Apart text (Builds Conjunction.written
      (fun ps => ps ≠ [] ∧ ∀ p ∈ ps, p.Grammatical ∧ p.nesting ≤ n)
      (fun ps => (primaries ps).map Condition.allOf) c)) (css.map .allOf) texts := by
    rw [List.forall₂_map_left_iff] at htexts ⊢
    exact ((List.forall₂_and_left css texts).mpr ⟨hconjunction, htexts⟩).imp
      fun cs text hc => hc.1 text hc.2
  refine (scans_list conjunctions_eq_ok_iff (scans_between_blanks (k := .or) rfl)
    (fun rest => Scan.apart_cons (by decide) _) (by simpa using hne) hall).imp ?_
  rintro ts ⟨d, hspells, ⟨hd, hgood⟩, hbuilt⟩
  refine ⟨d, hspells, ⟨⟨hd, fun ps hps => (hgood ps hps).1, ?_⟩, ?_⟩, ?_⟩
  · exact fun ps hps p hp => ((hgood ps hps).2 p hp).1
  · exact Disjunction.nesting_le_iff.mpr fun ps hps p hp => ((hgood ps hps).2 p hp).2
  · exact condition_eq_ok_iff.mpr ⟨_, hbuilt, rfl⟩

/-- **The terms of a condition are read back**, by induction on how deep disjunctions nest. -/
theorem scans_term {n : Nat} {c : Condition} (h : Condition.Term n c) {text : List Char}
    (htext : c.Writes text) : Scans Apart text
      (Builds Primary.written (fun p => p.Grammatical ∧ p.nesting ≤ n) primary c) := by
  induction h generalizing text with
  | comparison hc =>
      refine (scans_comparison hc htext).imp ?_
      rintro ts ⟨c, hspells, hgood, hbuilt⟩
      refine ⟨.comparison c, ?_, ⟨.comparison hgood, ?_⟩, ?_⟩
      · rwa [Primary.written_comparison]
      · rw [Primary.nesting_comparison]
        exact Nat.zero_le _
      · rwa [primary]
  | group hne hterms _ ih =>
      obtain ⟨texts, htexts, rfl⟩ := htext
      have hinner := scans_disjunction hne hterms (fun cs hcs c hc text => ih cs hcs c hc)
        (Condition.writeEach_iff.mp htexts)
      -- the parentheses are the level that the term has more than its inner terms
      refine hinner.parens.imp ?_
      rintro ts ⟨d, hspells, ⟨hgood, hnesting⟩, hbuilt⟩
      refine ⟨.group d, ?_, ⟨Primary.grammatical_group_iff.mpr hgood, ?_⟩, ?_⟩
      · rwa [Primary.written_group]
      · rw [Primary.nesting_group]
        omega
      · rwa [primary]

theorem scans_clause {n : Nat} {c : Condition} (h : c.Canonical n) {text : List Char}
    (htext : c.WritesClause text) : Scans Apart text (Builds Disjunction.written
      (fun d => Disjunction.Grammatical d ∧ Disjunction.nesting d ≤ n) condition c) := by
  obtain ⟨css, rfl, hne, hterms, hinner⟩ := h
  obtain ⟨texts, htexts, rfl⟩ := htext
  exact scans_disjunction hne hterms
    (fun cs hcs c hc text htext => scans_term (hinner cs hcs c hc) htext) htexts

/-! ## Queries -/

theorem scans_grouping {os : Option (List Operand)}
    (h : ∀ items ∈ os, items ≠ [] ∧ ∀ o ∈ items, o.Selects) {text : List Char}
    (htext : Query.WritesGrouping os text) : Scans Apart text (Builds groupingWritten
      (fun items => ∀ vs ∈ items, vs ≠ [] ∧ ∀ v ∈ vs, v.Grammatical) grouping? os) := by
  cases os with
  | none =>
      cases htext
      exact .nil ⟨none, .nil, nofun, rfl⟩
  | some os =>
      obtain ⟨texts, htexts, rfl⟩ := htext
      obtain ⟨hne, hos⟩ := h os rfl
      have hparts := (List.forall₂_and_left os texts).mpr ⟨hos, htexts⟩
      have hlist := scans_list selectables_eq_ok_iff scans_comma
        (fun rest => Scan.apart_cons (by decide) _) hne
        (hparts.imp fun o text ho => scans_selectable ho.1 ho.2)
      have hwords : Scans (fun _ => True) " GROUP BY ".toList (Spells [.mark .group, .mark .by]) :=
        .blank (.word_blank (k := .group) rfl (.word_blank (k := .by) rfl (.nil .nil)))
      refine (hwords.prepend hlist).imp ?_
      rintro ts ⟨vs, hspells, hgood, hbuilt⟩
      refine ⟨some vs, hspells, ?_, map_eq_ok_iff.mpr ⟨os, hbuilt, rfl⟩⟩
      rintro _ ⟨⟩
      exact hgood

theorem scans_having {n : Nat} {c : Option Condition} (h : ∀ e ∈ c, e.Canonical n)
    {text : List Char} (htext : Query.WritesHaving c text) : Scans Apart text (Builds havingWritten
      (fun d => ∀ e ∈ d, Disjunction.Grammatical e ∧ Disjunction.nesting e ≤ n) condition? c) := by
  cases c with
  | none =>
      cases htext
      exact .nil ⟨none, .nil, nofun, rfl⟩
  | some c =>
      obtain ⟨inner, hinner, rfl⟩ := htext
      have hword := scans_between_blanks (k := .having) rfl
      refine (hword.prepend (scans_clause (h c rfl) hinner)).imp ?_
      rintro ts ⟨d, hspells, hgood, hbuilt⟩
      refine ⟨some d, hspells, ?_, map_eq_ok_iff.mpr ⟨c, hbuilt, rfl⟩⟩
      rintro _ ⟨⟩
      exact hgood

end Tree

namespace Query

theorem WritesGrouping.apart {os : Option (List Operand)} {text : List Char}
    (h : WritesGrouping os text) {rest : List Char} (hrest : Apart rest) :
    Apart (text ++ rest) := by
  cases os with
  | none =>
      cases h
      exact hrest
  | some os =>
      obtain ⟨texts, -, rfl⟩ := h
      exact Scan.apart_cons (by decide) _

theorem WritesHaving.apart {c : Option Condition} {text : List Char} (h : WritesHaving c text)
    {rest : List Char} (hrest : Apart rest) : Apart (text ++ rest) := by
  cases c with
  | none =>
      cases h
      exact hrest
  | some c =>
      obtain ⟨inner, -, rfl⟩ := h
      exact Scan.apart_cons (by decide) _

/-- The tokens of the text of a query spell it. -/
theorem scans_query {q : Query} (hq : q.Canonical) {text : List Char} (htext : q.Writes text) :
    Scans Apart text fun ts => ∃ root : Tree.Root, Tree.Spells root.written ts ∧
      (root.Grammatical ∧ root.nesting ≤ maxNesting) ∧ ofTree root = .ok q := by
  obtain ⟨condition, grouping, having, hcondition, hgrouping, hhaving, rfl⟩ := htext
  -- a clause that is there starts with a blank, so that it ends what stands before it
  have hclauses : Scans Apart (grouping ++ having) fun ts => ∃ items d,
      Tree.Spells (Tree.groupingWritten items ++ Tree.havingWritten d) ts ∧
        ((∀ vs ∈ items, vs ≠ [] ∧ ∀ v ∈ vs, v.Grammatical) ∧
          Tree.grouping? items = .ok q.grouping) ∧
        (∀ e ∈ d, Tree.Disjunction.Grammatical e ∧ Tree.Disjunction.nesting e ≤ maxNesting) ∧
          Tree.condition? d = .ok q.having := by
    refine (Tree.scans_grouping hq.grouping hgrouping).append (Tree.scans_having hq.having hhaving)
      (fun rest hrest => hhaving.apart hrest) ?_
    rintro ts us ⟨items, hitems, hgood⟩ ⟨d, hd, hgood'⟩
    exact ⟨items, d, List.rel_append hitems hd, hgood, hgood'⟩
  refine (Tree.scans_clause hq.condition hcondition).append hclauses (fun rest hrest => ?_) ?_
  · rw [List.append_assoc]
    exact hgrouping.apart (hhaving.apart hrest)
  · rintro ts us ⟨d, hd, ⟨hgood, hnesting⟩, hbuilt⟩
      ⟨items, e, hspells, ⟨hitems, hgroupingBuilt⟩, he, hhavingBuilt⟩
    refine ⟨⟨d, items, e⟩, List.rel_append hd hspells, ⟨⟨hgood, hitems, ?_⟩, ?_⟩, ?_⟩
    · exact fun e' he' => (he e' he').1
    · refine Nat.max_le.mpr ⟨hnesting, ?_⟩
      cases e with
      | none => exact Nat.zero_le _
      | some e => exact (he e rfl).2
    · exact Tree.ofTree_eq_ok_iff.mpr ⟨hbuilt, hhavingBuilt, hgroupingBuilt⟩

/-- **Every canonical query is read back.** It has a text, and each of its texts is this query. -/
theorem ofText_of_writes {q : Query} (hq : q.Canonical) :
    (∃ text, q.Writes text) ∧
      ∀ text, q.Writes text → ofText (String.ofList text) = .ok q := by
  refine ⟨hq.exists_writes, fun text htext => ?_⟩
  -- the whole text is scanned: it starts at the start and nothing follows it
  obtain ⟨ts, hpieces, hrange, root, hspells, ⟨hgood, hnesting⟩, hbuilt⟩ :=
    scans_query hq htext .start [] Scan.apart_nil
  rw [List.append_nil, Scan.pieces, List.append_nil] at hpieces
  refine ofText_of_spelled ?_ ⟨root, ⟨hgood, hnesting, ?_⟩, hspells, hbuilt⟩
  · rw [String.toList_ofList, hpieces]
  · intro slot hslot
    cases slot with
    | kept t => exact hrange t (hspells.mem_of_kept hslot)
    | mark k => trivial

/-! A query with a keyword as a name, a condition in parentheses and literals of three sorts. -/

def heavy : Condition :=
  .compare (.path ⟨["customer", "by"]⟩) .gte (.literal (.float (.ofDecimal false 25 (-1)))) .left

def uncounted : Condition := .nullTest (.aggregate .count .wildcard) .isNull .inner

def listed : Condition :=
  .isIn (.path ⟨["status"]⟩) [.literal (.string "x"), .literal (.integer 3)] .inner

def shipmentsQuery : Query where
  condition := .anyOf [.allOf [heavy, .anyOf [.allOf [uncounted]]]]
  grouping := some [.path ⟨["status"]⟩]
  having := some (.anyOf [.allOf [listed]])

def shipmentsText : String :=
  "LEFT customer.by >= 2.50 AND (COUNT(*) IS NULL) GROUP BY status HAVING status IN ('x', 3)"

theorem writes_weight :
    Literal.Writes (.float (.ofDecimal false 25 (-1))) ['2', '.', '5', '0'] :=
  ⟨⟨['2'], ['5', '0'], by decide, by decide, rfl⟩, by decide +kernel⟩

theorem canonical_shipmentsQuery : shipmentsQuery.Canonical where
  condition := by
    have hheavy : heavy.CanonicalComparison :=
      ⟨by decide, rfl, by decide +kernel, _, writes_weight⟩
    have huncounted : uncounted.CanonicalComparison := ⟨by decide, rfl⟩
    have hgroup : Condition.Term maxNesting (.anyOf [.allOf [uncounted]]) :=
      @Condition.Term.group _ [[uncounted]] (by simp) (by simp)
        (by simpa using .comparison huncounted)
    exact ⟨[[_, _]], rfl, by simp, by simp, by simpa using ⟨.comparison hheavy, hgroup⟩⟩
  having := by
    have hlisted : listed.CanonicalComparison := by
      refine ⟨by decide, by simp, ?_⟩
      simp only [List.forall_mem_cons]
      exact ⟨(by decide : '\'' ∉ "x".toList), (by decide : 0 ≤ (3 : Int64).toInt), nofun⟩
    rintro _ ⟨⟩
    exact ⟨[[_]], rfl, by simp, by simp, by simpa using .comparison hlisted⟩
  grouping := by
    rintro _ ⟨⟩
    exact ⟨by simp, by decide⟩

theorem writes_shipmentsText : shipmentsQuery.Writes shipmentsText.toList := by
  have hheavy : heavy.Writes "LEFT customer.by >= 2.50".toList := ⟨_, _, rfl, writes_weight, rfl⟩
  have hgroup : (Condition.anyOf [.allOf [uncounted]]).Writes "(COUNT(*) IS NULL)".toList :=
    ⟨[_], ⟨_, [], ⟨[_], ⟨_, [], ⟨_, rfl, rfl⟩, rfl, rfl⟩, rfl⟩, rfl, rfl⟩, rfl⟩
  have hlisted : listed.Writes "status IN ('x', 3)".toList :=
    ⟨_, [_, _], rfl, .cons rfl (.cons rfl .nil), rfl⟩
  refine ⟨"LEFT customer.by >= 2.50 AND (COUNT(*) IS NULL)".toList, " GROUP BY status".toList,
    " HAVING status IN ('x', 3)".toList, ?_, ⟨[_], .cons rfl .nil, rfl⟩, ?_, rfl⟩
  · exact ⟨[_], .cons ⟨[_, _], ⟨_, _, hheavy, ⟨_, [], hgroup, rfl, rfl⟩, rfl⟩, rfl⟩ .nil, rfl⟩
  · exact ⟨_, ⟨[_], .cons ⟨[_], ⟨_, [], hlisted, rfl, rfl⟩, rfl⟩ .nil, rfl⟩, rfl⟩

theorem ofText_of_writes_shipmentsQuery : shipmentsQuery.Canonical ∧
    (∃ text, shipmentsQuery.Writes text) ∧ shipmentsQuery.Writes shipmentsText.toList ∧
      ofText (String.ofList shipmentsText.toList) = .ok shipmentsQuery := by
  obtain ⟨htexts, hread⟩ := ofText_of_writes canonical_shipmentsQuery
  exact ⟨canonical_shipmentsQuery, htexts, writes_shipmentsText, hread _ writes_shipmentsText⟩

end Query

end FilterQuery
