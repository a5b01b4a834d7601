import FilterQuery.Json.Read
import FilterQuery.Json.Write
import FilterQuery.Proofs.Double.Layout

/-!
# Reading written JSON back

A value is proper if its numerals have the form that JSON asks for and its strings are text. The
reader finds a written proper value again before every continuation that cannot belong to it
(`Json.readValue_compact`), however deep it nests. So the text of a proper value is read back
(`Json.ofText?_toText`), and no two proper values have the same text (`Json.toText_inj`).
-/

set_option autoImplicit false

namespace FilterQuery.Json

/-- The value can be written without loss. -/
inductive Proper : Json → Prop where
  | null : Proper .null
  | bool (b : Bool) : Proper (.bool b)
  | number {n : Numeral} (h : n.Standard) : Proper (.number n)
  | text (s : String) : Proper (.text (some s))
  | array {items : List Json} (h : ∀ j ∈ items, Proper j) : Proper (.array items)
  | object {members : List (Option String × Json)} (hnames : ∀ m ∈ members, m.1.isSome)
      (hvalues : ∀ m ∈ members, Proper m.2) : Proper (.object members)

/-! ## Strings -/

/-- What stands for a character in a written string: a control character without a letter of its
own is written as a unit. -/
def stringItem (c : Char) : StringItem :=
  if c.toNat < 32 ∧ c.toNat ∉ [8, 9, 10, 12, 13] then .unit c.toNat else .char c

/-- The two digits that are written for a control character give its unit. -/
theorem unit?_control {n : Nat} (h : n < 32) :
    unit? '0' '0' (Text.hexDigit (n / 16)) (Text.hexDigit (n % 16)) = some n := by
  have hzero : Text.hexValue? '0' = some 0 := rfl
  have hhigh := Text.hexValue?_hexDigit (n / 16) (by omega)
  have hlow := Text.hexValue?_hexDigit (n % 16) (by omega)
  have hvalue : n / 16 * 16 + n % 16 = n := Nat.div_add_mod' n 16
  simp only [unit?, hzero, hhigh, hlow, Option.bind_eq_bind, Option.bind_some, Nat.zero_mul,
    Nat.zero_add, hvalue]

theorem eq_ofNat_of_toNat {c : Char} {n : Nat} (h : c.toNat = n) : c = Char.ofNat n := by
  rw [← h, Char.ofNat_toNat]

theorem stringItems_escape (c : Char) (rest : List Char) :
    stringItems (escape c ++ rest) =
      (stringItems rest).map fun (items, rest) => (stringItem c :: items, rest) := by
  have hmap : ∀ i : StringItem,
      (do
        let (items, rest) ← stringItems rest
        some (i :: items, rest)) =
      (stringItems rest).map fun (items, rest) => (i :: items, rest) := by
    intro i
    cases stringItems rest <;> rfl
  rw [escape]
  split
  · next h => subst h; exact hmap _
  split
  · next h => subst h; exact hmap _
  split
  · next hcontrol =>
      split
      · next h => rw [eq_ofNat_of_toNat h]; exact hmap _
      · next h => rw [eq_ofNat_of_toNat h]; exact hmap _
      · next h => rw [eq_ofNat_of_toNat h]; exact hmap _
      · next h => rw [eq_ofNat_of_toNat h]; exact hmap _
      · next h => rw [eq_ofNat_of_toNat h]; exact hmap _
      · next h8 h9 h10 h12 h13 =>
          have hnoletter : c.toNat ∉ [8, 9, 10, 12, 13] := by
            simp only [List.mem_cons, List.not_mem_nil, or_false]
            rintro (h | h | h | h | h)
            exacts [h8 h, h9 h, h10 h, h12 h, h13 h]
          have hitem : stringItem c = .unit c.toNat := if_pos ⟨hcontrol, hnoletter⟩
          simp only [List.cons_append, List.nil_append, stringItems, hitem,
            unit?_control hcontrol]
          exact hmap _
  · next hquote hbackslash hcontrol =>
      have hitem : stringItem c = .char c := by simp [stringItem, hcontrol]
      rw [List.singleton_append, stringItems, if_neg (by simp [hcontrol, hbackslash]), hitem]
      · exact hmap _
      · exact hquote
      · exact fun _ _ _ _ _ h _ => hbackslash h
      · exact fun _ _ h _ => hbackslash h

theorem stringItems_flatMap_escape (cs rest : List Char) :
    stringItems (cs.flatMap escape ++ '"' :: rest) = some (cs.map stringItem, rest) := by
  induction cs with
  | nil => rfl
  | cons c cs ih =>
      rw [List.flatMap_cons, List.append_assoc, stringItems_escape, ih]
      rfl

/-- A unit below the surrogates stands for itself, whatever follows. -/
theorem charsOfItems_unit {n : Nat} (h : n < 0xD800) (items : List StringItem) :
    charsOfItems (.unit n :: items) = (charsOfItems items).map (Char.ofNat n :: ·) := by
  have hlow : ¬ 0xD800 ≤ n := by omega
  rcases items with _ | ⟨_ | l, items⟩ <;> simp [charsOfItems, hlow]

theorem charsOfItems_stringItem (cs : List Char) : charsOfItems (cs.map stringItem) = some cs := by
  induction cs with
  | nil => rfl
  | cons c cs ih =>
      rw [List.map_cons, stringItem]
      split
      · next hunit =>
          rw [charsOfItems_unit (by omega), ih, Char.ofNat_toNat]
          rfl
      · rw [charsOfItems, ih]
        rfl

/-- **Every string is read back**, whatever characters it has. -/
theorem readString_quoted (s : String) (rest : List Char) :
    readString (s.toList.flatMap escape ++ '"' :: rest) = some (some s, rest) := by
  simp [readString, stringItems_flatMap_escape, charsOfItems_stringItem]

/-! ## Numbers -/

/-- What may follow a value: a comma, a closing bracket or brace, or nothing. -/
def Ends (rest : List Char) : Prop := ∀ c ∈ rest.head?, c = ',' ∨ c = ']' ∨ c = '}'

/-- The digits before the point end here, and those after it. -/
def NoDigits (rest : List Char) : Prop := ∀ c ∈ rest.head?, Digit.isDigit c = false

section Numbers

variable {rest : List Char}

theorem Ends.noDigits (h : Ends rest) : NoDigits rest := by
  intro c hc
  rcases h c hc with rfl | rfl | rfl <;> rfl

theorem toChar_ne {c : Char} (h : Digit.isDigit c = false) (d : Digit) : d.toChar ≠ c := by
  rintro rfl
  rw [Digit.isDigit, Digit.ofChar?_toChar] at h
  cases h

theorem readWhole_digits {d : Digit} {ds : List Digit} (hzero : d = Digit.zero → ds = [])
    (h : NoDigits rest) :
    readWhole ((d :: ds).map Digit.toChar ++ rest) = some (d :: ds, rest) := by
  have hnot : ¬ (d = Digit.zero ∧ ds ≠ []) := fun ⟨hd, hds⟩ => hds (hzero hd)
  simp only [readWhole, Decimal.span_map_toChar (d :: ds) h, if_neg hnot]

theorem readFraction_digits (ds : List Digit) (h : NoDigits rest) (hpoint : '.' ∉ rest.head?) :
    readFraction ((if ds = [] then [] else '.' :: ds.map Digit.toChar) ++ rest) =
      some (ds, rest) := by
  cases ds with
  | nil =>
      rw [if_pos rfl, List.nil_append]
      cases rest with
      | nil => rfl
      | cons c cs =>
          rw [readFraction]
          rintro cs' ⟨⟩
          exact hpoint rfl
  | cons d ds =>
      rw [if_neg (List.cons_ne_nil d ds), List.cons_append]
      simp only [readFraction, Decimal.span_map_toChar (d :: ds) h]

theorem readExponent_none (h : Ends rest) : readExponent rest = some (none, rest) := by
  rw [readExponent]
  · rintro cs rfl
    simpa using h 'e' rfl
  · rintro cs rfl
    simpa using h 'E' rfl

/-- The sign and the digits after the letter of an exponent are read back. -/
theorem readExponentDigits_chars {e : Exponent} (he : e.digits ≠ []) (h : Ends rest) :
    readExponentDigits e.capital (e.chars.tail ++ rest) = some (e, rest) := by
  obtain ⟨capital, sign, ds⟩ := e
  have hspan := Decimal.span_map_toChar ds h.noDigits
  obtain ⟨d, ds, rfl⟩ := List.exists_cons_of_ne_nil he
  rcases sign with _ | _ | _
  · -- the first digit is no sign
    change readExponentDigits capital ((d :: ds).map Digit.toChar ++ rest) = _
    rw [readExponentDigits, hspan]
    · intro cs hcs
      exact toChar_ne (by decide) d (List.cons.inj hcs).1
    · intro cs hcs
      exact toChar_ne (by decide) d (List.cons.inj hcs).1
  · change readExponentDigits capital ('+' :: ((d :: ds).map Digit.toChar ++ rest)) = _
    simp only [readExponentDigits, hspan]
  · change readExponentDigits capital ('-' :: ((d :: ds).map Digit.toChar ++ rest)) = _
    simp only [readExponentDigits, hspan]

theorem readExponent_chars {e : Exponent} (he : e.digits ≠ []) (h : Ends rest) :
    readExponent (e.chars ++ rest) = some (some e, rest) := by
  have hdigits := readExponentDigits_chars he h
  obtain ⟨capital, sign, ds⟩ := e
  cases capital with
  | false => exact congrArg (Option.map _) hdigits
  | true => exact congrArg (Option.map _) hdigits

/-- The exponent, or none, that may stand at the end of a numeral. -/
theorem readExponent_elim {exponent : Option Exponent} (he : ∀ e ∈ exponent, e.digits ≠ [])
    (h : Ends rest) :
    readExponent (exponent.elim [] Exponent.chars ++ rest) = some (exponent, rest) := by
  cases exponent with
  | none => exact readExponent_none h
  | some e => exact readExponent_chars (he e rfl) h

/-- An exponent starts with its letter, which is neither a digit nor a point. -/
theorem noDigits_exponent (exponent : Option Exponent) (h : Ends rest) :
    NoDigits (exponent.elim [] Exponent.chars ++ rest) ∧
      '.' ∉ (exponent.elim [] Exponent.chars ++ rest).head? := by
  cases exponent with
  | none =>
      refine ⟨h.noDigits, fun hdot => ?_⟩
      simpa using h '.' hdot
  | some e =>
      constructor
      · rintro c ⟨⟩
        split <;> rfl
      · show '.' ∉ some (if e.capital then 'E' else 'e')
        split <;> decide

theorem noDigits_fraction (ds : List Digit) (h : NoDigits rest) :
    NoDigits ((if ds = [] then [] else '.' :: ds.map Digit.toChar) ++ rest) := by
  split
  · exact h
  · rintro c ⟨⟩
    rfl

theorem chars_append (n : Numeral) (rest : List Char) :
    n.chars ++ rest = (if n.negative then ['-'] else []) ++ (n.whole.map Digit.toChar ++
      ((if n.fraction = [] then [] else '.' :: n.fraction.map Digit.toChar) ++
        (n.exponent.elim [] Exponent.chars ++ rest))) := by
  obtain ⟨negative, whole, fraction, exponent⟩ := n
  cases exponent <;> simp only [Numeral.chars, Option.elim, List.append_assoc]

/-- **A number is read back.** -/
theorem readNumber_chars {n : Numeral} (hn : n.Standard) (h : Ends rest) :
    readNumber (n.chars ++ rest) = some (n, rest) := by
  rw [chars_append]
  obtain ⟨negative, whole, fraction, exponent⟩ := n
  obtain ⟨⟨d, ds, hwhole, hzero⟩, hexponent⟩ := hn
  obtain rfl : whole = d :: ds := hwhole
  -- each part ends where the next one starts
  obtain ⟨hdigits, hpoint⟩ := noDigits_exponent exponent h
  have hread := readExponent_elim hexponent h
  have hfraction := readFraction_digits fraction hdigits hpoint
  have hwhole := readWhole_digits hzero (noDigits_fraction fraction hdigits)
  cases negative
  · simp only [Bool.false_eq_true, if_false, List.nil_append]
    rw [readNumber]
    · simp only [hwhole, hfraction, hread, Option.bind_eq_bind, Option.bind_some]
    · intro cs hcs
      exact toChar_ne (by decide) d (List.cons.inj hcs).1
  · simp only [if_true, List.cons_append, List.nil_append, readNumber, hwhole, hfraction, hread,
      Option.bind_eq_bind, Option.bind_some]

end Numbers

/-! ## Values -/

theorem skipBlanks_cons {c : Char} (h : isBlank c = false) (cs : List Char) :
    skipBlanks (c :: cs) = c :: cs :=
  List.dropWhile_cons_of_neg (by simp [h])

theorem isBlank_toChar (d : Digit) : isBlank d.toChar = false := by
  revert d
  decide

/-- A numeral starts with a minus sign or a digit. -/
theorem exists_chars_eq_cons {n : Numeral} (h : n.Standard) :
    ∃ c cs, n.chars = c :: cs ∧ (c = '-' ∨ ∃ d : Digit, c = d.toChar) := by
  obtain ⟨d, ds, hwhole, -⟩ := h.whole
  rw [Numeral.chars, hwhole]
  cases n.negative with
  | true => exact ⟨'-', _, rfl, .inl rfl⟩
  | false => exact ⟨d.toChar, _, rfl, .inr ⟨d, rfl⟩⟩

/-- A written value starts with a character that is neither blank nor a closing bracket. -/
theorem Proper.exists_compact_eq_cons {j : Json} (h : Proper j) :
    ∃ c cs, j.compact = c :: cs ∧ isBlank c = false ∧ c ≠ ']' := by
  cases h with
  | null => exact ⟨_, _, rfl, rfl, by decide⟩
  | bool b => cases b <;> exact ⟨_, _, rfl, rfl, by decide⟩
  | number h =>
      obtain ⟨c, cs, hcs, rfl | ⟨d, rfl⟩⟩ := exists_chars_eq_cons h
      · exact ⟨_, _, hcs, rfl, by decide⟩
      · exact ⟨_, _, hcs, isBlank_toChar d, toChar_ne (by decide) d⟩
  | text s => exact ⟨_, _, rfl, rfl, by decide⟩
  | array h => exact ⟨_, _, rfl, rfl, by decide⟩
  | object hnames hvalues => exact ⟨_, _, rfl, rfl, by decide⟩

/-- The written value is found again before everything that ends it. -/
def Found (j : Json) : Prop :=
  ∀ fuel rest, j.compact.length ≤ fuel → Ends rest →
    readValue fuel (j.compact ++ rest) = some (j, rest)

theorem found_number {n : Numeral} (h : n.Standard) : Found (.number n) := by
  intro fuel rest hfuel hrest
  obtain ⟨c, cs, hcs, hc⟩ := exists_chars_eq_cons h
  have hread := readNumber_chars h hrest
  have hblank : isBlank c = false := by
    rcases hc with rfl | ⟨d, rfl⟩
    · rfl
    · exact isBlank_toChar d
  have hother : ∀ {c' : Char} {cs' : List Char}, c' ≠ '-' → Digit.isDigit c' = false →
      c :: cs ++ rest ≠ c' :: cs' := by
    intro c' cs' hminus hdigit heq
    obtain rfl : c = c' := (List.cons.inj heq).1
    rcases hc with rfl | ⟨d, rfl⟩
    · exact hminus rfl
    · exact toChar_ne hdigit d rfl
  rw [compact] at hfuel ⊢
  rw [hcs] at hfuel hread ⊢
  obtain ⟨fuel, rfl⟩ := Nat.exists_eq_add_of_lt (Nat.lt_of_lt_of_le (Nat.succ_pos _) hfuel)
  rw [readValue, List.cons_append, skipBlanks_cons hblank, ← List.cons_append]
  split
  -- the characters that other values start with
  iterate 6
    next heq => exact absurd heq (hother (by decide) rfl)
  rw [hread]
  rfl

theorem found_text (s : String) : Found (.text (some s)) := by
  intro fuel rest hfuel hrest
  obtain ⟨fuel, rfl⟩ := Nat.exists_eq_add_one.mpr (Nat.lt_of_lt_of_le (Nat.succ_pos _) hfuel)
  have hchars : compact (.text (some s)) ++ rest =
      '"' :: (s.toList.flatMap escape ++ '"' :: rest) := by
    simp [compact, quotedText, quoted]
  rw [hchars, readValue, skipBlanks_cons (show isBlank '"' = false from rfl)]
  simp only [readString_quoted, Option.map_some]

theorem exists_compactItems_eq_cons {j : Json} (h : Proper j) (js : List Json) :
    ∃ c cs, compactItems (j :: js) = c :: cs ∧ isBlank c = false ∧ c ≠ ']' := by
  obtain ⟨c, cs, hcs, hc⟩ := h.exists_compact_eq_cons
  cases js with
  | nil => exact ⟨c, cs, by rw [compactItems, hcs], hc⟩
  | cons k js => exact ⟨c, _, by rw [compactItems, hcs, List.cons_append]; nofun, hc⟩

/-- The items of a written array are found again. -/
theorem readItems_compactItems {items : List Json} (hne : items ≠ []) (h : ∀ j ∈ items, Found j)
    (fuel : Nat) (hfuel : (compactItems items).length < fuel) (rest : List Char) :
    readItems fuel (compactItems items ++ ']' :: rest) = some (items, rest) := by
  induction items generalizing fuel with
  | nil => exact absurd rfl hne
  | cons j js ih =>
      obtain ⟨fuel, rfl⟩ := Nat.exists_eq_add_one_of_ne_zero (Nat.ne_zero_of_lt hfuel)
      have hj := h j List.mem_cons_self
      cases js with
      | nil =>
          have hread := hj fuel (']' :: rest) (Nat.le_of_lt_succ hfuel) (by rintro c ⟨⟩; simp)
          rw [compactItems, readItems, hread]
          rfl
      | cons k js =>
          rw [compactItems, List.length_append, List.length_cons] at hfuel
          · have hrest := ih (List.cons_ne_nil k js)
              (fun j hj => h j (List.mem_cons_of_mem _ hj)) fuel (by omega)
            have hread := hj fuel (',' :: (compactItems (k :: js) ++ ']' :: rest)) (by omega)
              (by rintro c ⟨⟩; simp)
            rw [compactItems, List.append_assoc, List.cons_append, readItems, hread]
            · simp only [Option.bind_eq_bind, Option.bind_some,
                skipBlanks_cons (show isBlank ',' = false from rfl), hrest]
            · nofun
          · nofun

/-- The members of a written object are found again. -/
theorem readMembers_compactMembers {members : List (Option String × Json)} (hne : members ≠ [])
    (hnames : ∀ m ∈ members, m.1.isSome) (h : ∀ m ∈ members, Found m.2) (fuel : Nat)
    (hfuel : (compactMembers members).length < fuel) (rest : List Char) :
    readMembers fuel (compactMembers members ++ '}' :: rest) = some (members, rest) := by
  induction members generalizing fuel with
  | nil => exact absurd rfl hne
  | cons m ms ih =>
      obtain ⟨fuel, rfl⟩ := Nat.exists_eq_add_one_of_ne_zero (Nat.ne_zero_of_lt hfuel)
      obtain ⟨name, j⟩ := m
      obtain ⟨k, rfl⟩ := Option.isSome_iff_exists.mp (hnames _ List.mem_cons_self)
      have hj : Found j := h _ List.mem_cons_self
      have hname : ∀ more : List Char, quotedText (some k) ++ ':' :: more =
          '"' :: (k.toList.flatMap escape ++ '"' :: ':' :: more) := by
        intro more
        simp [quotedText, quoted]
      cases ms with
      | nil =>
          rw [compactMembers, List.length_append, List.length_cons] at hfuel
          have hread := hj fuel ('}' :: rest) (by omega) (by rintro c ⟨⟩; simp)
          rw [compactMembers, List.append_assoc, List.cons_append, hname, readMembers,
            skipBlanks_cons (show isBlank '"' = false from rfl)]
          simp only [readString_quoted, Option.bind_eq_bind, Option.bind_some,
            skipBlanks_cons (show isBlank ':' = false from rfl), hread,
            skipBlanks_cons (show isBlank '}' = false from rfl)]
      | cons m ms =>
          rw [compactMembers, List.length_append, List.length_cons, List.length_append,
            List.length_cons] at hfuel
          · have hrest := ih (List.cons_ne_nil m ms)
              (fun m hm => hnames m (List.mem_cons_of_mem _ hm))
              (fun m hm => h m (List.mem_cons_of_mem _ hm)) fuel (by omega)
            have hread := hj fuel (',' :: (compactMembers (m :: ms) ++ '}' :: rest)) (by omega)
              (by rintro c ⟨⟩; simp)
            rw [compactMembers, List.append_assoc, List.cons_append, hname, readMembers,
              skipBlanks_cons (show isBlank '"' = false from rfl)]
            · simp only [readString_quoted, Option.bind_eq_bind, Option.bind_some,
                skipBlanks_cons (show isBlank ':' = false from rfl), List.append_assoc,
                List.cons_append, hread, skipBlanks_cons (show isBlank ',' = false from rfl), hrest]
            · nofun
          · nofun

theorem found_array {items : List Json} (hproper : ∀ j ∈ items, Proper j)
    (h : ∀ j ∈ items, Found j) : Found (.array items) := by
  intro fuel rest hfuel hrest
  obtain ⟨fuel, rfl⟩ := Nat.exists_eq_add_one.mpr (Nat.lt_of_lt_of_le (Nat.succ_pos _) hfuel)
  cases items with
  | nil => rfl
  | cons j js =>
      have hlength : (compactItems (j :: js)).length < fuel := by
        rw [compact, List.length_cons, List.length_append, List.length_singleton] at hfuel
        omega
      have hread := readItems_compactItems (List.cons_ne_nil j js) h fuel hlength rest
      obtain ⟨c, cs, hcs, hblank, hclosing⟩ :=
        exists_compactItems_eq_cons (hproper j List.mem_cons_self) js
      have hchars : compact (.array (j :: js)) ++ rest =
          '[' :: (compactItems (j :: js) ++ ']' :: rest) := by
        simp [compact]
      rw [hchars, readValue, skipBlanks_cons (show isBlank '[' = false from rfl)]
      simp only [hread]
      rw [hcs, List.cons_append, skipBlanks_cons hblank]
      split
      · next heq => exact absurd (List.cons.inj heq).1 hclosing
      · rfl

theorem found_object {members : List (Option String × Json)} (hnames : ∀ m ∈ members, m.1.isSome)
    (h : ∀ m ∈ members, Found m.2) : Found (.object members) := by
  intro fuel rest hfuel hrest
  obtain ⟨fuel, rfl⟩ := Nat.exists_eq_add_one.mpr (Nat.lt_of_lt_of_le (Nat.succ_pos _) hfuel)
  cases members with
  | nil => rfl
  | cons m ms =>
      have hlength : (compactMembers (m :: ms)).length < fuel := by
        rw [compact, List.length_cons, List.length_append, List.length_singleton] at hfuel
        omega
      have hread := readMembers_compactMembers (List.cons_ne_nil m ms) hnames h fuel hlength rest
      obtain ⟨cs, hcs⟩ : ∃ cs, compactMembers (m :: ms) = '"' :: cs := by
        cases ms <;> exact ⟨_, rfl⟩
      have hchars : compact (.object (m :: ms)) ++ rest =
          '{' :: (compactMembers (m :: ms) ++ '}' :: rest) := by
        simp [compact]
      rw [hchars, readValue, skipBlanks_cons (show isBlank '{' = false from rfl)]
      simp only [hread]
      rw [hcs, List.cons_append, skipBlanks_cons (show isBlank '"' = false from rfl)]
      rfl

/-- **A written value is found again**, whatever ends it and however deep it nests. -/
theorem readValue_compact {j : Json} (h : Proper j) : Found j := by
  induction h with
  | null =>
      intro fuel rest hfuel hrest
      obtain ⟨fuel, rfl⟩ := Nat.exists_eq_add_one.mpr (Nat.lt_of_lt_of_le (Nat.succ_pos _) hfuel)
      rfl
  | bool b =>
      intro fuel rest hfuel hrest
      have hpos : 0 < fuel := by
        cases b <;> exact Nat.lt_of_lt_of_le (Nat.succ_pos _) hfuel
      obtain ⟨fuel, rfl⟩ := Nat.exists_eq_add_one.mpr hpos
      cases b <;> rfl
  | number h => exact found_number h
  | text s => exact found_text s
  | array h ih => exact found_array h ih
  | object hnames hvalues ih => exact found_object hnames ih

/-- **The text of a value is read back.** -/
theorem ofText?_toText {j : Json} (h : Proper j) : ofText? j.toText = some j := by
  have hread := readValue_compact h (2 * j.compact.length + 1) [] (by omega) nofun
  rw [List.append_nil] at hread
  rw [ofText?, toText, String.toList_ofList, ofChars?, hread]
  rfl

/-- **Different values have different texts.** -/
theorem toText_inj {j k : Json} (hj : Proper j) (hk : Proper k) (h : j.toText = k.toText) :
    j = k := by
  have hread := ofText?_toText hj
  rw [h, ofText?_toText hk] at hread
  exact (Option.some.inj hread).symm

end FilterQuery.Json
