import FilterQuery.Proofs.Query.Spelled

/-!
# Scanning what has been written

A lexeme that stands in a text is the token that the scanner takes, if the next character cannot
belong to it: `Stops k rest` says so of a lexeme of the kind `k` (`headToken?_append`). A text is
put together from lexemes and blanks. `Scans ok cs P` says that the scanner cuts the text `cs`,
before everything that `ok` allows, into tokens with the property `P` and leaves nothing of it
unread; it is closed under putting texts one after the other (`Scans.append`).
-/

set_option autoImplicit false

namespace FilterQuery.Scan

/-! ## Lexemes in a text -/

theorem not_isWordStart_of_isDigit {c : Char} (h : Digit.isDigit c = true) :
    isWordStart c = false := by
  rw [Bool.eq_false_iff]
  intro hword
  have hdigit := toNat_of_isDigit h
  have hword := toNat_of_isWordStart hword
  omega

/-- What follows a lexeme of the kind does not belong to it. -/
def Stops (k : Kind) (rest : List Char) : Prop :=
  ∀ c ∈ rest.head?, match k with
    | .number => Digit.isDigit c = false ∧ c ≠ '.'
    | .less | .greater => c ≠ '='
    | .string | .equal | .notEqual | .lessOrEqual | .greaterOrEqual | .leftParen | .rightParen
    | .comma | .dot | .star | .eof => True
    | _ => isWordChar c = false

theorem takeWhile_append_eq {p : Char → Bool} {cs rest : List Char} (h : ∀ c ∈ cs, p c = true)
    (hrest : ∀ c ∈ rest.head?, p c = false) : (cs ++ rest).takeWhile p = cs := by
  rw [List.takeWhile_append_of_pos h]
  cases rest with
  | nil => simp
  | cons c rest => simp [hrest c rfl]

theorem numberAt_append {cs rest : List Char} (h : IsNumber cs)
    (hrest : ∀ c ∈ rest.head?, Digit.isDigit c = false ∧ c ≠ '.') :
    numberAt (cs ++ rest) = cs := by
  have hdigit : ∀ c ∈ rest.head?, Digit.isDigit c = false := fun c hc => (hrest c hc).1
  rcases h with h | ⟨whole, fraction, hwhole, hfraction, rfl⟩
  · rw [numberAt, takeWhile_append_eq h.2 hdigit, List.drop_left]
    -- no point follows
    split
    · exact absurd rfl (hrest '.' rfl).2
    · rfl
  · have hpoint : ∀ c ∈ ('.' :: (fraction ++ rest)).head?, Digit.isDigit c = false := by
      rintro c ⟨⟩
      decide
    obtain ⟨d, fraction, rfl⟩ := List.exists_cons_of_ne_nil hfraction.1
    rw [numberAt, List.append_assoc, List.cons_append, takeWhile_append_eq hwhole.2 hpoint,
      List.drop_left]
    have hd : Digit.isDigit d = true := hfraction.2 d List.mem_cons_self
    simp only [List.cons_append, hd, if_true]
    rw [← List.cons_append, takeWhile_append_eq hfraction.2 hdigit]

theorem headToken?_word {cs rest : List Char} (h : IsWord cs)
    (hrest : ∀ c ∈ rest.head?, isWordChar c = false) :
    headToken? (cs ++ rest) = some (Kind.ofWord (String.ofList cs), cs) := by
  match cs, h with
  | c :: cs, ⟨hc, hcs⟩ =>
      have hword : ∀ d ∈ c :: cs, isWordChar d = true :=
        List.forall_mem_cons.mpr ⟨isWordChar_of_isWordStart hc, hcs⟩
      rw [List.cons_append, headToken?, if_pos hc, ← List.cons_append,
        takeWhile_append_eq hword hrest]

theorem headToken?_number {cs rest : List Char} (h : IsNumber cs) (hrest : Stops .number rest) :
    headToken? (cs ++ rest) = some (.number, cs) := by
  obtain ⟨c, ds, rfl⟩ := List.exists_cons_of_ne_nil h.ne_nil
  have hc := h.head_isDigit
  rw [List.cons_append, headToken?, if_neg (by simp [not_isWordStart_of_isDigit hc]), if_pos hc,
    ← List.cons_append, numberAt_append h hrest]

theorem headToken?_quoted {cs : List Char} (h : IsQuoted cs) (rest : List Char) :
    headToken? (cs ++ rest) = some (.string, cs) := by
  obtain ⟨text, htext, rfl⟩ := h
  have hne : ∀ c ∈ text, decide (c ≠ '\'') = true := by
    intro c hc
    refine decide_eq_true ?_
    rintro rfl
    exact htext hc
  have htake : (text ++ '\'' :: rest).takeWhile (· ≠ '\'') = text :=
    takeWhile_append_eq hne (by simp)
  rw [List.cons_append, List.append_assoc, List.singleton_append, headToken?, if_neg (by decide),
    if_neg (by decide), if_pos rfl, if_pos (by simp), htake]

/-- **A lexeme is taken as a whole**, and nothing with it. -/
theorem headToken?_append {k : Kind} {cs rest : List Char} (h : IsLexeme k cs)
    (hrest : Stops k rest) : headToken? (cs ++ rest) = some (k, cs) := by
  cases k with
  | number => exact headToken?_number h hrest
  | string => exact headToken?_quoted h rest
  | eof => cases h
  | less | greater =>
      -- the next character could make a longer mark of it
      cases h
      cases rest with
      | nil => rfl
      | cons c rest =>
          have hc : c ≠ '=' := hrest c rfl
          have hmark : (markAt ('<' :: c :: rest) = some (.less, ['<'])) ∧
              markAt ('>' :: c :: rest) = some (.greater, ['>']) := by simp [markAt, hc]
          first | exact hmark.1 | exact hmark.2
  | equal | notEqual | lessOrEqual | greaterOrEqual | leftParen | rightParen | comma | dot
  | star =>
      cases h
      rfl
  | _ =>
      obtain ⟨hword, hkind⟩ := h
      rw [headToken?_word hword hrest, hkind]

/-- The label of a reserved word is a lexeme of its kind. -/
theorem isLexeme_label {k : Kind} (hk : k.isKeyword = true) : IsLexeme k k.label.toList := by
  cases k <;> first | exact ⟨by decide, by decide⟩ | cases hk

/-! ## Pieces of a text -/

theorem isBlank_of_isSpace {c : Char} (h : isSpace c = true) : Text.isBlank c = true := by
  simp only [isSpace, Bool.or_eq_true, beq_iff_eq] at h
  rcases h with ((rfl | rfl) | rfl) | rfl <;> decide

theorem pieces_space (p : Position) {c : Char} (hc : isSpace c = true) (rest : List Char) :
    pieces p (c :: rest) = pieces (p.step c) rest := by
  rw [pieces, if_pos hc]

/-- The token at the head comes first. -/
theorem pieces_of_headToken? (p : Position) {k : Kind} {cs rest : List Char}
    (hhead : headToken? (cs ++ rest) = some (k, cs)) :
    pieces p (cs ++ rest) = .token (tokenAt p k cs) :: pieces (p.after cs) rest := by
  have h := (headToken?_spec hhead).1
  obtain ⟨c, ds, rfl⟩ := List.exists_cons_of_ne_nil h.ne_nil
  -- a space would be skipped before the lexeme is looked for
  have hspace : ¬ isSpace c = true := by
    intro hspace
    cases h.not_isBlank.symm.trans (isBlank_of_isSpace hspace)
  rw [List.cons_append] at hhead ⊢
  rw [pieces, if_neg hspace]
  simp only [hhead, List.length_cons, Nat.add_sub_cancel, List.drop_left]
  rfl

theorem pieces_lexeme (p : Position) {k : Kind} {cs rest : List Char} (h : IsLexeme k cs)
    (hrest : Stops k rest) :
    pieces p (cs ++ rest) = .token (tokenAt p k cs) :: pieces (p.after cs) rest :=
  pieces_of_headToken? p (headToken?_append h hrest)

/-- Before everything that `ok` allows, the scanner cuts the text into tokens with the property `P`,
whose numbers are in range. -/
def Scans (ok : List Char → Prop) (cs : List Char) (P : List Token → Prop) : Prop :=
  ∀ p rest, ok rest → ∃ ts, pieces p (cs ++ rest) = ts.map .token ++ pieces (p.after cs) rest ∧
    (∀ t ∈ ts, t.kind = .number → Tree.InRange t.lexeme) ∧ P ts

/-- What follows belongs to no lexeme before it. -/
def Apart (rest : List Char) : Prop := ∀ k, Stops k rest

theorem apart_nil : Apart [] := fun _ => nofun

theorem apart_cons {c : Char} (h : c ∈ [' ', '(', ')', ',']) (rest : List Char) :
    Apart (c :: rest) := by
  simp only [List.mem_cons, List.not_mem_nil, or_false] at h
  rintro k _ ⟨⟩
  rcases h with rfl | rfl | rfl | rfl <;> cases k <;> decide

namespace Scans

variable {ok ok' : List Char → Prop} {cs ds : List Char} {P Q R : List Token → Prop}

theorem nil (h : P []) : Scans ok [] P := fun _ _ _ => ⟨[], rfl, nofun, h⟩

theorem imp (h : Scans ok cs P) (hPQ : ∀ ts, P ts → Q ts) : Scans ok cs Q := by
  intro p rest hrest
  obtain ⟨ts, hpieces, hrange, hP⟩ := h p rest hrest
  exact ⟨ts, hpieces, hrange, hPQ ts hP⟩

theorem weaken (h : Scans ok' cs P) (hok : ∀ rest, ok rest → ok' rest) : Scans ok cs P :=
  fun p rest hrest => h p rest (hok rest hrest)

/-- Two texts one after the other, where the second one may follow the first. -/
theorem append (h : Scans ok' cs P) (h' : Scans ok ds Q) (hok : ∀ rest, ok rest → ok' (ds ++ rest))
    (hR : ∀ ts us, P ts → Q us → R (ts ++ us)) : Scans ok (cs ++ ds) R := by
  intro p rest hrest
  obtain ⟨ts, hts, htsRange, hP⟩ := h p (ds ++ rest) (hok rest hrest)
  obtain ⟨us, hus, husRange, hQ⟩ := h' (p.after cs) rest hrest
  -- the second text is cut from the position where the first one ends
  refine ⟨ts ++ us, ?_, List.forall_mem_append.mpr ⟨htsRange, husRange⟩, hR ts us hP hQ⟩
  rw [List.append_assoc, hts, hus, Position.after_append, List.map_append, List.append_assoc]

theorem blank (h : Scans ok cs P) : Scans ok (' ' :: cs) P := by
  intro p rest hrest
  obtain ⟨ts, hpieces, hrange, hP⟩ := h (p.step ' ') rest hrest
  refine ⟨ts, ?_, hrange, hP⟩
  rw [List.cons_append, pieces_space p rfl, hpieces, Position.after_cons]

theorem space : Scans ok [' '] (Tree.Spells []) := .blank (.nil .nil)

/-- A lexeme, which is in range if it is a number. -/
theorem lexeme {k : Kind} (h : IsLexeme k cs) (hok : ∀ rest, ok rest → Stops k rest)
    (hrange : k = .number → Tree.InRange (String.ofList cs))
    (hP : ∀ t : Token, t.kind = k → t.lexeme = String.ofList cs → P [t]) : Scans ok cs P := by
  intro p rest hrest
  refine ⟨[tokenAt p k cs], pieces_lexeme p h (hok rest hrest), ?_, hP _ rfl rfl⟩
  intro t ht hkind
  rw [List.mem_singleton.mp ht] at hkind ⊢
  exact hrange hkind

/-- A lexeme that a tree leaves out. -/
theorem mark {k : Kind} (h : IsLexeme k cs) (hok : ∀ rest, ok rest → Stops k rest)
    (hk : k ≠ .number) : Scans ok cs (Tree.Spells [.mark k]) :=
  lexeme h hok (fun hnumber => absurd hnumber hk) fun _ hkind _ => .cons hkind .nil

/-- A reserved word and a blank in front of a text. -/
theorem word_blank {k : Kind} (hk : k.isKeyword = true) {slots : List Tree.Slot}
    (h : Scans ok cs (Tree.Spells slots)) :
    Scans ok (k.label.toList ++ ' ' :: cs) (Tree.Spells (.mark k :: slots)) := by
  have hnumber : k ≠ .number := by
    rintro rfl
    cases hk
  have hword : Scans Apart k.label.toList (Tree.Spells [.mark k]) :=
    .mark (isLexeme_label hk) (fun _ hrest => hrest k) hnumber
  exact hword.append h.blank (fun rest _ => apart_cons (by decide) _)
    fun _ _ hts hus => List.rel_append hts hus

section Parts

variable {α β : Type} {written : α → List Tree.Slot} {Good : α → Prop}

/-- Left-out tokens in front of a part of a tree. -/
theorem prepend {slots : List Tree.Slot} (h : Scans (fun _ => True) cs (Tree.Spells slots))
    (h' : Scans ok ds fun ts => ∃ a, Tree.Spells (written a) ts ∧ Good a) :
    Scans ok (cs ++ ds) fun ts => ∃ a, Tree.Spells (slots ++ written a) ts ∧ Good a :=
  h.append h' (fun _ _ => trivial) fun _ _ hts ⟨a, ha, hgood⟩ => ⟨a, List.rel_append hts ha, hgood⟩

/-- A part of a tree in parentheses. -/
theorem parens (h : Scans Apart cs fun ts => ∃ a, Tree.Spells (written a) ts ∧ Good a) :
    Scans ok ('(' :: (cs ++ [')'])) fun ts => ∃ a,
      Tree.Spells (.mark .leftParen :: (written a ++ [.mark .rightParen])) ts ∧ Good a := by
  have hopening : Scans (fun _ => True) ['('] (Tree.Spells [.mark .leftParen]) :=
    .mark (k := .leftParen) rfl (fun _ _ _ _ => trivial) nofun
  have hclosing : Scans ok [')'] (Tree.Spells [.mark .rightParen]) :=
    .mark (k := .rightParen) rfl (fun _ _ _ _ => trivial) nofun
  have hinner : Scans ok (cs ++ [')']) fun ts => ∃ a,
      Tree.Spells (written a ++ [.mark .rightParen]) ts ∧ Good a :=
    h.append hclosing (fun rest _ => apart_cons (by decide) rest)
      fun _ _ ⟨a, ha, hgood⟩ hus => ⟨a, List.rel_append ha hus, hgood⟩
  exact hopening.prepend hinner

/-- Texts with separators between them, where each text spells a part of a tree. -/
theorem intercalate {k : Kind} {sep : List Char}
    (hsep : Scans (fun _ => True) sep (Tree.Spells [.mark k])) (hok : ∀ rest, ok (sep ++ rest))
    {Good : α → β → Prop} {bs : List β} {texts : List (List Char)}
    (h : List.Forall₂ (fun b text => Scans ok text fun ts =>
      ∃ a, Tree.Spells (written a) ts ∧ Good a b) bs texts) :
    Scans ok (sep.intercalate texts) fun ts =>
      ∃ as, Tree.Spells (Tree.joined k (as.map written)) ts ∧ List.Forall₂ Good as bs := by
  induction h with
  | nil => exact .nil ⟨[], .nil, .nil⟩
  | @cons b text bs texts hb hbs ih =>
      cases hbs with
      | nil =>
          rw [List.intercalate_singleton]
          refine hb.imp fun ts ⟨a, ha, hgood⟩ => ⟨[a], ?_, .cons hgood .nil⟩
          rwa [List.map_singleton, Tree.joined_singleton]
      | @cons b' text' bs texts hb' hbs =>
          have hrest : Scans ok (sep ++ sep.intercalate (text' :: texts)) fun ts =>
              ∃ as, Tree.Spells (.mark k :: Tree.joined k (as.map written)) ts ∧
                List.Forall₂ Good as (b' :: bs) := by
            exact hsep.prepend ih
          -- the first text stands before a separator, whatever follows the last one
          rw [List.intercalate_cons_cons, List.append_assoc]
          refine hb.append hrest (fun rest _ => ?_) ?_
          · rw [List.append_assoc]
            exact hok _
          · rintro ts us ⟨a, ha, hgood⟩ ⟨as, has, hall⟩
            obtain ⟨a', as, -, -, rfl⟩ := List.forall₂_cons_right_iff.mp hall
            refine ⟨a :: a' :: as, ?_, .cons hgood hall⟩
            rw [List.map_cons, List.map_cons, Tree.joined_cons_cons]
            exact List.rel_append ha has

end Parts

end Scans

end FilterQuery.Scan
