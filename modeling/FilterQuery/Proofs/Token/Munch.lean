import FilterQuery.Proofs.Token.Scans
import FilterQuery.Proofs.Token.Tiling

/-!
# The longest lexeme

The scanner looks at the classes of lexemes one after the other and takes the first that fits.
What it takes is nevertheless the longest lexeme of any kind at the head of the text, and it takes
one wherever there is one (`headToken?_covers`). A text is left unread where no lexeme starts
(`unreadRun_spec`). Main result: the tokens and the errors of a text are those that the classes ask
for (`tokens_classified`).
-/

set_option autoImplicit false

namespace FilterQuery.Scan

/-! ## Lexemes at the head of a text -/

/-- The lexeme `text`, which stands before `rest`, is no shorter than any other lexeme there. -/
def Longest (text rest : List Char) : Prop :=
  ∀ k other, IsLexeme k other → other <+: text ++ rest → other.length ≤ text.length

/-- A lexeme of some kind stands at the head of the text. -/
def StartsLexeme (cs : List Char) : Prop := ∃ k lexeme, IsLexeme k lexeme ∧ lexeme <+: cs

/-- The digits at the head of a text all belong to the number there. -/
theorem takeWhile_prefix_numberAt (cs : List Char) :
    cs.takeWhile Digit.isDigit <+: numberAt cs := by
  rw [numberAt]
  split
  · split
    · exact List.prefix_append _ _
    · exact List.prefix_refl _
  · exact List.prefix_refl _

theorem prefix_takeWhile_append {p : Char → Bool} {cs : List Char} (h : ∀ c ∈ cs, p c = true)
    (rest : List Char) : cs <+: (cs ++ rest).takeWhile p := by
  rw [List.takeWhile_append_of_pos h]
  exact List.prefix_append _ _

/-- A number at the head of a text is a part of the one that the scanner takes. -/
theorem IsNumber.length_le {cs : List Char} (h : IsNumber cs) (rest : List Char) :
    cs.length ≤ (numberAt (cs ++ rest)).length := by
  rcases h with h | ⟨whole, fraction, hwhole, hfraction, rfl⟩
  · have hdigits : cs <+: (cs ++ rest).takeWhile Digit.isDigit := prefix_takeWhile_append h.2 rest
    exact (hdigits.trans (takeWhile_prefix_numberAt _)).length_le
  · have hpoint : ∀ c ∈ ('.' :: (fraction ++ rest)).head?, Digit.isDigit c = false := by
      rintro c ⟨⟩
      decide
    have htaken : fraction <+: (fraction ++ rest).takeWhile Digit.isDigit :=
      prefix_takeWhile_append hfraction.2 rest
    obtain ⟨d, fraction, rfl⟩ := List.exists_cons_of_ne_nil hfraction.1
    have hd : Digit.isDigit d = true := hfraction.2 d List.mem_cons_self
    rw [numberAt, List.append_assoc, List.cons_append, takeWhile_append_eq hwhole.2 hpoint,
      List.drop_left]
    simp only [List.cons_append, hd, if_true] at htaken ⊢
    have hlength := htaken.length_le
    simp only [List.length_append, List.length_cons] at hlength ⊢
    omega

/-- **The scanner takes a lexeme where there is one**, and none that is shorter. -/
theorem headToken?_covers {k : Kind} {cs : List Char} (h : IsLexeme k cs) (rest : List Char) :
    ∃ k' lexeme, headToken? (cs ++ rest) = some (k', lexeme) ∧ cs.length ≤ lexeme.length := by
  cases k with
  | number =>
      obtain ⟨c, ds, rfl⟩ := List.exists_cons_of_ne_nil h.ne_nil
      have hc := IsNumber.head_isDigit h
      refine ⟨.number, numberAt (c :: ds ++ rest), ?_, IsNumber.length_le h rest⟩
      rw [List.cons_append, headToken?, if_neg (by simp [not_isWordStart_of_isDigit hc]), if_pos hc]
  | string => exact ⟨.string, cs, headToken?_quoted h rest, le_rfl⟩
  | eof => cases h
  | less | greater =>
      -- the longer mark is taken where an equals sign follows
      by_cases hequal : rest.head? = some '='
      · cases h
        obtain ⟨rest, rfl⟩ := List.head?_eq_some_iff.mp hequal
        exact ⟨_, _, rfl, by decide⟩
      · refine ⟨_, cs, headToken?_append h fun c hc heq => hequal ?_, le_rfl⟩
        exact heq ▸ hc
  | equal | notEqual | lessOrEqual | greaterOrEqual | leftParen | rightParen | comma | dot
  | star =>
      cases h
      exact ⟨_, _, rfl, le_rfl⟩
  | _ =>
      obtain ⟨c, ds, rfl⟩ := List.exists_cons_of_ne_nil h.ne_nil
      obtain ⟨⟨hc, hds⟩, -⟩ := h
      have hword : ∀ d ∈ c :: ds, isWordChar d = true :=
        List.forall_mem_cons.mpr ⟨isWordChar_of_isWordStart hc, hds⟩
      have htaken : c :: ds <+: (c :: ds ++ rest).takeWhile isWordChar :=
        prefix_takeWhile_append hword rest
      refine ⟨Kind.ofWord (String.ofList ((c :: ds ++ rest).takeWhile isWordChar)), _, ?_,
        htaken.length_le⟩
      rw [List.cons_append, headToken?, if_pos hc]

theorem headToken?_longest {k : Kind} {text rest : List Char}
    (h : headToken? (text ++ rest) = some (k, text)) : Longest text rest := by
  rintro k' other hother ⟨more, hmore⟩
  obtain ⟨_, lexeme, hhead, hlength⟩ := headToken?_covers hother more
  rw [hmore, h] at hhead
  cases hhead
  exact hlength

/-- **The scanner takes something exactly where a lexeme starts.** -/
theorem startsLexeme_iff {cs : List Char} : StartsLexeme cs ↔ headToken? cs ≠ none := by
  constructor
  · rintro ⟨k, lexeme, h, more, rfl⟩
    obtain ⟨_, _, hhead, -⟩ := headToken?_covers h more
    rw [hhead]
    exact Option.some_ne_none _
  · intro h
    obtain ⟨⟨k, lexeme⟩, hhead⟩ := Option.ne_none_iff_exists'.mp h
    exact ⟨k, lexeme, headToken?_spec hhead⟩

/-- A quote starts a lexeme only if another one follows. -/
theorem startsLexeme_quote_iff {cs : List Char} : StartsLexeme ('\'' :: cs) ↔ '\'' ∈ cs := by
  rw [startsLexeme_iff, headToken?, if_neg (by decide), if_neg (by decide), if_pos rfl]
  simp

/-- An exclamation mark starts a lexeme only before an equals sign. -/
theorem startsLexeme_bang_iff {cs : List Char} :
    StartsLexeme ('!' :: cs) ↔ cs.head? = some '=' := by
  rw [startsLexeme_iff, headToken?, if_neg (by decide), if_neg (by decide), if_neg (by decide)]
  cases cs with
  | nil => simp [markAt]
  | cons c cs =>
      by_cases hc : c = '='
      · simp [markAt, hc]
      · simp [markAt, hc]

/-! ## What follows a longest lexeme -/

/-- Nothing that starts with `text` and goes on with what follows is a lexeme. -/
theorem Longest.not_isLexeme (more : List Char) {text rest : List Char}
    (h : Longest text (more ++ rest)) (hmore : more ≠ []) (k : Kind) :
    ¬IsLexeme k (text ++ more) := by
  intro hlexeme
  have hle := h k (text ++ more) hlexeme ⟨rest, List.append_assoc _ _ _⟩
  have hpos := List.length_pos_of_ne_nil hmore
  rw [List.length_append] at hle
  omega

theorem isWordChar_of_longest {text rest : List Char} (h : Longest text rest)
    (hword : IsWord text) :
    ∀ c ∈ rest.head?, isWordChar c = false := by
  intro c hc
  obtain ⟨rest, rfl⟩ := List.head?_eq_some_iff.mp hc
  refine Bool.eq_false_iff.mpr fun hchar => ?_
  have hlonger : IsWord (text ++ [c]) := by
    match text, hword with
    | d :: ds, ⟨hd, hds⟩ =>
        exact ⟨hd, List.forall_mem_append.mpr ⟨hds, by simpa using hchar⟩⟩
  exact h.not_isLexeme [c] (List.cons_ne_nil _ _) _ (isLexeme_ofWord hlonger)

theorem IsDigits.concat {cs : List Char} {c : Char} (h : IsDigits cs)
    (hc : Digit.isDigit c = true) : IsDigits (cs ++ [c]) :=
  ⟨by simp, List.forall_mem_append.mpr ⟨h.2, by simpa using hc⟩⟩

theorem IsNumber.concat {cs : List Char} {c : Char} (h : IsNumber cs)
    (hc : Digit.isDigit c = true) : IsNumber (cs ++ [c]) := by
  rcases h with h | ⟨whole, fraction, hwhole, hfraction, rfl⟩
  · exact .inl (h.concat hc)
  · exact .inr ⟨whole, fraction ++ [c], hwhole, hfraction.concat hc, by simp⟩

theorem isDigit_of_longest {text rest : List Char} (h : Longest text rest)
    (hnumber : IsNumber text) : ∀ c ∈ rest.head?, Digit.isDigit c = false := by
  intro c hc
  obtain ⟨rest, rfl⟩ := List.head?_eq_some_iff.mp hc
  refine Bool.eq_false_iff.mpr fun hdigit => ?_
  exact h.not_isLexeme [c] (List.cons_ne_nil _ _) .number (hnumber.concat hdigit)

theorem fraction_of_longest {text rest : List Char} {c : Char}
    (h : Longest text ('.' :: c :: rest)) (hnumber : IsNumber text) (hpoint : '.' ∉ text) :
    Digit.isDigit c = false := by
  refine Bool.eq_false_iff.mpr fun hdigit => ?_
  have hwhole : IsDigits text := by
    rcases hnumber with hwhole | ⟨whole, fraction, -, -, rfl⟩
    · exact hwhole
    · exact absurd (by simp) hpoint
  have hlonger : IsNumber (text ++ ['.', c]) :=
    .inr ⟨text, [c], hwhole, ⟨List.cons_ne_nil _ _, by simpa using hdigit⟩, rfl⟩
  exact h.not_isLexeme ['.', c] (List.cons_ne_nil _ _) .number hlonger

theorem sign_of_longest {k : Kind} {text rest : List Char} (h : Longest text rest)
    (hk : k = .less ∨ k = .greater) (hlexeme : IsLexeme k text) : rest.head? ≠ some '=' := by
  intro hequal
  obtain ⟨rest, rfl⟩ := List.head?_eq_some_iff.mp hequal
  rcases hk with rfl | rfl
  · cases hlexeme
    exact h.not_isLexeme ['='] (List.cons_ne_nil _ _) .lessOrEqual rfl
  · cases hlexeme
    exact h.not_isLexeme ['='] (List.cons_ne_nil _ _) .greaterOrEqual rfl

/-! ## Reserved words -/

/-- No text is a lexeme of two kinds. -/
theorem IsLexeme.kind_eq {k k' : Kind} {cs : List Char} (h : IsLexeme k cs)
    (h' : IsLexeme k' cs) : k = k' := by
  have hhead : headToken? (cs ++ []) = some (k, cs) := headToken?_append h (apart_nil k)
  rw [headToken?_append h' (apart_nil k')] at hhead
  exact (congrArg Prod.fst (Option.some.inj hhead)).symm

/-- A text that differs from a reserved word only in letter case is a lexeme of its kind. -/
theorem isLexeme_of_sameWord {k : Kind} {w : String} (hk : k.isKeyword = true)
    (h : Text.sameWord k.label w = true) : IsLexeme k w.toList := by
  have hkeyword : ∀ k : Kind, k.isKeyword = true → (k, k.label) ∈ Kind.keywords ∧
      k.label.toList ≠ [] ∧ k.label.toList.all Char.isAlpha = true := by
    intro k hk
    cases k <;> first | exact ⟨by decide, by decide, by decide⟩ | cases hk
  obtain ⟨hmem, hne, hlabel⟩ := hkeyword k hk
  have hletters := Text.map_isAlpha_of_sameWord h
  have halpha : ∀ c ∈ w.toList, c.isAlpha = true := by
    intro c hc
    have hmem : c.isAlpha ∈ k.label.toList.map Char.isAlpha := hletters ▸ List.mem_map_of_mem hc
    obtain ⟨d, hd, heq⟩ := List.mem_map.mp hmem
    rw [← heq]
    exact List.all_eq_true.mp hlabel d hd
  have hword : IsWord w.toList := by
    cases hw : w.toList with
    | nil =>
        rw [hw] at hletters
        exact absurd (List.map_eq_nil_iff.mp hletters) hne
    | cons c cs =>
        rw [hw] at halpha
        obtain ⟨hc, hcs⟩ := List.forall_mem_cons.mp halpha
        refine ⟨by simp [isWordStart, hc], fun d hd => ?_⟩
        simp [isWordChar, Char.isAlphanum, hcs d hd]
  have hkind : Kind.ofWord w = k := by
    have hsame : ∀ p : Kind × String, Text.sameWord p.2 w = Text.sameWord p.2 k.label :=
      fun p => Text.sameWord_congr h p.2
    have hlabel := (Kind.ofWord_keywords _ hmem).1
    rw [Kind.ofWord] at hlabel ⊢
    simpa only [hsame] using hlabel
  have hlexeme := isLexeme_ofWord hword
  rwa [String.ofList_toList, hkind] at hlexeme

/-- **A lexeme is of the kind of a reserved word** exactly if it is that word, up to letter case. -/
theorem IsLexeme.kind_eq_iff {k k' : Kind} {w : String} (h : IsLexeme k w.toList)
    (hk' : k'.isKeyword = true) : k = k' ↔ Text.sameWord k'.label w = true := by
  constructor
  · rintro rfl
    have hsame := h.sameWord hk'
    rwa [String.ofList_toList] at hsame
  · intro hsame
    exact h.kind_eq (isLexeme_of_sameWord hk' hsame)

/-! ## Text that is left unread -/

/-- **Where a run of unread characters is and where it ends.** -/
theorem unreadRun_spec {run rest : List Char} (h : unreadRun (run ++ rest) = run) :
    (∀ c cs, c :: cs <:+ run → isSpace c = false ∧ ¬StartsLexeme (c :: (cs ++ rest))) ∧
      ∀ c cs, rest = c :: cs → isSpace c = true ∨ StartsLexeme rest := by
  induction run with
  | nil =>
      refine ⟨fun c cs hsuffix => absurd (List.suffix_nil.mp hsuffix) (List.cons_ne_nil _ _), ?_⟩
      rintro c cs rfl
      rw [List.nil_append, unreadRun] at h
      split at h
      · next hstop =>
          rw [startsLexeme_iff, ← Option.isSome_iff_ne_none]
          exact Bool.or_eq_true_iff.mp hstop
      · cases h
  | cons d run ih =>
      rw [List.cons_append, unreadRun] at h
      split at h
      · cases h
      next hgo =>
      obtain ⟨hspace, hhead⟩ := Bool.or_eq_false_iff.mp (Bool.eq_false_iff.mpr hgo)
      obtain ⟨hinside, hbehind⟩ := ih (List.cons.inj h).2
      refine ⟨fun c cs hsuffix => ?_, hbehind⟩
      rcases List.suffix_cons_iff.mp hsuffix with heq | hsuffix
      · obtain ⟨rfl, rfl⟩ := List.cons.inj heq
        rw [startsLexeme_iff, not_not]
        exact ⟨hspace, Option.not_isSome_iff_eq_none.mp (Bool.eq_false_iff.mp hhead)⟩
      · exact hinside c cs hsuffix

/-! ## Pieces of a text -/

/-- Every piece of a cut is taken somewhere in the text. -/
theorem Cut.takes {p : Position} {cs : List Char} {ps : List Piece} (h : Cut p cs ps)
    {piece : Piece} (hpiece : piece ∈ ps) :
    ∃ before text after, cs = before ++ (text ++ after) ∧
      Takes (p.after before) text after piece := by
  induction h with
  | done p => cases hpiece
  | @space p c rest ps _ _ ih =>
      obtain ⟨before, text, after, rfl, htakes⟩ := ih hpiece
      exact ⟨c :: before, text, after, rfl, htakes⟩
  | @piece p text rest piece ps htakes _ ih =>
      rcases List.mem_cons.mp hpiece with rfl | hpiece
      · exact ⟨[], text, rest, rfl, htakes⟩
      · obtain ⟨before, text', after, rfl, htakes'⟩ := ih hpiece
        refine ⟨text ++ before, text', after, (List.append_assoc _ _ _).symm, ?_⟩
        rwa [Position.after_append]

/-- What holds of a token with `rest` behind it: its lexeme is one of its kind, and it could not be
longer. -/
structure Classified (t : Token) (rest : List Char) : Prop where
  isLexeme : IsLexeme t.kind t.lexeme.toList
  /-- The kind is that of a reserved word exactly if the lexeme is this word. -/
  keyword : ∀ k : Kind, k.isKeyword = true →
    (t.kind = k ↔ Text.sameWord k.label t.lexeme = true)
  longest : Longest t.lexeme.toList rest
  word : IsWord t.lexeme.toList → ∀ c ∈ rest.head?, isWordChar c = false
  number : t.kind = .number → ∀ c ∈ rest.head?, Digit.isDigit c = false
  fraction : t.kind = .number → '.' ∉ t.lexeme.toList →
    ∀ c cs, rest = '.' :: c :: cs → Digit.isDigit c = false
  sign : t.kind = .less ∨ t.kind = .greater → rest.head? ≠ some '='

/-- What holds of a text that is left unread, with `rest` behind it: neither white space nor a
lexeme starts in it, and one of the two does behind it. -/
structure Unread (text rest : List Char) : Prop where
  inside : ∀ c cs, c :: cs <:+ text →
    c ∉ [' ', '\t', '\r', '\n'] ∧ ¬StartsLexeme (c :: (cs ++ rest))
  behind : ∀ c cs, rest = c :: cs → c ∈ [' ', '\t', '\r', '\n'] ∨ StartsLexeme rest

theorem classified_of_headToken? {p : Position} {k : Kind} {text rest : List Char}
    (h : headToken? (text ++ rest) = some (k, text)) : Classified (tokenAt p k text) rest := by
  have hlexeme : IsLexeme k (String.ofList text).toList := by
    rw [String.toList_ofList]
    exact (headToken?_spec h).1
  have hlongest : Longest (String.ofList text).toList rest := by
    rw [String.toList_ofList]
    exact headToken?_longest h
  have hnumber : k = .number → IsNumber (String.ofList text).toList := by
    rintro rfl
    exact hlexeme
  exact {
    isLexeme := hlexeme
    keyword := fun k' hk' => hlexeme.kind_eq_iff hk'
    longest := hlongest
    word := isWordChar_of_longest hlongest
    number := fun hk => isDigit_of_longest hlongest (hnumber hk)
    fraction := by
      rintro hk hpoint c cs rfl
      exact fraction_of_longest hlongest (hnumber hk) hpoint
    sign := fun hk => sign_of_longest hlongest hk hlexeme }

theorem unread_of_unreadRun {c : Char} {run rest : List Char} (hspace : isSpace c = false)
    (hhead : headToken? (c :: (run ++ rest)) = none) (hrun : unreadRun (run ++ rest) = run) :
    Unread (c :: run) rest := by
  have hwhole : unreadRun (c :: run ++ rest) = c :: run := by
    rw [List.cons_append, unreadRun, hspace, hhead, hrun]
    rfl
  obtain ⟨hinside, hbehind⟩ := unreadRun_spec hwhole
  constructor
  · intro d ds hsuffix
    obtain ⟨hd, hstarts⟩ := hinside d ds hsuffix
    rw [← isSpace_iff, hd]
    exact ⟨Bool.false_ne_true, hstarts⟩
  · intro d ds hrest
    rw [← isSpace_iff]
    exact hbehind d ds hrest

/-- A piece of a text is a part of it at its offset. -/
theorem slice_of_takes {s : String} {before text after : List Char} {piece : Piece}
    (hs : s.toList = before ++ (text ++ after))
    (htakes : Takes (Position.start.after before) text after piece) :
    s = String.ofList before ++ piece.span.text ++ String.ofList after ∧
      (String.ofList before).utf8ByteSize = piece.span.offset := by
  rw [htakes.span_eq, Position.offset_after, utf8ByteSize_ofList]
  refine ⟨String.toList_inj.mp ?_, (Nat.zero_add _).symm⟩
  simpa using hs

/-- **The tokens and the errors of a text are those that the classes of lexemes ask for.** A token
is a lexeme of its kind, the longest at its place. A text that is left unread holds no place where
a lexeme starts, and it could not be longer. -/
theorem tokens_classified (s : String) :
    (∀ t ∈ tokens s, t.kind ≠ .eof → ∃ before after : String,
      s = before ++ t.lexeme ++ after ∧ before.utf8ByteSize = t.offset ∧
        Classified t after.toList) ∧
    (∀ e ∈ errors s, ∃ before after : String,
      s = before ++ e.text ++ after ∧ before.utf8ByteSize = e.offset ∧
        Unread e.text.toList after.toList) ∧
    (∀ cs, StartsLexeme ('\'' :: cs) ↔ '\'' ∈ cs) ∧
    ∀ cs, StartsLexeme ('!' :: cs) ↔ cs.head? = some '=' := by
  have hcut := cut_pieces .start s.toList
  refine ⟨fun t ht hk => ?_, fun e he => ?_, fun _ => startsLexeme_quote_iff,
    fun _ => startsLexeme_bang_iff⟩
  · rcases mem_tokens_iff.mp ht with ht | rfl
    · obtain ⟨before, text, after, hs, htakes⟩ := hcut.takes ht
      obtain ⟨hslice, hoffset⟩ := slice_of_takes hs htakes
      refine ⟨_, _, hslice, hoffset, ?_⟩
      rw [String.toList_ofList]
      cases htakes with
      | token hhead => exact classified_of_headToken? hhead
    · exact absurd rfl hk
  · obtain ⟨before, text, after, hs, htakes⟩ := hcut.takes (mem_errors_iff.mp he)
    obtain ⟨hslice, hoffset⟩ := slice_of_takes hs htakes
    refine ⟨_, _, hslice, hoffset, ?_⟩
    cases htakes with
    | unread hspace hhead hrun =>
        rw [LexError.text, String.toList_ofList, String.toList_ofList]
        exact unread_of_unreadRun hspace hhead hrun

end FilterQuery.Scan
