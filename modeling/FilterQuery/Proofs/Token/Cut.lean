import FilterQuery.Proofs.Token.Lexeme

/-!
# Cutting a text

`Cut p cs ps` says, one piece at a time, how the scanner cuts the text `cs`, which starts at `p`,
into the pieces `ps`. `cut_pieces` is the only place where the recursion of `Scan.pieces` is
opened; what is said about the pieces of a text is proved by induction on `Cut`.
-/

set_option autoImplicit false

namespace FilterQuery

/-! ## Bytes -/

/-- The number of bytes of some characters. -/
def byteSize : List Char → Nat
  | [] => 0
  | c :: cs => c.utf8Size + byteSize cs

@[simp] theorem byteSize_nil : byteSize [] = 0 := rfl

@[simp] theorem byteSize_cons (c : Char) (cs : List Char) :
    byteSize (c :: cs) = c.utf8Size + byteSize cs := rfl

@[simp] theorem byteSize_append (cs ds : List Char) :
    byteSize (cs ++ ds) = byteSize cs + byteSize ds := by
  induction cs with
  | nil => simp
  | cons c cs ih => rw [List.cons_append, byteSize_cons, byteSize_cons, ih, Nat.add_assoc]

@[simp] theorem utf8ByteSize_ofList (cs : List Char) :
    (String.ofList cs).utf8ByteSize = byteSize cs := by
  induction cs with
  | nil => rfl
  | cons c cs ih =>
      rw [String.ofList_cons, String.utf8ByteSize_append, String.utf8ByteSize_singleton, ih,
        byteSize_cons]

@[simp] theorem byteSize_toList (s : String) : byteSize s.toList = s.utf8ByteSize := by
  rw [← utf8ByteSize_ofList, String.ofList_toList]

namespace Position

theorem offset_step (p : Position) (c : Char) : (p.step c).offset = p.offset + c.utf8Size := by
  rw [step]
  split
  · next h =>
      subst h
      rfl
  · rfl

theorem offset_after (p : Position) (cs : List Char) :
    (p.after cs).offset = p.offset + byteSize cs := by
  induction cs generalizing p with
  | nil => simp
  | cons c cs ih =>
      rw [after_cons, ih, offset_step, byteSize_cons]
      omega

end Position

namespace Scan

theorem unreadRun_prefix (cs : List Char) : unreadRun cs <+: cs := by
  induction cs with
  | nil => exact List.prefix_refl _
  | cons c rest ih =>
      rw [unreadRun]
      split
      · exact List.nil_prefix
      · exact List.cons_prefix_cons.mpr ⟨rfl, ih⟩

/-! ## Cuts -/

/-- The token with these characters at a place. -/
def tokenAt (p : Position) (kind : Kind) (lexeme : List Char) : Token :=
  { p with kind, lexeme := String.ofList lexeme }

/-- At the place `p` the scanner takes the characters `text` as a piece, and `rest` is left. -/
inductive Takes (p : Position) : (text rest : List Char) → Piece → Prop where
  | token {kind : Kind} {lexeme rest : List Char}
      (hhead : headToken? (lexeme ++ rest) = some (kind, lexeme)) :
      Takes p lexeme rest (.token (tokenAt p kind lexeme))
  | unread {c : Char} {run rest : List Char} (hspace : isSpace c = false)
      (hhead : headToken? (c :: (run ++ rest)) = none) (hrun : unreadRun (run ++ rest) = run) :
      Takes p (c :: run) rest (.unread (.unrecognized (String.ofList (c :: run)) p))

theorem Takes.ne_nil {p : Position} {text rest : List Char} {piece : Piece}
    (h : Takes p text rest piece) : text ≠ [] := by
  cases h with
  | token hhead => exact (headToken?_spec hhead).1.ne_nil
  | unread => exact List.cons_ne_nil _ _

/-- The text, which starts at the place, is cut into the pieces: white space is left out, and every
other piece is taken where the one before it ends. -/
inductive Cut : Position → List Char → List Piece → Prop where
  | done (p : Position) : Cut p [] []
  | space {p : Position} {c : Char} {rest : List Char} {ps : List Piece}
      (hspace : isSpace c = true) (tail : Cut (p.step c) rest ps) : Cut p (c :: rest) ps
  | piece {p : Position} {text rest : List Char} {piece : Piece} {ps : List Piece}
      (htakes : Takes p text rest piece) (tail : Cut (p.after text) rest ps) :
      Cut p (text ++ rest) (piece :: ps)

/-- Every token of a cut is a lexeme of its kind. -/
theorem Cut.isLexeme {p : Position} {cs : List Char} {ps : List Piece} (h : Cut p cs ps)
    {t : Token} (ht : .token t ∈ ps) : IsLexeme t.kind t.lexeme.toList := by
  induction h with
  | done p => cases ht
  | space _ _ ih => exact ih ht
  | piece htakes _ ih =>
      rcases List.mem_cons.mp ht with rfl | ht
      · cases htakes with
        | token hhead =>
            show IsLexeme _ (String.ofList _).toList
            rw [String.toList_ofList]
            exact (headToken?_spec hhead).1
      · exact ih ht

/-- What is left of a text after the first character of a piece, when the piece is taken away. -/
theorem append_drop_of_prefix {c : Char} {rest piece : List Char} (hne : piece ≠ [])
    (h : piece <+: c :: rest) : piece ++ rest.drop (piece.length - 1) = c :: rest := by
  obtain ⟨d, piece, rfl⟩ := List.exists_cons_of_ne_nil hne
  obtain ⟨rfl, hpiece⟩ := List.cons_prefix_cons.mp h
  have happend := List.prefix_iff_eq_append.mp hpiece
  rw [List.length_cons, Nat.add_sub_cancel, List.cons_append, happend]

/-- **The scanner cuts the text.** -/
theorem cut_pieces (p : Position) (cs : List Char) : Cut p cs (pieces p cs) := by
  fun_induction pieces p cs with
  | case1 p => exact .done p
  | case2 p c rest hspace ih => exact .space hspace ih
  | case3 p c rest hspace kind lexeme hhead ih =>
      obtain ⟨hlexeme, hprefix⟩ := headToken?_spec hhead
      have happend := append_drop_of_prefix hlexeme.ne_nil hprefix
      rw [← happend] at hhead ⊢
      exact .piece (.token hhead) ih
  | case4 p c rest hspace hhead text ih =>
      -- the run that is left unread is a prefix, and the scanner goes on behind it
      obtain ⟨tail, htail⟩ := unreadRun_prefix rest
      have hdrop : rest.drop (text.length - 1) = tail := by
        have happend : (unreadRun rest ++ tail).drop (unreadRun rest).length = tail :=
          List.drop_left
        rw [htail] at happend
        exact happend
      have htakes : Takes p text tail (.unread (.unrecognized (String.ofList text) p)) := by
        refine .unread (Bool.eq_false_iff.mpr hspace) ?_ ?_
        · rwa [htail]
        · rw [htail]
      have hcut := Cut.piece htakes (hdrop ▸ ih)
      rw [show text ++ tail = c :: rest from congrArg (c :: ·) htail] at hcut
      rwa [hdrop]

/-! ## Tokens and errors of a text -/

theorem mem_filterMap_token?_iff {ps : List Piece} {t : Token} :
    t ∈ ps.filterMap Piece.token? ↔ .token t ∈ ps := by
  have hpiece : ∀ piece : Piece, piece.token? = some t ↔ piece = .token t := by
    intro piece
    cases piece <;> simp [Piece.token?]
  simp [List.mem_filterMap, hpiece]

theorem filterMap_token?_map (ts : List Token) :
    (ts.map Piece.token).filterMap Piece.token? = ts := by
  rw [List.filterMap_map]
  exact List.filterMap_some

theorem mem_tokens_iff {s : String} {t : Token} :
    t ∈ tokens s ↔
      .token t ∈ pieces .start s.toList ∨ t = .eof (Position.start.after s.toList) := by
  rw [tokens, List.mem_append, mem_filterMap_token?_iff, List.mem_singleton]

theorem mem_errors_iff {s : String} {e : LexError} :
    e ∈ errors s ↔ .unread e ∈ pieces .start s.toList := by
  have hpiece : ∀ piece : Piece, piece.error? = some e ↔ piece = .unread e := by
    intro piece
    cases piece <;> simp [Piece.error?]
  simp [errors, List.mem_filterMap, hpiece]

/-- A text that has been cut into tokens only has no errors. -/
theorem errors_of_pieces {s : String} {ts : List Token}
    (h : pieces .start s.toList = ts.map .token) : errors s = [] := by
  rw [errors, h, List.filterMap_map]
  exact List.filterMap_eq_nil_iff.mpr fun _ _ => rfl

/-- **The kind of a token determines the class of its lexeme.** -/
theorem isLexeme_of_mem_tokens {s : String} {t : Token} (ht : t ∈ tokens s) (hk : t.kind ≠ .eof) :
    IsLexeme t.kind t.lexeme.toList := by
  rcases mem_tokens_iff.mp ht with ht | rfl
  · exact (cut_pieces .start s.toList).isLexeme ht
  · exact absurd rfl hk

end Scan

end FilterQuery
