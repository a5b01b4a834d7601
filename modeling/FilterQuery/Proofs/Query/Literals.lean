import FilterQuery.Proofs.Query.Built
import FilterQuery.Proofs.Query.Spelled

/-!
# Literals of a text

`Query.literals` lists the literals of a query from left to right, and `Token.Writes` says which
literal a token writes: the text between the quotes of a string, or the value of a number. A tree
keeps the tokens of its literals and nothing else of their kinds, and is built from left to right,
so the strings and numbers of a text write the literals of its query, one each and in order
(`writes_of_ofText`).
-/

set_option autoImplicit false

namespace FilterQuery

/-! ## Literals of a query -/

/-- The literal that the operand is, if it is one. -/
def Operand.literals : Operand → List Literal
  | .literal l => [l]
  | .path _ | .aggregate .. => []

namespace Condition

mutual

/-- The literals of a condition from left to right. -/
def literals : Condition → List Literal
  | .anyOf cs => literalsOf cs
  | .allOf cs => literalsOf cs
  | .compare l _ r _ => l.literals ++ r.literals
  | .isIn l vs _ => l.literals ++ vs.flatMap Operand.literals
  | .between l a b _ => l.literals ++ (a.literals ++ b.literals)
  | .nullTest l _ _ => l.literals

/-- The literals of some conditions from left to right. -/
def literalsOf : List Condition → List Literal
  | [] => []
  | c :: cs => c.literals ++ literalsOf cs

end

theorem literalsOf_eq_flatMap (cs : List Condition) : literalsOf cs = cs.flatMap literals := by
  induction cs with
  | nil => rfl
  | cons c cs ih => rw [literalsOf, ih, List.flatMap_cons]

end Condition

/-- The literals among the items to group by. -/
def Query.groupingLiterals (q : Query) : List Literal :=
  (q.grouping.getD []).flatMap Operand.literals

/-- The literals of a query from left to right: condition, grouping, condition on groups. -/
def Query.literals (q : Query) : List Literal :=
  q.condition.literals ++ (q.groupingLiterals ++ q.having.toList.flatMap Condition.literals)

/-! ## Literals of tokens -/

/-- Strings and numbers. -/
def Kind.isLiteral : Kind → Bool
  | .string | .number => true
  | _ => false

/-- The literal that a token writes: what stands between two quotes, a 64-bit integer without a
point, or a double with one. -/
inductive Token.Writes (t : Token) : Literal → Prop where
  | string {text : String} (hkind : t.kind = .string) (hlexeme : t.lexeme = "'" ++ text ++ "'") :
      Writes t (.string text)
  | integer {n : Int64} (hkind : t.kind = .number) (hpoint : '.' ∉ t.lexeme.toList)
      (hread : Text.readInteger t.lexeme = .ok n) : Writes t (.integer n)
  | float {x : Double} (hkind : t.kind = .number) (hpoint : '.' ∈ t.lexeme.toList)
      (hread : Text.readDecimal? t.lexeme = some x) : Writes t (.float x)

namespace Tree

theorem unquote_quoted (text : List Char) : unquote ('\'' :: (text ++ ['\''])) = text := by
  simp [unquote]

theorem writes_string {t : Token} (hkind : t.kind = .string)
    (hquoted : Scan.IsQuoted t.lexeme.toList) : t.Writes (string t) := by
  obtain ⟨text, -, htext⟩ := hquoted
  rw [string, htext, unquote_quoted]
  refine .string hkind ?_
  rw [← String.toList_inj, htext]
  simp

theorem writes_number {t : Token} (hkind : t.kind = .number) {l : Literal}
    (h : number t = .ok l) : t.Writes l := by
  rw [number] at h
  split at h
  · next hpoint =>
      split at h
      · next x hread =>
          cases h
          exact .float hkind hpoint hread
      · cases h
  · next hpoint =>
      split at h
      · next n hread =>
          cases h
          exact .integer hkind hpoint hread
      · cases h

/-! ## Literals of slots -/

/-- The token that the slot keeps writes the literal. -/
def Slot.Writes : Slot → Literal → Prop
  | .kept t, l => t.Writes l
  | .mark _, _ => False

/-- The strings and numbers among the slots write the literals, one each and in order. -/
def WriteAll (slots : List Slot) (ls : List Literal) : Prop :=
  List.Forall₂ Slot.Writes (slots.filter fun slot => slot.kind.isLiteral) ls

/-- The strings among the kept tokens are texts in quotes. -/
def AllQuoted (slots : List Slot) : Prop :=
  ∀ t, .kept t ∈ slots → t.kind = .string → Scan.IsQuoted t.lexeme.toList

theorem AllQuoted.mono {slots slots' : List Slot} (h : AllQuoted slots)
    (hsub : ∀ slot ∈ slots', slot ∈ slots) : AllQuoted slots' :=
  fun t ht => h t (hsub _ ht)

namespace WriteAll

variable {slots slots' : List Slot} {ls ls' : List Literal}

theorem of_forall (h : ∀ slot ∈ slots, slot.kind.isLiteral = false) : WriteAll slots [] := by
  have hnil : slots.filter (fun slot => slot.kind.isLiteral) = [] := by
    rw [List.filter_eq_nil_iff]
    intro slot hslot
    simp [h slot hslot]
  rw [WriteAll, hnil]
  exact .nil

theorem append (h : WriteAll slots ls) (h' : WriteAll slots' ls') :
    WriteAll (slots ++ slots') (ls ++ ls') := by
  rw [WriteAll, List.filter_append]
  exact List.rel_append h h'

/-- A slot that is no literal. -/
theorem cons {slot : Slot} (hslot : slot.kind.isLiteral = false) (h : WriteAll slots ls) :
    WriteAll (slot :: slots) ls := by
  rw [WriteAll, List.filter_cons_of_neg (by simp [hslot])]
  exact h

/-- The slot of a literal. -/
theorem kept {t : Token} {l : Literal} (hkind : t.kind.isLiteral = true) (h : t.Writes l) :
    WriteAll [.kept t] [l] := by
  have hone : [Slot.kept t].filter (fun slot => slot.kind.isLiteral) = [.kept t] :=
    List.filter_cons_of_pos hkind
  rw [WriteAll, hone]
  exact .cons h .nil

theorem append_mark {k : Kind} (hk : k.isLiteral = false) (h : WriteAll slots ls) :
    WriteAll (slots ++ [.mark k]) ls := by
  have hmark : WriteAll [.mark k] [] := .cons hk .nil
  simpa using h.append hmark

/-- Parts with marks between them. -/
theorem joined {α β : Type} {k : Kind} (hk : k.isLiteral = false) {written : α → List Slot}
    {literals : β → List Literal} {as : List α} {bs : List β}
    (h : List.Forall₂ (fun a b => WriteAll (written a) (literals b)) as bs) :
    WriteAll (Tree.joined k (as.map written)) (bs.flatMap literals) := by
  induction h with
  | nil => exact .nil
  | @cons a b as bs hab has ih =>
      cases has with
      | nil => simpa using hab
      | cons _ _ =>
          rw [List.map_cons, List.map_cons, joined_cons_cons, List.flatMap_cons]
          exact hab.append (.cons hk ih)

/-- The tokens that fill the slots write the literals too. -/
theorem of_spells {ts : List Token} (h : WriteAll slots ls) (hts : Spells slots ts) :
    List.Forall₂ Token.Writes (ts.filter fun t => t.kind.isLiteral) ls := by
  induction hts generalizing ls with
  | nil =>
      cases h
      exact .nil
  | @cons slot t slots ts hslot _ ih =>
      have hkind := hslot.kind_eq
      cases hliteral : slot.kind.isLiteral with
      | false =>
          rw [List.filter_cons_of_neg (by simp [hkind, hliteral])]
          refine ih ?_
          rwa [WriteAll, List.filter_cons_of_neg (by simp [hliteral])] at h
      | true =>
          rw [List.filter_cons_of_pos (by simp [hkind, hliteral])]
          rw [WriteAll, List.filter_cons_of_pos (by simp [hliteral])] at h
          obtain ⟨l, ls, hwrites, hrest, rfl⟩ := List.forall₂_cons_left_iff.mp h
          refine .cons ?_ (ih hrest)
          cases slot with
          | kept u => exact hslot ▸ hwrites
          | mark k => cases hwrites

end WriteAll

/-! ## Literals of a tree -/

/-- The tokens of a path are words. -/
theorem Path.Grammatical.not_isLiteral {p : Path} (h : Path.Grammatical p) :
    ∀ slot ∈ Path.written p, slot.kind.isLiteral = false := by
  have hword : ∀ k : Kind, k = .identifier ∨ k.isKeyword = true → k.isLiteral = false := by
    intro k hk
    cases k <;> first | rfl | simp [Kind.isKeyword, Kind.isAggregate] at hk
  refine forall_mem_joined rfl (List.forall_mem_map.mpr fun t ht => ?_)
  simp only [List.forall_mem_singleton]
  cases p with
  | nil => cases h
  | cons u path =>
      rcases List.mem_cons.mp ht with rfl | ht
      · exact hword _ (h.1.imp_right Kind.isKeyword_of_isAggregate)
      · exact hword _ (h.2 t ht)

theorem Path.Grammatical.writeAll {p : Path} (h : Path.Grammatical p) :
    WriteAll (Path.written p) [] := .of_forall h.not_isLiteral

theorem Call.Grammatical.writeAll {c : Call} (h : c.Grammatical) : WriteAll c.written [] := by
  obtain ⟨hfunction, hargument⟩ := h
  have hname : c.function.kind.isLiteral = false := by
    generalize c.function.kind = k at hfunction
    cases k <;> first | rfl | cases hfunction
  refine .cons hname (.cons rfl (.append_mark rfl ?_))
  cases harg : c.argument with
  | none => exact .cons rfl .nil
  | some p =>
      rw [harg] at hargument
      exact Path.Grammatical.writeAll hargument

theorem call_literals {c : Call} {o : Operand} (h : call c = .ok o) : o.literals = [] := by
  rw [call] at h
  split at h
  · cases h
  · split at h
    · cases h
      rfl
    · split at h
      · cases h
        rfl
      · cases h

theorem selectable_literals {v : Selectable} {o : Operand} (h : selectable v = .ok o) :
    o.literals = [] := by
  cases v with
  | path p =>
      cases h
      rfl
  | call c => exact call_literals h

theorem selectable_writeAll {v : Selectable} (hv : v.Grammatical) {o : Operand}
    (h : selectable v = .ok o) : WriteAll v.written o.literals := by
  cases v with
  | path p =>
      cases h
      exact Path.Grammatical.writeAll hv
  | call c =>
      rw [call_literals h]
      exact Call.Grammatical.writeAll hv

theorem value_writeAll {v : Value} (hv : v.Grammatical) (hquoted : AllQuoted v.written)
    {o : Operand} (h : value v = .ok o) : WriteAll v.written o.literals := by
  cases v with
  | path p =>
      cases h
      exact Path.Grammatical.writeAll hv
  | call c =>
      rw [call_literals h]
      exact Call.Grammatical.writeAll hv
  | string t =>
      cases h
      have hkind : t.kind = .string := hv
      exact .kept (by rw [hkind]; rfl) (writes_string hkind (hquoted t List.mem_cons_self hkind))
  | number t =>
      obtain ⟨l, hl, rfl⟩ := map_eq_ok_iff.mp h
      have hkind : t.kind = .number := hv
      exact .kept (by rw [hkind]; rfl) (writes_number hkind hl)

/-- A test behind the slots of its left side. -/
theorem test_writeAll {left : Operand} {join : JoinKind} {t : Test} (ht : t.Grammatical)
    (hquoted : AllQuoted t.written) {c : Condition} (h : test left join t = .ok c)
    {slots : List Slot} (hleft : WriteAll slots left.literals) :
    WriteAll (slots ++ t.written) c.literals := by
  cases t with
  | compare operator v =>
      obtain ⟨o, -, h⟩ := bind_eq_ok_iff.mp h
      obtain ⟨right, hright, h⟩ := bind_eq_ok_iff.mp h
      cases h
      have hoperator : operator.kind.isLiteral = false := by
        have hkind : operator.kind.isComparison = true := ht.1
        generalize operator.kind = k at hkind
        cases k <;> first | rfl | cases hkind
      refine hleft.append (.cons hoperator (value_writeAll ht.2 (hquoted.mono ?_) hright))
      exact fun slot => List.mem_cons_of_mem _
  | isIn vs =>
      obtain ⟨os, hos, h⟩ := bind_eq_ok_iff.mp h
      cases h
      have hgood : ∀ v ∈ vs, v.Grammatical ∧ AllQuoted v.written := by
        refine fun v hv => ⟨ht.2 v hv, hquoted.mono fun slot hslot => ?_⟩
        refine List.mem_cons_of_mem _ (List.mem_cons_of_mem _ (List.mem_append_left _ ?_))
        exact mem_joined (List.mem_map_of_mem hv) hslot
      have hvalues := (List.forall₂_and_left vs os).mpr ⟨hgood, values_eq_ok_iff.mp hos⟩
      refine hleft.append (.cons rfl (.cons rfl (.append_mark rfl (.joined rfl ?_))))
      exact hvalues.imp fun v o hvo => value_writeAll hvo.1.1 hvo.1.2 hvo.2
  | between low high =>
      obtain ⟨a, ha, h⟩ := bind_eq_ok_iff.mp h
      obtain ⟨b, hb, h⟩ := bind_eq_ok_iff.mp h
      cases h
      have hlow := value_writeAll ht.1
        (hquoted.mono fun slot hslot => List.mem_cons_of_mem _ (List.mem_append_left _ hslot)) ha
      have hhigh := value_writeAll ht.2
        (hquoted.mono fun slot hslot => List.mem_cons_of_mem _
          (List.mem_append_right _ (List.mem_cons_of_mem _ hslot))) hb
      exact hleft.append (.cons rfl (hlow.append (.cons rfl hhigh)))
  | null =>
      cases h
      have hmarks : WriteAll (Test.written .null) [] := .of_forall (by decide)
      simpa [Condition.literals] using hleft.append hmarks
  | notNull =>
      cases h
      have hmarks : WriteAll (Test.written .notNull) [] := .of_forall (by decide)
      simpa [Condition.literals] using hleft.append hmarks

theorem comparison_writeAll {c : Comparison} (hc : c.Grammatical) (hquoted : AllQuoted c.written)
    {k : Condition} (h : comparison c = .ok k) : WriteAll c.written k.literals := by
  obtain ⟨hjoin, hleft, htest⟩ := hc
  obtain ⟨join, -, h⟩ := bind_eq_ok_iff.mp h
  obtain ⟨left, hl, h⟩ := bind_eq_ok_iff.mp h
  have hkeyword : WriteAll (c.join.toList.map .kept) [] := by
    refine .of_forall (List.forall_mem_map.mpr fun t ht => ?_)
    rcases hjoin t (Option.mem_toList.mp ht) with hkind | hkind <;> simp [Slot.kind, hkind] <;> rfl
  have hquoted' : AllQuoted c.test.written := hquoted.mono fun slot hslot =>
    List.mem_append_right _ (List.mem_append_right _ hslot)
  exact hkeyword.append (test_writeAll htest hquoted' h (selectable_writeAll hleft hl))

/-- The literals of a disjunction, if they are those of its terms. -/
theorem conjunctions_writeAll {d : Disjunction}
    (h : ∀ ps ∈ d, ∀ p ∈ ps, ∀ c, primary p = .ok c → WriteAll p.written c.literals)
    {cs : List Condition} (hcs : conjunctions d = .ok cs) :
    WriteAll (Disjunction.written d) (Condition.literalsOf cs) := by
  have hall := (List.forall₂_and_left d cs).mpr ⟨h, conjunctions_eq_ok_iff.mp hcs⟩
  rw [Condition.literalsOf_eq_flatMap]
  refine .joined rfl (hall.imp fun ps c ⟨hps, hc⟩ => ?_)
  obtain ⟨ks, hks, rfl⟩ := map_eq_ok_iff.mp hc
  have hterms := (List.forall₂_and_left ps ks).mpr ⟨hps, primaries_eq_ok_iff.mp hks⟩
  rw [Condition.literals, Condition.literalsOf_eq_flatMap]
  exact .joined rfl (hterms.imp fun p k hpk => hpk.1 k hpk.2)

theorem primary_writeAll {p : Primary} (hp : p.Grammatical) (hquoted : AllQuoted p.written)
    {c : Condition} (h : primary p = .ok c) : WriteAll p.written c.literals := by
  induction hp generalizing c with
  | comparison hc =>
      rw [primary] at h
      rw [Primary.written_comparison] at hquoted ⊢
      exact comparison_writeAll hc hquoted h
  | @group d _ _ _ ih =>
      -- the parentheses are marks
      rw [primary] at h
      rw [Primary.written_group] at hquoted ⊢
      obtain ⟨cs, hcs, rfl⟩ := map_eq_ok_iff.mp h
      refine .cons rfl (.append_mark rfl (conjunctions_writeAll ?_ hcs))
      refine fun ps hps p hp k hk => ih ps hps p hp (hquoted.mono fun slot hslot => ?_) hk
      exact List.mem_cons_of_mem _ (List.mem_append_left _ (Disjunction.mem_written hps hp hslot))

theorem condition_writeAll {d : Disjunction} (hd : Disjunction.Grammatical d)
    (hquoted : AllQuoted (Disjunction.written d)) {c : Condition} (h : condition d = .ok c) :
    WriteAll (Disjunction.written d) c.literals := by
  obtain ⟨cs, hcs, rfl⟩ := condition_eq_ok_iff.mp h
  refine conjunctions_writeAll (fun ps hps p hp k hk => ?_) hcs
  exact primary_writeAll (hd.inner ps hps p hp)
    (hquoted.mono fun slot => Disjunction.mem_written hps hp) hk

/-- Paths and calls are no literals. -/
theorem selectables_literals {vs : List Selectable} {os : List Operand}
    (h : selectables vs = .ok os) : os.flatMap Operand.literals = [] := by
  induction vs generalizing os with
  | nil =>
      cases h
      rfl
  | cons v vs ih =>
      obtain ⟨o, ho, h⟩ := bind_eq_ok_iff.mp h
      obtain ⟨others, hothers, h⟩ := bind_eq_ok_iff.mp h
      cases h
      rw [List.flatMap_cons, selectable_literals ho, ih hothers, List.append_nil]

theorem grouping?_literals {items : Option (List Selectable)} {os : Option (List Operand)}
    (h : grouping? items = .ok os) : (os.getD []).flatMap Operand.literals = [] := by
  cases items with
  | none =>
      cases h
      rfl
  | some vs =>
      obtain ⟨os, hos, rfl⟩ := map_eq_ok_iff.mp h
      exact selectables_literals hos

theorem grouping?_writeAll {items : Option (List Selectable)}
    (hitems : ∀ vs ∈ items, ∀ v ∈ vs, v.Grammatical) {os : Option (List Operand)}
    (h : grouping? items = .ok os) :
    WriteAll (groupingWritten items) ((os.getD []).flatMap Operand.literals) := by
  cases items with
  | none =>
      cases h
      exact .nil
  | some vs =>
      obtain ⟨os, hos, rfl⟩ := map_eq_ok_iff.mp h
      have hall := (List.forall₂_and_left vs os).mpr ⟨hitems vs rfl, selectables_eq_ok_iff.mp hos⟩
      refine .cons rfl (.cons rfl (.joined rfl ?_))
      exact hall.imp fun v o hvo => selectable_writeAll hvo.1 hvo.2

theorem condition?_writeAll {d : Option Disjunction} (hd : ∀ e ∈ d, Disjunction.Grammatical e)
    (hquoted : AllQuoted (havingWritten d)) {c : Option Condition} (h : condition? d = .ok c) :
    WriteAll (havingWritten d) (c.toList.flatMap Condition.literals) := by
  cases d with
  | none =>
      cases h
      exact .nil
  | some d =>
      obtain ⟨c, hc, rfl⟩ := map_eq_ok_iff.mp h
      have hquoted' : AllQuoted (Disjunction.written d) :=
        hquoted.mono fun slot => List.mem_cons_of_mem _
      have hclause : WriteAll (.mark .having :: Disjunction.written d) c.literals :=
        .cons rfl (condition_writeAll (hd d rfl) hquoted' hc)
      simpa [havingWritten] using hclause

/-- **The literals of a tree** are those of the query that it is built into. -/
theorem root_writeAll {r : Root} (hr : r.Grammatical) (hquoted : AllQuoted r.written) {q : Query}
    (h : Query.ofTree r = .ok q) : WriteAll r.written q.literals := by
  obtain ⟨hcondition, hhaving, hgrouping⟩ := ofTree_eq_ok_iff.mp h
  refine (condition_writeAll hr.condition (hquoted.mono ?_) hcondition).append
    ((grouping?_writeAll (fun vs hvs => (hr.grouping vs hvs).2) hgrouping).append
      (condition?_writeAll hr.having (hquoted.mono ?_) hhaving))
  · exact fun slot => List.mem_append_left _
  · exact fun slot hslot => List.mem_append_right _ (List.mem_append_right _ hslot)

end Tree

/-! ## Literals of a text -/

/-- The strings and numbers of a text, in their order. -/
def Scan.literals (s : String) : List Token := (tokens s).filter fun t => t.kind.isLiteral

theorem Scan.literals_eq (s : String) : literals s = (body s).filter fun t => t.kind.isLiteral := by
  rw [literals, tokens_eq, List.filter_append]
  exact List.append_nil _

/-- The scanner takes only quoted texts for strings. -/
theorem Tree.allQuoted_of_spells {slots : List Tree.Slot} {s : String}
    (h : Tree.Spells slots (Scan.body s)) : Tree.AllQuoted slots := by
  intro t ht hkind
  have hlexeme := Scan.isLexeme_of_mem_body (h.mem_of_kept ht)
  rw [hkind] at hlexeme
  exact hlexeme

/-- **The literals of a query are those of its text**: each string and number of the text writes one
of them, in the same order, and there are no others. Items to group by are no literals. -/
theorem Query.writes_of_ofText {s : String} {q : Query} (h : Query.ofText s = .ok q) :
    List.Forall₂ Token.Writes (Scan.literals s) q.literals ∧ q.groupingLiterals = [] := by
  rw [Scan.literals_eq]
  rcases spelled_of_ofText h with ⟨hblank, rfl⟩ | ⟨root, hroot, hspells, hbuilt⟩
  · rw [Scan.body_of_isBlankText hblank]
    exact ⟨.nil, rfl⟩
  · have hquoted := Tree.allQuoted_of_spells hspells
    obtain ⟨-, -, hgrouping⟩ := Tree.ofTree_eq_ok_iff.mp hbuilt
    exact ⟨(Tree.root_writeAll hroot.grammatical hquoted hbuilt).of_spells hspells,
      Tree.grouping?_literals hgrouping⟩

end FilterQuery
