import FilterQuery.Tree
import FilterQuery.Text.Number
import Mathlib.Data.List.Forall2
import Mathlib.Tactic.MkIffOfInductiveProp

/-!
# Written trees

A parse tree keeps some of the tokens it was read from and leaves out those that only separate or
enclose. Writing a tree gives a list of slots: a `Slot` is a kept token, or a mark that any token
of its kind may fill. `Spells slots ts` says that the tokens `ts` fill the slots one by one, so
`Spells root.written ts` says that `ts` is a way to write the tree.

`Root.WellFormed` collects what the grammar asks of a tree beyond its type: lists are not empty,
kept tokens have the kinds of their places, groups do not nest too deep and numbers are in range.
-/

set_option autoImplicit false

namespace FilterQuery.Tree

/-! ## Slots -/

/-- A place in a written tree: a token that the tree keeps, or a mark that it leaves out. -/
inductive Slot where
  | kept (t : Token)
  | mark (k : Kind)
  deriving DecidableEq, Repr

namespace Slot

/-- A kept token fills its own slot, and any token of its kind fills a mark. -/
def FilledBy : Slot → Token → Prop
  | .kept u, t => t = u
  | .mark k, t => t.kind = k

instance : DecidableRel FilledBy
  | .kept u, t => inferInstanceAs (Decidable (t = u))
  | .mark k, t => inferInstanceAs (Decidable (t.kind = k))

/-- The kind of the tokens that fill a slot. -/
def kind : Slot → Kind
  | .kept t => t.kind
  | .mark k => k

theorem FilledBy.kind_eq {slot : Slot} {t : Token} (h : slot.FilledBy t) : t.kind = slot.kind := by
  cases slot with
  | kept u => exact congrArg Token.kind h
  | mark k => exact h

end Slot

/-- The tokens fill the slots one by one. -/
abbrev Spells (slots : List Slot) (ts : List Token) : Prop := List.Forall₂ Slot.FilledBy slots ts

instance decidableSpells : DecidableRel Spells
  | [], [] => isTrue .nil
  | [], _ :: _ => isFalse nofun
  | _ :: _, [] => isFalse nofun
  | slot :: slots, t :: ts =>
      have : Decidable (Spells slots ts) := decidableSpells slots ts
      decidable_of_iff (slot.FilledBy t ∧ Spells slots ts) List.forall₂_cons.symm

theorem spells_nil_iff {ts : List Token} : Spells [] ts ↔ ts = [] := List.forall₂_nil_left_iff

theorem spells_kept_iff {t : Token} {slots : List Slot} {ts : List Token} :
    Spells (.kept t :: slots) ts ↔ ∃ rest, ts = t :: rest ∧ Spells slots rest := by
  constructor
  · intro h
    obtain ⟨u, rest, hu, hrest, rfl⟩ := List.forall₂_cons_left_iff.mp h
    exact ⟨rest, congrArg (· :: rest) hu, hrest⟩
  · rintro ⟨rest, rfl, hrest⟩
    exact .cons rfl hrest

theorem spells_mark_iff {k : Kind} {slots : List Slot} {ts : List Token} :
    Spells (.mark k :: slots) ts ↔
      ∃ t rest, ts = t :: rest ∧ t.kind = k ∧ Spells slots rest := by
  constructor
  · intro h
    obtain ⟨u, rest, hu, hrest, rfl⟩ := List.forall₂_cons_left_iff.mp h
    exact ⟨u, rest, rfl, hu, hrest⟩
  · rintro ⟨t, rest, rfl, ht, hrest⟩
    exact .cons ht hrest

theorem spells_append_iff {a b : List Slot} {ts : List Token} :
    Spells (a ++ b) ts ↔ ∃ t₁ t₂, ts = t₁ ++ t₂ ∧ Spells a t₁ ∧ Spells b t₂ := by
  constructor
  · intro h
    induction a generalizing ts with
    | nil => exact ⟨[], ts, rfl, .nil, h⟩
    | cons slot a ih =>
        obtain ⟨t, rest, hslot, hrest, rfl⟩ := List.forall₂_cons_left_iff.mp h
        obtain ⟨t₁, t₂, rfl, h₁, h₂⟩ := ih hrest
        exact ⟨t :: t₁, t₂, rfl, .cons hslot h₁, h₂⟩
  · rintro ⟨t₁, t₂, rfl, h₁, h₂⟩
    exact List.rel_append h₁ h₂

/-- A kept token is one of the tokens that spell the tree. -/
theorem Spells.mem_of_kept {slots : List Slot} {ts : List Token} (h : Spells slots ts) {t : Token}
    (ht : .kept t ∈ slots) : t ∈ ts := by
  induction h with
  | nil => cases ht
  | cons hslot _ ih =>
      rcases List.mem_cons.mp ht with rfl | ht
      · exact List.mem_cons.mpr (.inl hslot.symm)
      · exact List.mem_cons_of_mem _ (ih ht)

theorem Spells.exists_slot {slots : List Slot} {ts : List Token} (h : Spells slots ts) {t : Token}
    (ht : t ∈ ts) : ∃ slot ∈ slots, slot.FilledBy t := by
  induction h with
  | nil => cases ht
  | cons hslot _ ih =>
      rcases List.mem_cons.mp ht with rfl | ht
      · exact ⟨_, List.mem_cons_self, hslot⟩
      · obtain ⟨slot, hmem, hfills⟩ := ih ht
        exact ⟨slot, List.mem_cons_of_mem _ hmem, hfills⟩

/-- Parts with a mark of one kind between neighbours. -/
def joined (separator : Kind) (parts : List (List Slot)) : List Slot :=
  [Slot.mark separator].intercalate parts

@[simp] theorem joined_singleton (k : Kind) (part : List Slot) : joined k [part] = part := by
  simp [joined]

@[simp] theorem joined_cons_cons (k : Kind) (part next : List Slot) (parts : List (List Slot)) :
    joined k (part :: next :: parts) = part ++ .mark k :: joined k (next :: parts) := by
  simp [joined, List.intercalate_cons_cons]

theorem joined_cons_eq (k : Kind) (part : List Slot) (parts : List (List Slot)) :
    ∃ rest, joined k (part :: parts) = part ++ rest := by
  cases parts with
  | nil => exact ⟨[], by simp⟩
  | cons next parts => exact ⟨_, joined_cons_cons k part next parts⟩

/-- Two lists of parts with one mark between them. -/
theorem joined_append (k : Kind) {parts others : List (List Slot)} (h : parts ≠ [])
    (h' : others ≠ []) :
    joined k (parts ++ others) = joined k parts ++ .mark k :: joined k others := by
  obtain ⟨other, others, rfl⟩ := List.exists_cons_of_ne_nil h'
  induction parts with
  | nil => exact absurd rfl h
  | cons part parts ih =>
      cases parts with
      | nil => simp
      | cons next parts =>
          have ih := ih (List.cons_ne_nil _ _)
          simp only [List.cons_append, joined_cons_cons, List.append_assoc] at ih ⊢
          rw [ih]

/-- The last of some parts runs into the first of others. -/
theorem joined_fuse (k : Kind) (parts others : List (List Slot)) (part other : List Slot) :
    joined k (parts ++ (part ++ other) :: others) =
      joined k (parts ++ [part]) ++ joined k (other :: others) := by
  have hfirst : joined k ((part ++ other) :: others) = part ++ joined k (other :: others) := by
    cases others with
    | nil => simp
    | cons next others => simp
  cases parts with
  | nil => simpa using hfirst
  | cons first parts =>
      rw [joined_append k (List.cons_ne_nil _ _) (List.cons_ne_nil _ _),
        joined_append k (List.cons_ne_nil _ _) (List.cons_ne_nil _ _), hfirst]
      simp

theorem joined_cons_slot (k : Kind) (slot : Slot) (part : List Slot) (others : List (List Slot)) :
    joined k ((slot :: part) :: others) = slot :: joined k (part :: others) := by
  simpa using joined_fuse k [] others [slot] part

theorem forall_mem_joined {P : Slot → Prop} {k : Kind} {parts : List (List Slot)}
    (hmark : P (.mark k)) (hparts : ∀ part ∈ parts, ∀ slot ∈ part, P slot) :
    ∀ slot ∈ joined k parts, P slot := by
  match parts with
  | [] => nofun
  | [part] => simpa using hparts
  | part :: next :: parts =>
      obtain ⟨hpart, hrest⟩ := List.forall_mem_cons.mp hparts
      rw [joined_cons_cons]
      refine List.forall_mem_append.mpr ⟨hpart, List.forall_mem_cons.mpr ⟨hmark, ?_⟩⟩
      exact forall_mem_joined hmark hrest

theorem mem_joined {k : Kind} {parts : List (List Slot)} {part : List Slot} (hpart : part ∈ parts)
    {slot : Slot} (hslot : slot ∈ part) : slot ∈ joined k parts := by
  induction parts with
  | nil => cases hpart
  | cons first parts ih =>
      rcases List.mem_cons.mp hpart with rfl | hpart
      · obtain ⟨rest, hrest⟩ := joined_cons_eq k part parts
        rw [hrest]
        exact List.mem_append_left _ hslot
      · obtain ⟨next, parts, rfl⟩ := List.exists_cons_of_ne_nil (List.ne_nil_of_mem hpart)
        rw [joined_cons_cons]
        exact List.mem_append_right _ (List.mem_cons_of_mem _ (ih hpart))

/-- There is a mark between two parts, whatever they are. -/
theorem length_le_joined (k : Kind) (parts : List (List Slot)) :
    parts.length ≤ (joined k parts).length + 1 := by
  match parts with
  | [] => exact Nat.zero_le _
  | [part] => simp
  | part :: next :: parts =>
      have ih := length_le_joined k (next :: parts)
      rw [joined_cons_cons]
      simp only [List.length_cons, List.length_append] at ih ⊢
      omega

/-! ## Values over the terms of a condition -/

namespace Primary

/-- Induction over terms: a group has the hypothesis for each term in it. -/
theorem rec' {P : Primary → Prop} (comparison : ∀ c, P (.comparison c))
    (group : ∀ d : Disjunction, (∀ c ∈ d, ∀ p ∈ c, P p) → P (.group d)) : ∀ p, P p
  | .comparison c => comparison c
  | .group d => group d fun c hc p hp =>
      have _hlt : sizeOf p < sizeOf d :=
        Nat.lt_trans (List.sizeOf_lt_of_mem hp) (List.sizeOf_lt_of_mem hc)
      rec' comparison group p
  termination_by p => sizeOf p
  decreasing_by
    simp only [Primary.group.sizeOf_spec]
    omega

mutual

/-- A value of a term, put together from the values of the terms inside it. -/
def fold {β : Type} (group : List (List β) → β) (comparison : Comparison → β) : Primary → β
  | .group inner => group (foldConjunctions group comparison inner)
  | .comparison c => comparison c

/-- The values of the terms of a conjunction. -/
def foldTerms {β : Type} (group : List (List β) → β) (comparison : Comparison → β) :
    List Primary → List β
  | [] => []
  | p :: ps => p.fold group comparison :: foldTerms group comparison ps

/-- The values of the terms of a disjunction. -/
def foldConjunctions {β : Type} (group : List (List β) → β) (comparison : Comparison → β) :
    List (List Primary) → List (List β)
  | [] => []
  | ps :: pss => foldTerms group comparison ps :: foldConjunctions group comparison pss

end

section

variable {β : Type} (group : List (List β) → β) (comparison : Comparison → β)

theorem foldTerms_eq_map (ps : List Primary) :
    foldTerms group comparison ps = ps.map (fold group comparison) := by
  induction ps with
  | nil => rfl
  | cons p ps ih => rw [foldTerms, ih, List.map_cons]

theorem foldConjunctions_eq_map (d : List (List Primary)) :
    foldConjunctions group comparison d = d.map fun c => c.map (fold group comparison) := by
  induction d with
  | nil => rfl
  | cons c d ih => rw [foldConjunctions, ih, foldTerms_eq_map, List.map_cons]

theorem fold_group (d : List (List Primary)) :
    fold group comparison (.group d) = group (d.map fun c => c.map (fold group comparison)) := by
  rw [fold, foldConjunctions_eq_map]

theorem fold_comparison (c : Comparison) :
    fold group comparison (.comparison c) = comparison c := by
  rw [fold]

end

end Primary

/-! ## Writing a tree -/

/-- A path: its tokens, with dots between them. -/
def Path.written (p : Path) : List Slot := joined .dot (p.map fun t => [.kept t])

/-- The slots of a path after its first token. -/
def Path.segmentsWritten (path : Path) : List Slot := path.flatMap fun u => [.mark .dot, .kept u]

theorem Path.segmentsWritten_cons (u : Token) (path : Path) :
    segmentsWritten (u :: path) = .mark .dot :: .kept u :: segmentsWritten path := rfl

theorem Path.written_cons (t : Token) (path : Path) :
    written (t :: path) = .kept t :: segmentsWritten path := by
  induction path generalizing t with
  | nil => simp [written, segmentsWritten]
  | cons u path ih =>
      have h := ih u
      simp only [written, List.map_cons, joined_cons_cons] at h ⊢
      rw [h]
      rfl

/-- The argument of a call; a missing one is a star. -/
def Call.argumentWritten : Option Path → List Slot
  | some p => Path.written p
  | none => [.mark .star]

/-- A call: the name of its function and the argument in parentheses. -/
def Call.written (c : Call) : List Slot :=
  .kept c.function :: .mark .leftParen :: (argumentWritten c.argument ++ [.mark .rightParen])

/-- A path or a call. -/
def Selectable.written : Selectable → List Slot
  | .path p => Path.written p
  | .call c => c.written

/-- A path, a call, or the one token of a literal. -/
def Value.written : Value → List Slot
  | .path p => Path.written p
  | .call c => c.written
  | .string t | .number t => [.kept t]

/-- What stands after the left side of a comparison. -/
def Test.written : Test → List Slot
  | .compare operator value => .kept operator :: value.written
  | .isIn values =>
      .mark .isIn :: .mark .leftParen :: (joined .comma (values.map Value.written) ++
        [.mark .rightParen])
  | .between low high => .mark .between :: (low.written ++ .mark .and :: high.written)
  | .null => [.mark .is, .mark .null]
  | .notNull => [.mark .is, .mark .not, .mark .null]

/-- A comparison, after the keyword of its join if it has one. -/
def Comparison.written (c : Comparison) : List Slot :=
  c.join.toList.map .kept ++ (c.left.written ++ c.test.written)

/-- Conjunctions from the slots of their terms. -/
def conjunctionsWritten (d : List (List (List Slot))) : List Slot :=
  joined .or (d.map (joined .and))

/-- A term: a comparison, or a disjunction in parentheses. -/
def Primary.written : Primary → List Slot :=
  fold (fun inner => .mark .leftParen :: (conjunctionsWritten inner ++ [.mark .rightParen]))
    Comparison.written

/-- A conjunction: its terms, with `AND` between them. -/
def Conjunction.written (c : Conjunction) : List Slot := joined .and (c.map Primary.written)

/-- A disjunction: its conjunctions, with `OR` between them. -/
def Disjunction.written (d : Disjunction) : List Slot := joined .or (d.map Conjunction.written)

theorem Primary.written_group (d : Disjunction) :
    written (.group d) = .mark .leftParen :: (Disjunction.written d ++ [.mark .rightParen]) := by
  rw [written, fold_group, conjunctionsWritten, List.map_map]
  rfl

theorem Primary.written_comparison (c : Comparison) : written (.comparison c) = c.written :=
  fold_comparison _ _ c

/-- The items after `GROUP BY`, with commas between them. -/
def groupingWritten : Option (List Selectable) → List Slot
  | none => []
  | some items => .mark .group :: .mark .by :: joined .comma (items.map Selectable.written)

/-- The condition after `HAVING`. -/
def havingWritten : Option Disjunction → List Slot
  | none => []
  | some d => .mark .having :: Disjunction.written d

/-- A whole query. -/
def Root.written (r : Root) : List Slot :=
  Disjunction.written r.condition ++ (groupingWritten r.grouping ++ havingWritten r.having)

/-! ## What the grammar asks of a tree -/

/-- A path starts with an identifier or the name of an aggregate function; identifiers and keywords
follow. -/
def Path.Grammatical : Path → Prop
  | [] => False
  | t :: ts =>
      (t.kind = .identifier ∨ t.kind.isAggregate) ∧
        ∀ u ∈ ts, u.kind = .identifier ∨ u.kind.isKeyword

/-- A call names an aggregate function; only `COUNT` is called without a path. -/
def Call.Grammatical (c : Call) : Prop :=
  c.function.kind.isAggregate ∧
    match c.argument with
    | some p => Path.Grammatical p
    | none => c.function.kind = .count

/-- The path or the call is grammatical. -/
def Selectable.Grammatical : Selectable → Prop
  | .path p => Path.Grammatical p
  | .call c => c.Grammatical

/-- The parts of the value are grammatical, and a literal is a token of its kind. -/
def Value.Grammatical : Value → Prop
  | .path p => Path.Grammatical p
  | .call c => c.Grammatical
  | .string t => t.kind = .string
  | .number t => t.kind = .number

/-- The operator is one that compares two values, and a list after `IN` has values. -/
def Test.Grammatical : Test → Prop
  | .compare operator value => operator.kind.isComparison ∧ value.Grammatical
  | .isIn values => values ≠ [] ∧ ∀ v ∈ values, v.Grammatical
  | .between low high => low.Grammatical ∧ high.Grammatical
  | .null | .notNull => True

/-- The keyword of a join, if there is one, is `LEFT` or `RIGHT`. -/
def Comparison.Grammatical (c : Comparison) : Prop :=
  (∀ t ∈ c.join, t.kind = .left ∨ t.kind = .right) ∧ c.left.Grammatical ∧ c.test.Grammatical

/-- Every group holds a conjunction, and every conjunction in it a term. -/
inductive Primary.Grammatical : Primary → Prop where
  | comparison {c : Comparison} (h : c.Grammatical) : Grammatical (.comparison c)
  | group {d : Disjunction} (nonempty : d ≠ []) (terms : ∀ c ∈ d, c ≠ [])
      (inner : ∀ c ∈ d, ∀ p ∈ c, Grammatical p) : Grammatical (.group d)

/-- There is a conjunction, and every conjunction has a term. -/
@[mk_iff]
structure Disjunction.Grammatical (d : Disjunction) : Prop where
  nonempty : d ≠ []
  terms : ∀ c ∈ d, c ≠ []
  inner : ∀ c ∈ d, ∀ p ∈ c, p.Grammatical

/-- The clauses are grammatical, and `GROUP BY` has items. -/
@[mk_iff]
structure Root.Grammatical (r : Root) : Prop where
  condition : Disjunction.Grammatical r.condition
  grouping : ∀ items ∈ r.grouping, items ≠ [] ∧ ∀ item ∈ items, item.Grammatical
  having : ∀ d ∈ r.having, Disjunction.Grammatical d

theorem Primary.grammatical_comparison_iff {c : Comparison} :
    Grammatical (.comparison c) ↔ c.Grammatical :=
  ⟨fun | .comparison h => h, .comparison⟩

theorem Primary.grammatical_group_iff {d : Disjunction} :
    Grammatical (.group d) ↔ Disjunction.Grammatical d :=
  ⟨fun | .group h₁ h₂ h₃ => ⟨h₁, h₂, h₃⟩, fun h => .group h.nonempty h.terms h.inner⟩

/-! ## No end mark -/

/-- No slot stands for the end mark. -/
def EndFree (slots : List Slot) : Prop := ∀ slot ∈ slots, slot.kind ≠ .eof

theorem EndFree.append {a b : List Slot} (ha : EndFree a) (hb : EndFree b) : EndFree (a ++ b) :=
  List.forall_mem_append.mpr ⟨ha, hb⟩

theorem EndFree.cons {slot : Slot} {slots : List Slot} (h : slot.kind ≠ .eof)
    (hslots : EndFree slots) : EndFree (slot :: slots) := List.forall_mem_cons.mpr ⟨h, hslots⟩

/-- A kept token of a kind that is in a class without the end mark. -/
theorem EndFree.kept {t : Token} (inClass : Kind → Bool) (h : inClass t.kind = true)
    (heof : inClass .eof = false) : EndFree [.kept t] := by
  refine .cons (fun hkind => ?_) nofun
  have hkind : t.kind = .eof := hkind
  rw [hkind, heof] at h
  cases h

theorem Path.Grammatical.endFree {p : Path} (h : Path.Grammatical p) :
    EndFree (Path.written p) := by
  match p, h with
  | t :: path, ⟨ht, hpath⟩ =>
      have hfirst : EndFree [.kept t] :=
        .kept (fun k => k == .identifier || k.isAggregate) (by simpa using ht) rfl
      rw [Path.written_cons]
      refine hfirst.append fun slot hslot => ?_
      obtain ⟨u, hu, hslot⟩ := List.mem_flatMap.mp hslot
      have hsegment : EndFree [.kept u] :=
        .kept (fun k => k == .identifier || k.isKeyword) (by simpa using hpath u hu) rfl
      -- a segment stands behind its dot
      have hdotted : EndFree [.mark .dot, .kept u] := .cons nofun hsegment
      exact hdotted slot hslot

theorem Call.Grammatical.endFree {c : Call} (h : c.Grammatical) : EndFree c.written := by
  obtain ⟨hfunction, hargument⟩ := h
  have hend : EndFree (Call.argumentWritten c.argument ++ [.mark .rightParen]) := by
    refine .append ?_ (.cons nofun nofun)
    cases harg : c.argument with
    | none => exact .cons nofun nofun
    | some p =>
        rw [harg] at hargument
        exact Path.Grammatical.endFree hargument
  exact (EndFree.kept Kind.isAggregate hfunction rfl).append (.cons nofun hend)

theorem Selectable.Grammatical.endFree {v : Selectable} (h : v.Grammatical) :
    EndFree v.written := by
  cases v with
  | path p => exact Path.Grammatical.endFree h
  | call c => exact Call.Grammatical.endFree h

theorem Value.Grammatical.endFree {v : Value} (h : v.Grammatical) : EndFree v.written := by
  cases v with
  | path p => exact Path.Grammatical.endFree h
  | call c => exact Call.Grammatical.endFree h
  | string t => exact .kept (· == .string) (beq_iff_eq.mpr h) rfl
  | number t => exact .kept (· == .number) (beq_iff_eq.mpr h) rfl

theorem Test.Grammatical.endFree {test : Test} (h : test.Grammatical) : EndFree test.written := by
  cases test with
  | compare operator value =>
      exact (EndFree.kept Kind.isComparison h.1 rfl).append (Value.Grammatical.endFree h.2)
  | isIn values =>
      have hvalues : EndFree (joined .comma (values.map Value.written)) :=
        forall_mem_joined nofun (List.forall_mem_map.mpr fun v hv => (h.2 v hv).endFree)
      exact .cons nofun (.cons nofun (hvalues.append (.cons nofun nofun)))
  | between low high => exact .cons nofun (h.1.endFree.append (.cons nofun h.2.endFree))
  | null => exact .cons nofun (.cons nofun nofun)
  | notNull => exact .cons nofun (.cons nofun (.cons nofun nofun))

theorem Comparison.Grammatical.endFree {c : Comparison} (h : c.Grammatical) :
    EndFree c.written := by
  obtain ⟨hjoin, hleft, htest⟩ := h
  refine EndFree.append ?_ (hleft.endFree.append htest.endFree)
  cases hj : c.join with
  | none => nofun
  | some t =>
      have ht : t.kind = .left ∨ t.kind = .right := hjoin t hj
      exact .kept (fun k => k == .left || k == .right) (by simpa using ht) rfl

theorem Disjunction.endFree {d : Disjunction}
    (h : ∀ c ∈ d, ∀ p ∈ c, EndFree (Primary.written p)) : EndFree (Disjunction.written d) :=
  forall_mem_joined nofun <| List.forall_mem_map.mpr fun c hc =>
    forall_mem_joined nofun <| List.forall_mem_map.mpr (h c hc)

theorem Primary.Grammatical.endFree {p : Primary} (h : p.Grammatical) : EndFree p.written := by
  induction h with
  | comparison hc =>
      rw [Primary.written_comparison]
      exact hc.endFree
  | group _ _ _ ih =>
      rw [Primary.written_group]
      exact .cons nofun ((Disjunction.endFree ih).append (.cons nofun nofun))

/-- The end mark is no part of a query. -/
theorem Root.Grammatical.endFree {r : Root} (h : r.Grammatical) : EndFree r.written := by
  have hcondition : ∀ d, Disjunction.Grammatical d → EndFree (Disjunction.written d) :=
    fun d hd => Disjunction.endFree fun c hc p hp => (hd.inner c hc p hp).endFree
  refine (hcondition _ h.condition).append (.append ?_ ?_)
  · cases hgrouping : r.grouping with
    | none => nofun
    | some items =>
        have hitems := (h.grouping items hgrouping).2
        exact .cons nofun (.cons nofun (forall_mem_joined nofun
          (List.forall_mem_map.mpr fun item hitem => (hitems item hitem).endFree)))
  · cases hhaving : r.having with
    | none => nofun
    | some d => exact .cons nofun (hcondition d (h.having d hhaving))

/-! ## Nesting -/

/-- The number of groups around the innermost part of a term. -/
def Primary.nesting : Primary → Nat :=
  fold (fun inner => inner.flatten.foldr max 0 + 1) (fun _ => 0)

/-- The deepest nesting of a term of a disjunction. -/
def Disjunction.nesting (d : Disjunction) : Nat := (d.flatten.map Primary.nesting).foldr max 0

/-- The deepest nesting in one of the conditions. -/
def Root.nesting (r : Root) : Nat :=
  max (Disjunction.nesting r.condition) ((r.having.map Disjunction.nesting).getD 0)

theorem Primary.nesting_group (d : Disjunction) :
    nesting (.group d) = Disjunction.nesting d + 1 := by
  rw [nesting, fold_group, ← List.map_flatten]
  rfl

@[simp] theorem Primary.nesting_comparison (c : Comparison) : nesting (.comparison c) = 0 :=
  fold_comparison _ _ c

theorem Disjunction.nesting_le_iff {d : Disjunction} {n : Nat} :
    nesting d ≤ n ↔ ∀ c ∈ d, ∀ p ∈ c, p.nesting ≤ n := by
  -- a bound of the largest is a bound of all
  have key : ∀ ns : List Nat, ns.foldr max 0 ≤ n ↔ ∀ m ∈ ns, m ≤ n := by
    intro ns
    induction ns with
    | nil => simp
    | cons m ns ih => simp only [List.foldr_cons, Nat.max_le, ih, List.forall_mem_cons]
  rw [nesting, key, List.forall_mem_map]
  simp only [List.mem_flatten]
  constructor
  · intro h c hc p hp
    exact h p ⟨c, hc, hp⟩
  · rintro h p ⟨c, hc, hp⟩
    exact h c hc p hp

/-! ## Numbers -/

/-- A lexeme with a point reads as a finite double, one without as a 64-bit integer. -/
def InRange (lexeme : String) : Prop :=
  if '.' ∈ lexeme.toList then ∃ x, Text.readDecimal? lexeme = some x ∧ x.isFinite
  else ∃ n, Text.readInteger lexeme = .ok n

/-- A slot that keeps a number keeps one in range. -/
def Slot.InRange : Slot → Prop
  | .kept t => t.kind = .number → Tree.InRange t.lexeme
  | .mark _ => True

/-- **The trees of the language**: grammatical, with groups nested at most `depth` deep and every
number in range. -/
structure Root.WellFormed (depth : Nat) (r : Root) : Prop where
  grammatical : r.Grammatical
  nesting_le : r.nesting ≤ depth
  inRange : ∀ slot ∈ r.written, slot.InRange

end FilterQuery.Tree
