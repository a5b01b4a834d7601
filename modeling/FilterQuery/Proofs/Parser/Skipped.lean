import FilterQuery.Proofs.Tree.Written
import FilterQuery.Tree.Parse

/-!
# Skipped groups

A group that is too deep is skipped: the parser counts parentheses until the one that closes the
group (`afterGroup`). Slots are `Balanced` if this count is after them what it was before, whatever
tokens spell them. Every part of a grammatical tree is balanced, although its parentheses may belong
to groups, to calls and to lists, so skipping ends right behind the group
(`afterGroup_of_spells`).
-/

set_option autoImplicit false

namespace FilterQuery.Parser

open FilterQuery.Tree

/-! ## Counting parentheses -/

section

variable {t : Token} {n : Nat} {ts : List Token}

theorem afterGroup_leftParen (h : t.kind = .leftParen) :
    afterGroup n (t :: ts) = afterGroup (n + 1) ts := by
  cases n <;> simp [afterGroup, h]

theorem afterGroup_rightParen_zero (h : t.kind = .rightParen) : afterGroup 0 (t :: ts) = ts := by
  simp [afterGroup, h]

theorem afterGroup_rightParen_succ (h : t.kind = .rightParen) :
    afterGroup (n + 1) (t :: ts) = afterGroup n ts := by
  simp [afterGroup, h]

theorem afterGroup_other (hleft : t.kind ≠ .leftParen) (hright : t.kind ≠ .rightParen) :
    afterGroup n (t :: ts) = afterGroup n ts := by
  cases n <;> simp [afterGroup, hleft, hright]

end

/-! ## Balanced slots -/

/-- After the slots as many groups are open as before. -/
def Balanced (slots : List Slot) : Prop :=
  ∀ n ts rest, Spells slots ts → afterGroup n (ts ++ rest) = afterGroup n rest

namespace Balanced

variable {slots a b : List Slot}

theorem nil : Balanced [] := by
  intro n ts rest hts
  rw [spells_nil_iff.mp hts, List.nil_append]

theorem append (ha : Balanced a) (hb : Balanced b) : Balanced (a ++ b) := by
  intro n ts rest hts
  obtain ⟨t₁, t₂, rfl, h₁, h₂⟩ := spells_append_iff.mp hts
  rw [List.append_assoc, ha n t₁ _ h₁, hb n t₂ _ h₂]

theorem single {slot : Slot} (hleft : slot.kind ≠ .leftParen) (hright : slot.kind ≠ .rightParen) :
    Balanced [slot] := by
  intro n ts rest hts
  obtain ⟨t, us, ht, hus, rfl⟩ := List.forall₂_cons_left_iff.mp hts
  obtain rfl := spells_nil_iff.mp hus
  have hkind := ht.kind_eq
  exact afterGroup_other (hkind ▸ hleft) (hkind ▸ hright)

theorem cons {slot : Slot} (hleft : slot.kind ≠ .leftParen) (hright : slot.kind ≠ .rightParen)
    (h : Balanced slots) : Balanced (slot :: slots) := (single hleft hright).append h

/-- A kept token of a kind that is in a class without parentheses. -/
theorem kept {t : Token} (inClass : Kind → Bool) (h : inClass t.kind = true)
    (hleft : inClass .leftParen = false) (hright : inClass .rightParen = false) :
    Balanced [.kept t] := by
  refine single (fun hkind => ?_) (fun hkind => ?_)
  · have hkind : t.kind = .leftParen := hkind
    rw [hkind, hleft] at h
    cases h
  · have hkind : t.kind = .rightParen := hkind
    rw [hkind, hright] at h
    cases h

theorem enclosed (h : Balanced slots) :
    Balanced (.mark .leftParen :: (slots ++ [.mark .rightParen])) := by
  intro n ts rest hts
  obtain ⟨opening, inner, rfl, hopening, hinner⟩ := spells_mark_iff.mp hts
  obtain ⟨t₁, t₂, rfl, h₁, h₂⟩ := spells_append_iff.mp hinner
  obtain ⟨closing, none, rfl, hclosing, hnone⟩ := spells_mark_iff.mp h₂
  obtain rfl := spells_nil_iff.mp hnone
  rw [List.cons_append, afterGroup_leftParen hopening, List.append_assoc, h (n + 1) t₁ _ h₁]
  exact afterGroup_rightParen_succ hclosing

theorem joined {k : Kind} {parts : List (List Slot)} (hleft : k ≠ .leftParen)
    (hright : k ≠ .rightParen) (hparts : ∀ part ∈ parts, Balanced part) :
    Balanced (joined k parts) := by
  match parts with
  | [] => exact nil
  | [part] => simpa using hparts
  | part :: next :: parts =>
      obtain ⟨hpart, hrest⟩ := List.forall_mem_cons.mp hparts
      rw [joined_cons_cons]
      exact hpart.append (cons hleft hright (joined hleft hright hrest))

end Balanced

/-! ## The parts of a tree, in the order of the grammar -/

theorem balanced_path {p : Tree.Path} (hp : Path.Grammatical p) : Balanced (Path.written p) := by
  have hkinds : ∀ t ∈ p, t.kind = .identifier ∨ t.kind.isAggregate ∨ t.kind.isKeyword := by
    match p, hp with
    | t :: path, ⟨ht, hpath⟩ =>
        exact List.forall_mem_cons.mpr ⟨ht.imp_right .inl, fun u hu => (hpath u hu).imp_right .inr⟩
  refine .joined nofun nofun (List.forall_mem_map.mpr fun t ht => ?_)
  exact .kept (fun k => k == .identifier || (k.isAggregate || k.isKeyword))
    (by simpa using hkinds t ht) rfl rfl

theorem balanced_call {c : Tree.Call} (hc : c.Grammatical) : Balanced c.written := by
  obtain ⟨hfunction, hargument⟩ := hc
  have hinner : Balanced (Call.argumentWritten c.argument) := by
    cases harg : c.argument with
    | none => exact .single nofun nofun
    | some p =>
        rw [harg] at hargument
        exact balanced_path hargument
  exact (Balanced.kept Kind.isAggregate hfunction rfl rfl).append hinner.enclosed

theorem balanced_selectable {v : Selectable} (hv : v.Grammatical) : Balanced v.written := by
  cases v with
  | path p => exact balanced_path hv
  | call c => exact balanced_call hv

theorem balanced_value {v : Value} (hv : v.Grammatical) : Balanced v.written := by
  cases v with
  | path p => exact balanced_path hv
  | call c => exact balanced_call hv
  | string t => exact .kept (· == .string) (beq_iff_eq.mpr hv) rfl rfl
  | number t => exact .kept (· == .number) (beq_iff_eq.mpr hv) rfl rfl

theorem balanced_test {t : Tree.Test} (ht : t.Grammatical) : Balanced t.written := by
  cases t with
  | compare operator v =>
      exact (Balanced.kept Kind.isComparison ht.1 rfl rfl).append (balanced_value ht.2)
  | isIn vs =>
      have hvalues : Balanced (joined .comma (vs.map Value.written)) :=
        .joined nofun nofun (List.forall_mem_map.mpr fun v hv => balanced_value (ht.2 v hv))
      exact .cons nofun nofun hvalues.enclosed
  | between low high =>
      exact .cons nofun nofun ((balanced_value ht.1).append (.cons nofun nofun
        (balanced_value ht.2)))
  | null => exact .cons nofun nofun (.single nofun nofun)
  | notNull => exact .cons nofun nofun (.cons nofun nofun (.single nofun nofun))

theorem balanced_comparison {c : Comparison} (hc : c.Grammatical) : Balanced c.written := by
  obtain ⟨hjoin, hleft, htest⟩ := hc
  refine Balanced.append ?_ ((balanced_selectable hleft).append (balanced_test htest))
  cases hj : c.join with
  | none => exact .nil
  | some t =>
      have ht : t.kind = .left ∨ t.kind = .right := hjoin t hj
      exact .kept (fun k => k == .left || k == .right) (by simpa using ht) rfl rfl

theorem balanced_disjunction {d : Disjunction}
    (h : ∀ c ∈ d, ∀ p ∈ c, Balanced (Primary.written p)) :
    Balanced (Disjunction.written d) :=
  .joined nofun nofun <| List.forall_mem_map.mpr fun c hc =>
    .joined nofun nofun <| List.forall_mem_map.mpr (h c hc)

theorem balanced_primary {p : Primary} (hp : p.Grammatical) : Balanced p.written := by
  induction hp with
  | comparison hc =>
      rw [Primary.written_comparison]
      exact balanced_comparison hc
  | group _ _ _ ih =>
      rw [Primary.written_group]
      exact (balanced_disjunction ih).enclosed

/-- **A group is skipped up to its own closing parenthesis.** -/
theorem afterGroup_of_spells {d : Disjunction} (hd : Disjunction.Grammatical d) {ts : List Token}
    (hts : Spells (Disjunction.written d ++ [.mark .rightParen]) ts) (tail : List Token) :
    afterGroup 0 (ts ++ tail) = tail := by
  obtain ⟨t₁, t₂, rfl, h₁, h₂⟩ := spells_append_iff.mp hts
  obtain ⟨closing, none, rfl, hclosing, hnone⟩ := spells_mark_iff.mp h₂
  obtain rfl := spells_nil_iff.mp hnone
  have hinner := balanced_disjunction fun c hc p hp => balanced_primary (hd.inner c hc p hp)
  rw [List.append_assoc, hinner 0 t₁ _ h₁]
  exact afterGroup_rightParen_zero hclosing

end FilterQuery.Parser
