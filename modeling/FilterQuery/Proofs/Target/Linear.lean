import FilterQuery.Target.Record
import Mathlib.Algebra.Order.Group.Multiset
import Mathlib.Data.List.Induction

/-!
# Records are linear programs

The record of a query is a program: every call takes values that earlier calls have made, and what
the query has become is made of such values too. The program is linear: nothing that has been made
is dropped or used a second time. The calls `groupBy` and `having` only show to the target what the
result holds anyway, and use up nothing.

What carries the proof is the collection of values that have been made and not yet used. `Pending`
keeps the account of it for a record, and `Turns pre x post` says that the lowering `x` takes the
values `pre` out of it and leaves `post` there instead; the values that it does not take stay as
they are. (`Target.Keeps` is of no use here: what is pending does not last.) Main result:
`record_linear`.
-/

set_option autoImplicit false

namespace FilterQuery

/-! ## Values of a record -/

/-- A value in a record: the number of the call that has made it. -/
inductive Ref where
  | expression (call : Nat)
  | condition (call : Nat)
  deriving DecidableEq, Repr

/-- The number of the call. -/
def Ref.call : Ref → Nat
  | .expression n => n
  | .condition n => n

namespace Call

/-- The values that a call is given. -/
def arguments : Call Nat Nat → List Ref
  | .field _ _ => []
  | .literal _ => []
  | .aggregate _ e => e.toList.map .expression
  | .compare _ l r => [.expression l, .expression r]
  | .isNull e => [.expression e]
  | .isNotNull e => [.expression e]
  | .between e l h => [.expression e, .expression l, .expression h]
  | .isIn e vs => (e :: vs).map .expression
  | .both l r => [.condition l, .condition r]
  | .either l r => [.condition l, .condition r]
  | .always => []
  | .groupBy es => es.map .expression
  | .having c => [.condition c]

/-- The value that a call makes if it has the number `n`. -/
def made? (n : Nat) : Call Nat Nat → Option Ref
  | .field _ _ | .literal _ | .aggregate _ _ => some (.expression n)
  | .compare _ _ _ | .isNull _ | .isNotNull _ | .between _ _ _ | .isIn _ _ | .both _ _
  | .either _ _ | .always => some (.condition n)
  | .groupBy _ | .having _ => none

/-- The values that a call uses up. -/
def uses : Call Nat Nat → List Ref
  | .groupBy _ | .having _ => []
  | c => c.arguments

theorem call_of_made? {n : Nat} {c : Call Nat Nat} {v : Ref} (h : c.made? n = some v) :
    v.call = n := by
  cases c <;> cases h <;> rfl

end Call

namespace Target

/-- The values in what a query has become. -/
def Lowered.refs (l : Lowered Nat Nat) : List Ref :=
  .condition l.condition :: .condition l.having :: l.grouping.map .expression

/-- The record is a linear program that gives the values `answer`. -/
structure Linear (record : Record) (answer : List Ref) : Prop where
  /-- An earlier call has made every argument, as an expression or a condition where one is asked
  for. -/
  earlier : ∀ (n : Nat) (c : Call Nat Nat), record[n]? = some c → ∀ v ∈ c.arguments,
    ∃ m < n, ∃ d : Call Nat Nat, record[m]? = some d ∧ d.made? m = some v
  answered : ∀ v ∈ answer, ∃ (m : Nat) (d : Call Nat Nat), record[m]? = some d ∧ d.made? m = some v
  /-- What a call makes is used once, by a call or in the answer. -/
  once : ∀ (n : Nat) (c : Call Nat Nat) (v : Ref), record[n]? = some c → c.made? n = some v →
    (record.flatMap Call.uses ++ answer).count v = 1

/-! ## The account of a record -/

/-- The values that the calls of a record have made. -/
def made (record : Record) : List Ref := record.zipIdx.filterMap fun c => c.1.made? c.2

theorem made_concat (record : Record) (c : Call Nat Nat) :
    made (record ++ [c]) = made record ++ (c.made? record.length).toList := by
  rw [made, List.zipIdx_append, List.filterMap_append]
  simp [made, List.filterMap_cons]
  cases c.made? record.length <;> rfl

theorem mem_made_iff {record : Record} {v : Ref} :
    v ∈ made record ↔ ∃ (n : Nat) (c : Call Nat Nat), record[n]? = some c ∧ c.made? n = some v := by
  simp only [made, List.mem_filterMap, Prod.exists, List.mem_zipIdx_iff_getElem?]
  exact exists_comm

/-- No two calls make the same value. -/
theorem nodup_made (record : Record) : (made record).Nodup := by
  induction record using List.reverseRecOn with
  | nil => exact List.nodup_nil
  | append_singleton record c ih =>
      rw [made_concat]
      cases hc : c.made? record.length with
      | none => simpa using ih
      | some v =>
          refine ih.append (List.nodup_singleton v) (List.disjoint_singleton.mpr fun hv => ?_)
          -- the number of an earlier call is smaller
          obtain ⟨n, d, hn, hd⟩ := mem_made_iff.mp hv
          have hlt := (List.getElem?_eq_some_iff.mp hn).1
          have hcall := Call.call_of_made? hc
          rw [Call.call_of_made? hd] at hcall
          omega

/-- The values in `pending` are those that have been made and not used, and every call has been
given values that had been made before. -/
structure Pending (record : Record) (pending : Multiset Ref) : Prop where
  earlier : ∀ (n : Nat) (c : Call Nat Nat), record[n]? = some c → ∀ v ∈ c.arguments,
    v ∈ made (record.take n)
  balance : (made record : Multiset Ref) = (record.flatMap Call.uses : List Ref) + pending

namespace Pending

variable {record : Record} {pending : Multiset Ref}

theorem nil : Pending [] 0 := ⟨nofun, rfl⟩

theorem mem_made (h : Pending record pending) {v : Ref} (hv : v ∈ pending) : v ∈ made record := by
  rw [← Multiset.mem_coe, h.balance]
  exact Multiset.mem_add.mpr (.inr hv)

/-- A call is given pending values, uses some of them, and makes a new one. -/
theorem concat {c : Call Nat Nat} (h : Pending record (c.uses + pending))
    (hc : ∀ v ∈ c.arguments, v ∈ (c.uses + pending : Multiset Ref)) :
    Pending (record ++ [c]) ((c.made? record.length).toList + pending) := by
  constructor
  · intro n d hn v hv
    rcases Nat.lt_trichotomy n record.length with hlt | rfl | hgt
    · rw [List.getElem?_append_left hlt] at hn
      rw [List.take_append_of_le_length hlt.le]
      exact h.earlier n d hn v hv
    · rw [List.getElem?_concat_length, Option.some.injEq] at hn
      subst hn
      rw [List.take_left]
      exact h.mem_made (hc v hv)
    · have hlength : (record ++ [c]).length ≤ n := by
        rw [List.length_append]
        exact hgt
      rw [List.getElem?_eq_none hlength] at hn
      cases hn
  · rw [made_concat, ← Multiset.coe_add, h.balance, List.flatMap_append, List.flatMap_singleton,
      ← Multiset.coe_add]
    ac_rfl

/-- A record with nothing pending but the answer is a linear program. -/
theorem linear {answer : List Ref} (h : Pending record answer) : Linear record answer := by
  constructor
  · intro n c hn v hv
    obtain ⟨m, d, hm, hd⟩ := mem_made_iff.mp (h.earlier n c hn v hv)
    rw [List.getElem?_take] at hm
    split at hm
    · exact ⟨m, ‹_›, d, hm, hd⟩
    · cases hm
  · exact fun v hv => mem_made_iff.mp (h.mem_made (Multiset.mem_coe.mpr hv))
  · intro n c v hn hv
    have hcount : (made record).count v = 1 :=
      List.count_eq_one_of_mem (nodup_made record) (mem_made_iff.mpr ⟨n, c, hn, hv⟩)
    rwa [← Multiset.coe_count, h.balance, Multiset.coe_add, Multiset.coe_count] at hcount

end Pending

/-! ## Lowerings and what they leave pending -/

/-- Where the values `pre` are pending, with any others beside them, a run that succeeds leaves
`post` in their place, and the others as they are. -/
def Turns {α : Type} (pre : Multiset Ref) (x : Lowering Record α) (post : α → Multiset Ref) :
    Prop :=
  ∀ others record, Pending record (pre + others) →
    ∀ a record', x.run.run record = (.ok a, record') → Pending record' (post a + others)

namespace Turns

variable {α β : Type} {pre more : Multiset Ref} {mid : α → Multiset Ref} {post : β → Multiset Ref}

theorem pure {a : α} (h : pre = mid a) : Turns pre (Pure.pure a) mid := by
  intro others record hpending b record' hrun
  cases hrun
  rwa [← h]

theorem fail (e : ApplyError) : Turns pre (.fail e) mid := by
  intro others record _ a record' hrun
  cases hrun

theorem of_eq {x : Lowering Record α} (hx : Turns more x mid) (h : pre = more) :
    Turns pre x mid := h ▸ hx

/-- Values that are not taken stay. -/
theorem frame {x : Lowering Record α} (hx : Turns pre x mid) (more : Multiset Ref) :
    Turns (pre + more) x fun a => mid a + more := by
  intro others record hpending a record' hrun
  rw [add_assoc] at hpending ⊢
  exact hx (more + others) record hpending a record' hrun

theorem seq {x : Lowering Record α} {f : α → Lowering Record β} (hx : Turns pre x mid)
    (hf : ∀ a, Turns (mid a) (f a) post) : Turns pre (x >>= f) post := by
  intro others record hpending b record'' hrun
  obtain ⟨a, record', hfirst, hsecond⟩ := Lowering.run_bind_ok hrun
  exact hf a others record' (hx others record hpending a record' hfirst) b record'' hsecond

/-- What takes nothing only adds to the values that are pending. -/
theorem bind {x : Lowering Record α} {f : α → Lowering Record β} (hx : Turns 0 x mid)
    (hf : ∀ a, Turns (more + mid a) (f a) post) : Turns more (x >>= f) post := by
  refine ((hx.frame more).of_eq (zero_add more).symm).seq fun a => ?_
  exact (hf a).of_eq (add_comm _ _)

end Turns

/-! ## Calls -/

/-- A call that makes a value uses up its arguments. -/
theorem uses_eq_arguments {c : Call Nat Nat} {n : Nat} {v : Ref} (h : c.made? n = some v) :
    c.uses = c.arguments := by
  cases c <;> first | rfl | cases h

theorem turns_note (c : Call Nat Nat) {ref : Nat → Ref} (h : ∀ n, c.made? n = some (ref n)) :
    Turns c.arguments (.step (note c)) fun n => {ref n} := by
  rintro others record hpending _ _ ⟨⟩
  have huses := uses_eq_arguments (h 0)
  have hconcat : Pending (record ++ [c]) ((c.made? record.length).toList + others) := by
    refine Pending.concat (by rwa [huses]) fun v hv => ?_
    rw [huses]
    exact Multiset.mem_add.mpr (.inl hv)
  rwa [h] at hconcat

theorem turns_noteUnless (refusal : Option TargetError) (c : Call Nat Nat) {ref : Nat → Ref}
    (h : ∀ n, c.made? n = some (ref n)) :
    Turns c.arguments (.attempt (noteUnless refusal c)) fun n => {ref n} := by
  cases refusal with
  | none => exact turns_note c h
  | some e =>
      intro others record _ a record' hrun
      cases hrun

/-- A call that makes no value uses none. -/
theorem turns_show (c : Call Nat Nat) (h : ∀ n, c.made? n = none) :
    Turns c.arguments (.step (do let _ ← note c)) fun _ => c.arguments := by
  rintro others record hpending _ _ ⟨⟩
  have huses : c.uses = [] := by
    have hnone := h 0
    cases c <;> first | rfl | cases hnone
  have hconcat :
      Pending (record ++ [c]) ((c.made? record.length).toList + (c.arguments + others)) := by
    refine Pending.concat (by rwa [huses, Multiset.coe_nil, zero_add]) fun v hv => ?_
    exact Multiset.mem_add.mpr (.inr (Multiset.mem_add.mpr (.inl hv)))
  rwa [h, Option.toList_none, Multiset.coe_nil, zero_add] at hconcat

/-! ## Operands -/

section Recorder

variable (refuse : Refusals)

theorem turns_lowerAggregate (f : Aggregate) (p : Path) (j : JoinKind) :
    Turns 0 ((recorder refuse).lowerAggregate f p j) fun e => {.expression e} := by
  rw [lowerAggregate]
  by_cases hp : p.isWildcard = true
  · rw [if_pos hp]
    by_cases hf : f = .count
    · rw [if_pos hf]
      exact turns_noteUnless _ (.aggregate .count none) fun _ => rfl
    · rw [if_neg hf]
      exact .fail _
  · rw [if_neg hp]
    have hfield : Turns 0 (.attempt ((recorder refuse).field p j)) fun e => {.expression e} :=
      turns_noteUnless _ (.field p j) fun _ => rfl
    exact hfield.seq fun e => turns_noteUnless _ (.aggregate f (some e)) fun _ => rfl

theorem turns_lowerOperand (j : JoinKind) (o : Operand) :
    Turns 0 ((recorder refuse).lowerOperand j o) fun e => {.expression e} := by
  cases o with
  | path p =>
      rw [lowerOperand]
      by_cases hp : p.isWildcard = true
      · rw [if_pos hp]
        exact .fail _
      · rw [if_neg hp]
        exact turns_noteUnless _ (.field p j) fun _ => rfl
  | literal l => exact turns_note (.literal l) fun _ => rfl
  | aggregate f p => exact turns_lowerAggregate refuse f p j

theorem turns_lowerOperands (j : JoinKind) (os : List Operand) :
    Turns 0 ((recorder refuse).lowerOperands j os) fun es => es.map Ref.expression := by
  induction os with
  | nil => exact .pure rfl
  | cons o os ih =>
      rw [lowerOperands]
      refine (turns_lowerOperand refuse j o).seq fun first => ?_
      exact ih.bind fun others => .pure rfl

/-! ## Conditions -/

theorem turns_lowerCompare (l : Operand) (o : Operator) (r : Operand) (j : JoinKind) :
    Turns 0 ((recorder refuse).lowerCompare l o r j) fun n => {.condition n} := by
  rw [lowerCompare]
  by_cases ho : o.isBinary = true
  · rw [if_pos ho]
    refine (turns_lowerOperand refuse j l).seq fun left => ?_
    refine (turns_lowerOperand refuse j r).bind fun right => ?_
    exact turns_note (.compare o left right) fun _ => rfl
  · rw [if_neg ho]
    exact .fail _

theorem turns_lowerIsIn (l : Operand) (vs : List Operand) (j : JoinKind) :
    Turns 0 ((recorder refuse).lowerIsIn l vs j) fun n => {.condition n} := by
  refine (turns_lowerOperand refuse j l).seq fun left => ?_
  refine (turns_lowerOperands refuse j vs).bind fun values => ?_
  exact turns_note (.isIn left values) fun _ => rfl

theorem turns_lowerBetween (l a b : Operand) (j : JoinKind) :
    Turns 0 ((recorder refuse).lowerBetween l a b j) fun n => {.condition n} := by
  refine (turns_lowerOperand refuse j l).seq fun left => ?_
  refine (turns_lowerOperand refuse j a).bind fun low => ?_
  refine (turns_lowerOperand refuse j b).bind fun high => ?_
  exact turns_note (.between left low high) fun _ => rfl

theorem turns_lowerNullTest (l : Operand) (o : Operator) (j : JoinKind) :
    Turns 0 ((recorder refuse).lowerNullTest l o j) fun n => {.condition n} := by
  refine (turns_lowerOperand refuse j l).seq fun e => ?_
  cases o with
  | isNull => exact turns_note (.isNull e) fun _ => rfl
  | isNotNull => exact turns_note (.isNotNull e) fun _ => rfl
  | eq | ne | lt | lte | gt | gte | isIn | between => exact .fail _

variable {refuse}

/-- The children of a node are combined two by two, so that one condition is pending between two of
them. -/
theorem turns_lowerRest {combine : Nat → Nat → StateM Record Nat}
    (hcombine : ∀ k l, Turns ({.condition k} + {.condition l}) (.step (combine k l))
      fun n => {.condition n})
    {cs : List Condition}
    (hcs : ∀ c ∈ cs, Turns 0 ((recorder refuse).lower c) fun n => {.condition n}) (first : Nat) :
    Turns {.condition first} ((recorder refuse).lowerRest combine first cs)
      fun n => {.condition n} := by
  induction cs generalizing first with
  | nil =>
      rw [lowerRest]
      exact .pure rfl
  | cons c cs ih =>
      obtain ⟨hc, hcs⟩ := List.forall_mem_cons.mp hcs
      rw [lowerRest]
      exact hc.bind fun next => (hcombine first next).seq fun both => ih hcs both

variable (refuse)

/-- A condition leaves nothing pending but what it has become. -/
theorem turns_lower (c : Condition) :
    Turns 0 ((recorder refuse).lower c) fun n => {.condition n} := by
  have heither (k l : Nat) : Turns ({.condition k} + {.condition l})
      (.step ((recorder refuse).either k l)) fun n => {.condition n} :=
    turns_note (.either k l) fun _ => rfl
  have hboth (k l : Nat) : Turns ({.condition k} + {.condition l})
      (.step ((recorder refuse).both k l)) fun n => {.condition n} :=
    turns_note (.both k l) fun _ => rfl
  induction c using Condition.rec' with
  | anyOf cs ih =>
      cases cs with
      | nil =>
          rw [lower]
          exact turns_note .always fun _ => rfl
      | cons c cs =>
          obtain ⟨hc, hcs⟩ := List.forall_mem_cons.mp ih
          rw [lower]
          exact hc.seq fun first => turns_lowerRest heither hcs first
  | allOf cs ih =>
      cases cs with
      | nil =>
          rw [lower]
          exact turns_note .always fun _ => rfl
      | cons c cs =>
          obtain ⟨hc, hcs⟩ := List.forall_mem_cons.mp ih
          rw [lower]
          exact hc.seq fun first => turns_lowerRest hboth hcs first
  | compare l o r j =>
      rw [lower]
      exact turns_lowerCompare refuse l o r j
  | isIn l vs j =>
      rw [lower]
      exact turns_lowerIsIn refuse l vs j
  | between l a b j =>
      rw [lower]
      exact turns_lowerBetween refuse l a b j
  | nullTest l o j =>
      rw [lower]
      exact turns_lowerNullTest refuse l o j

/-! ## Queries -/

/-- The condition on groups has been shown to the target, and is still pending. -/
theorem turns_lowerHaving (having : Option Condition) :
    Turns 0 ((recorder refuse).lowerHaving having) fun o => o.toList.map Ref.condition := by
  cases having with
  | none => exact .pure rfl
  | some c =>
      refine (turns_lower refuse c).seq fun k => ?_
      have hshow : Turns {.condition k} (.step ((recorder refuse).having k))
          fun _ => {.condition k} := turns_show (.having k) fun _ => rfl
      exact hshow.seq fun _ => .pure rfl

theorem turns_lowerGrouping (grouping : Option (List Operand)) :
    Turns 0 ((recorder refuse).lowerGrouping grouping) fun es => es.map Ref.expression := by
  match grouping with
  | none => exact .pure rfl
  | some [] => exact .pure rfl
  | some (o :: os) =>
      refine (turns_lowerOperands refuse .inner (o :: os)).seq fun es => ?_
      have hshow : Turns (es.map Ref.expression) (.step ((recorder refuse).groupBy es))
          fun _ => es.map Ref.expression := turns_show (.groupBy es) fun _ => rfl
      exact hshow.seq fun _ => .pure rfl

theorem turns_orAlways (having : Option Nat) :
    Turns (having.toList.map Ref.condition) ((recorder refuse).orAlways having)
      fun n => {.condition n} := by
  cases having with
  | none => exact turns_note .always fun _ => rfl
  | some k => exact .pure rfl

/-- A query leaves nothing pending but what it has become. -/
theorem turns_apply (q : Query) : Turns 0 ((recorder refuse).apply q) fun l => l.refs := by
  refine (turns_lower refuse q.condition).seq fun k => ?_
  refine (turns_lowerHaving refuse q.having).bind fun having => ?_
  refine (turns_lowerGrouping refuse q.grouping).bind fun es => ?_
  -- the condition and the items to group by are set aside
  have hlast := (turns_orAlways refuse having).frame ({.condition k} + (es.map Ref.expression))
  refine (hlast.of_eq (by ac_rfl)).seq fun l => .pure ?_
  rw [← add_assoc, add_comm {Ref.condition l}]
  rfl

end Recorder

/-- **The record of a query is a linear program.** Every call is given values that earlier calls
have made, expressions and conditions where they are asked for, and whatever is made is used exactly
once: by a later call, or in what the query has become. -/
theorem record_linear {refuse : Refusals} {q : Query} {l : Lowered Nat Nat} {record : Record}
    (h : ((recorder refuse).apply q).run.run [] = (.ok l, record)) : Linear record l.refs := by
  have hpending := turns_apply refuse q 0 [] Pending.nil l record h
  rw [add_zero] at hpending
  exact hpending.linear

/-- A query with a condition on groups and an item to group by. -/
def groupedQuery : Query where
  condition := .allOf [
    .isIn (.path ⟨["age"]⟩) [.literal (.integer 3), .literal (.integer 4)] .inner,
    .nullTest (.path ⟨["team", "name"]⟩) .isNotNull .left]
  having := some (.compare (.aggregate .count .wildcard) .gt (.literal (.integer 1)) .inner)
  grouping := some [.path ⟨["team", "name"]⟩]

/-- Calls 6 and 9 make the two conditions, and call 11 the item to group by; calls 10 and 12 only
show them to the target. -/
def groupedRecord : Record :=
  [.field ⟨["age"]⟩ .inner, .literal (.integer 3), .literal (.integer 4), .isIn 0 [1, 2],
    .field ⟨["team", "name"]⟩ .left, .isNotNull 4, .both 3 5,
    .aggregate .count none, .literal (.integer 1), .compare .gt 7 8, .having 9,
    .field ⟨["team", "name"]⟩ .inner, .groupBy [11]]

theorem record_linear_groupedQuery :
    ((recorder .none).apply groupedQuery).run.run [] = (.ok ⟨6, 9, [11]⟩, groupedRecord) ∧
      Linear groupedRecord [.condition 6, .condition 9, .expression 11] := by
  have hrun : ((recorder .none).apply groupedQuery).run.run [] =
      (.ok ⟨6, 9, [11]⟩, groupedRecord) := rfl
  exact ⟨hrun, record_linear hrun⟩

end Target

end FilterQuery
