import FilterQuery.Proofs.Query.Accepted
import FilterQuery.Proofs.Query.Built
import FilterQuery.Proofs.Tree.Kept

/-!
# Trees in other words

`Root.map f r` is the tree `r` with the token `f t` in the place of every token `t` that it keeps.
A tree is built by looking its words up without regard to letter case, and the words of its paths go
into the query as they are. So if `f t` is the same word as `t`, then the tree is built into the
same query, with other words in its paths. Main result: `ofTree_map`.
-/

set_option autoImplicit false

namespace FilterQuery

/-! ## Queries in other words -/

section

variable (g : String → String)

/-- The path, with `g` applied to its words. -/
def Path.mapWords (p : Path) : Path := ⟨p.identifiers.map g⟩

/-- The operand, with `g` applied to the words of its path. -/
def Operand.mapWords : Operand → Operand
  | .path p => .path (p.mapWords g)
  | .literal l => .literal l
  | .aggregate f p => .aggregate f (p.mapWords g)

mutual

/-- The condition, with `g` applied to the words of its paths. -/
def Condition.mapWords : Condition → Condition
  | .anyOf cs => .anyOf (Condition.mapWordsAll cs)
  | .allOf cs => .allOf (Condition.mapWordsAll cs)
  | .compare l o r j => .compare (l.mapWords g) o (r.mapWords g) j
  | .isIn l vs j => .isIn (l.mapWords g) (vs.map (Operand.mapWords g)) j
  | .between l a b j => .between (l.mapWords g) (a.mapWords g) (b.mapWords g) j
  | .nullTest l o j => .nullTest (l.mapWords g) o j

/-- The conditions, with `g` applied to the words of their paths. -/
def Condition.mapWordsAll : List Condition → List Condition
  | [] => []
  | c :: cs => c.mapWords :: Condition.mapWordsAll cs

end

theorem Condition.mapWordsAll_eq_map (cs : List Condition) :
    Condition.mapWordsAll g cs = cs.map (Condition.mapWords g) := by
  induction cs with
  | nil => rw [mapWordsAll, List.map_nil]
  | cons c cs ih => rw [mapWordsAll, ih, List.map_cons]

theorem Condition.mapWords_anyOf (cs : List Condition) :
    (anyOf cs).mapWords g = .anyOf (cs.map (mapWords g)) := by
  rw [mapWords, mapWordsAll_eq_map]

theorem Condition.mapWords_allOf (cs : List Condition) :
    (allOf cs).mapWords g = .allOf (cs.map (mapWords g)) := by
  rw [mapWords, mapWordsAll_eq_map]

/-- The query, with `g` applied to the words of its paths. -/
def Query.mapWords (q : Query) : Query where
  condition := q.condition.mapWords g
  having := q.having.map (Condition.mapWords g)
  grouping := q.grouping.map (List.map (Operand.mapWords g))

end

/-! ## Words that stay as they are -/

theorem Path.mapWords_id (p : Path) : p.mapWords id = p := by
  rw [mapWords, List.map_id]

theorem Operand.mapWords_id (o : Operand) : o.mapWords id = o := by
  cases o with
  | path p => rw [mapWords, Path.mapWords_id]
  | literal l => rfl
  | aggregate f p => rw [mapWords, Path.mapWords_id]

theorem Operand.map_mapWords_id (os : List Operand) : os.map (mapWords id) = os := by
  rw [funext mapWords_id, List.map_id']

theorem Condition.mapWords_id (c : Condition) : c.mapWords id = c := by
  induction c using Condition.rec' with
  | anyOf cs ih => rw [mapWords_anyOf, List.map_congr_left ih, List.map_id']
  | allOf cs ih => rw [mapWords_allOf, List.map_congr_left ih, List.map_id']
  | compare l o r j => rw [mapWords, Operand.mapWords_id, Operand.mapWords_id]
  | isIn l vs j => rw [mapWords, Operand.mapWords_id, Operand.map_mapWords_id]
  | between l a b j =>
      rw [mapWords, Operand.mapWords_id, Operand.mapWords_id, Operand.mapWords_id]
  | nullTest l o j => rw [mapWords, Operand.mapWords_id]

theorem Query.mapWords_id (q : Query) : q.mapWords id = q := by
  rw [mapWords, Condition.mapWords_id, funext Condition.mapWords_id, Option.map_id',
    funext Operand.map_mapWords_id, Option.map_id']

/-! ## Tokens in other words -/

/-- The token `u` may stand in the place of `t`: it is the same word up to letter case, a literal
stays as it is, and `g` is what becomes of an identifier or a reserved word. -/
structure Token.Reworded (g : String → String) (t u : Token) : Prop where
  sameWord : Text.sameWord t.lexeme u.lexeme = true
  literal : t.kind = .string ∨ t.kind = .number → u.lexeme = t.lexeme
  word : t.kind = .identifier ∨ t.kind.isKeyword = true → u.lexeme = g t.lexeme

namespace Tree

/-! ## Trees with other tokens -/

/-- Related items stay related if something is done to both. -/
theorem forall₂_map_of {α α' β β' : Type} {R : α → β → Prop} {S : α' → β' → Prop} {u : α → α'}
    {v : β → β'} {as : List α} {bs : List β} (h : List.Forall₂ R as bs)
    (hmap : ∀ a ∈ as, ∀ b, R a b → S (u a) (v b)) : List.Forall₂ S (as.map u) (bs.map v) := by
  rw [List.forall₂_map_left_iff, List.forall₂_map_right_iff]
  exact ((List.forall₂_and_left as bs).mpr ⟨hmap, h⟩).imp fun a b hab => hab.1 b hab.2

section

variable (f : Token → Token)

def Call.map (c : Call) : Call := ⟨f c.function, c.argument.map (List.map f)⟩

def Selectable.map : Selectable → Selectable
  | .path p => .path (p.map f)
  | .call c => .call (c.map f)

def Value.map : Value → Value
  | .path p => .path (p.map f)
  | .call c => .call (c.map f)
  | .string t => .string (f t)
  | .number t => .number (f t)

def Test.map : Test → Test
  | .compare operator v => .compare (f operator) (v.map f)
  | .isIn vs => .isIn (vs.map (Value.map f))
  | .between low high => .between (low.map f) (high.map f)
  | .null => .null
  | .notNull => .notNull

def Comparison.map (c : Comparison) : Comparison :=
  ⟨c.join.map f, c.left.map f, c.test.map f⟩

def Primary.map : Primary → Primary := fold .group fun c => .comparison (c.map f)

def Disjunction.map (d : Disjunction) : Disjunction := List.map (List.map (Primary.map f)) d

/-- The tree with `f t` in the place of every token `t` that it keeps. -/
def Root.map (r : Root) : Root where
  condition := Disjunction.map f r.condition
  grouping := r.grouping.map (List.map (Selectable.map f))
  having := r.having.map (Disjunction.map f)

theorem Primary.map_comparison (c : Comparison) :
    map f (.comparison c) = .comparison (c.map f) := fold_comparison _ _ c

theorem Primary.map_group (d : Disjunction) : map f (.group d) = .group (Disjunction.map f d) :=
  fold_group _ _ d

end

/-! The tree with the same tokens is the same tree. -/

theorem Call.map_id (c : Call) : c.map id = c := by
  simp [Call.map]

theorem Selectable.map_id (v : Selectable) : v.map id = v := by
  cases v with
  | path p => simp [Selectable.map]
  | call c => simp [Selectable.map, Call.map_id]

theorem Value.map_id (v : Value) : v.map id = v := by
  cases v with
  | path p => simp [Value.map]
  | call c => simp [Value.map, Call.map_id]
  | string t => rfl
  | number t => rfl

theorem Test.map_id (t : Test) : t.map id = t := by
  cases t with
  | compare operator v => simp [Test.map, Value.map_id]
  | isIn vs => rw [Test.map, funext Value.map_id, List.map_id']
  | between low high => simp [Test.map, Value.map_id]
  | null => rfl
  | notNull => rfl

theorem Comparison.map_id (c : Comparison) : c.map id = c := by
  simp [Comparison.map, Selectable.map_id, Test.map_id]

theorem Disjunction.map_id_of {d : Disjunction} (h : ∀ ps ∈ d, ∀ p ∈ ps, Primary.map id p = p) :
    map id d = d := by
  have hconjunction : ∀ ps ∈ d, ps.map (Primary.map id) = ps := fun ps hps => by
    rw [List.map_congr_left (h ps hps), List.map_id']
  rw [map, List.map_congr_left hconjunction, List.map_id']

theorem Primary.map_id (p : Primary) : p.map id = p := by
  induction p using Primary.rec' with
  | comparison c => rw [map_comparison, Comparison.map_id]
  | group d ih => rw [map_group, Disjunction.map_id_of ih]

theorem Root.map_id (r : Root) : r.map id = r := by
  have hclause : ∀ d, Disjunction.map id d = d :=
    fun d => Disjunction.map_id_of fun _ _ p _ => p.map_id
  rw [map, hclause, funext hclause, Option.map_id', funext Selectable.map_id, funext List.map_id',
    Option.map_id']

/-! Other tokens do not change how deep groups nest. -/

theorem Disjunction.nesting_map_of {f : Token → Token} {d : Disjunction}
    (h : ∀ ps ∈ d, ∀ p ∈ ps, (Primary.map f p).nesting = p.nesting) :
    nesting (map f d) = nesting d := by
  rw [nesting, map, nesting, ← List.map_flatten, List.map_map]
  refine congrArg (fun ns : List Nat => ns.foldr max 0) (List.map_congr_left fun p hp => ?_)
  obtain ⟨ps, hps, hp⟩ := List.mem_flatten.mp hp
  exact h ps hps p hp

theorem Primary.nesting_map (f : Token → Token) (p : Primary) : (p.map f).nesting = p.nesting := by
  induction p using Primary.rec' with
  | comparison c => rw [map_comparison, nesting_comparison, nesting_comparison]
  | group d ih => rw [map_group, nesting_group, nesting_group, Disjunction.nesting_map_of ih]

theorem Root.nesting_map (f : Token → Token) (r : Root) : (r.map f).nesting = r.nesting := by
  have hclause : ∀ d, Disjunction.nesting (Disjunction.map f d) = Disjunction.nesting d :=
    fun d => Disjunction.nesting_map_of fun _ _ p _ => p.nesting_map f
  rw [nesting, nesting, map, hclause, Option.map_map]
  exact congrArg (fun g => max _ ((r.having.map g).getD 0)) (funext hclause)

/-- Every kept token `t` may be replaced by `f t`. -/
abbrev AllReworded (g : String → String) (f : Token → Token) (slots : List Slot) : Prop :=
  AllKept (fun t => t.Reworded g (f t)) slots

/-! ## Lookups of other tokens -/

section

variable {g : String → String} {f : Token → Token}

theorem joinKind_map {join : Option Token} (hf : ∀ t ∈ join, t.Reworded g (f t)) {j : JoinKind}
    (h : joinKind join = .ok j) : joinKind (join.map f) = .ok j := by
  cases join with
  | none => exact h
  | some t =>
      rw [joinKind] at h
      rw [Option.map_some, joinKind, JoinKind.ofKeyword?_congr (hf t rfl).sameWord]
      split at h
      · exact h
      · cases h

theorem operator_of_reworded {t u : Token} (hf : t.Reworded g u) {o : Operator}
    (h : operator t = .ok o) : operator u = .ok o := by
  have hlookup : Operator.ofSymbol? u.lexeme = Operator.ofSymbol? t.lexeme := by
    simp only [Operator.ofSymbol?, Text.sameWord_congr hf.sameWord]
  rw [operator] at h ⊢
  rw [hlookup]
  split at h
  · exact h
  · cases h

theorem number_of_reworded {t u : Token} (hf : t.Reworded g u) (ht : t.kind = .number)
    {l : Literal} (h : number t = .ok l) : number u = .ok l := by
  rw [number] at h ⊢
  rw [hf.literal (.inr ht)]
  by_cases hpoint : '.' ∈ t.lexeme.toList
  · rw [if_pos hpoint] at h ⊢
    split at h
    · exact h
    · cases h
  · rw [if_neg hpoint] at h ⊢
    split at h
    · exact h
    · cases h

/-! ## Operands -/

theorem path_map {p : Path} (hp : Path.Grammatical p) (hf : ∀ t ∈ p, t.Reworded g (f t)) :
    path (p.map f) = (path p).mapWords g := by
  have hword : ∀ t ∈ p, (f t).lexeme = g t.lexeme := by
    match p, hp with
    | u :: us, ⟨hu, hus⟩ =>
        obtain ⟨hfirst, hothers⟩ := List.forall_mem_cons.mp hf
        refine List.forall_mem_cons.mpr ⟨?_, fun t ht => (hothers t ht).word (hus t ht)⟩
        exact hfirst.word (hu.imp_right Kind.isKeyword_of_isAggregate)
  simp only [path, FilterQuery.Path.mapWords, List.map_map]
  exact congrArg _ (List.map_congr_left hword)

variable (hstar : g "*" = "*")
include hstar

theorem call_map {c : Call} (hc : c.Grammatical) (hf : AllReworded g f c.written) {o : Operand}
    (h : call c = .ok o) : call (c.map f) = .ok (o.mapWords g) := by
  obtain ⟨function, argument⟩ := c
  obtain ⟨-, hargument⟩ := hc
  obtain ⟨hfunction, hpath⟩ := allKept_call.mp hf
  have hwildcard : FilterQuery.Path.wildcard.mapWords g = .wildcard :=
    congrArg (fun w => FilterQuery.Path.mk [w]) hstar
  rw [call] at h
  rw [Call.map, call, Aggregate.ofName?_congr hfunction.sameWord]
  split at h
  · cases h
  · next a ha =>
      cases argument with
      | some p =>
          cases h
          exact congrArg _ (congrArg (Operand.aggregate a) (path_map hargument (hpath p rfl)))
      | none =>
          rw [Option.map_none]
          dsimp only at h ⊢
          split at h
          · next hcount =>
              cases h
              rw [if_pos hcount, Operand.mapWords, hwildcard]
          · cases h

theorem selectable_map {v : Selectable} (hv : v.Grammatical) (hf : AllReworded g f v.written)
    {o : Operand} (h : selectable v = .ok o) : selectable (v.map f) = .ok (o.mapWords g) := by
  cases v with
  | path p =>
      cases h
      exact congrArg _ (congrArg Operand.path (path_map hv (allKept_path.mp hf)))
  | call c => exact call_map hstar hv hf h

theorem value_map {v : Value} (hv : v.Grammatical) (hf : AllReworded g f v.written) {o : Operand}
    (h : value v = .ok o) : value (v.map f) = .ok (o.mapWords g) := by
  cases v with
  | path p =>
      cases h
      exact congrArg _ (congrArg Operand.path (path_map hv (allKept_path.mp hf)))
  | call c => exact call_map hstar hv hf h
  | string t =>
      cases h
      rw [Value.map, value, string, (hf t List.mem_cons_self).literal (.inl hv)]
      rfl
  | number t =>
      obtain ⟨l, hl, rfl⟩ := map_eq_ok_iff.mp h
      exact map_eq_ok_iff.mpr ⟨l, number_of_reworded (hf t List.mem_cons_self) hv hl, rfl⟩

/-! ## Conditions -/

theorem test_map {t : Test} (ht : t.Grammatical) (hf : AllReworded g f t.written) {left : Operand}
    {join : JoinKind} {c : Condition} (h : test left join t = .ok c) :
    test (left.mapWords g) join (t.map f) = .ok (c.mapWords g) := by
  cases t with
  | compare operator v =>
      obtain ⟨hoperator, hvalue⟩ := allKept_compare.mp hf
      obtain ⟨o, ho, h⟩ := bind_eq_ok_iff.mp h
      obtain ⟨right, hright, ⟨⟩⟩ := bind_eq_ok_iff.mp h
      refine bind_eq_ok_iff.mpr ⟨o, operator_of_reworded hoperator ho, ?_⟩
      exact bind_eq_ok_iff.mpr ⟨_, value_map hstar ht.2 hvalue hright, rfl⟩
  | isIn vs =>
      replace hf := allKept_isIn.mp hf
      obtain ⟨os, hos, ⟨⟩⟩ := bind_eq_ok_iff.mp h
      have hvalues : values (vs.map (Value.map f)) = .ok (os.map (Operand.mapWords g)) := by
        refine values_eq_ok_iff.mpr (forall₂_map_of (values_eq_ok_iff.mp hos) fun v hv o ho => ?_)
        exact value_map hstar (ht.2 v hv) (hf v hv) ho
      exact bind_eq_ok_iff.mpr ⟨_, hvalues, rfl⟩
  | between low high =>
      obtain ⟨hflow, hfhigh⟩ := allKept_between.mp hf
      obtain ⟨a, ha, h⟩ := bind_eq_ok_iff.mp h
      obtain ⟨b, hb, ⟨⟩⟩ := bind_eq_ok_iff.mp h
      refine bind_eq_ok_iff.mpr ⟨_, value_map hstar ht.1 hflow ha, ?_⟩
      exact bind_eq_ok_iff.mpr ⟨_, value_map hstar ht.2 hfhigh hb, rfl⟩
  | null =>
      cases h
      rfl
  | notNull =>
      cases h
      rfl

theorem comparison_map {c : Comparison} (hc : c.Grammatical) (hf : AllReworded g f c.written)
    {k : Condition} (h : comparison c = .ok k) : comparison (c.map f) = .ok (k.mapWords g) := by
  obtain ⟨-, hleft, htest⟩ := hc
  obtain ⟨hfjoin, hfleft, hftest⟩ := allKept_comparison.mp hf
  obtain ⟨join, hjoin, h⟩ := bind_eq_ok_iff.mp h
  obtain ⟨left, hl, h⟩ := bind_eq_ok_iff.mp h
  refine bind_eq_ok_iff.mpr ⟨join, joinKind_map hfjoin hjoin, ?_⟩
  refine bind_eq_ok_iff.mpr ⟨_, selectable_map hstar hleft hfleft hl, ?_⟩
  exact test_map hstar htest hftest h

omit hstar in
theorem conjunctions_map {d : Disjunction}
    (hinner : ∀ ps ∈ d, ∀ p ∈ ps, ∀ c, primary p = .ok c →
      primary (p.map f) = .ok (c.mapWords g)) {cs : List Condition}
    (h : conjunctions d = .ok cs) :
    conjunctions (Disjunction.map f d) = .ok (cs.map (Condition.mapWords g)) := by
  obtain ⟨css, rfl, hcss⟩ := conjunctions_eq_ok_iff_terms.mp h
  have hmap : (css.map .allOf).map (Condition.mapWords g) =
      (css.map (List.map (Condition.mapWords g))).map .allOf := by
    rw [List.map_map, List.map_map]
    exact List.map_congr_left fun cs _ => Condition.mapWords_allOf g cs
  rw [hmap, conjunctions_eq_ok_map_iff]
  exact forall₂_map_of hcss fun ps hps cs hcs => forall₂_map_of hcs (hinner ps hps)

theorem primary_map {p : Primary} (hp : p.Grammatical) (hf : AllReworded g f p.written)
    {c : Condition} (h : primary p = .ok c) : primary (p.map f) = .ok (c.mapWords g) := by
  induction hp generalizing c with
  | comparison hc =>
      rw [Primary.written_comparison] at hf
      rw [primary] at h
      rw [Primary.map_comparison, primary]
      exact comparison_map hstar hc hf h
  | @group d _ _ _ ih =>
      replace hf := allKept_group.mp hf
      rw [primary] at h
      obtain ⟨cs, hcs, rfl⟩ := map_eq_ok_iff.mp h
      rw [Primary.map_group, primary, Condition.mapWords_anyOf]
      refine map_eq_ok_iff.mpr ⟨_, conjunctions_map (fun ps hps p hp c hc => ?_) hcs, rfl⟩
      exact ih ps hps p hp (hf ps hps p hp) hc

theorem condition_map {d : Disjunction} (hd : Disjunction.Grammatical d)
    (hf : AllReworded g f (Disjunction.written d)) {c : Condition} (h : condition d = .ok c) :
    condition (Disjunction.map f d) = .ok (c.mapWords g) := by
  replace hf := allKept_disjunction.mp hf
  obtain ⟨cs, hcs, rfl⟩ := condition_eq_ok_iff.mp h
  rw [Condition.mapWords_anyOf]
  refine condition_eq_ok_iff.mpr ⟨_, conjunctions_map (fun ps hps p hp c hc => ?_) hcs, rfl⟩
  exact primary_map hstar (hd.inner ps hps p hp) (hf ps hps p hp) hc

/-! ## Queries -/

theorem condition?_map {d : Option Disjunction} (hd : ∀ e ∈ d, Disjunction.Grammatical e)
    (hf : ∀ e ∈ d, AllReworded g f (Disjunction.written e)) {c : Option Condition}
    (h : condition? d = .ok c) :
    condition? (d.map (Disjunction.map f)) = .ok (c.map (Condition.mapWords g)) := by
  cases d with
  | none =>
      cases h
      rfl
  | some d =>
      obtain ⟨c, hc, rfl⟩ := map_eq_ok_iff.mp h
      exact map_eq_ok_iff.mpr ⟨_, condition_map hstar (hd d rfl) (hf d rfl) hc, rfl⟩

theorem grouping?_map {items : Option (List Selectable)}
    (hitems : ∀ vs ∈ items, ∀ v ∈ vs, v.Grammatical)
    (hf : ∀ vs ∈ items, ∀ v ∈ vs, AllReworded g f v.written) {os : Option (List Operand)}
    (h : grouping? items = .ok os) :
    grouping? (items.map (List.map (Selectable.map f))) =
      .ok (os.map (List.map (Operand.mapWords g))) := by
  cases items with
  | none =>
      cases h
      rfl
  | some vs =>
      obtain ⟨os, hos, rfl⟩ := map_eq_ok_iff.mp h
      refine map_eq_ok_iff.mpr ⟨_, selectables_eq_ok_iff.mpr ?_, rfl⟩
      refine forall₂_map_of (selectables_eq_ok_iff.mp hos) fun v hv o ho => ?_
      exact selectable_map hstar (hitems vs rfl v hv) (hf vs rfl v hv) ho

/-- **A tree in other words** is built into the query in these words. -/
theorem ofTree_map {r : Root} (hr : r.Grammatical) (hf : AllReworded g f r.written) {q : Query}
    (h : Query.ofTree r = .ok q) : Query.ofTree (r.map f) = .ok (q.mapWords g) := by
  obtain ⟨hcondition, hhaving, hgrouping⟩ := ofTree_eq_ok_iff.mp h
  obtain ⟨hfcondition, hfgrouping, hfhaving⟩ := allKept_root.mp hf
  exact ofTree_eq_ok_iff.mpr ⟨condition_map hstar hr.condition hfcondition hcondition,
    condition?_map hstar hr.having hfhaving hhaving,
    grouping?_map hstar (fun vs hvs => (hr.grouping vs hvs).2) hfgrouping hgrouping⟩

end

end Tree

end FilterQuery
